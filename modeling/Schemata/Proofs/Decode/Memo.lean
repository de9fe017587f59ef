import Schemata.Decode.Session
import Schemata.Stock
import Schemata.Proofs.Decode.Fuel

/-!
A session changes nothing but the work. As long as it remembers nothing but what thunks lead to, a run in a session
ends as the run that unfolds every lazy schema anew, and leaves a session of the same sort.
-/
namespace Schemata

/-- A session remembers for each handle what its thunk leads to, and parsers made from that for one direction. -/
structure Session.Faithful (scope : Scope) (direction : Direction) (session : Session) : Prop where
  forced : ∀ e ∈ session.forced, scope.force e.1 = .ok e.2
  parsers : ∀ e ∈ session.parsers, e.2.1 = direction ∧ scope.force e.1 = .ok e.2.2

namespace Session
variable {scope : Scope} {direction : Direction} {session : Session}

theorem faithful_empty (scope : Scope) (direction : Direction) : empty.Faithful scope direction where
  forced _ h := nomatch h
  parsers _ h := nomatch h

theorem mem_of_lookup {β : Type} {es : List (Handle × β)} {h : Handle} {b : β} (hl : es.lookup h = some b) :
    (h, b) ∈ es := by
  obtain ⟨before, after, rfl, _⟩ := List.lookup_eq_some_iff.mp hl
  simp

/-- Forcing gives what the thunk leads to, whether it is remembered or not. -/
theorem Faithful.force (hs : session.Faithful scope direction) (h : Handle) :
    (session.force h (scope.force h)).1 = scope.force h ∧
      (session.force h (scope.force h)).2.Faithful scope direction := by
  unfold Session.force
  cases hl : session.forced.lookup h with
  | some s => exact ⟨(hs.forced _ (mem_of_lookup hl)).symm, hs⟩
  | none =>
    cases hf : scope.force h with
    | error f => exact ⟨rfl, hs⟩
    | ok s =>
      refine ⟨rfl, fun e he => ?_, hs.parsers⟩
      rcases List.mem_append.mp he with he | he
      · exact hs.forced e he
      · obtain rfl := List.mem_singleton.mp he
        exact hf

end Session

theorem SessionM.run_bind {α β : Type} (x : SessionM α) (f : α → SessionM β) (session : Session) :
    (x >>= f).run.run session = match x.run.run session with
      | (.ok a, after) => (f a).run.run after
      | (.error fault, after) => (.error fault, after) := by
  change (match x.run.run session with
    | (r, after) => ExceptT.bindCont f r after) = _
  cases x.run.run session with
  | mk r after => cases r <;> rfl

def Relator.memo (scope : Scope) (direction : Direction) : Relator SessionM (Except Fault) where
  rel V x y := ∀ session : Session, session.Faithful scope direction →
    Except.Rel V (x.run.run session).1 y ∧ (x.run.run session).2.Faithful scope direction
  pure h _ hs := ⟨.ok h, hs⟩
  bind {_ _ _ _ _ _ x _ f _} hx hf session hs := by
    obtain ⟨hxy, hs'⟩ := hx session hs
    rw [SessionM.run_bind]
    generalize x.run.run session = z at hxy hs'
    obtain ⟨a, session'⟩ := z
    cases hxy with
    | ok h => exact hf _ _ h session' hs'
    | error f => exact ⟨.error f, hs'⟩
  lift h _ hs := by
    cases h with
    | ok h => exact ⟨.ok h, hs⟩
    | error f => exact ⟨.error f, hs⟩

namespace SessionM
variable {scope : Scope} {direction : Direction}

theorem run_force (h : Handle) (session : Session) :
    (force scope h).run.run session = session.force h (scope.force h) :=
  rfl

theorem run_parserFor (h : Handle) (session : Session) :
    (parserFor scope direction h).run.run session = match session.parsers.lookup h with
      | some made => (.ok made, session)
      | none => match session.force h (scope.force h) with
        | (.ok s, after) => (.ok (direction, s), { after with parsers := after.parsers ++ [(h, (direction, s))] })
        | (.error fault, after) => (.error fault, after) := by
  rw [parserFor]
  rw [run_bind]
  change (match session.parsers.lookup h with
    | some made => return made
    | none => do
      let s ← force scope h
      modify fun session => { session with parsers := session.parsers ++ [(h, (direction, s))] }
      return (direction, s) : SessionM (Direction × Schema)).run.run session = _
  cases session.parsers.lookup h with
  | some made => rfl
  | none =>
    dsimp only
    rw [run_bind, run_force]
    cases session.force h (scope.force h) with
    | mk r after => cases r <;> rfl

/-- The parser that is remembered or made for a handle comes from the schema of the handle. -/
theorem parserFor_agrees (h : Handle) :
    (Relator.memo scope direction).rel (fun made s => made = (direction, s))
      (parserFor scope direction h) (scope.force h) := by
  intro session hs
  rw [run_parserFor]
  cases hl : session.parsers.lookup h with
  | some made =>
    obtain ⟨hd, hf⟩ := hs.parsers _ (Session.mem_of_lookup hl)
    obtain ⟨d, s⟩ := made
    simp only at hd hf
    rw [hf, hd]
    exact ⟨.ok rfl, hs⟩
  | none =>
    obtain ⟨he, hs'⟩ := hs.force h
    dsimp only
    generalize session.force h (scope.force h) = z at he hs'
    obtain ⟨r, after⟩ := z
    simp only at he hs'
    subst he
    cases hf : scope.force h with
    | error f => exact ⟨.error f, hs'⟩
    | ok s =>
      refine ⟨.ok rfl, hs'.forced, fun e he => ?_⟩
      rcases List.mem_append.mp he with he | he
      · exact hs'.parsers e he
      · obtain rfl := List.mem_singleton.mp he
        exact ⟨rfl, hf⟩

/-- The remembered parsers simulate the unfolding, lazy schema by lazy schema. -/
theorem unfold_agree (n : Nat) (h : Handle) :
    (Relator.memo scope direction).Agree .equality (unfold scope n direction h)
      (scope.unfold direction n h) := by
  induction n generalizing h with
  | zero => exact fun v session hs => ⟨.error _, hs⟩
  | succ n ih =>
    intro v
    apply (Relator.memo scope direction).bind (parserFor_agrees h)
    intro made s hm
    subst hm
    exact Schema.parser_agree _ _ scope direction ih s v

/-- A run in a faithful session ends as the run that remembers nothing, and the session stays faithful. -/
theorem run_parse {session : Session} (hs : session.Faithful scope direction) (n : Nat) (s : Schema)
    (v : Value) :
    ((parse scope direction n s v).run.run session).1 = scope.run direction n s v ∧
      ((parse scope direction n s v).run.run session).2.Faithful scope direction := by
  obtain ⟨hr, hs'⟩ := Schema.parser_agree (Relator.memo scope direction) .equality scope direction
    (unfold_agree n) s v session hs
  exact ⟨Except.rel_eq (hr.imp fun _ _ => Outcome.rel_equality), hs'⟩

/-- Runs a schema on one value after another in one session, each with the fuel it is given. A fault ends only the run
it happens in. -/
def parseAll (scope : Scope) (direction : Direction) (fuel : Value → Nat) (s : Schema) :
    List Value → StateM Session (List (Except Fault Outcome))
  | [] => return []
  | v :: vs => do
    let result ← (parse scope direction (fuel v) s v).run
    return result :: (← parseAll scope direction fuel s vs)

/-- The run lemma: induction on the inputs, with faithfulness as the invariant. -/
theorem run_parseAll {session : Session} (hs : session.Faithful scope direction) (fuel : Value → Nat)
    (s : Schema) (vs : List Value) :
    ((parseAll scope direction fuel s vs).run session).1 = vs.map (fun v => scope.run direction (fuel v) s v) ∧
      ((parseAll scope direction fuel s vs).run session).2.Faithful scope direction := by
  induction vs generalizing session with
  | nil => exact ⟨rfl, hs⟩
  | cons v vs ih =>
    obtain ⟨hr, hs'⟩ := run_parse hs (fuel v) s v
    obtain ⟨hrs, hs''⟩ := ih hs'
    rw [List.map_cons, ← hr, ← hrs]
    exact ⟨rfl, hs''⟩

/-- Sessions are transparent. Whatever a faithful session remembers, a sequence of runs in it ends as the runs that
unfold every lazy schema wherever they meet it, and as runs in sessions of their own; where those runs come to an
outcome, so does the session, on all inputs with the same fuel. -/
theorem parseAll_transparent {session : Session} (hs : session.Faithful scope direction) (s : Schema)
    (vs : List Value) :
    (∀ fuel : Value → Nat,
      ((parseAll scope direction fuel s vs).run session).1 =
        vs.map (fun v => scope.run direction (fuel v) s v) ∧
      ((parseAll scope direction fuel s vs).run session).1 =
        vs.map (fun v => ((parse scope direction (fuel v) s v).run.run Session.empty).1) ∧
      ((parseAll scope direction fuel s vs).run session).2.Faithful scope direction) ∧
    ∀ os, List.Forall₂ (scope.Yields direction s) vs os → ∃ n, ∀ fuel : Value → Nat, (∀ v ∈ vs, n ≤ fuel v) →
      ((parseAll scope direction fuel s vs).run session).1 = os.map .ok := by
  refine ⟨fun fuel => ?_, fun os hos => ?_⟩
  · obtain ⟨hr, hs'⟩ := run_parseAll hs fuel s vs
    refine ⟨hr, hr.trans (List.map_congr_left fun v _ => ?_), hs'⟩
    exact (run_parse (Session.faithful_empty scope direction) (fuel v) s v).1.symm
  · have hn : ∃ n, ∀ fuel : Value → Nat, (∀ v ∈ vs, n ≤ fuel v) →
        vs.map (fun v => scope.run direction (fuel v) s v) = os.map .ok := by
      induction hos with
      | nil => exact ⟨0, fun _ _ => rfl⟩
      | cons h _ ih =>
        obtain ⟨n, hn⟩ := h
        obtain ⟨m, hm⟩ := ih
        refine ⟨max n m, fun fuel hf => ?_⟩
        rw [List.forall_mem_cons] at hf
        rw [List.map_cons, List.map_cons, Scope.run_mono_ok (le_of_max_le_left hf.1) hn,
          hm fuel fun v hv => le_of_max_le_right (hf.2 v hv)]
    obtain ⟨n, hn⟩ := hn
    exact ⟨n, fun fuel hf => (run_parseAll hs fuel s vs).1.trans (hn fuel hf)⟩

def nest : Schema := .tuple .empty [⟨.lazy .empty (.root 0), true⟩] none false

/-- Two nested tuples, in a session that has met the schema before. -/
theorem parseAll_transparent_nest :
    let scope := Stock.scope [(0, .ok nest)]
    let session : Session := ⟨[(.root 0, nest)], [(.root 0, .decode, nest)]⟩
    session.Faithful scope .decode ∧ ∀ fuel : Value → Nat,
      ((parseAll scope .decode fuel nest [.list [], .list [.list []]]).run session).1 =
        [scope.run .decode (fuel (.list [])) nest (.list []),
          scope.run .decode (fuel (.list [.list []])) nest (.list [.list []])] := by
  intro scope session
  have hs : session.Faithful scope .decode := by
    constructor <;> intro e he
    · obtain rfl := List.mem_singleton.mp he
      rfl
    · obtain rfl := List.mem_singleton.mp he
      exact ⟨rfl, rfl⟩
  exact ⟨hs, fun fuel => ((parseAll_transparent hs nest [.list [], .list [.list []]]).1 fuel).1⟩

end SessionM
end Schemata
