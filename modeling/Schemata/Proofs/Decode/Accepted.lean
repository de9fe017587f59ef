import Schemata.Proofs.Decode.Assignment
import Schemata.Proofs.Decode.Choice
import Schemata.Proofs.Decode.Claims

/-!
Accepted outcomes. What a union, a refinement, an alias or a lazy schema accepts is what a schema that it hands the
value on to accepts, so that a fact about accepted outcomes needs a proof for atoms, tuples and structs only.
-/
namespace Schemata

namespace Refinement
variable {scope : Scope} {a : Annotations} {p : Predicate} {base : Parser (Except Fault)} {x : Value}
  {o : Outcome}

theorem decode_accepts_iff : decode scope a p base x = .ok o ∧ o.isFailure = false ↔
    base x = .ok o ∧ ∃ v, o.value? = some v ∧ scope.test p v = .ok true := by
  cases hb : base x with
  | error f => simp [decode, hb, bind, Except.bind]
  | ok o' =>
    cases hv : o'.value? with
    | none =>
      simp only [decode, hb, bind, Except.bind, hv, pure, Except.pure, Except.ok.injEq]
      constructor
      · rintro ⟨rfl, ho⟩
        obtain ⟨v, hw⟩ := (Outcome.isFailure_iff _).mp ho
        simp [hv] at hw
      · rintro ⟨rfl, v, hw, _⟩
        simp [hv] at hw
    | some w =>
      have ho : o'.isFailure = false := (Outcome.isFailure_iff _).mpr ⟨w, hv⟩
      cases ht : scope.test p w with
      | error f =>
        simp only [decode, hb, bind, Except.bind, hv, liftM, monadLift, ht, Except.ok.injEq, false_and,
          reduceCtorEq, false_iff, not_and, not_exists]
        rintro rfl v hw
        obtain rfl := Option.some.inj (hv.symm.trans hw)
        simp [ht]
      | ok b =>
        simp only [decode, hb, bind, Except.bind, hv, liftM, monadLift, ht, Except.ok.injEq, pure, Except.pure]
        cases b with
        | true =>
          simp only [if_true, Except.ok.injEq]
          constructor
          · rintro ⟨rfl, _⟩
            exact ⟨rfl, w, hv, ht⟩
          · rintro ⟨rfl, _⟩
            exact ⟨rfl, ho⟩
        | false =>
          simp only [Bool.false_eq_true, if_false, Except.ok.injEq]
          constructor
          · rintro ⟨rfl, h⟩
            cases h
          · rintro ⟨rfl, v, hw, h⟩
            obtain rfl := Option.some.inj (hv.symm.trans hw)
            simp [ht] at h

theorem encode_accepts_iff : encode scope a p base x = .ok o ∧ o.isFailure = false ↔
    scope.test p x = .ok true ∧ base x = .ok o ∧ o.isFailure = false := by
  cases ht : scope.test p x with
  | error f => simp [encode, bind, Except.bind, liftM, monadLift, ht]
  | ok b =>
    simp only [encode, bind, Except.bind, liftM, monadLift, ht, Except.ok.injEq, pure, Except.pure]
    cases b with
    | true => simp
    | false =>
      simp only [Bool.false_eq_true, if_false, Except.ok.injEq, false_and, iff_false, not_and]
      rintro rfl h
      cases h

/-- A refinement accepts only what its base gives. -/
theorem parse_accepts {direction : Direction} (h : parse scope direction a p base x = .ok o)
    (ho : o.isFailure = false) : base x = .ok o := by
  cases direction with
  | decode => exact (decode_accepts_iff.mp ⟨h, ho⟩).1
  | encode => exact (encode_accepts_iff.mp ⟨h, ho⟩).2.1

end Refinement

namespace Transform
variable {scope : Scope} {c : Conversion} {source : Parser (Except Fault)} {x v w : Value}

/-- A clean success of decoding comes from clean successes of both parts, unless a warning is empty. -/
theorem decode_success (h : parse scope .decode c source x = .ok (.success v))
    (hw : ∀ y, source x ≠ .ok (.warning y [])) :
    ∃ y, source x = .ok (.success y) ∧ scope.convert c .decode y = .ok (.success v) := by
  cases ho : source x with
  | error f => simp [parse, ho, bind, Except.bind] at h
  | ok o =>
    cases o with
    | failure ps => simp [parse, ho, Outcome.andThen, bind, Except.bind, pure, Except.pure] at h
    | success y =>
      refine ⟨y, rfl, ?_⟩
      simpa [parse, ho, Outcome.andThen, bind, Except.bind, liftM, monadLift] using h
    | warning y ps =>
      have hps : ps ≠ [] := fun hps => hw y (hps ▸ ho)
      cases hc : scope.convert c .decode y with
      | error f => simp [parse, ho, hc, Outcome.andThen, bind, Except.bind, liftM, monadLift] at h
      | ok p =>
        cases p <;> simp [parse, ho, hc, Outcome.andThen, Outcome.after, Outcome.warn, bind, Except.bind,
          pure, Except.pure, liftM, monadLift, hps] at h

theorem encode_success (hc : scope.convert c .encode v = .ok (.success x)) (h : source x = .ok (.success w)) :
    parse scope .encode c source v = .ok (.success w) := by
  simpa [parse, hc, Outcome.andThen, bind, Except.bind, liftM, monadLift] using h

theorem andThen_ne_warning {o : Outcome} {f : Parser (Except Fault)} (ho : ∀ y, o ≠ .warning y [])
    (hf : ∀ x y, f x ≠ .ok (.warning y [])) (v : Value) : o.andThen f ≠ .ok (.warning v []) := by
  cases o with
  | failure ps => simp [Outcome.andThen, pure, Except.pure]
  | success y => exact hf y v
  | warning y ps =>
    have hps : ps ≠ [] := fun hps => ho y (hps ▸ rfl)
    cases hy : f y with
    | error e => simp [Outcome.andThen, hy, bind, Except.bind]
    | ok p =>
      cases p <;> simp [Outcome.andThen, hy, Outcome.after, Outcome.warn, bind, Except.bind, pure,
        Except.pure, hps]

theorem parse_ne_warning {direction : Direction} (hc : ∀ d x y, scope.convert c d x ≠ .ok (.warning y []))
    (hs : ∀ x y, source x ≠ .ok (.warning y [])) (x v : Value) :
    parse scope direction c source x ≠ .ok (.warning v []) := by
  cases direction with
  | decode =>
    cases ho : source x with
    | error f => simp [parse, ho, bind, Except.bind]
    | ok o =>
      have := andThen_ne_warning (fun y h => hs x y (h ▸ ho)) (hc .decode) v
      simpa [parse, ho, bind, Except.bind] using this
  | encode =>
    cases ho : scope.convert c .encode x with
    | error f => simp [parse, ho, bind, Except.bind, liftM, monadLift]
    | ok o =>
      have := andThen_ne_warning (fun y h => hc .encode x y (h ▸ ho)) hs v
      simpa [parse, ho, bind, Except.bind, liftM, monadLift] using this

end Transform

/-- The items leave no gap, and each of them is good for what it is assigned to, if anything. -/
structure Tuple.Suits {σ : Type} (good : σ → Value → Prop) (es : List (Element σ)) (rest : Option (Rest σ))
    (items : List Value) : Prop where
  gaps : gaps es rest items.length = []
  item : ∀ (i : Nat) (t : σ) (v : Value), (assigned es rest items.length)[i]? = some (some t) → items[i]? = some v →
    good t v

theorem Tuple.passes_steps_iff {σ : Type} {f : σ → Parser (Except Fault)} {es : List (Element σ)}
    {rest : Option (Rest σ)} {items : List Value} :
    (∀ s ∈ steps (es.map (Element.map f)) (rest.map (Rest.map f)) items, s.Passes) ↔
      Suits (fun t v => ∃ o, f t v = .ok o ∧ o.isFailure = false) es rest items := by
  simp only [mem_steps_iff]
  constructor
  · intro h
    refine ⟨List.eq_nil_iff_forall_not_mem.mpr fun i hi => h _ (.missing hi), fun i t v ht hv => ?_⟩
    exact h _ (.item ht hv)
  · intro h s hs
    cases hs with
    | item ht hv => exact h.item _ _ _ ht hv
    | unexpected => trivial
    | missing hi =>
      rw [h.gaps] at hi
      cases hi

/-- The declared keys are there, unless they are optional, with good values; undeclared keys and their values are good
for the index signatures that claim the keys. -/
structure Struct.Suits (good : Schema → Value → Prop) (ps : List (Property Schema))
    (is : List (IndexSignature Schema)) (es : Entries) : Prop where
  property : ∀ p ∈ ps, ∀ v, es.lookup p.name = some v → good p.type v
  missing : ∀ p ∈ ps, es.lookup p.name = none → p.optional
  index : ∀ e ∈ es, e.1.occursIn (ps.map fun p => p.name) = false → ∀ i ∈ is, i.claims e.1 →
    good i.parameter e.1 ∧ good i.type e.2

theorem Struct.passes_steps_iff {f : Schema → Parser (Except Fault)} {ps : List (Property Schema)}
    {is : List (IndexSignature Schema)} {es : Entries} :
    (∀ s ∈ steps (ps.map (Property.map f)) (is.map (IndexSignature.parsers f)) es, s.Passes) ↔
      Suits (fun t v => ∃ o, f t v = .ok o ∧ o.isFailure = false) ps is es := by
  simp only [mem_steps_iff]
  constructor
  · intro h
    refine ⟨fun p hp v hv => h _ (.property hp hv), fun p hp hv => ?_, fun e he hd i hi hc => ?_⟩
    · by_contra ho
      exact h _ (.missing hp hv (by simpa using ho))
    · exact ⟨h _ (.parameter he hd hi hc), h _ (.index he hd hi hc)⟩
  · intro h s hs
    cases hs with
    | property hp hv => exact h.property _ hp _ hv
    | missing hp hv ho =>
      have hopt := h.missing _ hp hv
      simp [ho] at hopt
    | unexpected => trivial
    | parameter he hd hi hc => exact (h.index _ he hd _ hi hc).1
    | index he hd hi hc => exact (h.index _ he hd _ hi hc).2

namespace Schema

/-- Whether a schema may change a value by itself: by a conversion, or by reading a large integer. -/
def converts : Schema → Bool
  | transform .. => true
  | s => s.isKeyword .bigint

def isAtom : Schema → Bool
  | literal .. | uniqueSymbol .. | keyword .. | enums .. | template .. => true
  | _ => false

end Schema

theorem Scope.eq_success_of_accepted {scope : Scope} {c : Bool} {a : Annotations} {predicate : String} {x : Value}
    (h : (if c then .success x else scope.mismatch a predicate x : Outcome).isFailure = false) :
    (if c then .success x else scope.mismatch a predicate x) = .success x := by
  cases c
  · cases h
  · rfl

theorem Scope.parseKeyword_of_ne_bigint {scope : Scope} {a : Annotations} {w : Keyword} (hw : w ≠ .bigint)
    (direction : Direction) (x : Value) :
    scope.parseKeyword direction a w x = scope.parsePlainKeyword a w x := by
  cases w <;> first | rfl | exact absurd rfl hw

/-- An atom that does not convert has one outcome on a value, whatever the direction and the fuel. It gives back what it
accepts; numbers that are not finite are all it warns of. -/
theorem Scope.run_atom (scope : Scope) {s : Schema} (hs : s.isAtom) (hc : s.converts = false) (x : Value) :
    ∃ o, (∀ direction n, scope.run direction n s x = .ok o) ∧
      (o.isFailure = false → o = .success x ∨ o = .warn x (anomaly? x).toList) := by
  cases s with
  | literal a y =>
    exact ⟨_, fun direction n => scope.run_literal direction n a y x, fun ho => .inl (eq_success_of_accepted ho)⟩
  | uniqueSymbol a k =>
    exact ⟨_, fun direction n => scope.run_uniqueSymbol direction n a k x,
      fun ho => .inl (eq_success_of_accepted ho)⟩
  | enums a ps =>
    exact ⟨_, fun direction n => scope.run_enums direction n a ps x, fun ho => .inl (eq_success_of_accepted ho)⟩
  | template a h t ts =>
    refine ⟨_, fun direction n => scope.run_template direction n a h t ts x, fun ho => .inl ?_⟩
    cases x with
    | text y => exact eq_success_of_accepted ho
    | _ => cases ho
  | keyword a w =>
    have hw : w ≠ .bigint := by
      rintro rfl
      cases hc
    refine ⟨scope.parsePlainKeyword a w x, fun direction n => ?_, fun ho => ?_⟩
    · rw [run_keyword, parseKeyword_of_ne_bigint hw]
    rw [parsePlainKeyword] at ho ⊢
    cases ha : w.admits x with
    | false =>
      rw [ha] at ho
      cases ho
    | true =>
      by_cases hn : w = .number
      · exact .inr (by simp [hn])
      · exact .inl (by simp [hn])
  | _ => cases hs

namespace Scope
variable {scope : Scope} {direction : Direction}

/-- Induction on what runs accept. The class of parsers must be closed under taking outcomes over from its members. -/
theorem accepted_induction {K : Parser (Except Fault) → Prop}
    (closed : ∀ p : Parser (Except Fault),
      (∀ x o, p x = .ok o → o.isFailure = false → ∃ q, K q ∧ q x = .ok o) → K p)
    {s : Schema} (atom : ∀ n t, scope.Part s t → t.isAtom → K (scope.run direction n t))
    (tuple : ∀ n a es r o, scope.Part s (.tuple a es r o) →
      (∀ t ∈ (Schema.tuple a es r o).children, K (scope.run direction n t)) →
      K (scope.run direction n (.tuple a es r o)))
    (struct : ∀ n a ps is, scope.Part s (.struct a ps is) →
      (∀ t ∈ (Schema.struct a ps is).children, K (scope.run direction n t)) →
      K (scope.run direction n (.struct a ps is)))
    (transform : ∀ n a t u c, scope.Part s (.transform a t u c) → K (scope.run direction n t) →
      K (scope.run direction n (.transform a t u c)))
    (n : Nat) : K (scope.run direction n s) := by
  suffices h : ∀ n t, scope.Part s t → K (scope.run direction n t) from h n s (.refl scope s)
  intro n t ht
  induction n, t using scope.runInduction with
  | spent a h =>
    apply closed _
    intro x o hr _
    rw [run_lazy_zero] at hr
    cases hr
  | unfolded n a h ih =>
    apply closed _
    intro x o hr ho
    rw [run_lazy_succ] at hr
    cases hf : scope.force h with
    | error f =>
      rw [hf] at hr
      cases hr
    | ok t =>
      rw [hf] at hr
      exact ⟨_, ih t hf (ht.trans (.force hf)), hr⟩
  | node n t hl ih =>
    have hc (u : Schema) (hu : u ∈ t.children) : K (scope.run direction n u) := ih u hu (ht.trans (.child hu))
    cases t with
    | lazy a h => cases hl
    | literal | uniqueSymbol | keyword | enums | template => exact atom n _ ht rfl
    | tuple a es r o => exact tuple n a es r o ht hc
    | struct a ps is => exact struct n a ps is ht hc
    | transform a t u c => exact transform n a t u c ht (hc t List.mem_cons_self)
    | typeAlias a ps t =>
      rw [run_alias]
      exact hc t List.mem_cons_self
    | refinement a t p =>
      rw [run_refinement]
      exact closed _ fun x o hr ho => ⟨_, hc t List.mem_cons_self, Refinement.parse_accepts hr ho⟩
    | union a ss =>
      rw [run_union]
      apply closed _
      intro x o hr ho
      obtain ⟨p, hp, hpx⟩ := Union.parse_accepts hr ho
      obtain ⟨t, ht, rfl⟩ := List.mem_map.mp hp
      exact ⟨_, hc t ht, hpx⟩

theorem bigint_ne_warning (direction : Direction) (a : Annotations) (x v : Value) (ps : List Problem) :
    scope.parseKeyword direction a .bigint x ≠ .warning v ps := by
  cases direction with
  | encode =>
    simp only [parseKeyword, encodeBigint, mismatch]
    split <;> simp
  | decode =>
    simp only [parseKeyword, decodeBigint, mismatch]
    split
    · simp
    · split
      · split <;> simp
      · simp

/-- A warning carries a problem, as long as those of conversions do. -/
theorem run_warning_ne {s : Schema}
    (hw : ∀ a t u c, scope.Part s (.transform a t u c) → ∀ d x y, scope.convert c d x ≠ .ok (.warning y []))
    (n : Nat) (x v : Value) : scope.run direction n s x ≠ .ok (.warning v []) := by
  have hwarn (v w : Value) (ps : List Problem) : Outcome.warning v [] ≠ Outcome.warn w ps := by
    cases ps <;> simp [Outcome.warn]
  let K (p : Parser (Except Fault)) : Prop := ∀ x v, p x ≠ .ok (.warning v [])
  suffices hK : K (scope.run direction n s) from hK x v
  refine accepted_induction (fun p hp x v hr => ?_) (fun n t _ hatom x v hr => ?_)
    (fun n a es r ro _ _ x v hr => ?_) (fun n a ps is _ _ x v hr => ?_) (fun n a t u c ht hc x v hr => ?_) n
  · obtain ⟨q, hq, hqx⟩ := hp x _ hr rfl
    exact hq x v hqx
  · cases hb : t.converts with
    | false =>
      obtain ⟨o, ho, hid⟩ := scope.run_atom hatom hb x
      obtain rfl := Except.ok.inj (hr.symm.trans (ho direction n))
      rcases hid rfl with h | h
      · cases h
      · exact hwarn _ _ _ h
    | true =>
      obtain ⟨a, rfl⟩ : ∃ a, t = .keyword a .bigint := by
        cases t with
        | keyword a w => cases w <;> first | exact ⟨a, rfl⟩ | cases hb
        | transform => cases hatom
        | _ => cases hb
      rw [run_keyword] at hr
      exact bigint_ne_warning direction a x v [] (Except.ok.inj hr)
  · rw [run_tuple] at hr
    obtain ⟨_, _, _, h⟩ := Tuple.parse_accepts_iff.mp ⟨hr, rfl⟩
    exact hwarn _ _ _ h
  · rw [run_struct] at hr
    obtain ⟨_, _, _, h⟩ := Struct.parse_accepts_iff.mp ⟨hr, rfl⟩
    exact hwarn _ _ _ h
  · rw [run_transform] at hr
    exact Transform.parse_ne_warning (hw a t u c ht) hc x v hr

end Scope
end Schemata
