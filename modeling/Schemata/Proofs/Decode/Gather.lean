import Schemata.Proofs.Decode.Run
import Schemata.Proofs.Lists

/-!
What a run through the members of a container gathers. A run in which every step passes keeps what each step keeps and
warns of what each step warns of; the steps of a tuple are one for each item, by what the item is assigned to, and one
for each gap.
-/
namespace Schemata

section
variable {α β : Type} {x : Except Fault α} {f : Fault}

/-- A computation gives a result when there is no fault for it to end with. -/
theorem exists_ok_iff : (∃ a, x = .ok a) ↔ ∀ f, x ≠ .error f := by
  cases x <;> simp

theorem bind_eq_error_iff {g : α → Except Fault β} :
    x >>= g = .error f ↔ x = .error f ∨ ∃ a, x = .ok a ∧ g a = .error f := by
  cases x <;> simp [bind, Except.bind]

theorem map_eq_error_iff {g : α → β} : g <$> x = .error f ↔ x = .error f := by
  cases x <;> simp [Functor.map, Except.map]

end

namespace Outcome

@[simp]
theorem value?_warn (v : Value) (ps : List Problem) : (warn v ps).value? = some v := by
  cases ps <;> rfl

@[simp]
theorem warnings_warn (v : Value) (ps : List Problem) : (warn v ps).warnings = ps := by
  cases ps <;> rfl

theorem isFailure_warn (v : Value) (ps : List Problem) : (warn v ps).isFailure = false := by
  cases ps <;> rfl

theorem success_eq_warn_iff (v w : Value) (ps : List Problem) : success v = warn w ps ↔ ps = [] ∧ v = w := by
  cases ps <;> simp [warn]

theorem isFailure_iff (o : Outcome) : o.isFailure = false ↔ ∃ v, o.value? = some v := by
  cases o <;> simp [isFailure, value?]

end Outcome

namespace Step

def Passes : Step (Except Fault) → Prop
  | take _ p v | check _ p v => ∃ o, p v = .ok o ∧ o.isFailure = false
  | missing _ => False
  | unexpected _ => True

def members : Step (Except Fault) → List (Segment × Value)
  | take segment p v => match p v with
    | .ok o => o.value?.toList.map (segment, ·)
    | .error _ => []
  | _ => []

def warnings : Step (Except Fault) → List Problem
  | take segment p v => match p v with
    | .ok (.warning _ ps) => [.within segment ps]
    | _ => []
  | unexpected segment => [.within segment [.unexpected segment]]
  | _ => []

theorem members_take {segment : Segment} {p : Parser (Except Fault)} {v w : Value} {o : Outcome}
    (h : p v = .ok o) (ho : o.value? = some w) : (take segment p v).members = [(segment, w)] := by
  simp [members, h, ho]

/-- A step that neither stops the run nor warns. -/
def Clean : Step (Except Fault) → Prop
  | take _ p v => ∃ w, p v = .ok (.success w)
  | check _ p v => ∃ o, p v = .ok o ∧ o.isFailure = false
  | _ => False

theorem clean_iff (s : Step (Except Fault)) : s.Clean ↔ s.Passes ∧ s.warnings = [] := by
  cases s with
  | missing | unexpected | check => simp [Clean, Passes, warnings]
  | take segment p v =>
    cases hv : p v with
    | error f => simp [Clean, Passes, hv]
    | ok o => cases o <;> simp [Clean, Passes, warnings, hv, Outcome.isFailure]

end Step

/-- A run whose last act puts members and warnings in front keeps what the rest keeps behind them. -/
private theorem prepend_eq_kept_iff {x : Except Fault Gathered} {f : Gathered → Gathered}
    {as ms : List (Segment × Value)} {bs ws : List Problem} (hs : ∀ p, f (.stopped p) = .stopped p)
    (hk : ∀ ms' ws', f (.kept ms' ws') = .kept (as ++ ms') (bs ++ ws')) :
    (x >>= fun g => pure (f g)) = .ok (.kept ms ws) ↔
      ∃ ms' ws', x = .ok (.kept ms' ws') ∧ ms = as ++ ms' ∧ ws = bs ++ ws' := by
  cases x with
  | error fault => simp [bind, Except.bind]
  | ok g =>
    cases g with
    | stopped p => simp [bind, Except.bind, pure, Except.pure, hs]
    | kept ms' ws' =>
      simp only [bind, Except.bind, pure, Except.pure, hk, Except.ok.injEq, Gathered.kept.injEq]
      constructor
      · rintro ⟨rfl, rfl⟩
        exact ⟨ms', ws', ⟨rfl, rfl⟩, rfl, rfl⟩
      · rintro ⟨_, _, ⟨rfl, rfl⟩, rfl, rfl⟩
        exact ⟨rfl, rfl⟩

theorem gather_cons_eq_kept_iff (s : Step (Except Fault)) (steps : List (Step (Except Fault)))
    (ms : List (Segment × Value)) (ws : List Problem) :
    gather (s :: steps) = .ok (.kept ms ws) ↔ s.Passes ∧ ∃ ms' ws',
      gather steps = .ok (.kept ms' ws') ∧ ms = s.members ++ ms' ∧ ws = s.warnings ++ ws' := by
  cases s with
  | missing segment => simp [gather, pure, Except.pure, Step.Passes]
  | unexpected segment =>
    rw [and_iff_right (show (Step.unexpected segment).Passes from trivial)]
    exact prepend_eq_kept_iff (fun _ => rfl) fun _ _ => rfl
  | check segment p v =>
    rw [gather]
    cases hv : p v with
    | error f => simp [bind, Except.bind, Step.Passes, hv]
    | ok o => cases o <;> simp [bind, Except.bind, pure, Except.pure, Step.Passes, hv, Outcome.isFailure,
        Step.members, Step.warnings]
  | take segment p v =>
    rw [gather]
    cases hv : p v with
    | error f => simp [bind, Except.bind, Step.Passes, hv]
    | ok o =>
      cases o with
      | failure ps => simp [bind, Except.bind, pure, Except.pure, Step.Passes, hv, Outcome.isFailure]
      | success w =>
        have hw : (Step.take segment p v).warnings = [] := by simp [Step.warnings, hv]
        rw [Step.members_take hv rfl, hw, and_iff_right ⟨_, hv, rfl⟩]
        exact prepend_eq_kept_iff (fun _ => rfl) fun _ _ => rfl
      | warning w ps =>
        have hw : (Step.take segment p v).warnings = [.within segment ps] := by simp [Step.warnings, hv]
        rw [Step.members_take hv rfl, hw, and_iff_right ⟨_, hv, rfl⟩]
        exact prepend_eq_kept_iff (fun _ => rfl) fun _ _ => rfl

/-- A run comes to its end exactly when every step passes. -/
theorem gather_eq_kept_iff (steps : List (Step (Except Fault))) (ms : List (Segment × Value))
    (ws : List Problem) :
    gather steps = .ok (.kept ms ws) ↔
      (∀ s ∈ steps, s.Passes) ∧ ms = steps.flatMap Step.members ∧ ws = steps.flatMap Step.warnings := by
  induction steps generalizing ms ws with
  | nil => simp [gather, pure, Except.pure, eq_comm]
  | cons s steps ih =>
    rw [gather_cons_eq_kept_iff, List.forall_mem_cons, List.flatMap_cons, List.flatMap_cons, and_assoc]
    refine and_congr_right fun _ => ⟨?_, ?_⟩
    · rintro ⟨ms', ws', hg, rfl, rfl⟩
      obtain ⟨hp, rfl, rfl⟩ := (ih ms' ws').mp hg
      exact ⟨hp, rfl, rfl⟩
    · rintro ⟨hp, rfl, rfl⟩
      exact ⟨_, _, (ih _ _).mpr ⟨hp, rfl, rfl⟩, rfl, rfl⟩

/-- A container accepts when every step passes; what it gives is made from what the steps keep. -/
theorem gather_accepts_iff {steps : List (Step (Except Fault))} {finish : Gathered → Outcome}
    {rebuild : List (Segment × Value) → Value} (hs : ∀ p, finish (.stopped p) = .failure [p])
    (hk : ∀ ms ws, finish (.kept ms ws) = .warn (rebuild ms) ws) (o : Outcome) :
    (gather steps >>= fun g => pure (finish g)) = .ok o ∧ o.isFailure = false ↔
      (∀ s ∈ steps, s.Passes) ∧
        o = .warn (rebuild (steps.flatMap Step.members)) (steps.flatMap Step.warnings) := by
  constructor
  · rintro ⟨h, ho⟩
    cases hg : gather steps with
    | error f => simp [hg, bind, Except.bind] at h
    | ok g =>
      simp only [hg, bind, Except.bind, pure, Except.pure, Except.ok.injEq] at h
      subst h
      cases g with
      | stopped p =>
        rw [hs] at ho
        cases ho
      | kept ms ws =>
        obtain ⟨hp, rfl, rfl⟩ := (gather_eq_kept_iff _ _ _).mp hg
        exact ⟨hp, hk _ _⟩
  · rintro ⟨hp, rfl⟩
    rw [(gather_eq_kept_iff _ _ _).mpr ⟨hp, rfl, rfl⟩, ← hk]
    exact ⟨rfl, by rw [hk, Outcome.isFailure_warn]⟩

def Step.Faults (f : Fault) : Step (Except Fault) → Prop
  | take _ p v | check _ p v => p v = .error f
  | _ => False

/-- A walk through the members ends with the fault of a step that it gets to. -/
theorem gather_eq_error_iff {steps : List (Step (Except Fault))} {f : Fault} :
    gather steps = .error f ↔ ∃ s, Lists.Reached Step.Passes steps s ∧ s.Faults f := by
  induction steps with
  | nil => exact iff_of_false (fun h => nomatch h) fun ⟨_, h, _⟩ => nomatch h
  | cons s steps ih =>
    rw [Lists.exists_reached_cons, ← ih]
    cases s with
    | missing segment => simp [gather, Step.Faults, Step.Passes, pure, Except.pure]
    | unexpected segment =>
      rw [gather, bind_pure_comp, map_eq_error_iff]
      simp [Step.Faults, Step.Passes]
    | check segment p v =>
      rw [gather, bind_eq_error_iff]
      cases hv : p v with
      | error g => simp [Step.Faults, Step.Passes, hv]
      | ok o => cases o <;> simp [Step.Faults, Step.Passes, hv, pure, Except.pure, Outcome.isFailure]
    | take segment p v =>
      rw [gather, bind_eq_error_iff]
      cases hv : p v with
      | error g => simp [Step.Faults, Step.Passes, hv]
      | ok o =>
        cases o with
        | failure ps => simp [Step.Faults, Step.Passes, hv, pure, Except.pure, Outcome.isFailure]
        | success w | warning w ps => simp [Step.Faults, Step.Passes, hv, Outcome.isFailure, map_eq_error_iff]

theorem Tuple.parse_accepts_iff {scope : Scope} {a : Annotations} {es : List (Element (Parser (Except Fault)))}
    {rest : Option (Rest (Parser (Except Fault)))} {x : Value} {o : Outcome} :
    parse scope a es rest x = .ok o ∧ o.isFailure = false ↔ ∃ items, x.items? = some items ∧
      (∀ s ∈ steps es rest items, s.Passes) ∧
      o = .warn (rebuild x (((steps es rest items).flatMap Step.members).map Prod.snd))
        ((steps es rest items).flatMap Step.warnings) := by
  rw [parse]
  cases x.items? with
  | none =>
    refine ⟨fun ⟨h, ho⟩ => ?_, fun ⟨_, h, _⟩ => nomatch h⟩
    cases h
    cases ho
  | some items =>
    refine (gather_accepts_iff (fun _ => rfl) (fun _ _ => rfl) o).trans ⟨fun h => ⟨items, rfl, h⟩, ?_⟩
    rintro ⟨_, hi, h⟩
    exact Option.some.inj hi ▸ h

theorem Tuple.parse_success_iff {scope : Scope} {a : Annotations} {es : List (Element (Parser (Except Fault)))}
    {rest : Option (Rest (Parser (Except Fault)))} {x v : Value} :
    parse scope a es rest x = .ok (.success v) ↔ ∃ items, x.items? = some items ∧
      (∀ s ∈ steps es rest items, s.Clean) ∧
      v = rebuild x (((steps es rest items).flatMap Step.members).map Prod.snd) := by
  have h : parse scope a es rest x = .ok (.success v) ↔ _ := (and_iff_left rfl).symm.trans parse_accepts_iff
  simp only [h, Outcome.success_eq_warn_iff, List.flatMap_eq_nil_iff, Step.clean_iff, forall_and, and_assoc]

theorem Struct.parse_accepts_iff {scope : Scope} {a : Annotations}
    {ps : List (Property (Parser (Except Fault)))} {is : List (Index (Except Fault))} {x : Value} {o : Outcome} :
    parse scope a ps is x = .ok o ∧ o.isFailure = false ↔ ∃ entries, x.entries? = some entries ∧
      (∀ s ∈ steps ps is entries, s.Passes) ∧
      o = .warn (rebuild ((steps ps is entries).flatMap Step.members))
        ((steps ps is entries).flatMap Step.warnings) := by
  rw [parse]
  cases x.entries? with
  | none =>
    refine ⟨fun ⟨h, ho⟩ => ?_, fun ⟨_, h, _⟩ => nomatch h⟩
    cases h
    cases ho
  | some entries =>
    refine (gather_accepts_iff (fun _ => rfl) (fun _ _ => rfl) o).trans ⟨fun h => ⟨entries, rfl, h⟩, ?_⟩
    rintro ⟨_, hi, h⟩
    exact Option.some.inj hi ▸ h

theorem Struct.parse_success_iff {scope : Scope} {a : Annotations}
    {ps : List (Property (Parser (Except Fault)))} {is : List (Index (Except Fault))} {x v : Value} :
    parse scope a ps is x = .ok (.success v) ↔ ∃ entries, x.entries? = some entries ∧
      (∀ s ∈ steps ps is entries, s.Clean) ∧ v = rebuild ((steps ps is entries).flatMap Step.members) := by
  have h : parse scope a ps is x = .ok (.success v) ↔ _ := (and_iff_left rfl).symm.trans parse_accepts_iff
  simp only [h, Outcome.success_eq_warn_iff, List.flatMap_eq_nil_iff, Step.clean_iff, forall_and, and_assoc]

end Schemata
