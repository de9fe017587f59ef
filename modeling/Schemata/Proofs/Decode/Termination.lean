import Schemata.Proofs.Decode.Calls
import Schemata.Proofs.Decode.Fuel
import Mathlib.Data.Set.Finite.Basic

/-!
Runs come to an end. Where every way through lazy schemas leads into a container sooner or later, and nothing that a
schema calls on faults, there is an outcome for every value with enough fuel. The induction is on the value, whose
parts the containers hand on, and below it on the schemas that are handed the value itself.
-/
namespace Schemata

namespace Scope
variable {scope : Scope} {direction : Direction} {s t : Schema}

/-- The schemas that a schema hands on the value itself to, and not its members. -/
def exposed (scope : Scope) : Schema → List Schema
  | .tuple .. | .struct .. => []
  | s => scope.next s

theorem mem_next_of_exposed (h : t ∈ scope.exposed s) : t ∈ scope.next s := by
  cases s with
  | tuple | struct => cases h
  | _ => exact h

theorem mem_children_of_exposed (hl : s.handle? = none) (h : t ∈ scope.exposed s) : t ∈ s.children := by
  cases s with
  | lazy => cases hl
  | tuple | struct => cases h
  | _ => exact h

/-- No way through lazy schemas goes on without end but through members of containers. -/
def Guarded (scope : Scope) (s : Schema) : Prop :=
  ∀ t, scope.Part s t → Acc (fun u v => u ∈ scope.exposed v) t

/-- Among finitely many schemas it is enough that no schema comes back to itself but through members of
containers. -/
theorem guarded_of_acyclic (hfin : {t | scope.Part s t}.Finite)
    (hc : ∀ t, scope.Part s t → ¬Relation.TransGen (fun u v => u ∈ scope.exposed v) t t) : scope.Guarded s := by
  let Parts := {t // scope.Part s t}
  let r (u v : Parts) : Prop := Relation.TransGen (fun u v => u ∈ scope.exposed v) u.1 v.1
  have : Finite Parts := hfin.to_subtype
  have : IsTrans Parts r := ⟨fun _ _ _ h k => h.trans k⟩
  have : Std.Irrefl r := ⟨fun t => hc t.1 t.2⟩
  have hw : WellFounded r := Finite.wellFounded_of_trans_of_irrefl r
  have hacc (u : Parts) : Acc (fun u v => u ∈ scope.exposed v) u.1 := by
    induction u using hw.induction with
    | _ u ih =>
      apply Acc.intro _
      intro v hv
      exact ih ⟨v, Relation.ReflTransGen.tail u.2 (mem_next_of_exposed hv)⟩ (.single hv)
  exact fun t ht => hacc ⟨t, ht⟩

/-- The predicate has an answer about all that a refinement of the base gives it. -/
def Answerable (scope : Scope) (direction : Direction) (base : Schema) (p : Predicate) : Prop :=
  ∀ n x v, scope.Given n base x direction v → ∃ b, scope.test p v = .ok b

/-- A schema on which nothing faults: every function it calls on gives a result, every thunk leads somewhere and
every union has a member. What a transform gives when it encodes may be of any size, so there must be none then. -/
structure Productive (scope : Scope) (direction : Direction) (s : Schema) : Prop where
  guarded : scope.Guarded s
  forced : ∀ a h, scope.Part s (.lazy a h) → ∃ t, scope.force h = .ok t
  tested : ∀ a t p, scope.Part s (.refinement a t p) → scope.Answerable direction t p
  members : ∀ a, ¬scope.Part s (.union a [])
  converted : ∀ a t u c, scope.Part s (.transform a t u c) →
    direction = .decode ∧ ∀ v, ∃ o, scope.convert c .decode v = .ok o

theorem Productive.part (hs : scope.Productive direction s) (h : scope.Part s t) :
    scope.Productive direction t where
  guarded u hu := hs.guarded u (h.trans hu)
  forced a handle hu := hs.forced a handle (h.trans hu)
  tested a u p hu := hs.tested a u p (h.trans hu)
  members a hu := hs.members a (h.trans hu)
  converted a u u' c hu := hs.converted a u u' c (h.trans hu)

def Answers (scope : Scope) (direction : Direction) (s : Schema) (v : Value) : Prop :=
  ∀ᶠ n in Filter.atTop, ∃ o, scope.run direction n s v = .ok o

theorem answers_iff {v : Value} : scope.Answers direction s v ↔ ∃ o, scope.Yields direction s v o := by
  constructor
  · intro h
    obtain ⟨n, o, ho⟩ := h.exists
    exact ⟨o, n, ho⟩
  · rintro ⟨o, ho⟩
    exact ho.eventually.mono fun n hn => ⟨o, hn⟩

theorem eventually_forall_mem {α : Type} {l : List α} {p : α → Nat → Prop}
    (h : ∀ a ∈ l, ∀ᶠ n in Filter.atTop, p a n) : ∀ᶠ n in Filter.atTop, ∀ a ∈ l, p a n := by
  induction l with
  | nil => exact .of_forall fun n a ha => absurd ha List.not_mem_nil
  | cons a l ih =>
    rw [List.forall_mem_cons] at h
    exact (h.1.and (ih h.2)).mono fun n hn => List.forall_mem_cons.mpr hn

/-- The node itself calls on nothing that faults. What a transform gives when it encodes may be of any size, so that no
fuel is known to suffice for it. -/
def Steady (scope : Scope) (direction : Direction) : Schema → Prop
  | .lazy _ h => ∃ t, scope.force h = .ok t
  | .refinement _ t p => scope.Answerable direction t p
  | .union _ ss => ss ≠ []
  | .transform _ _ _ c => direction = .decode ∧ ∀ v, ∃ o, scope.convert c .decode v = .ok o
  | _ => True

/-- A steady node comes to no fault by itself, unless it is lazy and the fuel is spent. -/
theorem Steady.not_faults (hs : scope.Steady direction s) (hl : s.handle? = none) {n : Nat} {x : Value} {f : Fault} :
    ¬scope.Faults direction ⟨n, s, x⟩ f := by
  intro hf
  cases hf with
  | spent | thunk => cases hl
  | memberless => exact hs rfl
  | predicate hv hf => exact exists_ok_iff.mp (hs n x _ hv) f hf
  | conversion _ hf =>
    obtain ⟨rfl, hc⟩ := hs
    exact exists_ok_iff.mp (hc _) f hf

/-- A steady node that is not lazy calls what it exposes on the value itself, and other schemas on parts of it. -/
theorem Steady.calls (hs : scope.Steady direction s) (hl : s.handle? = none) {m n : Nat} {x v : Value}
    (h : scope.Calls direction ⟨n, s, x⟩ ⟨m, t, v⟩) : t ∈ scope.exposed s ∧ v = x ∨ v ∈ x.parts := by
  cases h with
  | aliased | base | source => exact .inl ⟨List.mem_cons_self, rfl⟩
  | member ht => exact .inl ⟨ht.mem, rfl⟩
  | part hh ht => exact .inr (Schema.parts_of_hands hh.mem ht).2
  | converted hd => cases hs.1.symm.trans hd
  | unfolded => cases hl

/-- A steady node that is not lazy has an outcome when the schemas it hands the value or its members to have one. -/
theorem Steady.run (hs : scope.Steady direction s) (hl : s.handle? = none) {n : Nat} {x : Value}
    (exposed : ∀ t ∈ scope.exposed s, ∃ o, scope.run direction n t x = .ok o)
    (members : ∀ t ∈ s.children, ∀ v ∈ x.parts, ∃ o, scope.run direction n t v = .ok o) :
    ∃ o, scope.run direction n s x = .ok o := by
  refine exists_ok_iff.mpr fun f hrun => ?_
  have hcall : scope.call direction ⟨n, s, x⟩ = .error f := hrun
  rcases call_eq_error_iff.mp hcall with hf | ⟨⟨m, t, v⟩, hd, hf⟩
  · exact hs.not_faults hl hf
  · obtain ⟨rfl, ht⟩ := hd.child hl
    rcases hs.calls hl hd with ⟨ht, rfl⟩ | hv
    · exact exists_ok_iff.mp (exposed t ht) f hf
    · exact exists_ok_iff.mp (members t ht v hv) f hf

/-- Where no node is lazy and all are steady, every run comes to an outcome. -/
theorem exists_run_of_steady (hs : s.Throughout fun t => t.handle? = none ∧ scope.Steady direction t) {n : Nat}
    {x : Value} : ∃ o, scope.run direction n s x = .ok o := by
  refine exists_ok_iff.mpr fun f hf => ?_
  obtain ⟨c, hreached, hc⟩ := run_eq_error_iff.mp hf
  obtain ⟨hl, hsteady⟩ := (throughout_of_calls (fun _ h => h.1) hs hreached).node
  exact hsteady.not_faults hl hc

theorem Productive.steady (hs : scope.Productive direction s) : scope.Steady direction s := by
  cases s with
  | lazy a h => exact hs.forced a h (.refl scope _)
  | refinement a t p => exact hs.tested a t p (.refl scope _)
  | union a ss =>
    rintro rfl
    exact hs.members a (.refl scope _)
  | transform a t u c => exact hs.converted a t u c (.refl scope _)
  | _ => trivial

/-- A productive schema has an outcome on every value. -/
theorem Productive.answers (hs : scope.Productive direction s) (v : Value) :
    scope.Answers direction s v := by
  induction v using Value.partsInduction generalizing s with
  | step v ih =>
    have hacc := hs.guarded s (.refl scope s)
    induction hacc with
    | intro s _ ihs =>
      have members : ∀ᶠ n in Filter.atTop, ∀ t ∈ s.children, ∀ w ∈ v.parts,
          ∃ o, scope.run direction n t w = .ok o :=
        eventually_forall_mem fun t ht => eventually_forall_mem fun w hw =>
          ih w hw (hs.part (.child ht))
      have exposed : ∀ t ∈ scope.exposed s, scope.Answers direction t v := fun t ht =>
        ihs t ht (hs.part (Relation.ReflTransGen.single (mem_next_of_exposed ht)))
      cases hl : s.handle? with
      | none =>
        apply (members.and (eventually_forall_mem exposed)).mono
        intro n hn
        exact hs.steady.run hl hn.2 hn.1
      | some h =>
        obtain ⟨a, rfl⟩ : ∃ a, s = .lazy a h := by
          cases s <;> simp [Schema.handle?] at hl
          exact ⟨_, by rw [hl]⟩
        obtain ⟨t, ht⟩ := hs.forced a h (.refl scope _)
        have hmem : t ∈ scope.next (.lazy a h) := mem_next_lazy.mpr ht
        obtain ⟨o, n, hn⟩ := answers_iff.mp (exposed t hmem)
        exact answers_iff.mpr ⟨o, n + 1, by rw [run_lazy_succ, ht]; exact hn⟩

end Scope
end Schemata
