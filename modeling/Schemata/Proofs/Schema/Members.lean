import Schemata.Proofs.Schema.Regrouping

/-!
The members of a schema that stands for a choice. A list of schemas of which uniting leaves out none is settled: what a
canonical union has for members is settled, and a settled list comes out of uniting as it is, ranked by weight.
-/
namespace Schemata.Schema
variable {cs ss : List Schema}

/-- The members of a schema: those of a union, none of never, and otherwise the schema alone. -/
def members : Schema → List Schema
  | keyword _ .never => []
  | union _ ss => ss
  | s => [s]

structure Single (s : Schema) : Prop where
  notUnion : s.kind ≠ .union
  notNever : s.kind ≠ .keyword .never

theorem Single.members_eq {s : Schema} (h : s.Single) : s.members = [s] := by
  cases s with
  | union => exact absurd rfl h.notUnion
  | keyword a w =>
    cases w with
    | never => exact absurd rfl h.notNever
    | _ => rfl
  | _ => rfl

/-- No two of the schemas are equal, and none of them stands for several, for nothing, or beside what absorbs it. -/
structure Settled (ss : List Schema) : Prop where
  distinct : ss.Pairwise fun s t => ¬s.equals t
  single : ∀ s ∈ ss, s.Single
  unabsorbed : ∀ k ∈ ss, ∀ s ∈ ss, ¬Absorbs k s

theorem settled_unify (h : ∀ c ∈ cs, ∀ s ∈ c.alternatives, s.Single) : Settled (unify cs) where
  distinct := pairwise_unify cs
  single := forall_unify h
  unabsorbed _ hk _ hs := not_absorbs_of_mem_unify hk hs

theorem Settled.ranked (h : Settled ss) : Settled (Schema.ranked ss) where
  distinct := pairwise_ranked_of_distinct h.distinct
  single s hs := h.single s (mem_ranked.mp hs)
  unabsorbed k hk s hs := h.unabsorbed k (mem_ranked.mp hk) s (mem_ranked.mp hs)

/-- Uniting leaves out nothing of a settled list. -/
theorem Settled.unify_eq (h : Settled ss) : unify ss = ss :=
  unify_eq_self (fun s hs => (h.single s hs).notUnion) h.distinct h.unabsorbed

/-- The members of a canonical union are what has been united, ranked. -/
theorem members_oneOf (h : ∀ c ∈ cs, ∀ s ∈ c.alternatives, s.Single) (a : Annotations) :
    (oneOf cs a).members = ranked (unify cs) := by
  rcases oneOf_eq cs a with ⟨hu, hc⟩ | ⟨s, hu, hc⟩ | ⟨_, hc⟩
  · rw [hc, hu, ranked, List.mergeSort_nil]
    rfl
  · have hs : s.Single := (settled_unify h).single s (by simp [hu])
    rw [hc, hu, ranked, List.mergeSort_singleton]
    exact hs.members_eq
  · rw [hc]
    rfl

theorem ranked_of_weightless (h : ∀ s ∈ ss, s.weight = 0) : ranked ss = ss := by
  apply List.mergeSort_of_pairwise
  refine List.Pairwise.imp_of_mem (fun hs ht _ => ?_) (List.pairwise_of_forall fun _ _ => trivial)
  rw [h _ hs, h _ ht]
  rfl

/-- The members of the union of a settled list without structure are that list. -/
theorem Settled.members_oneOf (h : Settled ss) (hw : ∀ s ∈ ss, s.weight = 0) (a : Annotations) :
    (oneOf ss a).members = ss := by
  have halternatives : ∀ c ∈ ss, ∀ s ∈ c.alternatives, s.Single := by
    intro c hc s hs
    rw [alternatives_of_ne_union (h.single c hc).notUnion, List.mem_singleton] at hs
    exact hs ▸ h.single c hc
  rw [Schema.members_oneOf halternatives, h.unify_eq, ranked_of_weightless hw]

end Schemata.Schema
