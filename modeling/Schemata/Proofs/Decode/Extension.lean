import Schemata.Proofs.Decode.Widening
import Schemata.Schema.Derived

/-!
Structs put together. A key that only one of two structs declares is declared when the one is extended by the other, so
that the index signatures of the other are no longer asked about it. What both structs accept is therefore accepted by
the extended struct. Without index signatures nothing else is: a name that both declare is checked twice.
-/
namespace Schemata

theorem Value.occursIn_append (v : Value) (vs ws : List Value) :
    v.occursIn (vs ++ ws) = (v.occursIn vs || v.occursIn ws) :=
  List.any_append

namespace Struct
variable {good : Schema → Value → Prop} {ps qs : List (Property Schema)} {is js : List (IndexSignature Schema)}
  {es : Entries}

/-- Which tables suit a struct does not depend on the order of its members. -/
theorem Suits.of_mem_iff (hp : ∀ p, p ∈ ps ↔ p ∈ qs) (hi : ∀ i, i ∈ is ↔ i ∈ js) (h : Suits good ps is es) :
    Suits good qs js es where
  property p hq := h.property p ((hp p).mpr hq)
  missing p hq := h.missing p ((hp p).mpr hq)
  index e he hd i hj hc := by
    apply h.index e he ?_ i ((hi i).mpr hj) hc
    rw [Value.occursIn, List.any_eq_false] at hd ⊢
    intro name hname
    obtain ⟨p, hmem, rfl⟩ := List.mem_map.mp hname
    exact hd p.name (List.mem_map_of_mem ((hp p).mp hmem))

theorem suits_ranked_iff :
    Suits good (Schema.rankedProperties ps) (Schema.rankedIndexes is) es ↔ Suits good ps is es := by
  constructor
  · exact Suits.of_mem_iff (fun p => List.mem_mergeSort) fun i => List.mem_mergeSort
  · exact Suits.of_mem_iff (fun p => List.mem_mergeSort.symm) fun i => List.mem_mergeSort.symm

theorem suits_append_comm : Suits good (ps ++ qs) (is ++ js) es ↔ Suits good (qs ++ ps) (js ++ is) es := by
  constructor
  · exact Suits.of_mem_iff (fun p => by simp [or_comm]) fun i => by simp [or_comm]
  · exact Suits.of_mem_iff (fun p => by simp [or_comm]) fun i => by simp [or_comm]

/-- A table that suits two structs suits the members of both. An undeclared key is declared by neither of them. -/
theorem Suits.append (h : Suits good ps is es) (k : Suits good qs js es) : Suits good (ps ++ qs) (is ++ js) es where
  property p hp := by
    cases List.mem_append.mp hp with
    | inl hp => exact h.property p hp
    | inr hp => exact k.property p hp
  missing p hp := by
    cases List.mem_append.mp hp with
    | inl hp => exact h.missing p hp
    | inr hp => exact k.missing p hp
  index e he hd i hi hc := by
    rw [List.map_append, Value.occursIn_append, Bool.or_eq_false_iff] at hd
    cases List.mem_append.mp hi with
    | inl hi => exact h.index e he hd.1 i hi hc
    | inr hi => exact k.index e he hd.2 i hi hc

/-- Without index signatures every table that suits the members of two structs suits the first of them. -/
theorem Suits.of_append (h : Suits good (ps ++ qs) [] es) : Suits good ps [] es where
  property p hp := h.property p (List.mem_append_left qs hp)
  missing p hp := h.missing p (List.mem_append_left qs hp)
  index _ _ _ _ hi := absurd hi List.not_mem_nil

end Struct

namespace Scope
variable {scope : Scope} {direction : Direction} {x : Value} {ps qs : List (Property Schema)}
  {is js : List (IndexSignature Schema)}

theorem passes_struct_iff_exists {a : Annotations} : scope.Passes direction true (.struct a ps is) x ↔
    ∃ es, x.entries? = some es ∧ Struct.Suits (scope.Passes direction true) ps is es := by
  constructor
  · intro h
    obtain ⟨es, hx⟩ := h.exists_entries
    exact ⟨es, hx, (passes_struct_iff hx).mp h⟩
  · intro h
    obtain ⟨es, hx, hsuits⟩ := h
    exact (passes_struct_iff hx).mpr hsuits

theorem passes_structOf_iff {a : Annotations} : scope.Passes direction true (.structOf ps is a) x ↔
    ∃ es, x.entries? = some es ∧ Struct.Suits (scope.Passes direction true) ps is es := by
  rw [Schema.structOf, passes_struct_iff_exists]
  simp only [Struct.suits_ranked_iff]

/-- The struct that extends one by the other accepts what both accept. -/
theorem Passes.extend {a b : Annotations} (h : scope.Passes direction true (.struct a ps is) x)
    (k : scope.Passes direction true (.struct b qs js) x) (c : Annotations) :
    scope.Passes direction true (.structOf (ps ++ qs) (is ++ js) c) x := by
  obtain ⟨es, hx, hsuits⟩ := passes_struct_iff_exists.mp h
  have ksuits := (passes_struct_iff hx).mp k
  exact passes_structOf_iff.mpr ⟨es, hx, hsuits.append ksuits⟩

/-- Neither struct is the one that is extended. -/
theorem passes_extend_comm {c : Annotations} : scope.Passes direction true (.structOf (ps ++ qs) (is ++ js) c) x ↔
    scope.Passes direction true (.structOf (qs ++ ps) (js ++ is) c) x := by
  simp only [passes_structOf_iff, Struct.suits_append_comm]

theorem Passes.of_extend {a c : Annotations} (h : scope.Passes direction true (.structOf (ps ++ qs) [] c) x) :
    scope.Passes direction true (.struct a ps []) x := by
  obtain ⟨es, hx, hsuits⟩ := passes_structOf_iff.mp h
  exact (passes_struct_iff hx).mpr hsuits.of_append

/-- One struct extended by another accepts whatever both accept, and nothing else if neither has index signatures. It
does not matter which of them is extended. -/
theorem extend_intersects (scope : Scope) (direction : Direction) (a b : Annotations) (ps qs : List (Property Schema))
    (is js : List (IndexSignature Schema)) :
    ∃ t u, scope.extend (.struct a ps is) (.struct b qs js) = .ok t ∧
      scope.extend (.struct b qs js) (.struct a ps is) = .ok u ∧ ∀ x,
        let accepts (s : Schema) : Prop := ∃ o, scope.Yields direction s x o ∧ o.isFailure = false
        (accepts (.struct a ps is) → accepts (.struct b qs js) → accepts t) ∧
          (is = [] → js = [] → accepts t → accepts (.struct a ps is) ∧ accepts (.struct b qs js)) ∧
            (accepts t ↔ accepts u) := by
  refine ⟨.structOf (ps ++ qs) (is ++ js) .empty, .structOf (qs ++ ps) (js ++ is) .empty, rfl, rfl, fun x => ?_⟩
  intro accepts
  have accepts_iff (s : Schema) : accepts s ↔ scope.Passes direction true s x := by
    simp only [accepts, Passes, Outcome.passes_true]
  simp only [accepts_iff]
  refine ⟨fun h k => h.extend k .empty, fun hi hj h => ?_, passes_extend_comm⟩
  subst hi hj
  constructor
  · exact h.of_extend
  · exact (passes_extend_comm.mp h).of_extend

def badge : Schema := .struct .empty
  [⟨.text "id", .refinement .empty (.word .number) (.named "even"), false, true, .empty⟩,
    ⟨.text "name", .word .string, true, true, .empty⟩] []

/-- A numbered badge has one identifier that both structs check, so that an odd one is refused. -/
theorem extend_intersects_badge :
    let scope := Stock.scope [(0, .ok numbered)]
    let x : Value := .dict [(.text "name", .text "n"), (.text "id", .int 2), (.text "surplus", .null)]
    let odd : Value := .dict [(.text "id", .int 3)]
    (∃ o, scope.Yields .decode numbered x o ∧ o.isFailure = false) ∧
      (∃ o, scope.Yields .decode badge x o ∧ o.isFailure = false) ∧
        ∃ t u, scope.extend numbered badge = .ok t ∧ scope.extend badge numbered = .ok u ∧
          (∃ o, scope.Yields .decode t x o ∧ o.isFailure = false) ∧
          (∃ o, scope.Yields .decode u x o ∧ o.isFailure = false) ∧
            ∀ o, scope.Yields .decode t odd o → o.isFailure := by
  intro scope x odd
  have hnumbered : ∃ o, scope.Yields .decode numbered x o ∧ o.isFailure = false := ⟨_, ⟨0, rfl⟩, rfl⟩
  have hbadge : ∃ o, scope.Yields .decode badge x o ∧ o.isFailure = false := ⟨_, ⟨0, rfl⟩, rfl⟩
  obtain ⟨qs, hqs⟩ : ∃ qs, scope.run .decode 0 badge odd = .ok (.failure qs) := ⟨_, rfl⟩
  obtain ⟨t, u, ht, hu, haccepts⟩ := extend_intersects scope .decode .empty .empty _ _ _ _
  obtain ⟨hboth, _, hcomm⟩ := haccepts x
  obtain ⟨_, hconverse, _⟩ := haccepts odd
  have hx := hboth hnumbered hbadge
  refine ⟨hnumbered, hbadge, t, u, ht, hu, hx, hcomm.mp hx, fun o ho => ?_⟩
  by_contra hf
  obtain ⟨_, p, hp, hpf⟩ := hconverse rfl rfl ⟨o, ho, by simpa using hf⟩
  obtain rfl := hp.unique ⟨0, hqs⟩
  cases hpf

end Scope
end Schemata
