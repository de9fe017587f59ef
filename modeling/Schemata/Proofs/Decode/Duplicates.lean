import Schemata.Proofs.Decode.Canonical

/-!
What canonical unions leave out for being equal. Equal schemas come to outcomes of one kind with one value, and whatever
a union leaves out it accepts through a member that it keeps, unless a boolean stands in one schema where a number
stands in the other: enumerated values compare as values do, for which true is one, while decoding keeps the two apart.
-/
namespace Schemata

namespace Schema

theorem unmixedThroughout_of_children {s t : Schema} (hst : s.Unmixed t)
    (h : ∀ p ∈ s.children.zip t.children, p.1.UnmixedThroughout p.2) : s.UnmixedThroughout t := by
  intro u v huv
  cases huv with
  | here => exact hst
  | inside hp hf => exact h _ hp u v hf

/-- Equal schemas of the list have booleans in the same places. -/
def Separated (ss : List Schema) : Prop :=
  ∀ s ∈ ss, ∀ t ∈ ss, s.equals t → s.UnmixedThroughout t

end Schema

namespace Scope
variable {scope : Scope} {direction : Direction}

theorem passes_iff_of_unmixed {lenient : Bool} {s t : Schema} {x : Value} (h : s.equals t)
    (hst : s.UnmixedThroughout t) :
    scope.Passes direction lenient s x ↔ scope.Passes direction lenient t x := by
  refine exists_yields_congr fun n => (run_agree_of_unmixed h hst n x).exists_ok_iff fun _ _ hop => ?_
  rw [hop.passes lenient]

/-- What a union leaves out is accepted by what it keeps. -/
theorem exists_unify_passes {cs : List Schema} (hcs : Schema.Separated (cs.flatMap Schema.alternatives)) {s : Schema}
    (hs : s ∈ cs.flatMap Schema.alternatives) :
    ∃ k ∈ Schema.unify cs, ∀ x, scope.Passes direction true s x → scope.Passes direction true k x := by
  obtain ⟨c, hc, hsc⟩ := List.mem_flatMap.mp hs
  obtain ⟨t, ⟨d, hd, htd⟩, hts, hleft⟩ := Schema.unify_covers hc hsc
  have hst : ∀ x, scope.Passes direction true s x → scope.Passes direction true t x := by
    rcases hts with rfl | heq
    · exact fun _ h => h
    · have hun := hcs t (List.mem_flatMap.mpr ⟨d, hd, htd⟩) s hs heq
      exact fun x h => (passes_iff_of_unmixed heq hun).mpr h
  rcases hleft with hu | ⟨k, hk, habs⟩
  · exact ⟨t, hu, hst⟩
  · exact ⟨k, hk, fun x h => (hst x h).absorbed habs fun hl => absurd hl (by decide)⟩

/-- Equality of schemas is sound for leaving out duplicates where booleans stand in the same places: equal schemas run
to the same fault or to outcomes of one kind with one value, and every alternative of the candidates of a union is
represented by a member that accepts what it accepts. -/
theorem equals_sound (scope : Scope) (direction : Direction) :
    (∀ s t : Schema, s.equals t → s.UnmixedThroughout t → ∀ n x,
      Except.Rel (Outcome.Rel .indifference) (scope.run direction n s x) (scope.run direction n t x)) ∧
    ∀ cs, Schema.Separated (cs.flatMap Schema.alternatives) → ∀ s ∈ cs.flatMap Schema.alternatives,
      ∃ k ∈ Schema.unify cs, ∀ x o, scope.Yields direction s x o → o.isFailure = false →
        ∃ p, scope.Yields direction k x p ∧ p.isFailure = false := by
  refine ⟨fun s t h hst n x => run_agree_of_unmixed h hst n x, fun cs hcs s hs => ?_⟩
  obtain ⟨k, hk, hpass⟩ : ∃ k ∈ Schema.unify cs,
      ∀ x, scope.Passes direction true s x → scope.Passes direction true k x := exists_unify_passes hcs hs
  refine ⟨k, hk, fun x o ho hf => ?_⟩
  obtain ⟨p, hp, hpf⟩ := hpass x ⟨o, ho, (Outcome.passes_true o).mpr hf⟩
  exact ⟨p, hp, (Outcome.passes_true p).mp hpf⟩

def switch (one : Value) : Schema :=
  .struct .empty [⟨.text "state", .enums .empty [("on", .bool true), ("one", one)], false, false, .empty⟩] []

theorem unmixed_switch {one one' : Value} (h : one.hashable) (hb : one.isBoolean = one'.isBoolean) :
    (switch one).UnmixedThroughout (switch one') := by
  apply Schema.unmixedThroughout_of_children
  · simp [switch, Schema.Unmixed, Value.isKey, Value.isName]
  · simp only [switch, Schema.children, List.map_cons, List.map_nil, List.flatMap_nil, List.append_nil,
      List.zip_cons_cons, List.zip_nil_left, List.forall_mem_singleton]
    apply Schema.unmixedThroughout_of_children
    · simpa [Schema.Unmixed, Value.hashable] using ⟨h, hb⟩
    · simp [Schema.children]

/-- The switches for the integer and for the cell that holds it are equal, and accept the same. -/
theorem equals_sound_switch :
    let scope := Stock.scope []
    let s := switch (.int 1)
    let t := switch (.cell (.int64 1))
    s.equals t ∧ s.UnmixedThroughout t ∧
      (∀ n x, Except.Rel (Outcome.Rel .indifference) (scope.run .decode n s x) (scope.run .decode n t x)) ∧
      Schema.Separated ([s, t].flatMap Schema.alternatives) ∧
      ∃ k ∈ Schema.unify [s, t], ∀ x o, scope.Yields .decode t x o → o.isFailure = false →
        ∃ p, scope.Yields .decode k x p ∧ p.isFailure = false := by
  intro scope s t
  have heq : s.equals t := by decide
  have hun : s.UnmixedThroughout t := unmixed_switch rfl rfl
  have hsep : Schema.Separated ([s, t].flatMap Schema.alternatives) := by
    have hall : ∀ u ∈ [s, t], ∃ one : Value, u = switch one ∧ one.hashable ∧ one.isBoolean = false := by
      simp only [List.forall_mem_cons]
      exact ⟨⟨_, rfl, rfl, rfl⟩, ⟨_, rfl, rfl, rfl⟩, by simp⟩
    rintro u hu v hv -
    obtain ⟨one, rfl, hh, hb⟩ := hall u hu
    obtain ⟨one', rfl, -, hb'⟩ := hall v hv
    exact unmixed_switch hh (hb.trans hb'.symm)
  obtain ⟨hrun, hkept⟩ := equals_sound scope .decode
  exact ⟨heq, hun, hrun s t heq hun, hsep, hkept [s, t] hsep t (by simp [s, t, switch, Schema.alternatives])⟩

/-- An enumeration of one makes an enumeration of true disappear from a union, which then rejects true. -/
theorem true_not_kept :
    let scope := Stock.scope []
    let one := Schema.enums .empty [("a", .int 1)]
    let yes := Schema.enums .empty [("a", .bool true)]
    one.equals yes ∧ Schema.oneOf [one, yes] .empty = one ∧
      (∃ o, scope.Yields .decode yes (.bool true) o ∧ o.isSuccess) ∧
      ∃ o, scope.Yields .decode one (.bool true) o ∧ o.isFailure :=
  ⟨by decide, rfl, ⟨_, ⟨0, rfl⟩, rfl⟩, _, ⟨0, rfl⟩, rfl⟩

end Scope
end Schemata
