import Schemata.Proofs.Decode.Choice
import Schemata.Proofs.Decode.Combinators

/-!
Which member a union takes over: the first that succeeds cleanly, and else the best of those that accept with warnings.
Two members may come to one outcome, so that the outcome of a union does not say which of them was taken; its position
does. Positions do not change when problems are worded otherwise.
-/
namespace Schemata.Union

def candidateAt : (Outcome × Nat) × Nat → Option (Candidate × Nat)
  | ((.warning v ps, weight), i) => some (⟨v, ps, weight⟩, i)
  | _ => none

def placed (weights : List Nat) (outcomes : List Outcome) : List (Candidate × Nat) :=
  (outcomes.zip weights).zipIdx.filterMap candidateAt

def preferred (c d : Candidate × Nat) : Candidate × Nat :=
  if d.1.better c.1 then d else c

/-- The position of the member that a union takes over, if not all of them fail. -/
def taken (weights : List Nat) (outcomes : List Outcome) : Option Nat :=
  match outcomes.findIdx? Outcome.isSuccess with
  | some i => some i
  | none =>
    match placed weights outcomes with
    | first :: others => some (others.foldl preferred first).2
    | [] => none

section
variable {weights : List Nat} {os : List Outcome} {i : Nat}

theorem placed_candidates (weights : List Nat) (os : List Outcome) :
    (placed weights os).map Prod.fst = candidates weights os := by
  rw [placed, candidates, List.map_filterMap]
  conv_rhs => rw [← List.zipIdx_map_fst 0 (os.zip weights), List.filterMap_map]
  apply List.filterMap_congr
  intro e _
  obtain ⟨⟨o, w⟩, i⟩ := e
  cases o <;> rfl

theorem foldl_preferred (first : Candidate × Nat) (others : List (Candidate × Nat)) :
    (others.foldl preferred first).1 = best first.1 (others.map Prod.fst) := by
  induction others generalizing first with
  | nil => rfl
  | cons c others ih =>
    rw [List.foldl_cons, ih, List.map_cons, best, best, List.foldl_cons, preferred]
    split <;> rfl

theorem preferred_mem (first : Candidate × Nat) (others : List (Candidate × Nat)) :
    others.foldl preferred first ∈ first :: others := by
  induction others generalizing first with
  | nil => exact List.mem_cons_self
  | cons c others ih =>
    rw [List.foldl_cons]
    rcases List.mem_cons.mp (ih (preferred first c)) with h | h
    · rw [h, preferred]
      split <;> simp
    · exact List.mem_cons_of_mem _ (List.mem_cons_of_mem _ h)

theorem getElem?_of_mem_placed {c : Candidate} (h : (c, i) ∈ placed weights os) : os[i]? = some c.outcome := by
  obtain ⟨⟨⟨o, w⟩, j⟩, he, hc⟩ := List.mem_filterMap.mp h
  have hzip : (os.zip weights)[j]? = some (o, w) := List.mem_zipIdx_iff_getElem?.mp he
  cases o with
  | success | failure => cases hc
  | warning v ps =>
    obtain ⟨rfl, rfl⟩ := Prod.mk.inj (Option.some.inj hc)
    exact (List.getElem?_zip_eq_some.mp hzip).1

theorem find?_eq_none_of_findIdx? (h : os.findIdx? Outcome.isSuccess = none) : os.find? Outcome.isSuccess = none := by
  rw [List.find?_eq_none]
  simpa using List.findIdx?_eq_none_iff.mp h

/-- What a union takes over is the outcome of the member at that position. -/
theorem resolve_of_taken (h : taken weights os = some i) : ∃ o, os[i]? = some o ∧ resolve weights os = .ok o := by
  rw [taken] at h
  split at h
  · rename_i j hj
    obtain rfl := Option.some.inj h
    obtain ⟨hlt, hsuccess, hbefore⟩ := List.findIdx?_eq_some_iff_getElem.mp hj
    have hfind : os.find? Outcome.isSuccess = some os[j] := by
      rw [List.find?_eq_some_iff_getElem]
      exact ⟨hsuccess, j, hlt, rfl, fun k hk => by simpa using hbefore k hk⟩
    refine ⟨os[j], List.getElem?_eq_getElem hlt, ?_⟩
    rw [resolve, hfind]
    rfl
  · rename_i hnone
    have hfind : os.find? Outcome.isSuccess = none := find?_eq_none_of_findIdx? hnone
    cases hp : placed weights os with
    | nil => simp [hp] at h
    | cons first others =>
      rw [hp] at h
      have hc : candidates weights os = first.1 :: others.map Prod.fst := by
        rw [← placed_candidates, hp, List.map_cons]
      have hi : (others.foldl preferred first).2 = i := Option.some.inj h
      have hmem : ((others.foldl preferred first).1, i) ∈ placed weights os := by
        rw [hp, ← hi]
        exact preferred_mem first others
      refine ⟨_, getElem?_of_mem_placed hmem, ?_⟩
      rw [resolve, hfind, hc, foldl_preferred]
      rfl

/-- If a union takes over no member, all of them have failed. -/
theorem resolve_of_not_taken (h : taken weights os = none) :
    resolve weights os = Outcome.fail (os.map fun o => .ofMember o.problems) := by
  rw [taken] at h
  split at h
  · cases h
  · rename_i hnone
    have hfind : os.find? Outcome.isSuccess = none := find?_eq_none_of_findIdx? hnone
    cases hp : placed weights os with
    | cons first others => simp [hp] at h
    | nil =>
      rw [resolve, hfind, ← placed_candidates, hp]
      rfl

end

section
variable {q : ProblemRelation}

end

end Schemata.Union
