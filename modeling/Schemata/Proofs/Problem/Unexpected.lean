import Schemata.Problem.Basic
import Schemata.Proofs.Value.Entries

/-!
What a report says is unexpected, and the value that is left without it.
-/
namespace Schemata

abbrev Path := List Segment

def Segment.same : Segment → Segment → Bool
  | key k, key l => k.same l
  | index i, index j => i == j
  | _, _ => false

@[simp]
theorem Segment.same_refl (s : Segment) : s.same s := by
  cases s <;> simp [Segment.same]

namespace Problem

mutual

def unexpectedPaths : Problem → List Path
  | unexpected _ => [[]]
  | within segment ps => (unexpectedPathsOfAll ps).map (segment :: ·)
  | ofMember ps => unexpectedPathsOfAll ps
  | _ => []

def unexpectedPathsOfAll : List Problem → List Path
  | [] => []
  | p :: ps => p.unexpectedPaths ++ unexpectedPathsOfAll ps

end

theorem unexpectedPathsOfAll_append (ps qs : List Problem) :
    unexpectedPathsOfAll (ps ++ qs) = unexpectedPathsOfAll ps ++ unexpectedPathsOfAll qs := by
  induction ps with
  | nil => rfl
  | cons p ps ih => simp [unexpectedPathsOfAll, ih]

theorem unexpectedPathsOfAll_flatMap {α : Type} (l : List α) (f : α → List Problem) :
    unexpectedPathsOfAll (l.flatMap f) = l.flatMap fun a => unexpectedPathsOfAll (f a) := by
  induction l with
  | nil => rfl
  | cons a l ih => simp [unexpectedPathsOfAll_append, ih]

theorem mem_unexpectedPathsOfAll_iff {ps : List Problem} {path : Path} :
    path ∈ unexpectedPathsOfAll ps ↔ ∃ p ∈ ps, path ∈ p.unexpectedPaths := by
  induction ps with
  | nil => simp [unexpectedPathsOfAll]
  | cons p ps ih => simp [unexpectedPathsOfAll, ih]

end Problem

namespace Path

def below (segment : Segment) (paths : List Path) : List Path :=
  paths.filterMap fun
    | [] => none
    | s :: rest => if s.same segment then some rest else none

theorem below_append (segment : Segment) (ps qs : List Path) :
    below segment (ps ++ qs) = below segment ps ++ below segment qs := by
  simp [below]

theorem below_flatMap {α : Type} (segment : Segment) (l : List α) (f : α → List Path) :
    below segment (l.flatMap f) = l.flatMap fun a => below segment (f a) := by
  induction l with
  | nil => rfl
  | cons a l ih => rw [List.flatMap_cons, below_append, ih, List.flatMap_cons]

theorem below_map_cons (segment s : Segment) (ps : List Path) :
    below segment (ps.map (s :: ·)) = if s.same segment then ps else [] := by
  induction ps with
  | nil => simp [below]
  | cons p ps ih =>
    simp only [below, List.map_cons, List.filterMap_cons] at ih ⊢
    split at ih <;> simp_all

def reported (paths : List Path) : Bool := paths.any List.isEmpty

theorem reported_iff (paths : List Path) : reported paths ↔ [] ∈ paths := by
  simp [reported]

end Path

namespace Value

mutual

/-- The value without the members at the given paths. -/
def prune : Value → List Path → Value
  | list items, paths => list (pruneItems items 0 paths)
  | tuple items, paths => tuple (pruneItems items 0 paths)
  | dict es, paths => dict (pruneEntries es paths)
  | view es, paths => view (pruneEntries es paths)
  | v, _ => v

def pruneItems : List Value → Nat → List Path → List Value
  | [], _, _ => []
  | v :: vs, i, paths =>
    let inner := Path.below (.index i) paths
    let rest := pruneItems vs (i + 1) paths
    if Path.reported inner then rest else v.prune inner :: rest

def pruneEntries : List (Value × Value) → List Path → List (Value × Value)
  | [], _ => []
  | (k, v) :: es, paths =>
    let inner := Path.below (.key k) paths
    let rest := pruneEntries es paths
    if Path.reported inner then rest else (k, v.prune inner) :: rest

end

theorem pruneEntries_eq (es : List (Value × Value)) (paths : List Path) :
    pruneEntries es paths =
      (es.filter fun e => !Path.reported (Path.below (.key e.1) paths)).map fun e =>
        (e.1, e.2.prune (Path.below (.key e.1) paths)) := by
  induction es with
  | nil => rfl
  | cons e es ih =>
    obtain ⟨k, v⟩ := e
    simp only [pruneEntries, ih, List.filter_cons]
    cases Path.reported (Path.below (.key k) paths) <;> simp

/-- Without reported paths nothing is left out. -/
theorem prune_nil (v : Value) : v.prune [] = v := by
  have hb (s : Segment) : Path.below s [] = [] := rfl
  have items (vs : List Value) (h : ∀ v ∈ vs, v.prune [] = v) (i : Nat) : pruneItems vs i [] = vs := by
    induction vs generalizing i with
    | nil => rfl
    | cons v vs ih =>
      rw [List.forall_mem_cons] at h
      simp [pruneItems, hb, Path.reported, h.1, ih h.2]
  have entries (es : List (Value × Value)) (h : ∀ e ∈ es, e.2.prune [] = e.2) :
      pruneEntries es [] = es := by
    rw [pruneEntries_eq]
    simp only [hb, Path.reported, List.any_nil, Bool.not_false, List.filter_true]
    exact (List.map_congr_left fun e he => congrArg (Prod.mk e.1) (h e he)).trans (List.map_id es)
  induction v using partsInduction with
  | step v ih =>
    cases v with
    | list vs => rw [prune, items vs ih]
    | tuple vs => rw [prune, items vs ih]
    | dict es => rw [prune, entries es fun e he => ih _ (mem_parts_of_entries rfl he).2]
    | view es => rw [prune, entries es fun e he => ih _ (mem_parts_of_entries rfl he).2]
    | _ => rfl

end Value
end Schemata
