import Schemata.Proofs.Text.NumberForm
import Schemata.Template.Combine
import Schemata.Template.Match

/-!
What a template matches: its head, and for each placeholder a text that may stand there and the literal behind it. The
matcher follows all ways to cut a text at once, so that it does not matter which placeholder takes how much.
-/
namespace Schemata

def Slot.Admits : Slot → List Char → Prop
  | string, _ => True
  | number, s => Text.NumberForm s

theorem Slot.accepts_iff {slot : Slot} {s : List Char} : slot.accepts s ↔ slot.Admits s := by
  cases slot with
  | string => exact iff_of_true rfl trivial
  | number => exact Text.isNumberForm_iff

/-- A text that fills the placeholders one after another, with the literals behind them. -/
inductive Fills : List Span → List Char → Prop
  | nil : Fills [] []
  | cons {span : Span} {spans : List Span} {s rest : List Char} (hs : span.slot.Admits s) (h : Fills spans rest) :
      Fills (span :: spans) (s ++ (span.literal.toList ++ rest))

theorem fills_nil_iff {s : List Char} : Fills [] s ↔ s = [] := by
  constructor
  · intro h
    cases h
    rfl
  · rintro rfl
    exact .nil

theorem fills_cons_iff {span : Span} {spans : List Span} {s : List Char} :
    Fills (span :: spans) s ↔
      ∃ t rest, span.slot.Admits t ∧ Fills spans rest ∧ s = t ++ (span.literal.toList ++ rest) := by
  constructor
  · intro h
    cases h with
    | cons ht h => exact ⟨_, _, ht, h, rfl⟩
  · rintro ⟨t, rest, ht, h, rfl⟩
    exact .cons ht h

theorem fills_append_iff {ss ts : List Span} {s : List Char} :
    Fills (ss ++ ts) s ↔ ∃ t u, Fills ss t ∧ Fills ts u ∧ s = t ++ u := by
  induction ss generalizing s with
  | nil => simp [fills_nil_iff]
  | cons span ss ih =>
    simp only [List.cons_append, fills_cons_iff, ih]
    constructor
    · rintro ⟨t, _, ht, ⟨u, v, hu, hv, rfl⟩, rfl⟩
      exact ⟨_, v, ⟨t, u, ht, hu, rfl⟩, hv, by simp⟩
    · rintro ⟨_, v, ⟨t, u, ht, hu, rfl⟩, hv, rfl⟩
      exact ⟨t, _, ht, ⟨u, v, hu, hv, rfl⟩, by simp⟩

/-- A literal added behind the last placeholder stands at the end. -/
theorem fills_appendToLast_iff {text : String} {span : Span} {spans : List Span} {s : List Char} :
    Fills (appendToLast text (span :: spans)) s ↔ ∃ t, Fills (span :: spans) t ∧ s = t ++ text.toList := by
  induction spans generalizing span s with
  | nil =>
    simp only [appendToLast, fills_cons_iff, fills_nil_iff]
    constructor
    · rintro ⟨t, _, ht, rfl, rfl⟩
      exact ⟨_, ⟨t, _, ht, rfl, rfl⟩, by simp⟩
    · rintro ⟨_, ⟨t, _, ht, rfl, rfl⟩, rfl⟩
      exact ⟨t, _, ht, rfl, by simp⟩
  | cons other spans ih =>
    have hlast : appendToLast text (span :: other :: spans) = span :: appendToLast text (other :: spans) := rfl
    have hcons (t : List Char) : Fills (span :: other :: spans) t ↔
        ∃ u rest, span.slot.Admits u ∧ Fills (other :: spans) rest ∧ t = u ++ (span.literal.toList ++ rest) :=
      fills_cons_iff
    rw [hlast, fills_cons_iff]
    simp only [hcons, ih]
    constructor
    · rintro ⟨t, _, ht, ⟨u, hu, rfl⟩, rfl⟩
      exact ⟨_, ⟨t, u, ht, hu, rfl⟩, by simp⟩
    · rintro ⟨_, ⟨t, u, ht, hu, rfl⟩, rfl⟩
      exact ⟨t, _, ht, ⟨u, hu, rfl⟩, by simp⟩

namespace Template

theorem stripLiteral?_eq_some {literal s rest : List Char} :
    stripLiteral? literal s = some rest ↔ s = literal ++ rest := by
  induction literal generalizing s with
  | nil => simp [stripLiteral?]
  | cons c literal ih =>
    cases s with
    | nil => simp [stripLiteral?]
    | cons d s =>
      rw [stripLiteral?]
      split
      · simp_all
      · simp only [reduceCtorEq, List.cons_append, List.cons.injEq, false_iff, not_and]
        rintro rfl
        contradiction

theorem mem_cuts {s t rest : List Char} : (t, rest) ∈ cuts s ↔ s = t ++ rest := by
  induction s generalizing t with
  | nil => simp [cuts]
  | cons c s ih =>
    cases t with
    | nil => simp [cuts, eq_comm]
    | cons d t =>
      simp only [cuts, List.mem_cons, List.mem_map, Prod.mk.injEq, Prod.exists, List.cons.injEq, List.cons_append]
      constructor
      · rintro (⟨⟨⟩, _⟩ | ⟨_, _, hcut, ⟨rfl, rfl⟩, rfl⟩)
        exact ⟨rfl, ih.mp hcut⟩
      · rintro ⟨rfl, h⟩
        exact .inr ⟨t, rest, ih.mpr h, ⟨rfl, rfl⟩, rfl⟩

theorem mem_remainders {span : Span} {s rest : List Char} :
    rest ∈ remainders span s ↔ ∃ t, span.slot.Admits t ∧ s = t ++ (span.literal.toList ++ rest) := by
  simp only [remainders, List.mem_filterMap, List.mem_filter, Prod.exists, mem_cuts, stripLiteral?_eq_some,
    Slot.accepts_iff]
  constructor
  · rintro ⟨t, _, ⟨rfl, ht⟩, rfl⟩
    exact ⟨t, ht, rfl⟩
  · rintro ⟨t, ht, rfl⟩
    exact ⟨t, _, ⟨rfl, ht⟩, rfl⟩

theorem mem_remaindersOfAll {spans : List Span} {ss : List (List Char)} {rest : List Char} :
    rest ∈ remaindersOfAll spans ss ↔ ∃ s ∈ ss, ∃ t, Fills spans t ∧ s = t ++ rest := by
  induction spans generalizing ss with
  | nil => simp [remaindersOfAll, fills_nil_iff]
  | cons span spans ih =>
    simp only [remaindersOfAll, ih, List.mem_eraseDups, List.mem_flatMap, mem_remainders, fills_cons_iff]
    constructor
    · rintro ⟨_, ⟨s, hs, t, ht, rfl⟩, u, hu, rfl⟩
      exact ⟨_, hs, _, ⟨t, u, ht, hu, rfl⟩, by simp⟩
    · rintro ⟨s, hs, _, ⟨t, u, ht, hu, rfl⟩, rfl⟩
      exact ⟨u ++ rest, ⟨_, hs, t, ht, by simp⟩, u, hu, rfl⟩

/-- A template accepts its head followed by what fills its placeholders. -/
theorem accepts_iff {head : String} {spans : List Span} {s : String} :
    accepts head spans s ↔ ∃ t, Fills spans t ∧ s.toList = head.toList ++ t := by
  unfold accepts
  cases hstrip : stripLiteral? head.toList s.toList with
  | none =>
    have hno : ∀ rest, s.toList ≠ head.toList ++ rest := by
      intro rest h
      rw [stripLiteral?_eq_some.mpr h] at hstrip
      cases hstrip
    simpa using fun t _ => hno t
  | some rest =>
    rw [stripLiteral?_eq_some] at hstrip
    simp [mem_remaindersOfAll, hstrip]

end Template
end Schemata
