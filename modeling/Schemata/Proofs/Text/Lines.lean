import Schemata.Number.FloatText
import Schemata.Text.Quoted
import Mathlib.Data.List.Basic
import Mathlib.Tactic.IntervalCases
import Mathlib.Tactic.SplitIfs

/-!
Texts on one line. Written numbers hold no line feed, and quoting escapes it.
-/
namespace Schemata

def OneLine (s : String) : Prop :=
  '\n' ∉ s.toList

instance (s : String) : Decidable (OneLine s) :=
  inferInstanceAs (Decidable ('\n' ∉ s.toList))

section
variable {s t : String} {cs : List Char}

theorem oneLine_append_iff : OneLine (s ++ t) ↔ OneLine s ∧ OneLine t := by
  simp [OneLine]

theorem oneLine_ofList_iff : OneLine (String.ofList cs) ↔ '\n' ∉ cs := by
  simp [OneLine]

theorem mem_intercalate {sep : List Char} {ls : List (List Char)} {c : Char} (h : c ∈ sep.intercalate ls) :
    c ∈ sep ∨ ∃ l ∈ ls, c ∈ l := by
  obtain ⟨l, hl, hc⟩ := List.mem_flatten.mp h
  induction ls with
  | nil => cases hl
  | cons l' ls ih =>
    cases ls with
    | nil =>
      obtain rfl := List.mem_singleton.mp hl
      exact .inr ⟨l, List.mem_cons_self, hc⟩
    | cons l'' ls =>
      rw [List.intersperse_cons_cons] at hl
      rcases List.mem_cons.mp hl with rfl | hl
      · exact .inr ⟨l, List.mem_cons_self, hc⟩
      · rcases List.mem_cons.mp hl with rfl | hl
        · exact .inl hc
        · have hrest : c ∈ sep.intercalate (l'' :: ls) := List.mem_flatten.mpr ⟨l, hl, hc⟩
          rcases ih hrest hl with h | ⟨k, hk, hck⟩
          · exact .inl h
          · exact .inr ⟨k, List.mem_cons_of_mem _ hk, hck⟩

theorem oneLine_intercalate {ss : List String} (hs : OneLine s) (h : ∀ t ∈ ss, OneLine t) :
    OneLine (s.intercalate ss) := by
  intro hmem
  rw [String.toList_intercalate] at hmem
  rcases mem_intercalate hmem with hmem | ⟨l, hl, hmem⟩
  · exact hs hmem
  · obtain ⟨t, ht, rfl⟩ := List.mem_map.mp hl
    exact h t ht hmem

end

def lineCount (s : String) : Nat :=
  s.toList.count '\n' + 1

theorem lineCount_of_oneLine {s : String} (h : OneLine s) : lineCount s = 1 := by
  rw [lineCount, List.count_eq_zero_of_not_mem h]

/-- Lines put below one another. -/
theorem lineCount_intercalate {ls : List String} (hne : ls ≠ []) (h : ∀ l ∈ ls, OneLine l) :
    lineCount ("\n".intercalate ls) = ls.length := by
  induction ls with
  | nil => exact absurd rfl hne
  | cons l ls ih =>
    rw [List.forall_mem_cons] at h
    have hl := List.count_eq_zero_of_not_mem h.1
    cases ls with
    | nil => simp [lineCount, hl]
    | cons l' ls =>
      have hrest := ih (List.cons_ne_nil _ _) h.2
      simp only [lineCount, String.toList_intercalate, List.map_cons, List.length_cons] at hrest ⊢
      rw [List.intercalate_cons_cons, List.count_append, List.count_append, hl]
      have hsep : List.count '\n' "\n".toList = 1 := by decide
      omega

/-- Digits of a base that is written with digits and letters. -/
theorem mem_toDigits {b n : Nat} {c : Char} (hb : 1 < b) (h : c ∈ Nat.toDigits b n) : ∃ d, c = Nat.digitChar d := by
  induction n using Nat.strongRecOn with
  | _ n ih =>
    rw [Nat.toDigits_eq_if hb] at h
    split at h
    · exact ⟨n, List.mem_singleton.mp h⟩
    · rcases List.mem_append.mp h with h | h
      · exact ih (n / b) (Nat.div_lt_self (by omega) hb) h
      · exact ⟨n % b, List.mem_singleton.mp h⟩

theorem digitChar_ne (d : Nat) : Nat.digitChar d ≠ '\n' := by
  by_cases h : d < 16
  · interval_cases d <;> decide
  · -- Whatever has no digit is written as a star.
    have hstar : Nat.digitChar d = '*' := by
      unfold Nat.digitChar
      repeat rw [if_neg (by omega)]
    rw [hstar]
    decide

theorem not_mem_toDigits {b n : Nat} (hb : 1 < b) : '\n' ∉ Nat.toDigits b n := by
  intro h
  obtain ⟨d, hd⟩ := mem_toDigits hb h
  exact digitChar_ne d hd.symm

theorem oneLine_nat (n : Nat) : OneLine (toString n) := by
  rw [Nat.toString_eq_ofList_toDigits, oneLine_ofList_iff]
  exact not_mem_toDigits (by decide)

theorem oneLine_int (n : Int) : OneLine (toString n) := by
  have hrepr (n : Nat) : OneLine n.repr := by
    rw [← Nat.toString_eq_repr]
    exact oneLine_nat n
  rw [Int.toString_eq_repr, Int.repr_eq_if]
  split
  · exact hrepr _
  · exact oneLine_append_iff.mpr ⟨by decide, hrepr _⟩

namespace Decimal

theorem not_mem_significant {ds : List Char} (h : '\n' ∉ ds) : '\n' ∉ significant ds := by
  intro hmem
  rw [significant, List.mem_reverse] at hmem
  exact h (List.mem_reverse.mp ((List.dropWhile_sublist _).mem hmem))

theorem not_mem_positional {ds : List Char} (h : '\n' ∉ ds) (point : Int) : '\n' ∉ positional ds point := by
  unfold positional
  split
  · simp [h]
  · split
    · simp [h]
    · have htake : '\n' ∉ ds.take point.toNat := fun hmem => h (List.mem_of_mem_take hmem)
      have hdrop : '\n' ∉ ds.drop point.toNat := fun hmem => h (List.mem_of_mem_drop hmem)
      simp [htake, hdrop]

theorem not_mem_exponentText (width : Nat) (e : Int) : '\n' ∉ exponentText width e := by
  have hdigits : '\n' ∉ Nat.toDigits 10 e.natAbs := not_mem_toDigits (by decide)
  simp only [exponentText, List.mem_cons, List.mem_append, List.mem_replicate, hdigits, or_false, not_or]
  refine ⟨by decide, ?_, by simp⟩
  split <;> decide

theorem not_mem_scientific {ds : List Char} (h : '\n' ∉ ds) (width : Nat) (e : Int) :
    '\n' ∉ scientific width ds e := by
  have hexponent := not_mem_exponentText width e
  unfold scientific
  split <;> simp_all

theorem not_mem_text (layout : FloatLayout) (d : Decimal) : '\n' ∉ d.text layout := by
  have hdigits : '\n' ∉ significant (Nat.toDigits 10 d.digits) :=
    not_mem_significant (not_mem_toDigits (by decide))
  unfold text
  dsimp only
  split
  · exact not_mem_positional hdigits _
  · exact not_mem_scientific hdigits _ _

end Decimal

/-- A layout whose names for the special numbers are on one line writes every number on one line. -/
theorem Double.oneLine_textAs {layout : FloatLayout} (hn : OneLine layout.nan) (hi : OneLine layout.infinity)
    (f : BinaryFormat) (x : Double) : OneLine (x.textAs f layout) := by
  cases x with
  | nan => exact hn
  | infinite negative => cases negative <;> exact oneLine_append_iff.mpr ⟨by decide, hi⟩
  | finite negative units fits =>
    have hmagnitude : '\n' ∉ magnitudeText f layout units := by
      unfold magnitudeText
      split
      · decide
      · exact Decimal.not_mem_text _ _
    rw [textAs, oneLine_ofList_iff, List.mem_append, not_or]
    exact ⟨by cases negative <;> decide, hmagnitude⟩

theorem Double.oneLine_plain (f : BinaryFormat) (x : Double) : OneLine (x.textAs f .plain) :=
  oneLine_textAs (by decide) (by decide) f x

theorem Double.oneLine_rendered (x : Double) : OneLine (x.text .rendered) :=
  oneLine_textAs (by decide) (by decide) _ x

namespace Text

theorem not_mem_hexDigits (width n : Nat) : '\n' ∉ hexDigits width n := by
  have hdigits : '\n' ∉ Nat.toDigits 16 n := not_mem_toDigits (by decide)
  simp [hexDigits, hdigits]

theorem not_mem_escapeRendered (c : Char) : '\n' ∉ escapeRendered c := by
  have hhex := not_mem_hexDigits 4 c.toNat
  unfold escapeRendered
  split_ifs <;> simp_all [eq_comm]

theorem oneLine_quoteRendered (s : String) : OneLine (quoteRendered s) := by
  rw [quoteRendered, oneLine_ofList_iff]
  simp [not_mem_escapeRendered]

theorem not_mem_escapeNumeric (n : Nat) : '\n' ∉ escapeNumeric n := by
  have hhex (width : Nat) := not_mem_hexDigits width n
  unfold escapeNumeric
  split_ifs <;> simp [hhex]

theorem inspectedQuote_ne (cs : List Char) : inspectedQuote cs ≠ '\n' := by
  unfold inspectedQuote
  split <;> decide

theorem not_mem_escapeInspected {quote : Char} (hq : quote ≠ '\n') (c : Char) : '\n' ∉ escapeInspected quote c := by
  by_cases hc : c = '\n'
  · subst hc
    simp [escapeInspected, hq.symm]
  · have hnumeric := not_mem_escapeNumeric c.toNat
    unfold escapeInspected
    split_ifs <;> simp [Ne.symm hc, hnumeric]

theorem oneLine_quoteInspected (s : String) : OneLine (quoteInspected s) := by
  have hq := inspectedQuote_ne s.toList
  rw [quoteInspected, oneLine_ofList_iff]
  simp [not_mem_escapeInspected hq, hq.symm]

theorem not_mem_escapeByte {quote : Char} (hq : quote ≠ '\n') (b : UInt8) : '\n' ∉ escapeByte quote b := by
  unfold escapeByte
  by_cases hc : Char.ofNat b.toNat = '\n'
  · simp [hc, hq.symm]
  · have hhex := not_mem_hexDigits 2 b.toNat
    dsimp only
    split_ifs <;> simp [Ne.symm hc, hhex]

theorem oneLine_quoteBytes (data : List UInt8) : OneLine (quoteBytes data) := by
  have hq := inspectedQuote_ne (data.map fun b => Char.ofNat b.toNat)
  rw [quoteBytes, oneLine_ofList_iff]
  simp [not_mem_escapeByte hq, hq.symm]

end Text
end Schemata
