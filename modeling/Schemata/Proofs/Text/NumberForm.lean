import Schemata.Template.Match
import Mathlib.Data.List.TakeWhile

/-!
The grammar of the number texts that a template accepts: `sign? digit* point? digit+ exponent?`, where an exponent is a
letter, `sign?` and `digit+`. The test cuts a text in one pass, which finds the only way to read it that matters.
-/
namespace Schemata.Text

def Sign (s : List Char) : Prop :=
  s = [] ∨ s = ['+'] ∨ s = ['-']

def Digits (s : List Char) : Prop :=
  ∀ c ∈ s, isDecimalDigit c

inductive Exponent : List Char → Prop
  | none : Exponent []
  | some {letter : Char} {sign digits : List Char} (hl : letter = 'e' ∨ letter = 'E') (hs : Sign sign)
      (hd : Digits digits) (hne : digits ≠ []) : Exponent (letter :: (sign ++ digits))

inductive NumberForm : List Char → Prop
  | mk {sign whole point fraction exponent : List Char} (hs : Sign sign) (hw : Digits whole)
      (hp : point = [] ∨ point = ['.']) (hf : Digits fraction) (hne : fraction ≠ []) (he : Exponent exponent) :
      NumberForm (sign ++ (whole ++ (point ++ (fraction ++ exponent))))

theorem sign_dropSign (s : List Char) : ∃ sign, Sign sign ∧ s = sign ++ dropSign s := by
  unfold dropSign
  split
  · exact ⟨['+'], by simp [Sign], rfl⟩
  · exact ⟨['-'], by simp [Sign], rfl⟩
  · exact ⟨[], by simp [Sign], rfl⟩

def Unsigned (s : List Char) : Prop :=
  ∃ c rest, s = c :: rest ∧ (isDecimalDigit c ∨ c = '.')

theorem dropSign_append {sign s : List Char} (hs : Sign sign) (h : Unsigned s) : dropSign (sign ++ s) = s := by
  obtain ⟨c, rest, rfl, hc⟩ := h
  have plain : ∀ d, (isDecimalDigit d ∨ d = '.') → d ≠ '+' ∧ d ≠ '-' := by
    rintro d hd
    constructor <;> rintro rfl <;> revert hd <;> decide
  rcases hs with rfl | rfl | rfl
  · have hne := plain c hc
    simp [dropSign, hne.1, hne.2]
  · rfl
  · rfl

theorem unsigned_of_digits {s t : List Char} (hs : Digits s) (hne : s ≠ []) : Unsigned (s ++ t) := by
  obtain ⟨c, rest, rfl⟩ := List.exists_cons_of_ne_nil hne
  exact ⟨c, rest ++ t, rfl, .inl (hs c List.mem_cons_self)⟩

theorem isDigits_iff {s : List Char} : isDigits s ↔ s ≠ [] ∧ Digits s := by
  simp [isDigits, Digits]

theorem isExponentTail_iff {s : List Char} : isExponentTail s ↔ Exponent s := by
  constructor
  · intro h
    cases s with
    | nil => exact .none
    | cons c rest =>
      simp only [isExponentTail, Bool.and_eq_true, Bool.or_eq_true, decide_eq_true_eq, isDigits_iff] at h
      obtain ⟨sign, hsign, hrest⟩ := sign_dropSign rest
      rw [hrest]
      exact .some h.1 hsign h.2.2 h.2.1
  · intro h
    cases h with
    | none => rfl
    | @some letter sign digits hl hs hd hne =>
      have hunsigned : Unsigned digits := by simpa using unsigned_of_digits (t := []) hd hne
      simp only [isExponentTail, Bool.and_eq_true, Bool.or_eq_true, decide_eq_true_eq, dropSign_append hs hunsigned,
        isDigits_iff]
      exact ⟨hl, hne, hd⟩

/-- Digits end where an exponent starts. -/
theorem span_digits {s e : List Char} (hs : Digits s) (he : Exponent e) :
    (s ++ e).takeWhile isDecimalDigit = s ∧ (s ++ e).dropWhile isDecimalDigit = e := by
  have hend : e.takeWhile isDecimalDigit = [] ∧ e.dropWhile isDecimalDigit = e := by
    cases he with
    | none => exact ⟨rfl, rfl⟩
    | some hl => rcases hl with rfl | rfl <;> exact ⟨rfl, rfl⟩
  rw [List.takeWhile_append_of_pos hs, List.dropWhile_append_of_pos hs, hend.1, hend.2, List.append_nil]
  exact ⟨rfl, rfl⟩

theorem isDigitsThenExponent_iff {s : List Char} :
    isDigitsThenExponent s ↔ ∃ digits exponent, s = digits ++ exponent ∧ Digits digits ∧ digits ≠ [] ∧
      Exponent exponent := by
  rw [isDigitsThenExponent, Bool.and_eq_true, isExponentTail_iff]
  constructor
  · rintro ⟨hne, he⟩
    refine ⟨_, _, List.takeWhile_append_dropWhile.symm, fun c hc => List.mem_takeWhile_imp hc, ?_, he⟩
    simpa using hne
  · rintro ⟨digits, exponent, rfl, hd, hne, he⟩
    obtain ⟨ht, hr⟩ := span_digits hd he
    rw [ht, hr]
    exact ⟨by simpa using hne, he⟩

/-- The test for number texts decides the grammar. -/
theorem isNumberForm_iff {s : List Char} : isNumberForm s ↔ NumberForm s := by
  constructor
  · intro h
    obtain ⟨sign, hsign, hs⟩ := sign_dropSign s
    rw [hs]
    rw [isNumberForm] at h
    have hsplit := List.takeWhile_append_dropWhile (p := isDecimalDigit) (l := dropSign s)
    split at h
    · rename_i rest hrest
      obtain ⟨fraction, exponent, rfl, hf, hne, he⟩ := isDigitsThenExponent_iff.mp h
      rw [hrest] at hsplit
      rw [← hsplit]
      have hpoint : ['.'] = [] ∨ ['.'] = ['.'] := .inr rfl
      exact .mk hsign (fun c hc => List.mem_takeWhile_imp hc) hpoint hf hne he
    · obtain ⟨fraction, exponent, heq, hf, hne, he⟩ := isDigitsThenExponent_iff.mp h
      rw [heq]
      have hwhole : Digits [] := by simp [Digits]
      have hpoint : ([] : List Char) = [] ∨ [] = ['.'] := .inl rfl
      exact .mk hsign hwhole hpoint hf hne he
  · rintro ⟨hs, hw, hp, hf, hne, he⟩
    rename_i sign whole point fraction exponent
    rcases hp with rfl | rfl
    · -- Without a point all digits are read at once.
      have hdigits : Digits (whole ++ fraction) := by
        intro c hc
        exact (List.mem_append.mp hc).elim (hw c) (hf c)
      have hne' : whole ++ fraction ≠ [] := by simp [hne]
      have hunsigned : Unsigned ((whole ++ fraction) ++ exponent) := unsigned_of_digits hdigits hne'
      rw [List.nil_append, ← List.append_assoc whole, isNumberForm, dropSign_append hs hunsigned]
      have hnumber : isDigitsThenExponent ((whole ++ fraction) ++ exponent) :=
        isDigitsThenExponent_iff.mpr ⟨_, _, rfl, hdigits, hne', he⟩
      rw [(span_digits hdigits he).2]
      cases he with
      | none => exact hnumber
      | some hl => rcases hl with rfl | rfl <;> exact hnumber
    · have hunsigned : Unsigned (whole ++ (['.'] ++ (fraction ++ exponent))) := by
        cases whole with
        | nil => exact ⟨'.', _, rfl, .inr rfl⟩
        | cons c whole => exact ⟨c, _, rfl, .inl (hw c List.mem_cons_self)⟩
      rw [isNumberForm, dropSign_append hs hunsigned, List.dropWhile_append_of_pos hw]
      exact isDigitsThenExponent_iff.mpr ⟨fraction, exponent, rfl, hf, hne, he⟩

end Schemata.Text
