import Schemata.Number.FloatText
import Schemata.Proofs.Lists
import Schemata.Proofs.Number.Decimal
import Schemata.Proofs.Text.Integer
import Schemata.Proofs.Text.NumberForm

/-!
The texts of finite floating-point numbers: digits, a fraction, and an exponent with a sign. Every such text denotes a
rational number and no other, and the text of a magnitude denotes its shortest decimal, which is rounded to the magnitude
again. So different finite numbers have different texts.
-/
namespace Schemata
open Text (AsciiDigits positionalValue)

namespace Decimal
variable {d : Decimal} {t ds : List Char} {q q' : ℚ} {e e' : Int}

inductive Fraction : List Char → List Char → Prop
  | none : Fraction [] []
  | some {ds : List Char} (hd : AsciiDigits ds) (hne : ds ≠ []) : Fraction ('.' :: ds) ds

inductive ExponentOf : List Char → Int → Prop
  | none : ExponentOf [] 0
  | some (width : Nat) (e : Int) : ExponentOf (exponentText width e) e

/-- The texts of rational numbers: digits and then a fraction or an exponent or both. -/
inductive Written : List Char → ℚ → Prop
  | mk {whole point fraction exponent : List Char} {e : Int} (hw : AsciiDigits whole) (hne : whole ≠ [])
      (hf : Fraction point fraction) (he : ExponentOf exponent e) (hmark : point ++ exponent ≠ []) :
      Written (whole ++ (point ++ exponent)) (positionalValue (whole ++ fraction) * 10 ^ (e - fraction.length))

/-! ### Writing -/

theorem positional_written (hd : AsciiDigits ds) (hne : ds ≠ []) (point : Int) :
    Written (positional ds point) (positionalValue ds * 10 ^ (point - ds.length)) := by
  unfold positional
  split
  · -- The digits stand behind the point, after as many zeros as the point stands before them.
    have hfraction := Fraction.some ((Text.asciiDigits_replicate_zero (-point).toNat).append hd) (by simp [hne])
    have hwritten := Written.mk (Text.asciiDigits_replicate_zero 1) (by simp) hfraction .none (by simp)
    have hscale : (0 : Int) - (List.replicate (-point).toNat '0' ++ ds).length = point - ds.length := by
      simp only [List.length_append, List.length_replicate]
      omega
    rw [Text.positionalValue_zeros_append, Text.positionalValue_zeros_append, hscale, List.append_nil] at hwritten
    exact hwritten
  · split
    · -- The digits are filled up with zeros to the point.
      have hwhole := hd.append (Text.asciiDigits_replicate_zero (point.toNat - ds.length))
      have hfraction := Fraction.some (Text.asciiDigits_replicate_zero 1) (by simp)
      have hwritten := Written.mk hwhole (by simp [hne]) hfraction .none (by simp)
      have hscale : point - ds.length = ((point.toNat - ds.length + 1 : Nat) : Int) + (0 - 1) := by omega
      rw [List.append_nil, List.append_assoc ds _ (List.replicate 1 '0'), List.replicate_append_replicate,
        Text.positionalValue_append_zeros] at hwritten
      rw [hscale, zpow_add₀ (by norm_num), zpow_natCast, ← mul_assoc, mul_comm (positionalValue ds : ℚ)]
      exact_mod_cast hwritten
    · -- The point stands among the digits.
      have hwhole : AsciiDigits (ds.take point.toNat) := fun c hc => hd c (List.mem_of_mem_take hc)
      have hrest : AsciiDigits (ds.drop point.toNat) := fun c hc => hd c (List.mem_of_mem_drop hc)
      have hwritten := Written.mk hwhole (by simp [hne]; omega) (.some hrest (by simp; omega)) .none (by simp)
      have hscale : (0 : Int) - (ds.drop point.toNat).length = point - ds.length := by
        rw [List.length_drop]
        omega
      rw [List.take_append_drop, hscale, List.append_nil] at hwritten
      exact hwritten

theorem scientific_written (width : Nat) (hd : AsciiDigits ds) (hne : ds ≠ []) (e : Int) :
    Written (scientific width ds e) (positionalValue ds * 10 ^ (e + 1 - ds.length)) := by
  unfold scientific
  split
  · exact absurd rfl hne
  · have hwritten := Written.mk hd hne .none (.some width e) (by simp [exponentText])
    simpa using hwritten
  · rename_i c rest hrest
    have hwhole : AsciiDigits [c] := List.forall_mem_singleton.mpr (hd c List.mem_cons_self)
    have hfraction : Fraction ('.' :: rest) rest := .some (fun c hc => hd c (List.mem_cons_of_mem _ hc)) hrest
    have hwritten := Written.mk hwhole (List.cons_ne_nil _ _) hfraction (.some width e) (by simp)
    have hscale : e - rest.length = e + 1 - (c :: rest).length := by
      rw [List.length_cons]
      omega
    rw [hscale] at hwritten
    exact hwritten

/-- What is dropped behind the significant digits are zeros. -/
theorem exists_zeros (ds : List Char) : ∃ zeros, ds = significant ds ++ List.replicate zeros '0' := by
  refine ⟨(ds.rtakeWhile (· = '0')).length, ?_⟩
  have hzeros : ds.rtakeWhile (· = '0') = List.replicate (ds.rtakeWhile (· = '0')).length '0' :=
    List.eq_replicate_iff.mpr ⟨rfl, fun c hc => by simpa using List.mem_rtakeWhile_imp hc⟩
  rw [← hzeros]
  exact (List.rdropWhile_append_rtakeWhile ..).symm

/-- The text of a positive decimal denotes its value. -/
theorem text_written (layout : FloatLayout) (h : d.digits ≠ 0) : Written (d.text layout) d.value := by
  obtain ⟨zeros, hall⟩ := exists_zeros (Nat.toDigits 10 d.digits)
  have hdigits := Text.asciiDigits_toDigits d.digits
  have hvalue := Text.positionalValue_toDigits d.digits
  simp only [text]
  generalize Nat.toDigits 10 d.digits = all at hall hdigits hvalue ⊢
  generalize significant all = ds at hall ⊢
  subst hall
  rw [Text.positionalValue_append_zeros] at hvalue
  have hd : AsciiDigits ds := fun c hc => hdigits c (List.mem_append_left _ hc)
  have hne : ds ≠ [] := by
    rintro rfl
    exact h (hvalue.symm.trans (Nat.mul_zero _))
  have hdenoted {e : Int} (he : e = zeros + d.scale) : (positionalValue ds * 10 ^ e : ℚ) = d.value := by
    rw [value, ← hvalue, he, zpow_add₀ (by norm_num), zpow_natCast, Nat.cast_mul, Nat.cast_pow, Nat.cast_ofNat]
    ring
  have hlength : ((ds ++ List.replicate zeros '0').length : Int) = ds.length + zeros := by simp
  simp only [hlength]
  split
  · rw [← hdenoted (e := ds.length + zeros + d.scale - ds.length) (by omega)]
    exact positional_written hd hne _
  · rw [← hdenoted (e := ds.length + zeros + d.scale - 1 + 1 - ds.length) (by omega)]
    exact scientific_written _ hd hne _

/-! ### Characters -/

theorem exponentText_eq (width : Nat) (e : Int) : ∃ ds, AsciiDigits ds ∧ ds ≠ [] ∧ positionalValue ds = e.natAbs ∧
    exponentText width e = 'e' :: (if e < 0 then '-' else '+') :: ds :=
  ⟨_, (Text.asciiDigits_replicate_zero _).append (Text.asciiDigits_toDigits _), by simp [Nat.toDigits_ne_nil],
    by rw [Text.positionalValue_zeros_append, Text.positionalValue_toDigits], rfl⟩

def isNumberChar (c : Char) : Bool :=
  c.isDigit || ['.', 'e', '+', '-'].contains c

theorem isNumberChar_of_isDigit {c : Char} (h : c.isDigit) : isNumberChar c := by
  rw [isNumberChar, h, Bool.true_or]

theorem ExponentOf.exists_digits {e : Int} (h : ExponentOf t e) : (t = [] ∧ e = 0) ∨
    ∃ ds, AsciiDigits ds ∧ ds ≠ [] ∧ positionalValue ds = e.natAbs ∧
      t = 'e' :: (if e < 0 then '-' else '+') :: ds := by
  cases h with
  | none => exact .inl ⟨rfl, rfl⟩
  | some width e => exact .inr (exponentText_eq width e)

theorem Fraction.digits {t ds : List Char} (h : Fraction t ds) : AsciiDigits ds := by
  cases h with
  | none => nofun
  | some hd => exact hd

namespace Written

theorem digits_first (h : Written t q) : ∃ c rest, t = c :: rest ∧ c.isDigit := by
  cases h with
  | @mk whole _ _ _ _ hw hne =>
    obtain ⟨c, rest, rfl⟩ := List.exists_cons_of_ne_nil hne
    exact ⟨c, _, rfl, hw c List.mem_cons_self⟩

/-- A point or an exponent marks the text of a floating-point number. -/
theorem marked (h : Written t q) : '.' ∈ t ∨ 'e' ∈ t := by
  cases h with
  | mk hw hne hf he hmark =>
    cases hf with
    | some => exact .inl (by simp)
    | none =>
      cases he with
      | none => exact absurd rfl hmark
      | some => exact .inr (by simp [exponentText])

theorem numberChars (h : Written t q) : ∀ c ∈ t, isNumberChar c := by
  obtain ⟨hw, -, hf, he, -⟩ := h
  rename_i whole point fraction exponent e
  have hdigits {ds : List Char} (hd : AsciiDigits ds) : ∀ c ∈ ds, isNumberChar c :=
    fun c hc => isNumberChar_of_isDigit (hd c hc)
  have hpoint : ∀ c ∈ point, isNumberChar c := by
    cases hf with
    | none => nofun
    | some hd => exact List.forall_mem_cons.mpr ⟨by decide, hdigits hd⟩
  have hexponent : ∀ c ∈ exponent, isNumberChar c := by
    obtain ⟨rfl, -⟩ | ⟨ds, hd, -, -, rfl⟩ := he.exists_digits
    · nofun
    · refine List.forall_mem_cons.mpr ⟨by decide, List.forall_mem_cons.mpr ⟨?_, hdigits hd⟩⟩
      split <;> decide
  exact List.forall_mem_append.mpr ⟨hdigits hw, List.forall_mem_append.mpr ⟨hpoint, hexponent⟩⟩

end Written

/-! ### Reading -/

theorem ExponentOf.head (h : ExponentOf t e) : ∀ c ∈ t.head?, c = 'e' := by
  cases h with
  | none => nofun
  | some => simp [exponentText]

theorem ExponentOf.unique (h : ExponentOf t e) (h' : ExponentOf t e') : e = e' := by
  obtain ⟨rfl, rfl⟩ | ⟨ds, -, -, hvalue, rfl⟩ := h.exists_digits
  · obtain ⟨-, rfl⟩ | ⟨ds, -, -, -, ht⟩ := h'.exists_digits
    · rfl
    · cases ht
  · obtain ⟨ht, -⟩ | ⟨ds', -, -, hvalue', ht⟩ := h'.exists_digits
    · cases ht
    · simp only [List.cons.injEq, true_and] at ht
      obtain ⟨hsign, rfl⟩ := ht
      have hmagnitude : e.natAbs = e'.natAbs := hvalue.symm.trans hvalue'
      split at hsign <;> split at hsign <;> first | omega | exact absurd hsign (by decide)

/-- A text denotes one number only. -/
theorem Written.unique (h : Written t q) (h' : Written t q') : q = q' := by
  obtain ⟨hw, -, hf, he, -⟩ := h
  rename_i whole point fraction exponent e
  generalize ht : whole ++ (point ++ exponent) = t at h'
  obtain ⟨hw', -, hf', he', -⟩ := h'
  rename_i whole' point' fraction' exponent' e'
  have hstart {point fraction exponent : List Char} {e : Int} (hf : Fraction point fraction)
      (he : ExponentOf exponent e) : ∀ c ∈ (point ++ exponent).head?, ¬c.isDigit := by
    cases hf with
    | none => exact fun c hc => he.head c hc ▸ by decide
    | some => simp
  obtain ⟨rfl, hrest⟩ := Lists.append_inj_of_all hw hw' (hstart hf he) (hstart hf' he') ht
  obtain ⟨rfl, rfl⟩ : fraction = fraction' ∧ exponent = exponent' := by
    cases hf with
    | none =>
      cases hf' with
      | none => exact ⟨rfl, hrest⟩
      | some => exact absurd (he.head '.' (congrArg List.head? hrest)) (by decide)
    | some hd =>
      cases hf' with
      | none => exact absurd (he'.head '.' (congrArg List.head? hrest).symm) (by decide)
      | some hd' =>
        exact Lists.append_inj_of_all hd hd' (hstart .none he) (hstart .none he') (List.tail_eq_of_cons_eq hrest)
  rw [he.unique he']

end Decimal

namespace Double
open Decimal (Written)
variable {f : BinaryFormat} {layout : FloatLayout} {x y : Double} {units : Nat}

theorem written_zero : Written ['0', '.', '0'] 0 := by
  have hzero := Text.asciiDigits_replicate_zero 1
  have hwritten := Written.mk hzero (by simp) (.some hzero (by simp)) .none (by simp)
  rw [Text.positionalValue_zeros_append, Text.positionalValue_replicate_zero, Nat.cast_zero, zero_mul] at hwritten
  exact hwritten

/-- The text of a magnitude denotes a decimal, which is rounded to the magnitude if the width has it. -/
theorem magnitudeText_written (f : BinaryFormat) (layout : FloatLayout) (units : Nat) :
    ∃ d : Decimal, Written (magnitudeText f layout units) d.value ∧ (f.grid units ∣ units → d.round f = units) := by
  unfold magnitudeText
  split
  · rename_i hzero
    refine ⟨⟨0, 0⟩, ?_, fun _ => ?_⟩
    · rw [Decimal.value, Nat.cast_zero, zero_mul]
      exact written_zero
    · rw [hzero, Decimal.round_eq]
      simp [BinaryFormat.round, BinaryFormat.nearest]
  · rename_i hne
    exact ⟨_, Decimal.text_written layout (Decimal.shortest_digits_ne_zero f hne), Decimal.shortest_round⟩

def signText (negative : Bool) : List Char :=
  if negative then ['-'] else []

/-- A finite number is written with its sign and then as a rational number. -/
theorem textAs_written (f : BinaryFormat) (layout : FloatLayout) (h : x.isFinite) :
    ∃ t q, Written t q ∧ (x.textAs f layout).toList = signText x.isNegative ++ t := by
  cases x with
  | nan | infinite => cases h
  | finite negative units fits =>
    obtain ⟨d, hd, -⟩ := magnitudeText_written f layout units
    exact ⟨_, _, hd, String.toList_ofList⟩

theorem signText_append_inj {n n' : Bool} {t t' : List Char} {q q' : ℚ} (ht : Written t q) (ht' : Written t' q')
    (h : signText n ++ t = signText n' ++ t') : n = n' ∧ t = t' := by
  obtain ⟨c, rest, rfl, hc⟩ := ht.digits_first
  obtain ⟨c', rest', rfl, hc'⟩ := ht'.digits_first
  have hminus {c : Char} (hc : c.isDigit) : '-' ≠ c := by
    rintro rfl
    cases hc
  cases n <;> cases n'
  · exact ⟨rfl, h⟩
  · exact absurd (List.head_eq_of_cons_eq h).symm (hminus hc)
  · exact absurd (List.head_eq_of_cons_eq h) (hminus hc')
  · exact ⟨rfl, List.tail_eq_of_cons_eq h⟩

/-- Different finite numbers have different texts. -/
theorem text_injective (hx : x.isFinite) (hy : y.isFinite) (h : x.text layout = y.text layout) : x = y := by
  cases x with
  | nan | infinite => cases hx
  | finite negative units fits =>
    cases y with
    | nan | infinite => cases hy
    | finite negative' units' fits' =>
      obtain ⟨d, hd, hround⟩ := magnitudeText_written .double layout units
      obtain ⟨d', hd', hround'⟩ := magnitudeText_written .double layout units'
      obtain ⟨rfl, htext⟩ := signText_append_inj hd hd' (String.ofList_injective h)
      rw [htext] at hd
      have hunits : units = units' := by
        rw [← hround fits.grid_dvd, Decimal.round_eq_of_value_eq (hd.unique hd'), hround' fits'.grid_dvd]
      subst hunits
      rfl

end Double
end Schemata
