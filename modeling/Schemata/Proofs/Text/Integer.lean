import Schemata.Decode.Leaf
import Mathlib.Data.List.DropRight
import Mathlib.Data.Nat.Digits.Defs

/-!
The texts of integers: blanks, an optional sign with at least one digit behind it, and blanks again. Reading finds the
one integer that such a text denotes, digit by digit, and every integer is read back from its decimal text.
-/
namespace Schemata.Text
variable {s t front back ds : List Char} {n : Int}

/-! ### Digits -/

def AsciiDigits (s : List Char) : Prop :=
  ∀ c ∈ s, c.isDigit

def digitValue (c : Char) : Nat :=
  c.toNat - '0'.toNat

def positionalValue (ds : List Char) : Nat :=
  Nat.ofDigits 10 (ds.reverse.map digitValue)

/-- Going through digits from the left gives what they denote by their places. -/
theorem ofDigitChars_eq_positionalValue (ds : List Char) : Nat.ofDigitChars 10 ds 0 = positionalValue ds := by
  induction ds with
  | nil => rfl
  | cons d ds ih =>
    have hplace : positionalValue (d :: ds) = positionalValue ds + 10 ^ ds.length * digitValue d := by
      simp [positionalValue, Nat.ofDigits_append]
    rw [Nat.ofDigitChars_cons, Nat.ofDigitChars_eq_ofDigitChars_zero, ih, hplace, digitValue]
    ring

theorem asciiDigits_toDigits (n : Nat) : AsciiDigits (Nat.toDigits 10 n) :=
  fun _ hc => Nat.isDigit_of_mem_toDigits (by decide) (by decide) hc

theorem asciiDigits_replicate_zero (k : Nat) : AsciiDigits (List.replicate k '0') := by
  intro c hc
  rw [List.eq_of_mem_replicate hc]
  rfl

theorem AsciiDigits.append (hs : AsciiDigits s) (ht : AsciiDigits t) : AsciiDigits (s ++ t) :=
  List.forall_mem_append.mpr ⟨hs, ht⟩

/-- The digits in front count as many places more as there are digits behind them. -/
theorem positionalValue_append (s t : List Char) :
    positionalValue (s ++ t) = 10 ^ t.length * positionalValue s + positionalValue t := by
  simp only [← ofDigitChars_eq_positionalValue]
  rw [Nat.ofDigitChars_append, Nat.ofDigitChars_eq_ofDigitChars_zero]

theorem positionalValue_replicate_zero (k : Nat) : positionalValue (List.replicate k '0') = 0 := by
  rw [← ofDigitChars_eq_positionalValue, Nat.ofDigitChars_replicate_zero, Nat.mul_zero]

theorem positionalValue_zeros_append (k : Nat) (ds : List Char) :
    positionalValue (List.replicate k '0' ++ ds) = positionalValue ds := by
  rw [positionalValue_append, positionalValue_replicate_zero, Nat.mul_zero, Nat.zero_add]

theorem positionalValue_append_zeros (k : Nat) (ds : List Char) :
    positionalValue (ds ++ List.replicate k '0') = 10 ^ k * positionalValue ds := by
  rw [positionalValue_append, positionalValue_replicate_zero, List.length_replicate, Nat.add_zero]

theorem positionalValue_toDigits (n : Nat) : positionalValue (Nat.toDigits 10 n) = n := by
  rw [← ofDigitChars_eq_positionalValue, Nat.ofDigitChars_ten_toDigits]

/-! ### Blanks -/

def Blanks (s : List Char) : Prop :=
  ∀ c ∈ s, isBlank c

theorem trim_eq (s : List Char) : trim s = (s.dropWhile isBlank).rdropWhile isBlank := rfl

/-- What trimming drops stands around what it leaves, and is blank. -/
theorem exists_blanks (s : List Char) : ∃ front back, Blanks front ∧ Blanks back ∧ s = front ++ (trim s ++ back) := by
  refine ⟨s.takeWhile isBlank, (s.dropWhile isBlank).rtakeWhile isBlank, ?_, ?_, ?_⟩
  · exact fun c hc => List.mem_takeWhile_imp hc
  · exact fun c hc => List.mem_rtakeWhile_imp hc
  · rw [trim_eq, List.rdropWhile_append_rtakeWhile, List.takeWhile_append_dropWhile]

/-- Characters none of which is blank are what trimming leaves of them and blanks around them. -/
theorem trim_append (hf : Blanks front) (hb : Blanks back) (hs : ∀ c ∈ s, ¬isBlank c) :
    trim (front ++ (s ++ back)) = s := by
  rw [trim_eq, List.dropWhile_append_of_pos hf]
  cases s with
  | nil => simp [List.dropWhile_eq_nil_iff.mpr hb]
  | cons c cs =>
    have hkept : (c :: cs).rdropWhile isBlank = c :: cs :=
      List.rdropWhile_eq_self_iff.mpr fun hne => hs _ (List.getLast_mem hne)
    rw [List.cons_append, List.dropWhile_cons_of_neg (hs c List.mem_cons_self), ← List.cons_append, List.rdropWhile,
      List.reverse_append, List.dropWhile_append_of_pos (by simpa [Blanks] using hb)]
    exact hkept

theorem not_isBlank_of_isDigit {c : Char} (h : c.isDigit) : ¬isBlank c := by
  rw [Char.isDigit_iff_toNat] at h
  simp only [isBlank, inRanges, blankRanges, List.any_cons, List.any_nil, Bool.or_false, Bool.or_eq_true,
    Bool.and_eq_true, decide_eq_true_eq]
  have h0 : '0'.toNat = 48 := rfl
  have h9 : '9'.toNat = 57 := rfl
  omega

/-! ### Integers -/

/-- An optional sign and at least one digit, with the integer that they denote. -/
inductive SignedDigits : List Char → Int → Prop
  | unsigned {ds : List Char} (hd : AsciiDigits ds) (hne : ds ≠ []) : SignedDigits ds (positionalValue ds)
  | plus {ds : List Char} (hd : AsciiDigits ds) (hne : ds ≠ []) : SignedDigits ('+' :: ds) (positionalValue ds)
  | minus {ds : List Char} (hd : AsciiDigits ds) (hne : ds ≠ []) : SignedDigits ('-' :: ds) (-(positionalValue ds))

/-- The texts that denote an integer once the blanks around them are dropped; blanks alone denote zero. -/
inductive Denotes : List Char → Int → Prop
  | blank {s : List Char} (h : Blanks s) : Denotes s 0
  | signed {front s back : List Char} {n : Int} (hf : Blanks front) (hs : SignedDigits s n) (hb : Blanks back) :
      Denotes (front ++ (s ++ back)) n

theorem SignedDigits.not_isBlank (h : SignedDigits s n) : ∀ c ∈ s, ¬isBlank c := by
  have hsign {c : Char} (hc : ¬isBlank c) {ds : List Char} (hd : AsciiDigits ds) : ∀ d ∈ c :: ds, ¬isBlank d :=
    List.forall_mem_cons.mpr ⟨hc, fun d hm => not_isBlank_of_isDigit (hd d hm)⟩
  cases h with
  | unsigned hd => exact fun c hc => not_isBlank_of_isDigit (hd c hc)
  | plus hd => exact hsign (by decide) hd
  | minus hd => exact hsign (by decide) hd

theorem SignedDigits.ne_nil (h : SignedDigits s n) : s ≠ [] := by
  cases h with
  | unsigned _ hne => exact hne
  | plus | minus => exact List.cons_ne_nil _ _

def readDigits? (ds : List Char) : Option Nat :=
  if !ds.isEmpty && ds.all Char.isDigit then some (ds.foldl (fun n c => 10 * n + (c.toNat - '0'.toNat)) 0) else none

theorem readDigits?_eq_some_iff {m : Nat} :
    readDigits? ds = some m ↔ AsciiDigits ds ∧ ds ≠ [] ∧ positionalValue ds = m := by
  rw [readDigits?, ← Nat.ofDigitChars_eq_foldl, ofDigitChars_eq_positionalValue]
  simp only [Option.ite_none_right_eq_some, Option.some.injEq, Bool.and_eq_true, Bool.not_eq_true',
    List.isEmpty_eq_false_iff, List.all_eq_true, AsciiDigits]
  tauto

theorem signedDigits_plus_iff :
    SignedDigits ('+' :: ds) n ↔ AsciiDigits ds ∧ ds ≠ [] ∧ (positionalValue ds : Int) = n := by
  constructor
  · intro h
    cases h with
    | unsigned hd => exact absurd (hd _ List.mem_cons_self) (by decide)
    | plus hd hne => exact ⟨hd, hne, rfl⟩
  · rintro ⟨hd, hne, rfl⟩
    exact .plus hd hne

theorem signedDigits_minus_iff :
    SignedDigits ('-' :: ds) n ↔ AsciiDigits ds ∧ ds ≠ [] ∧ -(positionalValue ds : Int) = n := by
  constructor
  · intro h
    cases h with
    | unsigned hd => exact absurd (hd _ List.mem_cons_self) (by decide)
    | minus hd hne => exact ⟨hd, hne, rfl⟩
  · rintro ⟨hd, hne, rfl⟩
    exact .minus hd hne

theorem signedDigits_unsigned_iff (hplus : ∀ rest, ds ≠ '+' :: rest) (hminus : ∀ rest, ds ≠ '-' :: rest) :
    SignedDigits ds n ↔ AsciiDigits ds ∧ ds ≠ [] ∧ (positionalValue ds : Int) = n := by
  constructor
  · intro h
    cases h with
    | unsigned hd hne => exact ⟨hd, hne, rfl⟩
    | plus => exact absurd rfl (hplus _)
    | minus => exact absurd rfl (hminus _)
  · rintro ⟨hd, hne, rfl⟩
    exact .unsigned hd hne

/-- Reading finds what a sign and digits denote, and nothing else is read. -/
theorem readInteger?_eq_some_iff : readInteger? s = some n ↔ SignedDigits s n := by
  have signed (sign : Int → Int) (ds : List Char) :
      Option.map sign (do let m ← readDigits? ds; pure (m : Int)) = some n ↔
        AsciiDigits ds ∧ ds ≠ [] ∧ sign (positionalValue ds) = n := by
    cases hread : readDigits? ds with
    | none =>
      refine iff_of_false nofun fun ⟨hd, hne, _⟩ => ?_
      cases hread.symm.trans (readDigits?_eq_some_iff.mpr ⟨hd, hne, rfl⟩)
    | some m =>
      obtain ⟨hd, hne, rfl⟩ := readDigits?_eq_some_iff.mp hread
      simp [hd, hne]
  unfold readInteger?
  split
  · exact (signed id _).trans signedDigits_plus_iff.symm
  · exact (signed Neg.neg _).trans signedDigits_minus_iff.symm
  · rename_i hplus hminus
    exact (signed id _).trans (signedDigits_unsigned_iff hplus hminus).symm

theorem readBigint?_eq_some_iff {text : String} : readBigint? text = some n ↔ Denotes text.toList n := by
  obtain ⟨front, back, hf, hb, hs⟩ := exists_blanks text.toList
  have htrimmed : readBigint? text = some n ↔ (trim text.toList = [] ∧ n = 0) ∨ SignedDigits (trim text.toList) n := by
    unfold readBigint?
    split
    · rename_i hnil
      rw [hnil]
      constructor
      · intro h
        exact .inl ⟨rfl, (Option.some.inj h).symm⟩
      · rintro (⟨-, rfl⟩ | h)
        · rfl
        · exact absurd rfl h.ne_nil
    · rename_i hne
      rw [readInteger?_eq_some_iff]
      exact ⟨.inr, Or.rec (fun h => absurd h.1 hne) id⟩
  rw [htrimmed]
  constructor
  · rintro (⟨hnil, rfl⟩ | h)
    · rw [hnil, List.nil_append] at hs
      rw [hs]
      exact .blank (List.forall_mem_append.mpr ⟨hf, hb⟩)
    · rw [hs]
      exact .signed hf h hb
  · intro h
    generalize text.toList = cs at h
    cases h with
    | blank hblank =>
      have htrim : trim (cs ++ ([] ++ [])) = [] := trim_append hblank nofun nofun
      exact .inl ⟨by simpa using htrim, rfl⟩
    | signed hf' hs' hb' => exact .inr (by rwa [trim_append hf' hb' hs'.not_isBlank])

/-! ### Written integers -/

/-- The decimal text of an integer with zeros in front of its digits, and with a plus if it is asked for and the integer
is not negative. -/
def paddedInteger (plus : Bool) (zeros : Nat) (n : Int) : List Char :=
  (if n < 0 then ['-'] else if plus then ['+'] else []) ++ (List.replicate zeros '0' ++ Nat.toDigits 10 n.natAbs)

/-- Without padding it is the plain decimal text. -/
theorem paddedInteger_plain (n : Int) : paddedInteger false 0 n = (toString n).toList := by
  rw [Int.toString_eq_repr, Int.repr_eq_if, paddedInteger]
  by_cases hneg : n < 0
  · have hnat : n.natAbs = (-n).toNat := by omega
    rw [if_pos hneg, if_neg (by omega), hnat]
    simp [Nat.repr_eq_ofList_toDigits]
  · have hnat : n.natAbs = n.toNat := by omega
    rw [if_neg hneg, if_pos (show 0 ≤ n by omega), hnat]
    simp [Nat.repr_eq_ofList_toDigits]

theorem signedDigits_paddedInteger (plus : Bool) (zeros : Nat) (n : Int) :
    SignedDigits (paddedInteger plus zeros n) n := by
  have hdigits := (asciiDigits_replicate_zero zeros).append (asciiDigits_toDigits n.natAbs)
  have hne : List.replicate zeros '0' ++ Nat.toDigits 10 n.natAbs ≠ [] := by simp [Nat.toDigits_ne_nil]
  have hvalue : positionalValue (List.replicate zeros '0' ++ Nat.toDigits 10 n.natAbs) = n.natAbs := by
    rw [positionalValue_zeros_append, positionalValue_toDigits]
  unfold paddedInteger
  split
  · have hminus := SignedDigits.minus hdigits hne
    rw [hvalue] at hminus
    have hn : -(n.natAbs : Int) = n := by omega
    rwa [hn] at hminus
  · have hn : (n.natAbs : Int) = n := by omega
    split
    · have hplus := SignedDigits.plus hdigits hne
      rwa [hvalue, hn] at hplus
    · have hplain := SignedDigits.unsigned hdigits hne
      rwa [hvalue, hn] at hplain

end Schemata.Text
