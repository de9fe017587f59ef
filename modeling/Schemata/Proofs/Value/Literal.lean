import Schemata.Proofs.Value.Equality
import Schemata.Value.Scalar

/-!
The laws of literal equality. It has three cases: two booleans, two numbers, and two other values of one type. Literals
that are equal as scalars accept the same values.
-/
namespace Schemata

namespace Value
variable {v w u : Value}

theorem numeral?_of_boolean {b : Bool} (h : v.boolean? = some b) :
    v.numeral? = some (.int (if b then 1 else 0)) := by
  cases v with
  | bool c => cases h; rfl
  | cell c =>
    cases c with
    | bool c => cases h; rfl
    | _ => cases h
  | _ => cases h

theorem numeral?_of_number {n : Numeral} (h : v.number? = some n) : v.numeral? = some n := by
  cases v with
  | int | float => exact h
  | cell c =>
    cases c with
    | bool c => cases h
    | _ => exact h
  | _ => cases h

theorem number?_of_numeral {n : Numeral} (hb : v.boolean? = none) (h : v.numeral? = some n) :
    v.number? = some n := by
  cases v with
  | int | float => exact h
  | cell c =>
    cases c with
    | bool c => cases hb
    | _ => exact h
  | bool c => cases hb
  | _ => cases h

theorem boolean?_of_number {n : Numeral} (h : v.number? = some n) : v.boolean? = none := by
  cases v with
  | cell c =>
    cases c with
    | bool c => cases h
    | _ => rfl
  | bool c => cases h
  | _ => rfl

inductive LiteralAlike (v w : Value) : Prop
  | boolean {b : Bool} (hv : v.boolean? = some b) (hw : w.boolean? = some b)
  | number {m n : Numeral} (hv : v.number? = some m) (hw : w.number? = some n) (h : m.equals n)
  | other (hv : v.numeral? = none) (hw : w.numeral? = none) (ht : v.typeName = w.typeName) (h : v.equals w)

theorem literalEquals_iff : v.literalEquals w ↔ LiteralAlike v w := by
  rw [literalEquals]
  constructor
  · intro h
    cases hv : v.boolean? with
    | some b =>
      cases hw : w.boolean? with
      | none => simp [hv, hw] at h
      | some c =>
        obtain rfl : b = c := by simpa [hv, hw] using h
        exact .boolean hv hw
    | none =>
      cases hw : w.boolean? with
      | some c => simp [hv, hw] at h
      | none =>
        cases hm : v.number? with
        | some m =>
          cases hn : w.number? with
          | none => simp [hv, hw, hm, hn] at h
          | some n => exact .number hm hn (by simpa [hv, hw, hm, hn] using h)
        | none =>
          cases hn : w.number? with
          | some n => simp [hv, hw, hm, hn] at h
          | none =>
            simp only [hv, hw, hm, hn, Bool.and_eq_true, beq_iff_eq] at h
            refine .other ?_ ?_ h.1 h.2
            · exact Option.eq_none_iff_forall_ne_some.mpr fun a ha => by simp [number?_of_numeral hv ha] at hm
            · exact Option.eq_none_iff_forall_ne_some.mpr fun a ha => by simp [number?_of_numeral hw ha] at hn
  · have other {u : Value} (hu : u.numeral? = none) : u.boolean? = none ∧ u.number? = none := by
      constructor
      · exact Option.eq_none_iff_forall_ne_some.mpr fun b hb => by simp [numeral?_of_boolean hb] at hu
      · exact Option.eq_none_iff_forall_ne_some.mpr fun n hn => by simp [numeral?_of_number hn] at hu
    intro h
    cases h with
    | boolean hv hw => simp [hv, hw]
    | number hv hw h => simpa [boolean?_of_number hv, boolean?_of_number hw, hv, hw] using h
    | other hv hw ht h => simp [other hv, other hw, ht, h]

theorem literalEquals_symm (hv : v.hashable) (h : v.literalEquals w) : w.literalEquals v := by
  rw [literalEquals_iff] at h ⊢
  cases h with
  | boolean hv hw => exact .boolean hw hv
  | number hv hw h => exact .number hw hv (Numeral.equals_symm h)
  | other hv' hw ht h => exact .other hw hv' ht.symm (equals_symm hv h)

theorem literalEquals_trans (h : v.literalEquals w) (k : w.literalEquals u) : v.literalEquals u := by
  rw [literalEquals_iff] at h k ⊢
  cases h with
  | boolean hv hw =>
    cases k with
    | boolean hw' hu => exact .boolean (hv.trans (hw.symm.trans hw')) hu
    | number hw' => simp [boolean?_of_number hw'] at hw
    | other hw' => simp [numeral?_of_boolean hw] at hw'
  | number hv hw h =>
    cases k with
    | boolean hw' => simp [boolean?_of_number hw] at hw'
    | number hw' hu k =>
      obtain rfl := Option.some.inj (hw.symm.trans hw')
      exact .number hv hu (Numeral.equals_trans h k)
    | other hw' => simp [numeral?_of_number hw] at hw'
  | other hv hw ht h =>
    cases k with
    | boolean hw' => simp [numeral?_of_boolean hw'] at hw
    | number hw' => simp [numeral?_of_number hw'] at hw
    | other _ hu ht' k => exact .other hv hu (ht.trans ht') (equals_trans h k)

theorem isNaN_iff {n : Numeral} (h : v.number? = some n) : v.isNaN ↔ n.place? = none := by
  have int (i : Int) : (Numeral.int i).place? ≠ none := by
    obtain ⟨units, hu⟩ := Numeral.place?_int i
    simp [hu]
  have float (x : Double) : x.isNaN ↔ (Numeral.float x).place? = none := by
    cases x <;> simp [Double.isNaN, Numeral.place?]
  cases v with
  | int i => cases h; simpa [isNaN, float?] using int i
  | float x => cases h; simpa [isNaN, float?] using float x
  | cell c =>
    cases c with
    | int32 i | int64 i => cases h; simpa [isNaN, float?, Cell.numeral] using int i
    | float32 x | float64 x => cases h; simpa [isNaN, float?, Cell.numeral] using float x
    | bool b => cases h
  | _ => cases h

theorem isInfinite_iff {n : Numeral} (h : v.number? = some n) :
    v.isInfinite ↔ n.place? = some .below ∨ n.place? = some .above := by
  have int (i : Int) : ¬((Numeral.int i).place? = some .below ∨ (Numeral.int i).place? = some .above) := by
    obtain ⟨units, hu⟩ := Numeral.place?_int i
    simp [hu]
  have float (x : Double) : x.isInfinite ↔
      (Numeral.float x).place? = some .below ∨ (Numeral.float x).place? = some .above := by
    cases x with
    | infinite negative => cases negative <;> simp [Double.isInfinite, Numeral.place?]
    | nan | finite => simp [Double.isInfinite, Numeral.place?]
  cases v with
  | int i => cases h; simpa [isInfinite, float?] using int i
  | float x => cases h; simpa [isInfinite, float?] using float x
  | cell c =>
    cases c with
    | int32 i | int64 i => cases h; simpa [isInfinite, float?, Cell.numeral] using int i
    | float32 x | float64 x => cases h; simpa [isInfinite, float?, Cell.numeral] using float x
    | bool b => cases h
  | _ => cases h

/-- What equals a number as a literal is a number, never not-a-number, and infinite only beside an infinity. -/
theorem number_of_literalEquals (hw : w.isNumber) (h : v.literalEquals w) :
    v.isNumber ∧ v.isNaN = false ∧ v.isInfinite = w.isInfinite := by
  obtain ⟨n, hn⟩ := Option.isSome_iff_exists.mp hw
  cases literalEquals_iff.mp h with
  | boolean _ hb => simp [boolean?_of_number hn] at hb
  | other _ ho => simp [numeral?_of_number hn] at ho
  | number hm hn he =>
    obtain ⟨p, hp, hq⟩ := (Numeral.equals_iff _ _).mp he
    refine ⟨Option.isSome_iff_exists.mpr ⟨_, hm⟩, ?_, ?_⟩
    · rw [Bool.eq_false_iff, ne_eq, isNaN_iff hm, hp]
      simp
    · rw [Bool.eq_iff_iff, isInfinite_iff hm, isInfinite_iff hn, hp, hq]

theorem isText_of_literalEquals (hw : w.isText) (h : v.literalEquals w) : v.isText := by
  cases w <;> cases hw
  cases literalEquals_iff.mp h with
  | boolean _ hb => cases hb
  | number _ hn => cases hn
  | other hv _ _ he =>
    cases (equalsUpTo_iff _ _).mp he with
    | text => rfl
    | number hm => simp [hm] at hv
    | mapping _ hf => cases hf

theorem isSymbol_of_equals {key : String} (h : v.equals (.symbol key)) : v.isSymbol := by
  cases (equalsUpTo_iff _ _).mp h with
  | symbol => rfl
  | number _ hn => cases hn
  | mapping _ hf => cases hf

/-- Equal keys are equal as literals, unless one of them is a boolean and the other a number. -/
theorem literalEquals_of_equals (hv : v.hashable) (hb : v.isBoolean = w.isBoolean) (h : v.equals w) :
    v.literalEquals w := by
  rw [literalEquals_iff]
  have he := (equalsUpTo_iff v w).mp h
  cases he with
  | null | undefined | text | symbol | bytes => exact .other rfl rfl rfl h
  | list | array | set => simp [hashable] at hv
  | mapping hv' => simp [hashable_of_entries hv'] at hv
  | tuple => exact .other rfl rfl rfl h
  | number hm hn he =>
    cases hvb : v.boolean? with
    | some b =>
      obtain ⟨c, hwb⟩ := Option.isSome_iff_exists.mp (by simpa [isBoolean, hvb] using hb.symm)
      rw [numeral?_of_boolean hvb, Option.some.injEq] at hm
      rw [numeral?_of_boolean hwb, Option.some.injEq] at hn
      subst hm hn
      obtain rfl : b = c := by
        rw [Numeral.equals_int] at he
        cases b <;> cases c <;> simp at he ⊢
      exact .boolean hvb hwb
    | none =>
      have hwb : w.boolean? = none := by simpa [isBoolean, hvb] using hb.symm
      exact .number (number?_of_numeral hvb hm) (number?_of_numeral hwb hn) he

/-- Values that are equal as literals are equal to the same values. -/
theorem literalEquals_congr (hv : v.hashable) (h : v.literalEquals w) (x : Value) :
    x.literalEquals v = x.literalEquals w := by
  rw [Bool.eq_iff_iff]
  exact ⟨fun k => literalEquals_trans k h, fun k => literalEquals_trans k (literalEquals_symm hv h)⟩

end Value

namespace Scalar

theorem hashable_value (x : Scalar) : x.value.hashable := by
  cases x <;> rfl

theorem isBoolean_value (x : Scalar) : x.value.isBoolean = (x.tag == .boolean) := by
  cases x with
  | cell c => cases c <;> rfl
  | _ => rfl

theorem isNumber_value (x : Scalar) : x.value.isNumber = x.isNumber := by
  cases x with
  | cell c => cases c <;> rfl
  | _ => rfl

theorem isText_value (x : Scalar) : x.value.isText = x.isText := by
  cases x <;> rfl

theorem isText_eq (x : Scalar) : x.isText = (x.tag == .text) := by
  cases x with
  | cell c => cases c <;> rfl
  | _ => rfl

/-- Equal scalars accept the same values as literals. -/
theorem literalEquals_congr {x y : Scalar} (h : x.equals y) (v : Value) :
    v.literalEquals x.value = v.literalEquals y.value := by
  simp only [equals, Bool.and_eq_true, beq_iff_eq] at h
  refine Value.literalEquals_congr x.hashable_value ?_ v
  exact Value.literalEquals_of_equals x.hashable_value (by rw [isBoolean_value, isBoolean_value, h.1]) h.2

end Scalar
end Schemata
