import Schemata.Proofs.Number.FloatText
import Schemata.Proofs.Template.Neutral
import Schemata.Proofs.Template.Pattern
import Mathlib.Logic.Relation

/-!
The texts of numbers beside the placeholder for numbers. The text that a finite number is spliced as may stand in the
placeholder, and so a template accepts no less once the placeholder takes the place of the number.
-/
namespace Schemata

namespace Text
variable {s t : List Char} {q : ℚ}

theorem isDecimalDigit_of_isDigit {c : Char} (h : c.isDigit) : isDecimalDigit c := by
  rw [Char.isDigit_iff_toNat] at h
  exact List.any_eq_true.mpr ⟨(0x0030, 0x0039), List.mem_cons_self, by simpa using h⟩

theorem AsciiDigits.digits (h : AsciiDigits s) : Digits s :=
  fun c hc => isDecimalDigit_of_isDigit (h c hc)

/-- Digits without a point are the digits that the form of a number ends with. -/
theorem numberForm_whole {sign ds exponent : List Char} (hs : Sign sign) (hd : Digits ds) (hne : ds ≠ [])
    (he : Exponent exponent) : NumberForm (sign ++ (ds ++ exponent)) := by
  have hwhole : Digits [] := nofun
  have hpoint : ([] : List Char) = [] ∨ [] = ['.'] := .inl rfl
  exact .mk hs hwhole hpoint hd hne he

/-- What is written as a rational number has the form of a number. -/
theorem numberForm_written {sign : List Char} (hs : Sign sign) (h : Decimal.Written t q) : NumberForm (sign ++ t) := by
  obtain ⟨hw, hne, hf, he, -⟩ := h
  rename_i whole point fraction exponent e
  have hexponent : Exponent exponent := by
    obtain ⟨rfl, -⟩ | ⟨ds, hd, hds, -, rfl⟩ := he.exists_digits
    · exact .none
    · have hsign : Sign [if e < 0 then '-' else '+'] := by
        split
        · exact .inr (.inr rfl)
        · exact .inr (.inl rfl)
      exact .some (.inl rfl) hsign hd.digits hds
  cases hf with
  | none => exact numberForm_whole hs hw.digits hne hexponent
  | some hd hd' => exact .mk hs hw.digits (.inr rfl) hd.digits hd' hexponent

theorem numberForm_integer (n : Int) : NumberForm (toString n).toList := by
  have hsign : Sign (if n < 0 then ['-'] else []) := by
    split
    · exact .inr (.inr rfl)
    · exact .inl rfl
  have hform := numberForm_whole hsign (asciiDigits_toDigits n.natAbs).digits Nat.toDigits_ne_nil .none
  rw [List.append_nil] at hform
  rw [← paddedInteger_plain]
  exact hform

end Text

/-- The plain text of a floating-point number has the form of a number exactly if the number is finite. -/
theorem Double.numberForm_textAs_iff {f : BinaryFormat} {x : Double} :
    Text.NumberForm (x.textAs f .plain).toList ↔ x.isFinite := by
  constructor
  · intro h
    rw [← Text.isNumberForm_iff] at h
    have hrefused {s : String} (hs : x.textAs f .plain = s) : Text.isNumberForm s.toList := hs ▸ h
    cases x with
    | nan => exact absurd (hrefused (s := "nan") rfl) (by decide)
    | infinite negative =>
      cases negative with
      | false => exact absurd (hrefused (s := "inf") rfl) (by decide)
      | true => exact absurd (hrefused (s := "-inf") rfl) (by decide)
    | finite => rfl
  · intro h
    obtain ⟨t, q, ht, htext⟩ := textAs_written f .plain h
    rw [htext]
    refine Text.numberForm_written ?_ ht
    cases x.isNegative
    · exact .inl rfl
    · exact .inr (.inr rfl)

namespace Scalar
variable {x : Scalar}

def IsFinite (x : Scalar) : Prop :=
  x.isNumber ∧ x.value.isNaN = false ∧ x.value.isInfinite = false

instance (x : Scalar) : Decidable x.IsFinite :=
  inferInstanceAs (Decidable (_ ∧ _ ∧ _))

theorem isFinite_iff (hx : x.isNumber) : x.IsFinite ↔ ∀ y, x.value.float? = some y → y.isFinite := by
  rw [IsFinite, Value.isNaN, Value.isInfinite]
  cases x.value.float? with
  | none => simp [hx]
  | some y => cases y <;> simp [hx, Double.isNaN, Double.isInfinite, Double.isFinite]

/-- The text of a number may stand in the placeholder for numbers exactly if the number is finite. -/
theorem numberForm_literalText_iff (hx : x.isNumber) :
    Text.NumberForm x.value.literalText.toList ↔ x.IsFinite := by
  rw [isFinite_iff hx]
  have hinteger {n : Int} : Text.NumberForm (toString n).toList ↔ ∀ z : Double, none = some z → z.isFinite :=
    iff_of_true (Text.numberForm_integer n) (by simp)
  have hfloat {f : BinaryFormat} {y : Double} :
      Text.NumberForm (y.textAs f .plain).toList ↔ ∀ z, some y = some z → z.isFinite := by
    rw [Double.numberForm_textAs_iff]
    simp
  cases x with
  | int n => exact hinteger
  | float y => exact hfloat
  | cell c =>
    cases c with
    | int32 n | int64 n => exact hinteger
    | float32 y | float64 y => exact hfloat
    | bool => cases hx
  | _ => cases hx

end Scalar

namespace Schema
variable {c d s : Schema} {cs ds : List Schema} {p : Scalar → Prop} {w : String}

/-! ### What templates are built from -/

theorem component_of_templateParts {us : List Schema} (h : s.templateParts = .ok us) : s.Component fun _ => True := by
  induction s using heldInduction generalizing us with
  | step s ih =>
    cases s with
    | literal a x => exact .literal a trivial
    | keyword a w =>
      cases w with
      | string => exact .string a
      | number => exact .number a
      | _ => cases h
    | union a ss =>
      obtain ⟨pss, hall, -⟩ := templatePartsOfAll_eq_ok_iff.mp h
      refine .union a fun s hs => ?_
      obtain ⟨ps, -, hps⟩ := Lists.exists_of_mem_left hall hs
      exact ih s hs hps
    | _ => cases h

theorem component_of_extendParts {sofar us : List Schema} (h : extendParts sofar cs = .ok us) :
    ∀ c ∈ cs, c.Component fun _ => True := by
  induction cs generalizing sofar with
  | nil => nofun
  | cons c cs ih =>
    obtain ⟨ps, hps, h⟩ := bind_eq_ok_iff.mp h
    obtain ⟨sofar', -, h⟩ := bind_eq_ok_iff.mp h
    exact List.forall_mem_cons.mpr ⟨component_of_templateParts hps, ih h⟩

/-- A template can only be built from components. -/
theorem component_of_templateUnion {t : Schema} (h : templateUnion cs = .ok t) :
    ∀ c ∈ cs, c.Component fun _ => True := by
  cases cs with
  | nil => nofun
  | cons c cs =>
    obtain ⟨ps, hps, h⟩ := bind_eq_ok_iff.mp h
    obtain ⟨us, hus, -⟩ := bind_eq_ok_iff.mp h
    exact List.forall_mem_cons.mpr ⟨component_of_templateParts hps, component_of_extendParts hus⟩

/-! ### Placeholders for numbers -/

/-- One literal of a finite number, which the component is or holds as a member, is replaced by the placeholder. -/
inductive Generalizes : Schema → Schema → Prop
  | literal (a b : Annotations) {x : Scalar} (hx : x.IsFinite) : Generalizes (literal a x) (keyword b .number)
  | member (a : Annotations) (before after : List Schema) {s t : Schema} (h : Generalizes s t) :
      Generalizes (union a (before ++ s :: after)) (union a (before ++ t :: after))

abbrev Generalized : Schema → Schema → Prop :=
  Relation.ReflTransGen Generalizes

theorem Generalizes.spells (h : c.Generalizes d) (hw : c.Spells w) : d.Spells w := by
  induction h with
  | literal a b hx =>
    obtain rfl := spells_literal_iff.mp hw
    exact .number b ((Scalar.numberForm_literalText_iff hx.1).mpr hx)
  | member a before after _ ih =>
    obtain ⟨u, hu, hspells⟩ := spells_union_iff.mp hw
    simp only [List.mem_append, List.mem_cons] at hu
    rcases hu with hu | rfl | hu
    · exact .union a (by simp [hu]) hspells
    · exact .union a (by simp) (ih hspells)
    · exact .union a (by simp [hu]) hspells

theorem Generalizes.component (h : c.Generalizes d) (hc : c.Component p) : d.Component p := by
  induction h with
  | literal a b => exact .number b
  | member a before after _ ih =>
    cases hc with
    | union _ hc =>
      simp only [List.forall_mem_append, List.forall_mem_cons] at hc
      refine .union a ?_
      simp only [List.forall_mem_append, List.forall_mem_cons]
      exact ⟨hc.1, ih hc.2.1, hc.2.2⟩

theorem Generalized.spells (h : c.Generalized d) (hw : c.Spells w) : d.Spells w := by
  induction h with
  | refl => exact hw
  | tail _ hstep ih => exact hstep.spells ih

theorem Generalized.component (h : c.Generalized d) (hc : c.Component p) : d.Component p := by
  induction h with
  | refl => exact hc
  | tail _ hstep ih => exact hstep.component ih

/-- Replacing numbers by placeholders anywhere in a sequence loses no text that the sequence spells. -/
theorem spelled_generalized (h : List.Forall₂ Generalized cs ds) (hw : Spelled cs w) : Spelled ds w := by
  induction h generalizing w with
  | nil => exact hw
  | cons hc _ ih =>
    obtain ⟨w₁, w₂, hw₁, hw₂, rfl⟩ := spelled_cons_iff.mp hw
    exact spelled_cons_iff.mpr ⟨w₁, w₂, hc.spells hw₁, ih hw₂, rfl⟩

end Schema

namespace Scope
open Schema

/-- The template of at least two components accepts the texts that they spell. -/
theorem templateUnion_several_recognizes (scope : Scope) (direction : Direction) {cs : List Schema}
    (hlength : 2 ≤ cs.length) (hcs : ∀ c ∈ cs, c.Component fun _ => True) :
    ∃ t, templateUnion cs = .ok t ∧ scope.Recognizes direction t fun v => ∃ w, v = .text w ∧ Spelled cs w := by
  match cs, hlength with
  | c :: d :: cs, _ =>
    obtain ⟨hc, hrest⟩ := List.forall_mem_cons.mp hcs
    exact templateUnion_recognizes scope direction hc hrest nofun

/-- The text of a spliced number fits the placeholder for numbers as a whole, be it an integer or a finite floating-point
number; the texts of other floating-point numbers do not. Hence the template of at least two components accepts whatever
it accepted before some of its numbers were replaced by the placeholder. -/
theorem templateUnion_generalized (scope : Scope) (direction : Direction) :
    (∀ x : Scalar, x.isNumber → (Slot.number.accepts x.value.literalText.toList ↔ x.IsFinite) ∧
      (Pattern.number.takes x.value.literalText ↔ x.IsFinite)) ∧
    ∀ {cs ds t}, 2 ≤ cs.length → List.Forall₂ Generalized cs ds → templateUnion cs = .ok t →
      ∃ u, templateUnion ds = .ok u ∧
        ∀ lenient v, scope.Passes direction lenient t v → scope.Passes direction lenient u v := by
  constructor
  · intro x hx
    have hform := Scalar.numberForm_literalText_iff hx
    constructor
    · rw [Slot.accepts_iff]
      exact hform
    · rw [Pattern.takes_iff Pattern.plain_number, Pattern.matches_number_iff]
      exact hform
  · intro cs ds t hlength hcs ht
    have hcomponent := component_of_templateUnion ht
    have hcomponent' : ∀ d ∈ ds, d.Component fun _ => True := by
      intro d hd
      obtain ⟨c, hc, hcd⟩ := Lists.exists_of_mem_right hcs hd
      exact hcd.component (hcomponent c hc)
    obtain ⟨t', ht', hbefore⟩ := templateUnion_several_recognizes scope direction hlength hcomponent
    obtain rfl := Except.ok.inj (ht.symm.trans ht')
    obtain ⟨u, hu, hafter⟩ := templateUnion_several_recognizes scope direction (hcs.length_eq ▸ hlength) hcomponent'
    refine ⟨u, hu, fun lenient v hv => ?_⟩
    obtain ⟨w, rfl, hw⟩ := (hbefore.passes_iff lenient v).mp hv
    exact (hafter.passes_iff lenient _).mpr ⟨w, rfl, spelled_generalized hcs hw⟩

/-- A ten-millionth is written with an exponent, and the placeholder takes this text where the number stood. -/
theorem templateUnion_generalized_exponent :
    let scope := Stock.scope []
    let x := Scalar.float (.ofRatio false 1 10000000)
    let numbers := [literal .empty (.text "v"), union .empty [literal .empty (.text "x"), literal .empty x]]
    let placeholders := [literal .empty (.text "v"), union .empty [literal .empty (.text "x"), keyword .empty .number]]
    x.isNumber ∧ x.IsFinite ∧ Pattern.number.takes "1e-07" ∧ 2 ≤ numbers.length ∧
      List.Forall₂ Generalized numbers placeholders ∧
      ∃ t u, templateUnion numbers = .ok t ∧ templateUnion placeholders = .ok u ∧
        scope.Passes .decode false t (.text "v1e-07") ∧ scope.Passes .decode false u (.text "v1e-07") := by
  intro scope x numbers placeholders
  obtain ⟨hfits, hmonotone⟩ := templateUnion_generalized scope .decode
  have hnumber : x.isNumber := rfl
  have hfinite : x.IsFinite := by decide +kernel
  have htext : x.value.literalText = "1e-07" := by decide +kernel
  have hgeneralized : List.Forall₂ Generalized numbers placeholders :=
    .cons .refl (.cons (.single (.member .empty [_] [] (.literal .empty .empty hfinite))) .nil)
  have hcomponents : ∀ c ∈ numbers, c.Component fun _ => True := by
    simp only [numbers, List.forall_mem_cons]
    refine ⟨.literal _ trivial, .union _ ?_, nofun⟩
    simp only [List.forall_mem_cons]
    exact ⟨.literal _ trivial, .literal _ trivial, nofun⟩
  obtain ⟨t, ht, haccepts⟩ := templateUnion_several_recognizes scope .decode (by decide) hcomponents
  have hliteral : (literal .empty x).Spells "1e-07" := spells_literal_iff.mpr htext.symm
  have hspelled : Spelled numbers "v1e-07" :=
    ⟨["v", "1e-07"], .cons (.literal _ (.text "v"))
      (.cons (.union _ (List.mem_cons_of_mem _ List.mem_cons_self) hliteral) .nil), rfl⟩
  have hbefore := (haccepts.passes_iff false _).mpr ⟨_, rfl, hspelled⟩
  obtain ⟨u, hu, hkept⟩ := hmonotone (by decide) hgeneralized ht
  exact ⟨hnumber, hfinite, htext ▸ (hfits x hnumber).2.mpr hfinite, by decide, hgeneralized, t, u, ht, hu, hbefore,
    hkept false _ hbefore⟩

end Scope
end Schemata
