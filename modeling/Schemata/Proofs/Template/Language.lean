import Schemata.Proofs.Decode.Canonical
import Schemata.Proofs.Schema.Canonical
import Schemata.Proofs.Template.Match

/-!
The language of a template built from components. A component spells texts: a literal its own text, a placeholder what
may stand in it, a union what a member spells. The union of all combinations accepts exactly the texts that can be cut
into one text for each component, however the combinations were merged and whatever the union left out.
-/
namespace Schemata

/-- A text stands for itself. -/
theorem Scalar.literalText_text (s : String) : (Scalar.text s).value.literalText = s := rfl

namespace Schema

/-- What a template can be built from: literals whose scalars have the property, placeholders, and unions of these. -/
inductive Component (p : Scalar → Prop) : Schema → Prop
  | literal (a : Annotations) {x : Scalar} (hx : p x) : Component p (literal a x)
  | string (a : Annotations) : Component p (keyword a .string)
  | number (a : Annotations) : Component p (keyword a .number)
  | union (a : Annotations) {ss : List Schema} (h : ∀ s ∈ ss, Component p s) : Component p (union a ss)

/-- The texts that a component or a template stands for. -/
inductive Spells : Schema → String → Prop
  | literal (a : Annotations) (x : Scalar) : Spells (literal a x) x.value.literalText
  | string (a : Annotations) (t : String) : Spells (keyword a .string) t
  | number (a : Annotations) {t : String} (h : Text.NumberForm t.toList) : Spells (keyword a .number) t
  | template (a : Annotations) {head : String} {first : Span} {more : List Span} {t : String} {s : List Char}
      (h : Fills (first :: more) s) (ht : t.toList = head.toList ++ s) : Spells (template a head first more) t
  | union (a : Annotations) {ss : List Schema} {s : Schema} {t : String} (hs : s ∈ ss) (h : s.Spells t) :
      Spells (union a ss) t

/-- The values that a component or a template takes by itself. A literal takes what equals it, be it a text or not. -/
inductive Takes : Schema → Value → Prop
  | literal (a : Annotations) {x : Scalar} {v : Value} (h : v.literalEquals x.value) : Takes (literal a x) v
  | string (a : Annotations) {t : String} (h : (keyword a .string).Spells t) : Takes (keyword a .string) (.text t)
  | number (a : Annotations) {t : String} (h : (keyword a .number).Spells t) : Takes (keyword a .number) (.text t)
  | template (a : Annotations) {head : String} {first : Span} {more : List Span} {t : String}
      (h : (template a head first more).Spells t) : Takes (template a head first more) (.text t)
  | union (a : Annotations) {ss : List Schema} {s : Schema} {v : Value} (hs : s ∈ ss) (h : s.Takes v) :
      Takes (union a ss) v

inductive TemplatePart (p : Scalar → Prop) : Schema → Prop
  | literal (a : Annotations) {x : Scalar} (hx : p x) : TemplatePart p (literal a x)
  | template (a : Annotations) (head : String) (first : Span) (more : List Span) :
      TemplatePart p (template a head first more)

section
variable {a : Annotations} {t : String} {p q : Scalar → Prop}

theorem spells_literal_iff {x : Scalar} : (literal a x).Spells t ↔ t = x.value.literalText := by
  constructor
  · intro h
    cases h
    rfl
  · rintro rfl
    exact .literal a x

theorem spells_template_iff {head : String} {first : Span} {more : List Span} :
    (template a head first more).Spells t ↔ ∃ s, Fills (first :: more) s ∧ t.toList = head.toList ++ s := by
  constructor
  · intro h
    cases h with
    | template _ h ht => exact ⟨_, h, ht⟩
  · rintro ⟨s, h, ht⟩
    exact .template a h ht

theorem spells_union_iff {ss : List Schema} : (union a ss).Spells t ↔ ∃ s ∈ ss, s.Spells t := by
  constructor
  · intro h
    cases h with
    | union _ hs h => exact ⟨_, hs, h⟩
  · rintro ⟨s, hs, h⟩
    exact .union a hs h

theorem spells_placeholder_iff {b : Annotations} {slot : Slot} :
    (template a "" ⟨slot, b, ""⟩ []).Spells t ↔ slot.Admits t.toList := by
  simp [spells_template_iff, fills_cons_iff, fills_nil_iff]

theorem spells_keyword_iff {slot : Slot} : (keyword a slot.keyword).Spells t ↔ slot.Admits t.toList := by
  cases slot with
  | string => exact iff_of_true (.string a t) trivial
  | number =>
    constructor
    · intro h
      cases h with
      | number _ h => exact h
    · exact .number a

theorem takes_literal_iff {x : Scalar} {v : Value} : (literal a x).Takes v ↔ v.literalEquals x.value := by
  constructor
  · intro h
    cases h with
    | literal _ h => exact h
  · exact .literal a

theorem takes_keyword_iff {slot : Slot} {v : Value} :
    (keyword a slot.keyword).Takes v ↔ ∃ t, v = .text t ∧ (keyword a slot.keyword).Spells t := by
  constructor
  · intro h
    cases slot with
    | string =>
      cases h with
      | string _ h => exact ⟨_, rfl, h⟩
    | number =>
      cases h with
      | number _ h => exact ⟨_, rfl, h⟩
  · rintro ⟨t, rfl, h⟩
    cases slot with
    | string => exact .string a h
    | number => exact .number a h

theorem takes_template_iff {head : String} {first : Span} {more : List Span} {v : Value} :
    (template a head first more).Takes v ↔ ∃ t, v = .text t ∧ (template a head first more).Spells t := by
  constructor
  · intro h
    cases h with
    | template _ h => exact ⟨_, rfl, h⟩
  · rintro ⟨t, rfl, h⟩
    exact .template a h

theorem takes_union_iff {ss : List Schema} {v : Value} : (union a ss).Takes v ↔ ∃ s ∈ ss, s.Takes v := by
  constructor
  · intro h
    cases h with
    | union _ hs h => exact ⟨_, hs, h⟩
  · rintro ⟨s, hs, h⟩
    exact .union a hs h

theorem TemplatePart.imp {s : Schema} (h : s.TemplatePart p) (hpq : ∀ x, p x → q x) : s.TemplatePart q := by
  cases h with
  | literal a hx => exact .literal a (hpq _ hx)
  | template => exact .template ..

/-- A template without placeholders is the literal of its head. -/
theorem templateOf_spells {head : String} {spans : List Span} :
    (templateOf head spans).Spells t ↔ ∃ s, Fills spans s ∧ t.toList = head.toList ++ s := by
  cases spans with
  | nil =>
    rw [templateOf, spells_literal_iff, Scalar.literalText_text]
    simp [fills_nil_iff, String.toList_inj]
  | cons first more => exact spells_template_iff

theorem templateOf_part (head : String) (spans : List Span) : (templateOf head spans).TemplatePart (·.isText) := by
  cases spans with
  | nil => exact .literal _ rfl
  | cons first more => exact .template ..

/-- Two parts are combined into one that spells what the first spells followed by what the second spells. -/
theorem combine_spells {s t : Schema} (hs : s.TemplatePart p) (ht : t.TemplatePart q) :
    ∃ u, s.combine t = .ok u ∧ u.TemplatePart (·.isText) ∧
      ∀ w, u.Spells w ↔ ∃ w₁ w₂, s.Spells w₁ ∧ t.Spells w₂ ∧ w = w₁ ++ w₂ := by
  cases hs with
  | literal =>
    cases ht with
    | literal =>
      refine ⟨_, rfl, .literal _ rfl, fun w => ?_⟩
      simp [spells_literal_iff, Scalar.literalText_text]
    | template =>
      refine ⟨_, rfl, templateOf_part .., fun w => ?_⟩
      simp only [templateOf_spells, spells_literal_iff, spells_template_iff]
      constructor
      · rintro ⟨s, hs, hw⟩
        exact ⟨_, .ofList _, rfl, ⟨s, hs, String.toList_ofList⟩, String.toList_inj.mp (by simp [hw])⟩
      · rintro ⟨_, w₂, rfl, ⟨s, hs, hw⟩, rfl⟩
        exact ⟨s, hs, by simp [hw]⟩
  | template =>
    cases ht with
    | literal =>
      refine ⟨_, rfl, templateOf_part .., fun w => ?_⟩
      simp only [templateOf_spells, spells_literal_iff, spells_template_iff, fills_appendToLast_iff]
      constructor
      · rintro ⟨_, ⟨s, hs, rfl⟩, hw⟩
        exact ⟨.ofList _, _, ⟨s, hs, String.toList_ofList⟩, rfl, String.toList_inj.mp (by simp [hw])⟩
      · rintro ⟨w₁, _, ⟨s, hs, hw⟩, rfl, rfl⟩
        exact ⟨_, ⟨s, hs, rfl⟩, by simp [hw]⟩
    | template =>
      refine ⟨_, rfl, templateOf_part .., fun w => ?_⟩
      simp only [templateOf_spells, spells_template_iff, fills_append_iff, fills_appendToLast_iff]
      constructor
      · rintro ⟨_, ⟨_, u, ⟨s, hs, rfl⟩, hu, rfl⟩, hw⟩
        exact ⟨.ofList _, .ofList _, ⟨s, hs, String.toList_ofList⟩, ⟨u, hu, String.toList_ofList⟩,
          String.toList_inj.mp (by simp [hw])⟩
      · rintro ⟨w₁, w₂, ⟨s, hs, hw₁⟩, ⟨u, hu, hw₂⟩, rfl⟩
        exact ⟨_, ⟨_, u, ⟨s, hs, rfl⟩, hu, rfl⟩, by simp [hw₁, hw₂]⟩

/-- All combinations of two lists of parts spell what a part of the first followed by a part of the second spells. -/
theorem combineAll_spells {ss ts : List Schema} (hs : ∀ s ∈ ss, s.TemplatePart p) (ht : ∀ t ∈ ts, t.TemplatePart q) :
    ∃ us, combineAll ss ts = .ok us ∧ (∀ u ∈ us, u.TemplatePart (·.isText)) ∧
      ∀ w, (∃ u ∈ us, u.Spells w) ↔
        ∃ w₁ w₂, (∃ s ∈ ss, s.Spells w₁) ∧ (∃ t ∈ ts, t.Spells w₂) ∧ w = w₁ ++ w₂ := by
  have hrow : ∀ s ∈ ss, ∃ row, ts.mapM (fun t => s.combine t) = .ok row := by
    intro s hsm
    obtain ⟨row, hrow⟩ := Lists.exists_forall₂ (R := fun t u => s.combine t = .ok u) fun t htm =>
      (combine_spells (hs s hsm) (ht t htm)).imp fun _ h => h.1
    exact ⟨row, mapM_eq_ok_iff.mpr hrow⟩
  obtain ⟨rows, hrows⟩ := Lists.exists_forall₂ hrow
  have hok : ss.mapM (fun s => ts.mapM fun t => s.combine t) = .ok rows := mapM_eq_ok_iff.mpr hrows
  have hmem : ∀ u, u ∈ rows.flatten ↔ ∃ s ∈ ss, ∃ t ∈ ts, s.combine t = .ok u := by
    intro u
    rw [List.mem_flatten]
    constructor
    · rintro ⟨row, hr, hu⟩
      obtain ⟨s, hsm, hsr⟩ := (mem_iff_of_mapM hok).mp hr
      exact ⟨s, hsm, (mem_iff_of_mapM hsr).mp hu⟩
    · rintro ⟨s, hsm, hu⟩
      obtain ⟨row, hsr⟩ := hrow s hsm
      exact ⟨row, (mem_iff_of_mapM hok).mpr ⟨s, hsm, hsr⟩, (mem_iff_of_mapM hsr).mpr hu⟩
  refine ⟨rows.flatten, by rw [combineAll, hok]; rfl, fun u hu => ?_, fun w => ?_⟩
  · obtain ⟨s, hsm, t, htm, hst⟩ := (hmem u).mp hu
    obtain ⟨u', hu', hpart, -⟩ := combine_spells (hs s hsm) (ht t htm)
    exact Except.ok.inj (hu'.symm.trans hst) ▸ hpart
  · constructor
    · rintro ⟨u, hu, hw⟩
      obtain ⟨s, hsm, t, htm, hst⟩ := (hmem u).mp hu
      obtain ⟨u', hu', -, hspells⟩ := combine_spells (hs s hsm) (ht t htm)
      obtain rfl := Except.ok.inj (hu'.symm.trans hst)
      obtain ⟨w₁, w₂, hw₁, hw₂, rfl⟩ := (hspells w).mp hw
      exact ⟨w₁, w₂, ⟨s, hsm, hw₁⟩, ⟨t, htm, hw₂⟩, rfl⟩
    · rintro ⟨w₁, w₂, ⟨s, hsm, hw₁⟩, ⟨t, htm, hw₂⟩, rfl⟩
      obtain ⟨u, hu, -, hspells⟩ := combine_spells (hs s hsm) (ht t htm)
      exact ⟨u, (hmem u).mpr ⟨s, hsm, t, htm, hu⟩, (hspells _).mpr ⟨w₁, w₂, hw₁, hw₂, rfl⟩⟩

/-- What holds of a union for one of its members, and of a placeholder as of the template that is made of it, holds of a
component for one of its parts. -/
theorem templateParts_covers {α : Type} {r : Schema → α → Prop}
    (hunion : ∀ a ss w, r (union a ss) w ↔ ∃ s ∈ ss, r s w)
    (hslot : ∀ a slot w, r (template .empty "" ⟨slot, a, ""⟩ []) w ↔ r (keyword a slot.keyword) w)
    {s : Schema} (hs : s.Component p) :
    ∃ us, s.templateParts = .ok us ∧ (∀ u ∈ us, u.TemplatePart p) ∧ ∀ w, (∃ u ∈ us, r u w) ↔ r s w := by
  induction hs with
  | literal a hx =>
    refine ⟨_, rfl, ?_, fun w => ?_⟩
    · simpa using .literal a hx
    · simp
  | string a =>
    refine ⟨_, rfl, ?_, fun w => ?_⟩
    · simpa using .template ..
    · simpa [Slot.keyword] using hslot a .string w
  | number a =>
    refine ⟨_, rfl, ?_, fun w => ?_⟩
    · simpa using .template ..
    · simpa [Slot.keyword] using hslot a .number w
  | @union a ss h ih =>
    obtain ⟨uss, huss⟩ := Lists.exists_forall₂ fun s hs => (ih s hs).imp fun _ h => h.1
    refine ⟨uss.flatten, templatePartsOfAll_eq_ok_iff.mpr ⟨uss, huss, rfl⟩, fun u hu => ?_, fun w => ?_⟩
    · obtain ⟨us, hus, hu⟩ := List.mem_flatten.mp hu
      obtain ⟨s, hs, hsu⟩ := Lists.exists_of_mem_right huss hus
      obtain ⟨us', hus', hpart, -⟩ := ih s hs
      obtain rfl := Except.ok.inj (hsu.symm.trans hus')
      exact hpart u hu
    · rw [hunion]
      constructor
      · rintro ⟨u, hu, hw⟩
        obtain ⟨us, hus, hu⟩ := List.mem_flatten.mp hu
        obtain ⟨s, hs, hsu⟩ := Lists.exists_of_mem_right huss hus
        obtain ⟨us', hus', -, hcovers⟩ := ih s hs
        obtain rfl := Except.ok.inj (hsu.symm.trans hus')
        exact ⟨s, hs, (hcovers w).mp ⟨u, hu, hw⟩⟩
      · rintro ⟨s, hs, hw⟩
        obtain ⟨us, hus, hsu⟩ := Lists.exists_of_mem_left huss hs
        obtain ⟨us', hus', -, hcovers⟩ := ih s hs
        obtain rfl := Except.ok.inj (hsu.symm.trans hus')
        obtain ⟨u, hu, huw⟩ := (hcovers w).mpr hw
        exact ⟨u, List.mem_flatten.mpr ⟨us, hus, hu⟩, huw⟩

/-- A component spells what its parts spell. -/
theorem templateParts_spells {s : Schema} (hs : s.Component p) :
    ∃ us, s.templateParts = .ok us ∧ (∀ u ∈ us, u.TemplatePart p) ∧
      ∀ w, (∃ u ∈ us, u.Spells w) ↔ s.Spells w := by
  refine templateParts_covers (fun _ _ _ => spells_union_iff) (fun a slot w => ?_) hs
  rw [spells_placeholder_iff, spells_keyword_iff]

/-- A component takes what its parts take. -/
theorem templateParts_takes {s : Schema} (hs : s.Component p) :
    ∃ us, s.templateParts = .ok us ∧ (∀ u ∈ us, u.TemplatePart p) ∧
      ∀ v, (∃ u ∈ us, u.Takes v) ↔ s.Takes v := by
  refine templateParts_covers (fun _ _ _ => takes_union_iff) (fun a slot v => ?_) hs
  simp only [takes_template_iff, takes_keyword_iff, spells_placeholder_iff, spells_keyword_iff]

/-- Putting further components behind parts that are there already; after the first of them all literals are texts. -/
theorem extendParts_spells {sofar cs : List Schema} (hs : ∀ s ∈ sofar, s.TemplatePart p)
    (hc : ∀ c ∈ cs, c.Component q) :
    ∃ us, extendParts sofar cs = .ok us ∧
      ((cs = [] → ∀ x, p x → x.isText) → ∀ u ∈ us, u.TemplatePart (·.isText)) ∧
      ∀ w, (∃ u ∈ us, u.Spells w) ↔
        ∃ w₁ ws, (∃ s ∈ sofar, s.Spells w₁) ∧ List.Forall₂ Spells cs ws ∧ w = w₁ ++ String.join ws := by
  induction cs generalizing sofar p with
  | nil =>
    refine ⟨sofar, rfl, fun h u hu => (hs u hu).imp (h rfl), fun w => ?_⟩
    simp [List.forall₂_nil_left_iff]
  | cons c cs ih =>
    rw [List.forall_mem_cons] at hc
    obtain ⟨parts, hparts, hpart, hspells⟩ := templateParts_spells hc.1
    obtain ⟨combined, hcombined, htext, hboth⟩ := combineAll_spells hs hpart
    obtain ⟨us, hus, hall, hrest⟩ := ih htext hc.2
    refine ⟨us, ?_, fun _ => hall fun _ _ hx => hx, fun w => ?_⟩
    · simp only [extendParts, bind_eq_ok_iff]
      exact ⟨parts, hparts, combined, hcombined, hus⟩
    · simp only [hrest, hboth, hspells, List.forall₂_cons_left_iff]
      constructor
      · rintro ⟨_, ws, ⟨w₁, w₂, hw₁, hw₂, rfl⟩, hws, rfl⟩
        exact ⟨w₁, w₂ :: ws, hw₁, ⟨w₂, ws, hw₂, hws, rfl⟩, by rw [String.join_cons, String.append_assoc]⟩
      · rintro ⟨w₁, _, hw₁, ⟨w₂, ws, hw₂, hws, rfl⟩, rfl⟩
        exact ⟨w₁ ++ w₂, ws, ⟨w₁, w₂, hw₁, hw₂, rfl⟩, hws, by rw [String.join_cons, String.append_assoc]⟩

/-- The combinations of the components spell what the components spell one after another. -/
theorem templateUnion_eq_oneOf {c : Schema} {cs : List Schema} (hc : c.Component p) (hcs : ∀ c ∈ cs, c.Component q)
    (htext : cs = [] → ∀ x, p x → x.isText) :
    ∃ us, templateUnion (c :: cs) = .ok (oneOf us .empty) ∧ (∀ u ∈ us, u.TemplatePart (·.isText)) ∧
      ∀ w, (∃ u ∈ us, u.Spells w) ↔ ∃ ws, List.Forall₂ Spells (c :: cs) ws ∧ w = String.join ws := by
  obtain ⟨parts, hparts, hpart, hspells⟩ := templateParts_spells hc
  obtain ⟨us, hus, hall, hrest⟩ := extendParts_spells hpart hcs
  refine ⟨us, ?_, hall htext, fun w => ?_⟩
  · simp only [templateUnion, bind_eq_ok_iff]
    exact ⟨parts, hparts, us, hus, rfl⟩
  · simp only [hrest, hspells, List.forall₂_cons_left_iff]
    constructor
    · rintro ⟨w₁, ws, hw₁, hws, rfl⟩
      exact ⟨w₁ :: ws, ⟨w₁, ws, hw₁, hws, rfl⟩, String.join_cons.symm⟩
    · rintro ⟨_, ⟨w₁, ws, hw₁, hws, rfl⟩, rfl⟩
      exact ⟨w₁, ws, hw₁, hws, String.join_cons⟩

end

end Schema

theorem Value.literalEquals_text {v : Value} {s : String} : v.literalEquals (.text s) ↔ v = .text s := by
  constructor
  · intro h
    have hv : v.isText := isText_of_literalEquals rfl h
    cases v <;> cases hv
    cases literalEquals_iff.mp h with
    | boolean hb => cases hb
    | number hn => cases hn
    | other _ _ _ he => simpa [equals, equalsUpTo] using he
  · rintro rfl
    exact literalEquals_iff.mpr (.other rfl rfl rfl (by simp [equals, equalsUpTo]))

/-- A part without literals other than texts takes the texts that it spells. -/
theorem Schema.takes_part_iff {s : Schema} (hs : s.TemplatePart (·.isText)) (v : Value) :
    s.Takes v ↔ ∃ w, v = .text w ∧ s.Spells w := by
  cases hs with
  | @literal a x hx =>
    obtain ⟨t, rfl⟩ : ∃ t, x = .text t := by
      cases x with
      | text t => exact ⟨t, rfl⟩
      | _ => cases hx
    simp [takes_literal_iff, spells_literal_iff, Scalar.value, Value.literalEquals_text, Value.literalText,
      Value.boolean?, Value.plain]
  | template => exact takes_template_iff

namespace Scope
open Schema
variable {scope : Scope} {direction : Direction} {lenient : Bool}

theorem parseTemplate_passes_iff (a : Annotations) (head : String) (spans : List Span) (v : Value) :
    (scope.parseTemplate a head spans v).passes lenient ↔ ∃ w, v = .text w ∧ Template.accepts head spans w := by
  cases v with
  | text w =>
    rw [parseTemplate]
    split <;> simp_all [mismatch, Outcome.passes]
  | _ => simp [parseTemplate, mismatch, Outcome.passes]

/-- A part comes to an outcome on every value, and it is a clean success on what the part takes. -/
theorem passes_part_iff {p : Scalar → Prop} {s : Schema} (hs : s.TemplatePart p) (v : Value) :
    (∃ o, scope.Yields direction s v o) ∧ (scope.Passes direction lenient s v ↔ s.Takes v) := by
  cases hs with
  | @literal a x hx =>
    have hy : scope.Yields direction (.literal a x) v (scope.parseLiteral a x v) := ⟨0, run_literal ..⟩
    exact ⟨⟨_, hy⟩, by rw [← hy.passes_iff, parseLiteral_passes_iff, takes_literal_iff]⟩
  | template a head first more =>
    have hy : scope.Yields direction (.template a head first more) v (scope.parseTemplate a head (first :: more) v) :=
      ⟨0, run_template ..⟩
    refine ⟨⟨_, hy⟩, ?_⟩
    simp only [← hy.passes_iff, parseTemplate_passes_iff, Template.accepts_iff, takes_template_iff,
      spells_template_iff]

theorem alternatives_part {p : Scalar → Prop} {s : Schema} (hs : s.TemplatePart p) : s.alternatives = [s] := by
  cases hs <;> rfl

/-- The union of parts is accepted cleanly or not at all, and on what a part takes. -/
theorem oneOf_takes {p : Scalar → Prop} {us : List Schema} {a : Annotations} (hus : ∀ u ∈ us, u.TemplatePart p)
    (v : Value) :
    ∃ o, scope.Yields direction (.oneOf us a) v o ∧ ∀ lenient, o.passes lenient ↔ ∃ u ∈ us, u.Takes v := by
  have hpasses (lenient : Bool) {u : Schema} (hu : u ∈ us) : scope.Passes direction lenient u v ↔ u.Takes v :=
    (passes_part_iff (hus u hu) v).2
  have halone {P : Schema → Prop} : (∃ u ∈ us, ∃ s ∈ u.alternatives, P s) ↔ ∃ u ∈ us, P u := by
    refine exists_congr fun u => and_congr_right fun hu => ?_
    simp [alternatives_part (hus u hu)]
  have hyields : ∀ u ∈ us, ∀ s ∈ u.alternatives, ∃ o, scope.Yields direction s v o := by
    intro u hu s hs
    rw [alternatives_part (hus u hu), List.mem_singleton] at hs
    obtain ⟨hyields, -⟩ : (∃ o, scope.Yields direction u v o) ∧ (scope.Passes direction true u v ↔ u.Takes v) :=
      passes_part_iff (hus u hu) v
    exact hs ▸ hyields
  have hconventional : ∀ u ∈ us, scope.Conventional u := by
    intro u hu
    cases hus u hu <;> exact conventional_of_next trivial (by simp [next, children])
  have hmem : ∀ s ∈ unify us, s ∈ us := by
    intro s hs
    obtain ⟨u, hu, hsu⟩ := mem_unify hs
    rw [alternatives_part (hus u hu), List.mem_singleton] at hsu
    exact hsu ▸ hu
  obtain ⟨o, ho⟩ := oneOf_yields hyields
  refine ⟨o, ho, fun lenient => ?_⟩
  -- What is kept gives no warnings, so that what is left out can be looked for where warnings do not count.
  have hkept : (∃ s ∈ unify us, scope.Passes direction lenient s v) ↔ ∃ s ∈ unify us, scope.Passes direction true s v :=
    exists_congr fun s => and_congr_right fun hs => by rw [hpasses lenient (hmem s hs), hpasses true (hmem s hs)]
  rw [ho.oneOf_passes_iff, hkept, passes_unify_iff hconventional fun hl => absurd hl (by decide), halone]
  exact exists_congr fun u => and_congr_right fun hu => hpasses true hu

/-- The union of parts without literals other than texts accepts the texts that a part spells. -/
theorem oneOf_parts {us : List Schema} {a : Annotations} (hus : ∀ u ∈ us, u.TemplatePart (·.isText)) (v : Value) :
    ∃ o, scope.Yields direction (.oneOf us a) v o ∧
      ∀ lenient, o.passes lenient ↔ ∃ w, v = .text w ∧ ∃ u ∈ us, u.Spells w := by
  obtain ⟨o, ho, hpasses⟩ : ∃ o, scope.Yields direction (.oneOf us a) v o ∧
      ∀ lenient, o.passes lenient ↔ ∃ u ∈ us, u.Takes v := oneOf_takes hus v
  refine ⟨o, ho, fun lenient => (hpasses lenient).trans ?_⟩
  constructor
  · rintro ⟨u, hu, hv⟩
    obtain ⟨w, rfl, hw⟩ := (takes_part_iff (hus u hu) v).mp hv
    exact ⟨w, rfl, u, hu, hw⟩
  · rintro ⟨w, rfl, u, hu, hw⟩
    exact ⟨u, hu, (takes_part_iff (hus u hu) _).mpr ⟨w, rfl, hw⟩⟩

/-- The template built from components accepts exactly the texts that can be cut into one text for each component, and
fails on everything else. A single component must not have literals other than texts, which would be kept as they are
where more components turn them into texts. -/
theorem templateUnion_language {cs : List Schema} (hcs : ∀ c ∈ cs, c.Component fun _ => True)
    (h : 2 ≤ cs.length ∨ ∃ c, cs = [c] ∧ c.Component (·.isText)) :
    ∃ t, templateUnion cs = .ok t ∧ ∀ v, ∃ o, scope.Yields direction t v o ∧
      (o.isSuccess ↔ ∃ ts, List.Forall₂ Spells cs ts ∧ v = .text (String.join ts)) ∧
      (o.isSuccess = false → o.isFailure) := by
  obtain ⟨us, hus, hpart, hspells⟩ : ∃ us, templateUnion cs = .ok (.oneOf us .empty) ∧
      (∀ u ∈ us, u.TemplatePart (·.isText)) ∧
      ∀ w, (∃ u ∈ us, u.Spells w) ↔ ∃ ws, List.Forall₂ Spells cs ws ∧ w = String.join ws := by
    rcases h with h | ⟨c, rfl, hc⟩
    · cases cs with
      | nil => cases h
      | cons c cs =>
        rw [List.forall_mem_cons] at hcs
        refine templateUnion_eq_oneOf hcs.1 hcs.2 ?_
        rintro rfl
        simp at h
    · exact templateUnion_eq_oneOf (q := fun _ => True) hc (by simp) fun _ _ hx => hx
  refine ⟨_, hus, fun v => ?_⟩
  obtain ⟨o, ho, hpass⟩ : ∃ o, scope.Yields direction (.oneOf us .empty) v o ∧
      ∀ lenient, o.passes lenient ↔ ∃ w, v = .text w ∧ ∃ u ∈ us, u.Spells w := oneOf_parts hpart v
  refine ⟨o, ho, ?_, fun hs => ?_⟩
  · rw [← Outcome.passes_false, hpass]
    simp only [hspells]
    constructor
    · rintro ⟨_, rfl, ts, hts, rfl⟩
      exact ⟨ts, hts, rfl⟩
    · rintro ⟨ts, hts, rfl⟩
      exact ⟨_, rfl, ts, hts, rfl⟩
  · -- What would be accepted with a warning would be accepted cleanly.
    by_contra hf
    have hlenient := (Outcome.passes_true o).mpr (Bool.eq_false_iff.mpr hf)
    rw [hpass true, ← hpass false, Outcome.passes_false, hs] at hlenient
    cases hlenient

def version : List Schema :=
  [.literal .empty (.text "v"), .keyword .empty .number,
    .union .empty [.literal .empty (.int 1), .keyword .empty .string]]

/-- The last digit of the text may belong to the number or to what follows it. -/
theorem templateUnion_language_version :
    let scope := Stock.scope []
    (∀ c ∈ version, c.Component fun _ => True) ∧ 2 ≤ version.length ∧
      ∃ t, templateUnion version = .ok t ∧ (∃ o, scope.Yields .decode t (.text "v1.51") o ∧ o.isSuccess) ∧
        ∃ o, scope.Yields .decode t (.int 1) o ∧ o.isFailure := by
  intro scope
  have hcomponents : ∀ c ∈ version, c.Component fun _ => True := by
    simp only [version, List.forall_mem_cons]
    refine ⟨.literal _ trivial, .number _, .union _ ?_, by simp⟩
    simp only [List.forall_mem_cons]
    exact ⟨.literal _ trivial, .string _, by simp⟩
  obtain ⟨t, ht, hlanguage⟩ : ∃ t, templateUnion version = .ok t ∧ ∀ v, ∃ o, scope.Yields .decode t v o ∧
      (o.isSuccess ↔ ∃ ts, List.Forall₂ Spells version ts ∧ v = .text (String.join ts)) ∧
      (o.isSuccess = false → o.isFailure) :=
    templateUnion_language hcomponents (.inl (by decide))
  refine ⟨hcomponents, by decide, t, ht, ?_, ?_⟩
  · obtain ⟨o, ho, hsuccess, -⟩ := hlanguage (.text "v1.51")
    have hnumber : Text.NumberForm "1.5".toList := Text.isNumberForm_iff.mp (by decide)
    have hspells : List.Forall₂ Spells version ["v", "1.5", "1"] :=
      .cons (.literal _ (.text "v")) (.cons (.number _ hnumber)
        (.cons (.union _ List.mem_cons_self (.literal _ (.int 1))) .nil))
    exact ⟨o, ho, hsuccess.mpr ⟨_, hspells, rfl⟩⟩
  · obtain ⟨o, ho, hsuccess, hfailure⟩ := hlanguage (.int 1)
    refine ⟨o, ho, hfailure (Bool.eq_false_iff.mpr fun hs => ?_)⟩
    obtain ⟨ts, -, heq⟩ := hsuccess.mp hs
    cases heq

end Scope
end Schemata
