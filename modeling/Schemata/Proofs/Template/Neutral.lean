import Schemata.Proofs.Template.Language
import Schemata.Proofs.Value.Orderly

/-!
The empty text among the components of a template. Beside other components it adds nothing to the texts that they spell.
Beside a single component it makes the difference that the literals of the component are spliced as texts: without it
they are kept as they are, and taken instead of their texts.
-/
namespace Schemata

/-- Nothing equals not-a-number, not even itself. -/
theorem Value.isNaN_of_literalEquals {v w : Value} (h : v.literalEquals w) : w.isNaN = false := by
  rw [Bool.eq_false_iff]
  intro hnan
  obtain ⟨n, hn⟩ : ∃ n, w.number? = some n := by
    cases w with
    | float x => exact ⟨_, rfl⟩
    | cell c => cases c <;> first | exact ⟨_, rfl⟩ | cases hnan
    | _ => cases hnan
  have hplace := (isNaN_iff hn).mp hnan
  cases literalEquals_iff.mp h with
  | boolean _ hb => simp [boolean?_of_number hn] at hb
  | number _ hm he =>
    obtain rfl := Option.some.inj (hn.symm.trans hm)
    obtain ⟨p, _, hp⟩ := (Numeral.equals_iff _ _).mp he
    simp [hplace] at hp
  | other _ ho => simp [numeral?_of_number hn] at ho

theorem Scalar.literalEquals_self {x : Scalar} (h : x.value.isNaN = false) : x.value.literalEquals x.value := by
  refine Value.literalEquals_of_equals x.hashable_value rfl (Value.equals_self_of_nanFree ?_)
  cases x <;> simpa [value, Value.nanFree, Value.everywhere] using h

namespace Schema
variable {a : Annotations} {c d : Schema} {cs : List Schema} {p : Scalar → Prop} {v : Value} {w : String}

/-- The text can be cut into one text for each component. -/
def Spelled (cs : List Schema) (w : String) : Prop :=
  ∃ ws, List.Forall₂ Spells cs ws ∧ w = String.join ws

theorem spelled_nil_iff : Spelled [] w ↔ w = "" := by
  simp [Spelled, List.forall₂_nil_left_iff]

theorem spelled_cons_iff : Spelled (c :: cs) w ↔ ∃ w₁ w₂, c.Spells w₁ ∧ Spelled cs w₂ ∧ w = w₁ ++ w₂ := by
  simp only [Spelled, List.forall₂_cons_left_iff]
  constructor
  · rintro ⟨_, ⟨w₁, ws, hw₁, hws, rfl⟩, rfl⟩
    exact ⟨w₁, _, hw₁, ⟨ws, hws, rfl⟩, String.join_cons⟩
  · rintro ⟨w₁, _, hw₁, ⟨ws, hws, rfl⟩, rfl⟩
    exact ⟨_, ⟨w₁, ws, hw₁, hws, rfl⟩, String.join_cons.symm⟩

theorem spells_empty_iff : (literal a (.text "")).Spells w ↔ w = "" := by
  rw [spells_literal_iff, Scalar.literalText_text]

theorem spelled_empty_cons_iff : Spelled (literal a (.text "") :: cs) w ↔ Spelled cs w := by
  simp [spelled_cons_iff, spells_empty_iff]

theorem spelled_concat_empty_iff : Spelled (cs ++ [literal a (.text "")]) w ↔ Spelled cs w := by
  induction cs generalizing w with
  | nil => exact spelled_empty_cons_iff
  | cons c cs ih => simp only [List.cons_append, spelled_cons_iff, ih]

theorem spelled_singleton_iff : Spelled [c] w ↔ c.Spells w := by
  simp [spelled_cons_iff, spelled_nil_iff]

/-- Every literal of the component stands for nothing but its text: it is a text, or it equals no value at all and its
text is taken anyway. -/
def Textual (c : Schema) : Prop :=
  c.Component fun x => x.isText ∨ (x.value.isNaN ∧ c.Takes (.text x.value.literalText))

/-- What the component takes is a text that it spells, as what has no text equals nothing. -/
theorem spells_of_takes {p : Scalar → Prop} (hp : ∀ x, p x → x.isText ∨ x.value.isNaN) (hd : d.Component p)
    (h : d.Takes v) : ∃ w, v = .text w ∧ d.Spells w := by
  induction hd with
  | @literal a x hx =>
    rcases hp x hx with ht | hnan
    · exact (takes_part_iff (.literal a ht) v).mp h
    · rw [takes_literal_iff] at h
      rw [Value.isNaN_of_literalEquals h] at hnan
      cases hnan
  | string a => exact (@takes_keyword_iff a .string v).mp h
  | number a => exact (@takes_keyword_iff a .number v).mp h
  | union a _ ih =>
    obtain ⟨s, hs, h⟩ := takes_union_iff.mp h
    obtain ⟨w, rfl, hw⟩ := ih s hs h
    exact ⟨w, rfl, .union a hs hw⟩

/-- What the component spells is taken by it, unless it is the text of a literal that is no text itself. -/
theorem takes_of_spells {p : Scalar → Prop} {q : Value → Prop}
    (hp : ∀ x, p x → x.isText ∨ q (.text x.value.literalText)) (hd : d.Component p) (h : d.Spells w) :
    d.Takes (.text w) ∨ q (.text w) := by
  induction hd with
  | @literal a x hx =>
    rcases hp x hx with ht | hq
    · exact .inl ((takes_part_iff (.literal a ht) _).mpr ⟨w, rfl, h⟩)
    · obtain rfl := spells_literal_iff.mp h
      exact .inr hq
  | string a => exact .inl (.string a h)
  | number a => exact .inl (.number a h)
  | union a _ ih =>
    obtain ⟨s, hs, h⟩ := spells_union_iff.mp h
    exact (ih s hs h).imp_left (.union a hs)

/-- The literals of a component, each with what it takes and spells on behalf of the component. -/
theorem component_of_literals {p : Scalar → Prop} (hd : d.Component fun _ => True)
    (hp : ∀ x, (∀ v, v.literalEquals x.value → d.Takes v) → d.Spells x.value.literalText → p x) : d.Component p := by
  induction hd with
  | @literal a x _ => exact .literal a (hp x (fun _ => .literal a) (.literal a x))
  | string a => exact .string a
  | number a => exact .number a
  | union a _ ih =>
    refine .union a fun s hs => ih s hs fun x htakes hspells => ?_
    exact hp x (fun v hv => .union a hs (htakes v hv)) (.union a hs hspells)

/-- The literals of a component stand for their texts exactly if the component takes what it spells, and nothing else. -/
theorem textual_iff (hc : c.Component fun _ => True) :
    c.Textual ↔ ∀ v, c.Takes v ↔ ∃ w, v = .text w ∧ c.Spells w := by
  constructor
  · intro h v
    constructor
    · exact spells_of_takes (fun _ hx => hx.imp_right And.left) h
    · rintro ⟨w, rfl, hw⟩
      exact (takes_of_spells (fun _ hx => hx.imp_right And.right) h hw).elim id id
  · intro h
    refine component_of_literals hc fun x htakes hspells => ?_
    cases hnan : x.value.isNaN with
    | true => exact .inr ⟨rfl, (h _).mpr ⟨_, rfl, hspells⟩⟩
    | false =>
      -- The literal takes its own value, which can only be a text.
      obtain ⟨w, hw, -⟩ := (h _).mp (htakes _ (Scalar.literalEquals_self hnan))
      rw [← Scalar.isText_value, hw]
      exact .inl rfl

end Schema

namespace Scope
open Schema
variable {scope : Scope} {direction : Direction} {a : Annotations} {c t : Schema} {cs : List Schema}
  {p q : Scalar → Prop} {l : Value → Prop}

/-- The schema accepts the values of a language, without a warning, and fails on all others. -/
def Recognizes (scope : Scope) (direction : Direction) (t : Schema) (l : Value → Prop) : Prop :=
  ∀ v, ∃ o, scope.Yields direction t v o ∧ ∀ lenient, o.passes lenient ↔ l v

namespace Recognizes

theorem passes_iff (h : scope.Recognizes direction t l) (lenient : Bool) (v : Value) :
    scope.Passes direction lenient t v ↔ l v := by
  obtain ⟨o, ho, hpasses⟩ := h v
  rw [← ho.passes_iff, hpasses]

/-- There is no third way beside success and failure. -/
theorem success_or_failure (h : scope.Recognizes direction t l) (v : Value) :
    ∃ o, scope.Yields direction t v o ∧ (o.isSuccess ∨ o.isFailure) := by
  obtain ⟨o, ho, hpasses⟩ := h v
  refine ⟨o, ho, ?_⟩
  have hsame := (hpasses false).trans (hpasses true).symm
  rw [Outcome.passes_false, Outcome.passes_true] at hsame
  cases hf : o.isFailure with
  | true => exact .inr rfl
  | false => exact .inl (hsame.mpr hf)

end Recognizes

/-- The template of several components, or of one without literals other than texts, accepts the texts that they
spell. -/
theorem templateUnion_recognizes (scope : Scope) (direction : Direction) (hc : c.Component p)
    (hcs : ∀ s ∈ cs, s.Component q) (htext : cs = [] → ∀ x, p x → x.isText) :
    ∃ t, templateUnion (c :: cs) = .ok t ∧
      scope.Recognizes direction t fun v => ∃ w, v = .text w ∧ Spelled (c :: cs) w := by
  obtain ⟨us, hus, hpart, hspells⟩ := templateUnion_eq_oneOf hc hcs htext
  refine ⟨_, hus, fun v => ?_⟩
  obtain ⟨o, ho, hpasses⟩ : ∃ o, scope.Yields direction (.oneOf us .empty) v o ∧
      ∀ lenient, o.passes lenient ↔ ∃ w, v = .text w ∧ ∃ u ∈ us, u.Spells w := oneOf_parts hpart v
  exact ⟨o, ho, by simpa only [hspells, Spelled] using hpasses⟩

/-- The template of a single component accepts what the component takes. -/
theorem templateUnion_singleton_recognizes (scope : Scope) (direction : Direction) (hc : c.Component p) :
    ∃ t, templateUnion [c] = .ok t ∧ scope.Recognizes direction t c.Takes := by
  obtain ⟨us, hus, hpart, htakes⟩ := templateParts_takes hc
  refine ⟨oneOf us .empty, ?_, fun v => ?_⟩
  · simp only [templateUnion, extendParts, bind_eq_ok_iff]
    exact ⟨us, hus, us, rfl, rfl⟩
  · obtain ⟨o, ho, hpasses⟩ : ∃ o, scope.Yields direction (.oneOf us .empty) v o ∧
        ∀ lenient, o.passes lenient ↔ ∃ u ∈ us, u.Takes v := oneOf_takes hpart v
    exact ⟨o, ho, by simpa only [htakes] using hpasses⟩

/-- The empty text in front of components, or behind them, adds nothing to what their template accepts, unless there is
a single component with a literal that is no text. Such a literal is taken as it is where it stands alone, and turned
into its text by any component beside it. -/
theorem templateUnion_empty (scope : Scope) (direction : Direction) (hcs : ∀ s ∈ c :: cs, s.Component fun _ => True)
    (a : Annotations) :
    ∃ t front back, templateUnion (c :: cs) = .ok t ∧ templateUnion (literal a (.text "") :: c :: cs) = .ok front ∧
      templateUnion (c :: cs ++ [literal a (.text "")]) = .ok back ∧
      (∀ s ∈ [t, front, back], ∀ v, ∃ o, scope.Yields direction s v o ∧ (o.isSuccess ∨ o.isFailure)) ∧
      (∀ lenient v, scope.Passes direction lenient front v ↔ scope.Passes direction lenient back v) ∧
      ∀ lenient, (∀ v, scope.Passes direction lenient t v ↔ scope.Passes direction lenient front v) ↔
        cs ≠ [] ∨ c.Textual := by
  have hempty : (literal a (.text "")).Component fun _ => True := .literal a trivial
  obtain ⟨hc, hrest⟩ := List.forall_mem_cons.mp hcs
  obtain ⟨front, hfront, hf⟩ := templateUnion_recognizes scope direction hempty hcs nofun
  obtain ⟨back, hback, hb⟩ := templateUnion_recognizes scope direction hc
    (List.forall_mem_append.mpr ⟨hrest, List.forall_mem_singleton.mpr hempty⟩) (by simp)
  simp only [spelled_empty_cons_iff] at hf
  simp only [← List.cons_append, spelled_concat_empty_iff] at hback hb
  have hsame (lenient : Bool) (v : Value) :
      scope.Passes direction lenient front v ↔ scope.Passes direction lenient back v := by
    rw [hf.passes_iff, hb.passes_iff]
  obtain ⟨t, ht, l, hl, hneutral⟩ : ∃ t, templateUnion (c :: cs) = .ok t ∧ ∃ l, scope.Recognizes direction t l ∧
      ((∀ v, l v ↔ ∃ w, v = .text w ∧ Spelled (c :: cs) w) ↔ cs ≠ [] ∨ c.Textual) := by
    cases cs with
    | nil =>
      obtain ⟨t, ht, hl⟩ := templateUnion_singleton_recognizes scope direction hc
      exact ⟨t, ht, _, hl, by simp [spelled_singleton_iff, textual_iff hc]⟩
    | cons d ds =>
      obtain ⟨t, ht, hl⟩ := templateUnion_recognizes scope direction hc hrest nofun
      exact ⟨t, ht, _, hl, by simp⟩
  refine ⟨t, front, back, ht, hfront, hback, ?_, hsame, fun lenient => ?_⟩
  · simp only [List.forall_mem_cons]
    exact ⟨hl.success_or_failure, hf.success_or_failure, hb.success_or_failure, nofun⟩
  · simp only [hl.passes_iff, hf.passes_iff, hneutral]

/-- Behind a placeholder the number one is spliced as a text, with an empty text around the two or without. -/
theorem templateUnion_empty_digit :
    let scope := Stock.scope []
    let components := [keyword .empty .number, literal .empty (.int 1)]
    let empty := literal .empty (.text "")
    (∀ s ∈ components, s.Component fun _ => True) ∧
      ∃ t front back, templateUnion components = .ok t ∧ templateUnion (empty :: components) = .ok front ∧
        templateUnion (components ++ [empty]) = .ok back ∧
        ∀ v, (scope.Passes .decode false t v ↔ scope.Passes .decode false front v) ∧
          (scope.Passes .decode false t v ↔ scope.Passes .decode false back v) := by
  intro scope components empty
  have hcomponents : ∀ s ∈ components, s.Component fun _ => True := by
    simp only [components, List.forall_mem_cons]
    exact ⟨.number _, .literal _ trivial, nofun⟩
  obtain ⟨t, front, back, ht, hfront, hback, -, hsame, hneutral⟩ :=
    templateUnion_empty scope .decode hcomponents .empty
  have hequal := (hneutral false).mpr (.inl (List.cons_ne_nil _ _))
  exact ⟨hcomponents, t, front, back, ht, hfront, hback, fun v => ⟨hequal v, (hequal v).trans (hsame false v)⟩⟩

/-- The number one by itself is a number; beside the empty text it is the text of a number. -/
theorem empty_text_not_neutral :
    let scope := Stock.scope []
    let one := literal .empty (.int 1)
    let empty := literal .empty (.text "")
    one.Component (fun _ => True) ∧
      ∃ t front back, templateUnion [one] = .ok t ∧ templateUnion [empty, one] = .ok front ∧
        templateUnion [one, empty] = .ok back ∧
        scope.Passes .decode false t (.int 1) ∧ ¬scope.Passes .decode true front (.int 1) ∧
        ¬scope.Passes .decode true back (.int 1) ∧ ¬scope.Passes .decode true t (.text "1") ∧
        scope.Passes .decode false front (.text "1") ∧ scope.Passes .decode false back (.text "1") := by
  intro scope one empty
  have hyields (x : Scalar) (v : Value) :
      scope.Yields .decode (literal .empty x) v (scope.parseLiteral .empty x v) := ⟨0, run_literal ..⟩
  refine ⟨.literal _ trivial, one, literal .empty (.text "1"), literal .empty (.text "1"), rfl, rfl, rfl, ?_⟩
  simp only [one, ← (hyields _ _).passes_iff, parseLiteral_passes_iff]
  decide

end Scope
end Schemata
