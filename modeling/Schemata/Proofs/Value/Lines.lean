import Schemata.Proofs.Text.Lines
import Schemata.Proofs.Value.Entries
import Schemata.Value.Render

/-!
Values on one line. Object notation always is, since it quotes all texts; the inspected form is, unless it holds an
array, whose library may put the rows on lines of their own. What is written as it is are symbols, and the keys of
mappings in paths.
-/
namespace Schemata

theorem Cell.oneLine_plain (c : Cell) : OneLine c.plain := by
  cases c with
  | int32 n | int64 n => exact oneLine_int n
  | float32 x | float64 x => exact Double.oneLine_plain _ x
  | bool b => cases b <;> decide

theorem CellKind.oneLine_name (k : CellKind) : OneLine k.name := by
  cases k <;> decide

theorem Cell.oneLine_inspect (c : Cell) : OneLine c.inspect := by
  cases c with
  | bool b => cases b <;> decide
  | _ =>
    simp only [inspect, oneLine_append_iff]
    exact ⟨⟨⟨⟨by decide, CellKind.oneLine_name _⟩, by decide⟩, Cell.oneLine_plain _⟩, by decide⟩

namespace Value

theorem inspectItems_eq_map (vs : List Value) : inspectItems vs = vs.map inspect := by
  induction vs with
  | nil => rfl
  | cons v vs ih => rw [inspectItems, ih, List.map_cons]

theorem inspectEntries_eq_map (es : List (Value × Value)) :
    inspectEntries es = es.map fun e => e.1.inspect ++ ": " ++ e.2.inspect := by
  induction es with
  | nil => rfl
  | cons e es ih => rw [inspectEntries, ih, List.map_cons]

theorem notateItems_eq_some_iff {exact : Bool} {vs : List Value} {ts : List String} :
    notateItems exact vs = some ts ↔ List.Forall₂ (fun v t => v.notate exact = some t) vs ts := by
  induction vs generalizing ts with
  | nil => simp [notateItems, eq_comm]
  | cons v vs ih =>
    simp only [notateItems, Option.bind_eq_bind, Option.bind_eq_some_iff, Option.pure_def, Option.some.injEq, ih,
      List.forall₂_cons_left_iff]
    constructor
    · rintro ⟨t, ht, ts, hts, rfl⟩
      exact ⟨t, ts, ht, hts, rfl⟩
    · rintro ⟨t, ts, ht, hts, rfl⟩
      exact ⟨t, ht, ts, hts, rfl⟩

theorem notateEntries_eq_some_iff {exact : Bool} {es : List (Value × Value)} {ts : List String} :
    notateEntries exact es = some ts ↔ List.Forall₂ (fun e t =>
      ∃ k v, e.1.renderKey = some k ∧ e.2.notate exact = some v ∧ t = k ++ ":" ++ v) es ts := by
  induction es generalizing ts with
  | nil => simp [notateEntries, eq_comm]
  | cons e es ih =>
    simp only [notateEntries, Option.bind_eq_bind, Option.bind_eq_some_iff, Option.pure_def, Option.some.injEq, ih,
      List.forall₂_cons_left_iff]
    constructor
    · rintro ⟨k, hk, v, hv, ts, hts, rfl⟩
      exact ⟨_, ts, ⟨k, v, hk, hv, rfl⟩, hts, rfl⟩
    · rintro ⟨_, ts, ⟨k, v, hk, hv, rfl⟩, hts, rfl⟩
      exact ⟨k, hk, v, hv, ts, hts, rfl⟩

theorem oneLine_renderKey {k : Value} {t : String} (h : k.renderKey = some t) : OneLine t := by
  have quoted {s : String} (hs : OneLine s) : OneLine ("\"" ++ s ++ "\"") := by
    simp only [oneLine_append_iff]
    exact ⟨⟨by decide, hs⟩, by decide⟩
  cases k with
  | text s =>
    obtain rfl := Option.some.inj h
    exact Text.oneLine_quoteRendered s
  | int n =>
    obtain rfl := Option.some.inj h
    exact quoted (oneLine_int n)
  | float x =>
    obtain rfl := Option.some.inj h
    exact quoted (Double.oneLine_rendered x)
  | cell c =>
    cases c with
    | float64 x =>
      obtain rfl := Option.some.inj h
      exact quoted (Double.oneLine_rendered x)
    | _ => cases h
  | bool b =>
    obtain rfl := Option.some.inj h
    cases b <;> decide
  | null =>
    obtain rfl := Option.some.inj h
    decide
  | _ => cases h

theorem oneLine_render_double (x : Double) : OneLine x.render := by
  unfold Double.render
  split
  · split
    · exact oneLine_int _
    · exact Double.oneLine_rendered x
  · exact Double.oneLine_rendered x

theorem oneLine_renderCell (c : Cell) : OneLine (renderCell c) := by
  cases c with
  | int32 n | int64 n => exact oneLine_int n
  | float32 x | float64 x => exact oneLine_render_double x
  | bool b => cases b <;> decide

/-- Texts between brackets and separated by commas. -/
theorem oneLine_enclosed {first last sep : String} {ts : List String} (hf : OneLine first) (hl : OneLine last)
    (hs : OneLine sep) (h : ∀ t ∈ ts, OneLine t) : OneLine (first ++ sep.intercalate ts ++ last) := by
  simp only [oneLine_append_iff]
  exact ⟨⟨hf, oneLine_intercalate hs h⟩, hl⟩

/-- Object notation is on one line. -/
theorem oneLine_notate {v : Value} {exact : Bool} {t : String} (h : v.notate exact = some t) : OneLine t := by
  induction v using partsInduction generalizing exact t with
  | step v ih =>
    have items {vs : List Value} (hvs : ∀ w ∈ vs, w ∈ v.parts) {exact : Bool} {ts : List String}
        (hts : notateItems exact vs = some ts) : ∀ t ∈ ts, OneLine t := by
      intro t ht
      obtain ⟨w, hw, hwt⟩ := Lists.exists_of_mem_right (notateItems_eq_some_iff.mp hts) ht
      exact ih w (hvs w hw) hwt
    cases v with
    | null =>
      obtain rfl := Option.some.inj h
      decide
    | undefined =>
      obtain rfl := Option.some.inj h
      decide
    | bool b =>
      obtain rfl := Option.some.inj h
      cases b <;> decide
    | int n =>
      obtain rfl := Option.some.inj h
      exact oneLine_int n
    | float x =>
      obtain rfl := Option.some.inj h
      cases exact
      · exact oneLine_render_double x
      · exact Double.oneLine_rendered x
    | text s =>
      obtain rfl := Option.some.inj h
      exact Text.oneLine_quoteRendered s
    | symbol key =>
      obtain rfl := Option.some.inj h
      exact Text.oneLine_quoteRendered _
    | cell c =>
      obtain rfl := Option.some.inj h
      split
      · exact Double.oneLine_rendered _
      · exact Double.oneLine_rendered _
      · exact oneLine_renderCell c
    | bytes | view =>
      obtain rfl := Option.some.inj h
      exact Text.oneLine_quoteRendered _
    | list vs | tuple vs =>
      simp only [notate, Option.bind_eq_bind, Option.bind_eq_some_iff, Option.pure_def, Option.some.injEq] at h
      obtain ⟨ts, hts, rfl⟩ := h
      exact oneLine_enclosed (by decide) (by decide) (by decide) (items (fun _ hw => hw) hts)
    | array kind vs =>
      simp only [notate, Option.bind_eq_bind, Option.bind_eq_some_iff, Option.pure_def, Option.some.injEq] at h
      obtain ⟨ts, hts, rfl⟩ := h
      exact oneLine_enclosed (by decide) (by decide) (by decide) (items (fun _ hw => hw) hts)
    | set vs =>
      simp only [notate, Option.bind_eq_bind, Option.bind_eq_some_iff, Option.pure_def, Option.some.injEq] at h
      obtain ⟨ts, hts, rfl⟩ := h
      refine oneLine_enclosed (by decide) (by decide) (by decide) fun t ht => ?_
      obtain ⟨p, hp, rfl⟩ := List.mem_map.mp ht
      exact items (fun _ hw => hw) hts _ (List.of_mem_zip (List.mem_mergeSort.mp hp)).2
    | dict es =>
      simp only [notate, Option.bind_eq_bind, Option.bind_eq_some_iff, Option.pure_def, Option.some.injEq] at h
      obtain ⟨ts, hts, rfl⟩ := h
      refine oneLine_enclosed (by decide) (by decide) (by decide) fun t ht => ?_
      obtain ⟨e, he, k, w, hk, hw, rfl⟩ := Lists.exists_of_mem_right (notateEntries_eq_some_iff.mp hts) ht
      have hpart : e.2 ∈ (dict es).parts := List.mem_flatMap.mpr ⟨e, he, by simp⟩
      simp only [oneLine_append_iff]
      exact ⟨⟨oneLine_renderKey hk, by decide⟩, ih e.2 hpart hw⟩

/-- Without arrays the inspected form is on one line. -/
theorem oneLine_inspect {v : Value} (h : v.arrayFree) : OneLine v.inspect := by
  induction v using partsInduction with
  | step v ih =>
    obtain ⟨hv, hparts⟩ := (everywhere_iff _ v).mp h
    have items {vs : List Value} (hvs : ∀ w ∈ vs, w ∈ v.parts) : ∀ t ∈ inspectItems vs, OneLine t := by
      rw [inspectItems_eq_map, List.forall_mem_map]
      exact fun w hw => ih w (hvs w hw) (hparts w (hvs w hw))
    have entries {es : List (Value × Value)} (hes : ∀ e ∈ es, e.1 ∈ v.parts ∧ e.2 ∈ v.parts) :
        ∀ t ∈ inspectEntries es, OneLine t := by
      rw [inspectEntries_eq_map, List.forall_mem_map]
      intro e he
      obtain ⟨hk, hw⟩ := hes e he
      simp only [oneLine_append_iff]
      exact ⟨⟨ih e.1 hk (hparts _ hk), by decide⟩, ih e.2 hw (hparts _ hw)⟩
    have both {es : List (Value × Value)} : ∀ e ∈ es, e.1 ∈ (dict es).parts ∧ e.2 ∈ (dict es).parts :=
      fun e he => ⟨List.mem_flatMap.mpr ⟨e, he, by simp⟩, List.mem_flatMap.mpr ⟨e, he, by simp⟩⟩
    cases v with
    | null | undefined => decide
    | bool b => cases b <;> decide
    | int n => exact oneLine_int n
    | float x => exact Double.oneLine_plain _ x
    | text s => exact Text.oneLine_quoteInspected s
    | symbol key =>
      simp only [inspect, oneLine_append_iff]
      exact ⟨⟨by decide, Text.oneLine_quoteInspected key⟩, by decide⟩
    | cell c => exact c.oneLine_inspect
    | bytes data => exact Text.oneLine_quoteBytes data
    | list vs => exact oneLine_enclosed (by decide) (by decide) (by decide) (items fun _ hw => hw)
    | tuple vs =>
      have hitems := items fun _ hw => hw
      rw [inspect]
      unfold tupleText
      split
      · rename_i t ht
        simp only [oneLine_append_iff]
        exact ⟨⟨by decide, hitems t (ht ▸ List.mem_cons_self)⟩, by decide⟩
      · exact oneLine_enclosed (by decide) (by decide) (by decide) hitems
    | set vs =>
      have hitems := items fun _ hw => hw
      rw [inspect]
      split
      · decide
      · refine oneLine_enclosed (by decide) (by decide) (by decide) fun t ht => ?_
        unfold orderTexts at ht
        split at ht
        · obtain ⟨p, hp, rfl⟩ := List.mem_map.mp ht
          exact hitems _ (List.of_mem_zip (List.mem_mergeSort.mp hp)).2
        · exact hitems t ht
    | dict es => exact oneLine_enclosed (by decide) (by decide) (by decide) (entries both)
    | view es => exact oneLine_enclosed (by decide) (by decide) (by decide) (entries both)
    | array kind vs => cases hv

def straightKey (inspected : Bool) (k : Value) : Bool :=
  (match k with
    | text s => decide (OneLine s)
    | _ => true) && (inspected || k.renderKey.isSome)

/-- Whether a value keeps messages on one line, apart from its parts. A mapping with a key that has no rendered form
makes the values around it be inspected, and then no array may stand among them. -/
def straightNode (inspected : Bool) : Value → Bool
  | symbol key => decide (OneLine key)
  | array _ _ => !inspected
  | dict es => es.all fun e => straightKey inspected e.1
  | view es => es.all fun e => straightKey inspected e.1
  | _ => true

/-- A value that keeps messages on one line: no line feed stands in its symbols and in the texts that are keys, and
arrays and keys without a rendered form do not occur together. -/
def Straight (inspected : Bool) (v : Value) : Prop :=
  v.everywhere (straightNode inspected)

section
variable {inspected : Bool} {v w k : Value}

theorem straight_iff : v.Straight inspected ↔ straightNode inspected v ∧ ∀ w ∈ v.parts, w.Straight inspected :=
  everywhere_iff _ v

theorem Straight.part (h : v.Straight inspected) (hw : w ∈ v.parts) : w.Straight inspected :=
  (straight_iff.mp h).2 w hw

theorem straight_items {vs : List Value} (h : ∀ w ∈ vs, w.Straight inspected) :
    (list vs).Straight inspected ∧ (tuple vs).Straight inspected :=
  ⟨straight_iff.mpr ⟨rfl, h⟩, straight_iff.mpr ⟨rfl, h⟩⟩

theorem straight_dict_iff {es : List (Value × Value)} : (dict es).Straight inspected ↔
    ∀ e ∈ es, straightKey inspected e.1 ∧ e.1.Straight inspected ∧ e.2.Straight inspected := by
  rw [straight_iff]
  simp only [straightNode, List.all_eq_true, parts, List.mem_flatMap, List.mem_cons, List.not_mem_nil, or_false]
  constructor
  · rintro ⟨hkeys, hparts⟩ e he
    exact ⟨hkeys e he, hparts e.1 ⟨e, he, .inl rfl⟩, hparts e.2 ⟨e, he, .inr rfl⟩⟩
  · intro h
    refine ⟨fun e he => (h e he).1, ?_⟩
    rintro w ⟨e, he, rfl | rfl⟩
    · exact (h e he).2.1
    · exact (h e he).2.2

theorem Straight.entry {es : List (Value × Value)} (h : v.Straight inspected) (hv : v.entries? = some es)
    {e : Value × Value} (he : e ∈ es) :
    straightKey inspected e.1 ∧ e.1.Straight inspected ∧ e.2.Straight inspected := by
  have hdict : (dict es).Straight inspected := by
    cases v <;> cases hv <;> exact straight_iff.mpr (straight_iff.mp h)
  exact straight_dict_iff.mp hdict e he

theorem arrayFree_of_straight (h : v.Straight true) : v.arrayFree := by
  induction v using partsInduction with
  | step v ih =>
    obtain ⟨hv, hparts⟩ := straight_iff.mp h
    refine (everywhere_iff _ v).mpr ⟨?_, fun w hw => ih w hw (hparts w hw)⟩
    cases v <;> first | rfl | cases hv

/-- A value whose mappings have only keys with a rendered form has an object notation. -/
theorem notate_isSome (h : v.Straight false) (exact : Bool) : (v.notate exact).isSome := by
  induction v using partsInduction generalizing exact with
  | step v ih =>
    obtain ⟨hv, hparts⟩ := straight_iff.mp h
    have items (vs : List Value) (hvs : ∀ w ∈ vs, w ∈ v.parts) (exact : Bool) :
        ∃ ts, notateItems exact vs = some ts := by
      obtain ⟨ts, hts⟩ : ∃ ts, List.Forall₂ (fun v t => v.notate exact = some t) vs ts :=
        Lists.exists_forall₂ fun w hw =>
          Option.isSome_iff_exists.mp (ih w (hvs w hw) (hparts w (hvs w hw)) exact)
      exact ⟨ts, notateItems_eq_some_iff.mpr hts⟩
    cases v with
    | list vs | tuple vs =>
      obtain ⟨ts, hts⟩ := items vs (fun _ hw => hw) exact
      simp [notate, hts]
    | array kind vs | set vs =>
      obtain ⟨ts, hts⟩ := items vs (fun _ hw => hw) true
      simp [notate, hts]
    | dict es =>
      obtain ⟨ts, hts⟩ : ∃ ts, notateEntries exact es = some ts := by
        have hentries := straight_dict_iff.mp h
        obtain ⟨ts, hts⟩ : ∃ ts, List.Forall₂ (fun e t =>
            ∃ k w, e.1.renderKey = some k ∧ e.2.notate exact = some w ∧ t = k ++ ":" ++ w) es ts := by
          refine Lists.exists_forall₂ fun e he => ?_
          obtain ⟨hkey, -, hstraight⟩ := hentries e he
          obtain ⟨k, hk⟩ := Option.isSome_iff_exists.mp (Bool.and_eq_true_iff.mp hkey).2
          have hpart : e.2 ∈ (dict es).parts := List.mem_flatMap.mpr ⟨e, he, by simp⟩
          obtain ⟨w, hw⟩ := Option.isSome_iff_exists.mp (ih e.2 hpart hstraight exact)
          exact ⟨_, k, w, hk, hw, rfl⟩
        exact ⟨ts, notateEntries_eq_some_iff.mpr hts⟩
      simp [notate, hts]
    | _ => rfl

/-- Straight values are rendered on one line. -/
theorem oneLine_render (h : v.Straight inspected) : OneLine v.render := by
  unfold render
  split
  · decide
  · rename_i key
    have hkey : OneLine key := by simpa [straightNode] using (straight_iff.mp h).1
    simp only [oneLine_append_iff]
    exact ⟨⟨by decide, hkey⟩, by decide⟩
  · cases hn : v.notate false with
    | some t => exact oneLine_notate hn
    | none =>
      cases inspected with
      | true => exact oneLine_inspect (arrayFree_of_straight h)
      | false => simpa [hn] using notate_isSome h false

/-- Straight keys stand for themselves on one line. -/
theorem oneLine_plain (h : k.Straight inspected) (hk : straightKey inspected k) : OneLine k.plain := by
  obtain ⟨htext, hform⟩ := Bool.and_eq_true_iff.mp hk
  cases k with
  | text s => exact of_decide_eq_true htext
  | symbol key =>
    have hkey : OneLine key := by simpa [straightNode] using (straight_iff.mp h).1
    simp only [plain, oneLine_append_iff]
    exact ⟨⟨by decide, hkey⟩, by decide⟩
  | cell c => exact c.oneLine_plain
  | array kind vs =>
    cases inspected with
    | true => cases (straight_iff.mp h).1
    | false => cases hform
  | view es =>
    cases inspected with
    | true => exact oneLine_inspect (v := dict es) (arrayFree_of_straight (straight_iff.mpr (straight_iff.mp h)))
    | false => cases hform
  | null | bool | int | float => exact oneLine_inspect rfl
  | undefined | bytes | list | tuple | set | dict =>
    cases inspected with
    | true => exact oneLine_inspect (arrayFree_of_straight h)
    | false => cases hform

end

end Value
end Schemata
