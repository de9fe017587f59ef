import Schemata.Proofs.Lists
import Schemata.Value.Equality

/-!
The laws of value equality. Equality up to an equality of numbers is the relation `Alike`, read off constructor by
constructor; from it come reflexivity and transitivity for all values, and symmetry for hashable ones.
-/
namespace Schemata

namespace Numeral

theorem Place.order_eq_iff (p q : Place) : p.order q = .eq ↔ p = q := by
  cases p <;> cases q <;> simp [Place.order, Std.LawfulEqCmp.compare_eq_iff_eq]

theorem units_pos : 0 < (unitsPerOne : Int) := by
  have h : 0 < unitsPerOne := by
    delta unitsPerOne
    exact Nat.pow_pos (by decide)
  omega

theorem place?_int (n : Int) : ∃ units, (int n).place? = some (.at units) :=
  ⟨_, rfl⟩

theorem place?_int_inj {m n : Int} (h : (int m).place? = (int n).place?) : m = n := by
  have hu : m * (unitsPerOne : Int) = n * (unitsPerOne : Int) := Place.at.inj (Option.some.inj h)
  exact Int.eq_of_mul_eq_mul_right (Int.ne_of_gt units_pos) hu

@[simp]
theorem equals_int (m n : Int) : (int m).equals (int n) ↔ m = n := by
  simp [equals, order?, Std.LawfulEqCmp.compare_eq_iff_eq]

/-- Numbers are equal exactly when they lie at one place. -/
theorem equals_iff (a b : Numeral) : a.equals b ↔ ∃ p, a.place? = some p ∧ b.place? = some p := by
  have hp : (∃ p q, a.place? = some p ∧ b.place? = some q ∧ p.order q = .eq) ↔
      ∃ p, a.place? = some p ∧ b.place? = some p := by
    constructor
    · rintro ⟨p, q, ha, hb, h⟩
      exact ⟨p, ha, (Place.order_eq_iff p q).mp h ▸ hb⟩
    · rintro ⟨p, ha, hb⟩
      exact ⟨p, p, ha, hb, (Place.order_eq_iff p p).mpr rfl⟩
  cases a with
  | int m =>
    cases b with
    | int n =>
      -- Integers are compared without places.
      rw [equals_int]
      constructor
      · rintro rfl
        obtain ⟨units, hu⟩ := place?_int m
        exact ⟨_, hu, hu⟩
      · rintro ⟨p, hm, hn⟩
        exact place?_int_inj (hm.trans hn.symm)
    | float y =>
      rw [← hp]
      cases hm : (int m).place? <;> cases hy : (float y).place? <;> simp [equals, order?, hm, hy]
  | float x =>
    rw [← hp]
    cases hx : (float x).place? <;> cases hb : b.place? <;> simp [equals, order?, hx, hb]

theorem equals_symm {a b : Numeral} (h : a.equals b) : b.equals a := by
  obtain ⟨p, ha, hb⟩ := (equals_iff a b).mp h
  exact (equals_iff b a).mpr ⟨p, hb, ha⟩

theorem equals_trans {a b c : Numeral} (h : a.equals b) (k : b.equals c) : a.equals c := by
  obtain ⟨p, ha, hb⟩ := (equals_iff a b).mp h
  obtain ⟨q, hb', hc⟩ := (equals_iff b c).mp k
  obtain rfl := Option.some.inj (hb.symm.trans hb')
  exact (equals_iff a c).mpr ⟨p, ha, hc⟩

theorem same_iff (a b : Numeral) : a.same b ↔ a.place? = b.place? := by
  simp [same]

theorem same_of_equals {a b : Numeral} (h : a.equals b) : a.same b := by
  obtain ⟨p, ha, hb⟩ := (equals_iff a b).mp h
  exact (same_iff a b).mpr (ha.trans hb.symm)

/-- A number that equals itself is told apart from all others by either equality. -/
theorem equals_of_same {a b : Numeral} (hb : b.equals b) (h : a.same b) : a.equals b := by
  obtain ⟨p, hp, _⟩ := (equals_iff b b).mp hb
  exact (equals_iff a b).mpr ⟨p, ((same_iff a b).mp h).trans hp, hp⟩

end Numeral

/-- A floating-point number has the integer that it equals by value, and none if it equals none. -/
theorem Double.integer?_eq_some_iff {x : Double} {n : Int} :
    x.integer? = some n ↔ (Numeral.float x).equals (.int n) := by
  rw [Numeral.equals_iff]
  cases x with
  | nan =>
    refine iff_of_false nofun ?_
    rintro ⟨p, hx, -⟩
    cases hx
  | infinite negative =>
    refine iff_of_false nofun ?_
    rintro ⟨p, hx, hn⟩
    cases negative <;> cases hx.trans hn.symm
  | finite negative units fits =>
    have hplace : (∃ p, (Numeral.float (finite negative units fits)).place? = some p ∧ (Numeral.int n).place? = some p) ↔
        signedUnits negative units = n * unitsPerOne := by
      constructor
      · rintro ⟨p, hx, hn⟩
        exact Numeral.Place.at.inj (Option.some.inj (hx.trans hn.symm))
      · intro h
        exact ⟨_, rfl, congrArg (fun units => some (Numeral.Place.at units)) h.symm⟩
    rw [hplace, integer?]
    have hpos := Numeral.units_pos
    generalize unitsPerOne = one at hpos ⊢
    have hdvd : units % one = 0 ↔ (one : Int) ∣ signedUnits negative units := by
      rw [← Nat.dvd_iff_mod_eq_zero, ← Int.natCast_dvd_natCast]
      cases negative <;> simp [signedUnits]
    have hquotient (h : units % one = 0) :
        (if negative then -((units / one : Nat) : Int) else (units / one : Nat)) = signedUnits negative units / one := by
      have hunits : (one : Int) ∣ units := Int.natCast_dvd_natCast.mpr (Nat.dvd_of_mod_eq_zero h)
      cases negative
      · rfl
      · exact (Int.neg_ediv_of_dvd hunits).symm
    simp only [Option.ite_none_right_eq_some, Option.some.injEq]
    constructor
    · rintro ⟨hmod, hn⟩
      rw [hquotient hmod] at hn
      exact (Int.ediv_eq_iff_eq_mul_left (Int.ne_of_gt hpos) (hdvd.mp hmod)).mp hn
    · intro hn
      have hmod : units % one = 0 := hdvd.mpr ⟨n, by rw [hn, Int.mul_comm]⟩
      refine ⟨hmod, ?_⟩
      rw [hquotient hmod]
      exact (Int.ediv_eq_iff_eq_mul_left (Int.ne_of_gt hpos) (hdvd.mp hmod)).mpr hn

namespace Value

/-- The values that a container holds: items, or keys and what they lead to. -/
def parts : Value → List Value
  | list items => items
  | tuple items => items
  | set items => items
  | array _ items => items
  | dict entries => entries.flatMap fun e => [e.1, e.2]
  | view entries => entries.flatMap fun e => [e.1, e.2]
  | _ => []

theorem sizeOf_entry_lt {e : Value × Value} {es : List (Value × Value)} (h : e ∈ es) :
    sizeOf e.1 < sizeOf es ∧ sizeOf e.2 < sizeOf es := by
  have hm := List.sizeOf_lt_of_mem h
  cases e
  simp only [Prod.mk.sizeOf_spec] at hm
  constructor <;> dsimp only <;> omega

theorem sizeOf_part_lt {v w : Value} (h : w ∈ v.parts) : sizeOf w < sizeOf v := by
  cases v with
  | list items | tuple items | set items | array _ items =>
    have hm : sizeOf w < sizeOf items := List.sizeOf_lt_of_mem h
    simp
    omega
  | dict es | view es =>
    obtain ⟨e, he, hw⟩ := List.mem_flatMap.mp h
    have hm := sizeOf_entry_lt he
    simp only [List.mem_cons, List.not_mem_nil, or_false] at hw
    rcases hw with rfl | rfl <;> simp <;> omega
  | _ => cases h

/-- Induction on the parts of a value. -/
theorem partsInduction {motive : Value → Prop} (step : ∀ v, (∀ w ∈ v.parts, motive w) → motive v)
    (v : Value) : motive v :=
  step v fun w hw => have := sizeOf_part_lt hw; partsInduction step w
termination_by sizeOf v

section
variable {number : Numeral → Numeral → Bool}

/-- How two values can be equal when their parts are compared by `same`. -/
inductive Alike (number : Numeral → Numeral → Bool) (same : Value → Value → Prop) : Value → Value → Prop
  | null : Alike number same null null
  | undefined : Alike number same undefined undefined
  | text (s : String) : Alike number same (text s) (text s)
  | symbol (k : String) : Alike number same (symbol k) (symbol k)
  | bytes (d : List UInt8) : Alike number same (bytes d) (bytes d)
  | number {v w : Value} {a b : Numeral} (hv : v.numeral? = some a) (hw : w.numeral? = some b)
      (h : number a b) : Alike number same v w
  | list {xs ys : List Value} (h : List.Forall₂ same xs ys) : Alike number same (list xs) (list ys)
  | tuple {xs ys : List Value} (h : List.Forall₂ same xs ys) : Alike number same (tuple xs) (tuple ys)
  | array {k l : CellKind} {xs ys : List Value} (h : List.Forall₂ same xs ys) :
      Alike number same (array k xs) (array l ys)
  | set {xs ys : List Value} (hl : xs.length = ys.length) (h : ∀ x ∈ xs, ∃ y ∈ ys, same x y) :
      Alike number same (set xs) (set ys)
  | mapping {v w : Value} {es fs : List (Value × Value)} (hv : v.entries? = some es)
      (hw : w.entries? = some fs) (hl : es.length = fs.length)
      (h : ∀ e ∈ es, ∃ f ∈ fs, same e.1 f.1 ∧ same e.2 f.2) : Alike number same v w

theorem equalItems_iff (xs ys : List Value) :
    equalItems number xs ys ↔ List.Forall₂ (fun x y => x.equalsUpTo number y) xs ys := by
  induction xs generalizing ys with
  | nil => cases ys <;> simp [equalItems]
  | cons x xs ih => cases ys <;> simp [equalItems, ih]

theorem eachFound_iff (xs ys : List Value) :
    eachFound number xs ys ↔ ∀ x ∈ xs, ∃ y ∈ ys, x.equalsUpTo number y := by
  induction xs with
  | nil => simp [eachFound]
  | cons x xs ih => simp [eachFound, ih]

theorem eachEntryFound_iff (es fs : List (Value × Value)) :
    eachEntryFound number es fs ↔
      ∀ e ∈ es, ∃ f ∈ fs, e.1.equalsUpTo number f.1 ∧ e.2.equalsUpTo number f.2 := by
  induction es with
  | nil => simp [eachEntryFound]
  | cons e es ih =>
    obtain ⟨k, v⟩ := e
    simp only [eachEntryFound, Bool.and_eq_true, List.any_eq_true, ih, List.forall_mem_cons]

theorem equalsUpTo_iff (v w : Value) :
    v.equalsUpTo number w ↔ Alike number (fun a b => a.equalsUpTo number b) v w := by
  constructor
  · intro h
    cases v with
    | null | undefined =>
      cases w <;> simp [equalsUpTo] at h
      constructor
    | text s | symbol k | bytes d =>
      cases w <;> simp [equalsUpTo] at h
      subst h
      constructor
    | bool b | int n | float x | cell c =>
      cases hw : w.numeral? with
      | none => simp [equalsUpTo, hw] at h
      | some b => exact .number rfl hw (by simpa [equalsUpTo, hw] using h)
    | list xs =>
      cases w <;> simp [equalsUpTo, equalItems_iff] at h
      exact .list h
    | tuple xs =>
      cases w <;> simp [equalsUpTo, equalItems_iff] at h
      exact .tuple h
    | array k xs =>
      cases w <;> simp [equalsUpTo, equalItems_iff] at h
      exact .array h
    | set xs =>
      cases w <;> simp [equalsUpTo, eachFound_iff] at h
      exact .set h.1 h.2
    | dict es | view es =>
      cases hw : w.entries? with
      | none => simp [equalsUpTo, hw] at h
      | some fs =>
        simp only [equalsUpTo, hw, Bool.and_eq_true, beq_iff_eq, eachEntryFound_iff] at h
        exact .mapping rfl hw h.1 h.2
  · intro h
    cases h with
    | null | undefined | text | symbol | bytes => simp [equalsUpTo]
    | number hv hw h =>
      cases v <;> simp [numeral?] at hv <;> subst hv <;> simpa [equalsUpTo, hw] using h
    | list h | tuple h | array h => simpa [equalsUpTo, equalItems_iff] using h
    | set hl h => simpa [equalsUpTo, eachFound_iff] using ⟨hl, h⟩
    | mapping hv hw hl h =>
      cases v <;> simp [entries?] at hv <;> subst hv <;>
        simp only [equalsUpTo, hw, Bool.and_eq_true, beq_iff_eq, eachEntryFound_iff] <;> exact ⟨hl, h⟩

theorem numeral?_of_entries {v : Value} {es : List (Value × Value)} (h : v.entries? = some es) :
    v.numeral? = none := by
  cases v <;> simp_all [entries?, numeral?]

theorem mem_parts_of_entries {v : Value} {es : List (Value × Value)} (h : v.entries? = some es)
    {e : Value × Value} (he : e ∈ es) : e.1 ∈ v.parts ∧ e.2 ∈ v.parts := by
  cases v <;> simp [entries?] at h <;> subst h <;>
    exact ⟨List.mem_flatMap.mpr ⟨e, he, by simp⟩, List.mem_flatMap.mpr ⟨e, he, by simp⟩⟩

theorem parts_of_entries {v : Value} {es : List (Value × Value)} (h : v.entries? = some es) :
    v.parts = es.flatMap fun e => [e.1, e.2] := by
  cases v <;> simp [entries?] at h <;> subst h <;> rfl

theorem mem_parts_of_items {v w : Value} {vs : List Value} (h : v.items? = some vs) (hw : w ∈ vs) :
    w ∈ v.parts := by
  cases v <;> simp [items?] at h <;> subst h <;> exact hw

theorem mem_parts_of_lookup {v key w : Value} {es : Entries} (h : v.entries? = some es) (hw : es.lookup key = some w) :
    w ∈ v.parts := by
  obtain ⟨e, he, rfl⟩ := Option.map_eq_some_iff.mp hw
  exact (mem_parts_of_entries h (List.mem_of_find?_eq_some he)).2

/-- A value equals itself when its parts do, and the number that it counts as. -/
theorem equalsUpTo_self {v : Value} (hn : ∀ a, v.numeral? = some a → number a a)
    (h : ∀ w ∈ v.parts, w.equalsUpTo number w) : v.equalsUpTo number v := by
  rw [equalsUpTo_iff]
  cases v with
  | null => exact .null
  | undefined => exact .undefined
  | text s => exact .text s
  | symbol k => exact .symbol k
  | bytes d => exact .bytes d
  | bool b | int n | float x | cell c => exact .number rfl rfl (hn _ rfl)
  | list xs => exact .list (List.forall₂_same.mpr h)
  | tuple xs => exact .tuple (List.forall₂_same.mpr h)
  | array k xs => exact .array (List.forall₂_same.mpr h)
  | set xs => exact .set rfl fun x hx => ⟨x, hx, h x hx⟩
  | dict es | view es =>
    refine .mapping rfl rfl rfl fun e he => ⟨e, he, h _ ?_, h _ ?_⟩
    · exact (mem_parts_of_entries rfl he).1
    · exact (mem_parts_of_entries rfl he).2

theorem equalsUpTo_refl (hn : ∀ a, number a a) (v : Value) : v.equalsUpTo number v := by
  induction v using partsInduction with
  | step v ih => exact equalsUpTo_self (fun a _ => hn a) ih

/-- No table need be duplicate-free here: an entry is followed from table to table. -/
theorem equalsUpTo_trans (hn : ∀ a b c, number a b → number b c → number a c) {v w u : Value}
    (h : v.equalsUpTo number w) (k : w.equalsUpTo number u) : v.equalsUpTo number u := by
  induction v using partsInduction generalizing w u with
  | step v ih =>
    rw [equalsUpTo_iff] at h k ⊢
    cases h with
    | null | undefined | text | symbol | bytes => exact k
    | number hv hw h =>
      cases k with
      | number hw' hu k =>
        obtain rfl := Option.some.inj (hw.symm.trans hw')
        exact .number hv hu (hn _ _ _ h k)
      | mapping hw' => simp [numeral?_of_entries hw'] at hw
      | _ => simp [numeral?] at hw
    | list h =>
      cases k with
      | number hw => simp [numeral?] at hw
      | mapping hw => simp [entries?] at hw
      | list k => exact .list (Lists.forall₂_trans h k fun x hx _ _ => ih x hx)
    | tuple h =>
      cases k with
      | number hw => simp [numeral?] at hw
      | mapping hw => simp [entries?] at hw
      | tuple k => exact .tuple (Lists.forall₂_trans h k fun x hx _ _ => ih x hx)
    | array h =>
      cases k with
      | number hw => simp [numeral?] at hw
      | mapping hw => simp [entries?] at hw
      | array k => exact .array (Lists.forall₂_trans h k fun x hx _ _ => ih x hx)
    | set hl h =>
      cases k with
      | number hw => simp [numeral?] at hw
      | mapping hw => simp [entries?] at hw
      | set hl' k =>
        refine .set (hl.trans hl') fun x hx => ?_
        obtain ⟨y, hy, hxy⟩ := h x hx
        obtain ⟨z, hz, hyz⟩ := k y hy
        exact ⟨z, hz, ih x hx hxy hyz⟩
    | mapping hv hw hl h =>
      cases k with
      | mapping hw' hu hl' k =>
        obtain rfl := Option.some.inj (hw.symm.trans hw')
        refine .mapping hv hu (hl.trans hl') fun e he => ?_
        obtain ⟨f, hf, hk, hx⟩ := h e he
        obtain ⟨g, hg, hk', hx'⟩ := k f hf
        have hm := mem_parts_of_entries hv he
        exact ⟨g, hg, ih _ hm.1 hk hk', ih _ hm.2 hx hx'⟩
      | number hw' => simp [numeral?_of_entries hw] at hw'
      | _ => simp [entries?] at hw
end

mutual

/-- Whether a value may be a key: it has no container inside but tuples. -/
def hashable : Value → Bool
  | tuple items => allHashable items
  | list _ | dict _ | view _ | set _ | array _ _ => false
  | _ => true

def allHashable : List Value → Bool
  | [] => true
  | v :: rest => v.hashable && allHashable rest

end

theorem allHashable_iff (vs : List Value) : allHashable vs ↔ ∀ v ∈ vs, v.hashable := by
  induction vs with
  | nil => simp [allHashable]
  | cons v vs ih => simp [allHashable, ih]

theorem hashable_of_numeral {v : Value} {a : Numeral} (h : v.numeral? = some a) : v.hashable := by
  cases v <;> simp_all [numeral?, hashable]

theorem hashable_of_entries {v : Value} {es : List (Value × Value)} (h : v.entries? = some es) :
    v.hashable = false := by
  cases v <;> simp_all [entries?, hashable]

theorem hashable_congr {number : Numeral → Numeral → Bool} {v w : Value} (h : v.equalsUpTo number w) :
    v.hashable ↔ w.hashable := by
  induction v using partsInduction generalizing w with
  | step v ih =>
    rw [equalsUpTo_iff] at h
    cases h with
    | null | undefined | text | symbol | bytes => rfl
    | number hv hw => simp [hashable_of_numeral hv, hashable_of_numeral hw]
    | list | array | set => simp [hashable]
    | mapping hv hw => simp [hashable_of_entries hv, hashable_of_entries hw]
    | tuple h =>
      rename_i xs ys
      simp only [hashable, allHashable_iff]
      rw [List.forall₂_iff_get] at h
      constructor
      · intro hx y hy
        obtain ⟨i, hi, rfl⟩ := List.getElem_of_mem hy
        have hj : i < xs.length := h.1 ▸ hi
        exact (ih _ (List.getElem_mem hj) (h.2 i hj hi)).mp (hx _ (List.getElem_mem hj))
      · intro hy x hx
        obtain ⟨i, hi, rfl⟩ := List.getElem_of_mem hx
        have hj : i < ys.length := h.1 ▸ hi
        exact (ih _ hx (h.2 i hi hj)).mpr (hy _ (List.getElem_mem hj))

/-- Equality with a key can be turned around. -/
theorem equalsUpTo_symm {number : Numeral → Numeral → Bool} (hn : ∀ a b, number a b → number b a)
    {v w : Value} (hv : v.hashable) (h : v.equalsUpTo number w) : w.equalsUpTo number v := by
  induction v using partsInduction generalizing w with
  | step v ih =>
    rw [equalsUpTo_iff] at h ⊢
    cases h with
    | null => exact .null
    | undefined => exact .undefined
    | text s => exact .text s
    | symbol k => exact .symbol k
    | bytes d => exact .bytes d
    | number hv hw h => exact .number hw hv (hn _ _ h)
    | list | array | set => simp [hashable] at hv
    | mapping hv' => simp [hashable_of_entries hv'] at hv
    | tuple h =>
      simp only [hashable, allHashable_iff] at hv
      refine .tuple (List.Forall₂.flip ?_)
      rw [List.forall₂_iff_get] at h ⊢
      exact ⟨h.1, fun i hi hj => ih _ (List.get_mem _ ⟨i, hi⟩) (hv _ (List.get_mem _ ⟨i, hi⟩)) (h.2 i hi hj)⟩

theorem equals_symm {v w : Value} (hv : v.hashable) (h : v.equals w) : w.equals v :=
  equalsUpTo_symm (fun _ _ => Numeral.equals_symm) hv h

theorem equals_comm {v w : Value} (hv : v.hashable) : v.equals w ↔ w.equals v :=
  ⟨equals_symm hv, fun h => equals_symm ((hashable_congr h).mpr hv) h⟩

theorem differs_symm {v w : Value} (hw : w.hashable) (h : v.equals w = false) : w.equals v = false := by
  rwa [Bool.eq_false_iff, ne_eq, equals_comm hw, ← ne_eq, ← Bool.eq_false_iff]

theorem equals_trans {v w u : Value} (h : v.equals w) (k : w.equals u) : v.equals u := by
  have hn (a b c : Numeral) : a.equals b → b.equals c → a.equals c := Numeral.equals_trans
  exact equalsUpTo_trans hn h k

@[simp]
theorem same_refl (v : Value) : v.same v :=
  equalsUpTo_refl (fun a => by simp [Numeral.same]) v

theorem same_trans {v w u : Value} (h : v.same w) (k : w.same u) : v.same u :=
  equalsUpTo_trans (fun a b c hab hbc => by
    rw [Numeral.same_iff] at *
    exact hab.trans hbc) h k

theorem equalsUpTo_mono {number number' : Numeral → Numeral → Bool} (hn : ∀ a b, number a b → number' a b)
    {v w : Value} (h : v.equalsUpTo number w) : v.equalsUpTo number' w := by
  induction v using partsInduction generalizing w with
  | step v ih =>
    have items {xs ys : List Value} (hp : ∀ x ∈ xs, x ∈ v.parts)
        (h : List.Forall₂ (fun x y => x.equalsUpTo number y) xs ys) :
        List.Forall₂ (fun x y => x.equalsUpTo number' y) xs ys := by
      rw [List.forall₂_iff_get] at h ⊢
      exact ⟨h.1, fun i hi hj => ih _ (hp _ (List.get_mem xs ⟨i, hi⟩)) (h.2 i hi hj)⟩
    rw [equalsUpTo_iff] at h ⊢
    cases h with
    | null => exact .null
    | undefined => exact .undefined
    | text s => exact .text s
    | symbol k => exact .symbol k
    | bytes d => exact .bytes d
    | number hv hw h => exact .number hv hw (hn _ _ h)
    | list h => exact .list (items (fun _ hx => hx) h)
    | tuple h => exact .tuple (items (fun _ hx => hx) h)
    | array h => exact .array (items (fun _ hx => hx) h)
    | set hl h =>
      refine .set hl fun x hx => ?_
      obtain ⟨y, hy, hxy⟩ := h x hx
      exact ⟨y, hy, ih x hx hxy⟩
    | mapping hv hw hl h =>
      refine .mapping hv hw hl fun e he => ?_
      obtain ⟨f, hf, hk, hx⟩ := h e he
      have hm := mem_parts_of_entries hv he
      exact ⟨f, hf, ih _ hm.1 hk, ih _ hm.2 hx⟩

theorem same_of_equals {v w : Value} (h : v.equals w) : v.same w :=
  equalsUpTo_mono (fun _ _ => Numeral.same_of_equals) h

/-- A key that equals itself holds no not-a-number, so the two equalities agree on it. -/
theorem equals_of_same {v w : Value} (hw : w.hashable) (he : w.equals w) (h : v.same w) : v.equals w := by
  induction v using partsInduction generalizing w with
  | step v ih =>
    rw [same, equalsUpTo_iff] at h
    rw [equals, equalsUpTo_iff] at he ⊢
    cases h with
    | null => exact .null
    | undefined => exact .undefined
    | text s => exact .text s
    | symbol k => exact .symbol k
    | bytes d => exact .bytes d
    | number hv hw' h =>
      cases he with
      | number ha hb k =>
        obtain rfl := Option.some.inj (ha.symm.trans hb)
        obtain rfl := Option.some.inj (hw'.symm.trans hb)
        exact .number hv hw' (Numeral.equals_of_same k h)
      | mapping ha => simp [numeral?_of_entries ha] at hw'
      | _ => simp [numeral?] at hw'
    | list | array | set => simp [hashable] at hw
    | mapping _ hw' => simp [hashable_of_entries hw'] at hw
    | tuple h =>
      cases he with
      | number ha => simp [numeral?] at ha
      | mapping ha => simp [entries?] at ha
      | tuple k =>
        refine .tuple ?_
        simp only [hashable, allHashable_iff] at hw
        rw [List.forall₂_same] at k
        rw [List.forall₂_iff_get] at h ⊢
        refine ⟨h.1, fun i hi hj => ih _ (List.get_mem _ ⟨i, hi⟩) (hw _ ?_) (k _ ?_) (h.2 i hi hj)⟩ <;>
          exact List.get_mem _ ⟨i, hj⟩

theorem occursIn_iff (v : Value) (vs : List Value) : v.occursIn vs ↔ ∃ w ∈ vs, w.equals v := by
  simp [occursIn]

theorem differs_of_not_occursIn {v w : Value} {vs : List Value} (h : v.occursIn vs = false) (hw : w ∈ vs) :
    w.equals v = false := by
  rw [occursIn, List.any_eq_false] at h
  exact Bool.eq_false_iff.mpr (h w hw)

end Value
end Schemata
