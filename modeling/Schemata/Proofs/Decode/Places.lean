import Mathlib.Order.Bounds.Basic
import Schemata.Proofs.Decode.Failure
import Schemata.Proofs.Decode.Termination
import Schemata.Stock

/-!
Where the items of a tuple go. The number of an item and the number of all items decide which part of the tuple the
item goes to: a position, the repeated item, or a trailing item, which are counted from the end of the input but never
from before the end of the positions. The steps of a tuple are one for each item in order, so the first item that is
refused, or the first gap behind them all, decides the outcome.
-/
namespace Schemata

/-- A run is stopped by a step before which all steps pass. -/
theorem Halts.exists_getElem? {steps : List (Step (Except Fault))} {p : Problem} (h : Halts steps p) :
    ∃ (i : Nat) (s : Step (Except Fault)), steps[i]? = some s ∧ s.Stops p ∧
      ∀ j < i, ∀ t : Step (Except Fault), steps[j]? = some t → t.Passes := by
  induction h with
  | here h => exact ⟨0, _, rfl, h, fun j hj => absurd hj (Nat.not_lt_zero j)⟩
  | later hs _ ih =>
    obtain ⟨i, s, hi, hp, hbefore⟩ := ih
    refine ⟨i + 1, s, hi, hp, fun j hj t ht => ?_⟩
    cases j with
    | zero => exact Option.some.inj ht ▸ hs
    | succ j => exact hbefore j (Nat.lt_of_succ_lt_succ hj) t ht

namespace Tuple
variable {σ : Type} {m : Type → Type} {es : List (Element σ)} {rest : Option (Rest σ)} {count i : Nat}

def trailingStart (es : List (Element σ)) (r : Rest σ) (count : Nat) : Nat :=
  max (count - r.trailing.length) es.length

def part (es : List (Element σ)) (rest : Option (Rest σ)) (count i : Nat) : Option σ :=
  if h : i < es.length then some es[i].type
  else rest.bind fun r =>
    if i < trailingStart es r count then some r.head else r.trailing[i - trailingStart es r count]?

theorem part_isSome_iff (hi : i < count) : (part es rest count i).isSome ↔ i < es.length ∨ rest.isSome := by
  by_cases hp : i < es.length
  · simp [part, hp]
  · cases rest with
    | none => simp [part, hp]
    | some r =>
      have hin : ¬i < trailingStart es r count → i - trailingStart es r count < r.trailing.length := by
        rw [trailingStart]
        omega
      by_cases hr : i < trailingStart es r count <;> simp [part, hp, hr, hin]

theorem getElem?_assigned (hi : i < count) : (assigned es rest count)[i]? = some (part es rest count i) := by
  by_cases hp : i < es.length
  · simp [getElem?_assigned_position hp hi, part, hp]
  · have hl : es.length ≤ i := Nat.le_of_not_lt hp
    have hin : i - es.length < count - es.length := by omega
    rw [getElem?_assigned_rest hl hi, part, dif_neg hp]
    cases rest with
    | none => simp [restAssigned, hin]
    | some r =>
      rw [restAssigned, Option.bind_some]
      have hstart : i < trailingStart es r count ↔ i - es.length < count - es.length - r.trailing.length := by
        rw [trailingStart]
        omega
      by_cases hr : i < trailingStart es r count
      · rw [if_pos hr, List.getElem?_append_left (by simpa using hstart.mp hr), List.getElem?_replicate,
          if_pos (hstart.mp hr)]
      · have hj : i - es.length - (count - es.length - r.trailing.length) = i - trailingStart es r count := by
          rw [trailingStart]
          omega
        have hlt : i - trailingStart es r count < min (count - es.length) r.trailing.length := by
          rw [trailingStart] at hr ⊢
          omega
        rw [if_neg hr, List.getElem?_append_right (by simpa using hstart.not.mp hr), List.length_replicate, hj,
          List.getElem?_map, List.getElem?_take_of_lt (by omega)]
        simp [show i - trailingStart es r count < r.trailing.length by omega]

theorem getElem?_itemSteps {i j : Nat} {qs : List (Option (Parser m))} {vs : List Value} :
    (itemSteps i qs vs)[j]? = qs[j]?.bind fun q => vs[j]?.map fun v => itemStep (i + j) q v := by
  induction vs generalizing i j qs with
  | nil => cases qs <;> simp [itemSteps]
  | cons v vs ih =>
    cases qs with
    | nil => simp [itemSteps]
    | cons q qs =>
      cases j with
      | zero => simp [itemSteps]
      | succ j =>
        have hj : i + 1 + j = i + (j + 1) := by omega
        simp [itemSteps, ih, hj]

/-- One step for each item in order, by the part that the item goes to, and one for each gap. -/
theorem steps_eq_mapIdx (f : σ → Parser m) (es : List (Element σ)) (rest : Option (Rest σ)) (items : List Value) :
    steps (es.map (Element.map f)) (rest.map (Rest.map f)) items =
      (items.mapIdx fun i v => itemStep i ((part es rest items.length i).map f) v) ++
        (gaps es rest items.length).map gapStep := by
  rw [steps_map]
  congr 1
  apply List.ext_getElem?
  intro j
  rw [getElem?_itemSteps, List.getElem?_mapIdx, Nat.zero_add]
  by_cases hj : j < items.length
  · simp [getElem?_assigned hj]
  · simp [hj]

/-- What has to be there although the items do not reach as far: a position that may not be left out, or a trailing
item. -/
def Absent (es : List (Element σ)) (rest : Option (Rest σ)) (count i : Nat) : Prop :=
  count ≤ i ∧ ((∃ e, es[i]? = some e ∧ e.optional = false) ∨
    ∃ r ∈ rest, trailingStart es r count ≤ i ∧ i < trailingStart es r count + r.trailing.length)

theorem positionGaps_cases (i : Nat) (es : List (Element σ)) :
    (positionGaps i es = [] ∧ ∀ e ∈ es, e.optional) ∨
      ∃ j e, positionGaps i es = [i + j] ∧ es[j]? = some e ∧ e.optional = false ∧
        ∀ k < j, ∀ e, es[k]? = some e → e.optional := by
  induction es generalizing i with
  | nil => exact .inl ⟨rfl, by simp⟩
  | cons e es ih =>
    cases he : e.optional with
    | false => exact .inr ⟨0, e, by simp [positionGaps, he], rfl, he, fun k hk => absurd hk (Nat.not_lt_zero k)⟩
    | true =>
      rcases ih (i + 1) with ⟨hnil, hall⟩ | ⟨j, e', hj, he', ho, hbefore⟩
      · exact .inl ⟨by simp [positionGaps, he, hnil], List.forall_mem_cons.mpr ⟨he, hall⟩⟩
      · refine .inr ⟨j + 1, e', ?_, he', ho, fun k hk e'' hke => ?_⟩
        · rw [positionGaps, if_pos he, hj, Nat.add_assoc, Nat.add_comm 1 j]
        · cases k with
          | zero => exact Option.some.inj hke ▸ he
          | succ k => exact hbefore k (Nat.lt_of_succ_lt_succ hk) e'' hke

/-- The first gap is the least of what is absent. -/
theorem gaps_cases (es : List (Element σ)) (rest : Option (Rest σ)) (count : Nat) :
    (gaps es rest count = [] ∧ ∀ i, ¬Absent es rest count i) ∨
      ∃ i is, gaps es rest count = i :: is ∧ IsLeast {i | Absent es rest count i} i := by
  rw [gaps]
  rcases positionGaps_cases count (es.drop count) with ⟨hnil, hall⟩ | ⟨j, e, hj, he, ho, hbefore⟩
  · have hposition {i : Nat} {e : Element σ} (hi : count ≤ i) (he : es[i]? = some e) : e.optional := by
      refine hall e (List.mem_of_getElem? (i := i - count) ?_)
      rw [List.getElem?_drop, Nat.add_sub_cancel' hi, he]
    rw [hnil, List.nil_append]
    cases rest with
    | none =>
      refine .inl ⟨rfl, ?_⟩
      rintro i ⟨hi, ⟨e, he, ho⟩ | ⟨r, hr, _⟩⟩
      · rw [hposition hi he] at ho
        cases ho
      · cases hr
    | some r =>
      have htrailing {i : Nat} : Absent es (some r) count i ↔
          count ≤ i ∧ trailingStart es r count ≤ i ∧ i < trailingStart es r count + r.trailing.length := by
        refine and_congr_right fun hi => ⟨?_, fun h => .inr ⟨r, rfl, h⟩⟩
        rintro (⟨e, he, ho⟩ | ⟨q, hq, h⟩)
        · rw [hposition hi he] at ho
          cases ho
        · obtain rfl := Option.some.inj hq
          exact h
      rw [trailingStart] at htrailing
      rw [trailingGaps]
      split
      · refine .inr ⟨_, [], rfl, htrailing.mpr (by omega), fun i hi => ?_⟩
        have := htrailing.mp hi
        omega
      · refine .inl ⟨rfl, fun i hi => ?_⟩
        have := htrailing.mp hi
        omega
  · rw [List.getElem?_drop] at he
    refine .inr ⟨count + j, _, by rw [hj, List.singleton_append], ⟨Nat.le_add_right _ _, .inl ⟨e, he, ho⟩⟩, ?_⟩
    rintro i ⟨hi, ⟨e', he', ho'⟩ | ⟨r, _, hr, _⟩⟩
    · by_contra hlt
      have hopt := hbefore (i - count) (by omega) e' (by rw [List.getElem?_drop, Nat.add_sub_cancel' hi, he'])
      rw [hopt] at ho'
      cases ho'
    · obtain ⟨hlt, _⟩ := List.getElem?_eq_some_iff.mp he
      rw [trailingStart] at hr
      omega

/-- The items that are kept when none is refused: all of them, or those at the positions. -/
def keptCount (es : List (Element σ)) (rest : Option (Rest σ)) (count : Nat) : Nat :=
  if rest.isSome then count else min count es.length

theorem keptCount_le : keptCount es rest count ≤ count := by
  rw [keptCount]
  split
  · exact Nat.le_refl count
  · exact Nat.min_le_left ..

theorem part_isSome_iff_lt (hi : i < count) : (part es rest count i).isSome ↔ i < keptCount es rest count := by
  rw [part_isSome_iff hi, keptCount]
  split
  · simp [*]
  · simp [*]

/-- What an item is refused for, or what is not there. -/
def Refused (es : List (Element σ)) (rest : Option (Rest σ)) (count : Nat) (outcomes : Nat → Outcome) (i : Nat) :
    Prop :=
  (i < keptCount es rest count ∧ (outcomes i).isFailure) ∨ Absent es rest count i

def itemWarnings (outcomes : Nat → Outcome) (i : Nat) : List Problem :=
  match outcomes i with
  | .warning _ ps => [.within (.index i) ps]
  | _ => []

def reports (es : List (Element σ)) (rest : Option (Rest σ)) (count : Nat) (outcomes : Nat → Outcome) : List Problem :=
  let kept := keptCount es rest count
  (List.range kept).flatMap (itemWarnings outcomes) ++
    (List.range' kept (count - kept)).map fun i => .within (.index i) [.unexpected (.index i)]

/-- What is said of item `i` when nothing before it stops the run. -/
def refusal (outcomes : Nat → Outcome) (count i : Nat) : Problem :=
  .within (.index i) (if i < count then (outcomes i).problems else [.missing])

theorem flatMap_mapIdx {α β γ : Type} {as : List α} {f : Nat → α → β} {g : β → List γ} {h : Nat → List γ}
    (heq : ∀ i a, as[i]? = some a → g (f i a) = h i) : (as.mapIdx f).flatMap g = (List.range as.length).flatMap h := by
  rw [List.flatMap_def, List.flatMap_def]
  congr 1
  apply List.ext_getElem?
  intro i
  cases ha : as[i]? with
  | none =>
    simp only [List.getElem?_map, List.getElem?_mapIdx, ha]
    simp [List.getElem?_eq_none_iff.mp ha]
  | some a =>
    obtain ⟨hi, _⟩ := List.getElem?_eq_some_iff.mp ha
    simp only [List.getElem?_map, List.getElem?_mapIdx, ha, List.getElem?_range hi, Option.map_some, heq i a ha]

theorem flatMap_range_ite {γ : Type} {k n : Nat} (hk : k ≤ n) (f g : Nat → List γ) :
    ((List.range n).flatMap fun i => if i < k then f i else g i) =
      (List.range k).flatMap f ++ (List.range' k (n - k)).flatMap g := by
  have hsplit : List.range n = List.range k ++ List.range' k (n - k) := by
    rw [List.range_eq_range', List.range_eq_range']
    simpa [Nat.add_sub_cancel' hk] using (List.range'_append_1 (s := 0) (m := k) (n := n - k)).symm
  rw [hsplit, List.flatMap_append]
  congr 1
  · exact List.flatMap_congr fun i hi => if_pos (List.mem_range.mp hi)
  · exact List.flatMap_congr fun i hi => if_neg (Nat.not_lt.mpr (List.mem_range'_1.mp hi).1)

section
variable {f : σ → Parser (Except Fault)} {items : List Value} {outcomes : Nat → Outcome} {p : Problem}

theorem getElem?_steps_item {v : Value} (hv : items[i]? = some v) :
    (steps (es.map (Element.map f)) (rest.map (Rest.map f)) items)[i]? =
      some (itemStep i ((part es rest items.length i).map f) v) := by
  obtain ⟨hi, _⟩ := List.getElem?_eq_some_iff.mp hv
  rw [steps_eq_mapIdx, List.getElem?_append_left (by simpa using hi), List.getElem?_mapIdx, hv]
  rfl

/-- The items have the outcomes at the parts that they go to. -/
def Given (f : σ → Parser (Except Fault)) (es : List (Element σ)) (rest : Option (Rest σ)) (items : List Value)
    (outcomes : Nat → Outcome) : Prop :=
  ∀ i t, part es rest items.length i = some t → ∀ v, items[i]? = some v → f t v = .ok (outcomes i)

variable (h : Given f es rest items outcomes)
include h

theorem itemStep_cases {v : Value} (hv : items[i]? = some v) :
    let s := itemStep i ((part es rest items.length i).map f) v
    (i < keptCount es rest items.length ∧
        ∃ p : Parser (Except Fault), p v = .ok (outcomes i) ∧ s = .take (.index i) p v) ∨
      (keptCount es rest items.length ≤ i ∧ s = .unexpected (.index i)) := by
  obtain ⟨hi, _⟩ := List.getElem?_eq_some_iff.mp hv
  have hkept : (part es rest items.length i).isSome ↔ i < keptCount es rest items.length := part_isSome_iff_lt hi
  cases hp : part es rest items.length i with
  | none =>
    rw [hp] at hkept
    exact .inr ⟨Nat.le_of_not_lt (hkept.not.mp (by simp)), rfl⟩
  | some t =>
    rw [hp] at hkept
    exact .inl ⟨hkept.mp rfl, f t, h i t hp v hv, rfl⟩

/-- An item whose step passes is not refused. -/
theorem isFailure_of_passes (hi : i < keptCount es rest items.length)
    (hpass : ∀ s ∈ (steps (es.map (Element.map f)) (rest.map (Rest.map f)) items)[i]?, s.Passes) :
    (outcomes i).isFailure = false := by
  have hlt : i < items.length := Nat.lt_of_lt_of_le hi keptCount_le
  have hv : items[i]? = some items[i] := List.getElem?_eq_getElem hlt
  rcases itemStep_cases h hv with ⟨_, p, hp, hs⟩ | ⟨hle, _⟩
  · obtain ⟨o, ho, hf⟩ := hs ▸ hpass _ (getElem?_steps_item hv)
    obtain rfl := Except.ok.inj (hp.symm.trans ho)
    exact hf
  · exact absurd hi (Nat.not_lt.mpr hle)

theorem gather_steps_returns :
    ∃ g, gather (steps (es.map (Element.map f)) (rest.map (Rest.map f)) items) = .ok g := by
  refine exists_ok_iff.mpr fun fault hg => ?_
  obtain ⟨s, hs, hfault⟩ := gather_eq_error_iff.mp hg
  cases mem_steps_iff.mp hs.mem with
  | @item i t v ht hv =>
    obtain ⟨hi, _⟩ := List.getElem?_eq_some_iff.mp hv
    exact exists_ok_iff.mp ⟨_, h i t (Option.some.inj ((getElem?_assigned hi).symm.trans ht)) v hv⟩ fault hfault
  | unexpected | missing => exact hfault

/-- What stops the run is the least of all that is refused. -/
theorem refusal_of_stopped
    (hg : gather (steps (es.map (Element.map f)) (rest.map (Rest.map f)) items) = .ok (.stopped p)) :
    ∃ i, IsLeast {i | Refused es rest items.length outcomes i} i ∧ p = refusal outcomes items.length i := by
  obtain ⟨i, s, hs, hp, hbefore⟩ := (halts_of_gather hg).exists_getElem?
  -- No item before the step is refused.
  have hgood {j : Nat} (hj : j < i) (hk : j < keptCount es rest items.length) : (outcomes j).isFailure = false :=
    isFailure_of_passes h hk fun s hs => hbefore j hj s hs
  rcases Nat.lt_or_ge i items.length with hi | hi
  · have hv : items[i]? = some items[i] := List.getElem?_eq_getElem hi
    obtain rfl := Option.some.inj (hs.symm.trans (getElem?_steps_item hv))
    rcases itemStep_cases h hv with ⟨hk, q, hq, hqs⟩ | ⟨_, hqs⟩
    · rw [hqs] at hp
      cases hp with
      | @take _ _ _ qs hf =>
        have ho : outcomes i = .failure qs := Except.ok.inj (hq.symm.trans hf)
        refine ⟨i, ⟨.inl ⟨hk, by rw [ho]; rfl⟩, ?_⟩, by rw [refusal, if_pos hi, ho]; rfl⟩
        rintro j (⟨hj, hf⟩ | ⟨hj, _⟩)
        · by_contra hlt
          rw [hgood (Nat.lt_of_not_le hlt) hj] at hf
          cases hf
        · exact Nat.le_trans (Nat.le_of_lt hi) hj
    · rw [hqs] at hp
      cases hp
  · rw [steps_eq_mapIdx] at hs hbefore
    rw [List.getElem?_append_right (by simpa using hi), List.length_mapIdx] at hs
    rcases gaps_cases es rest items.length with ⟨hnil, _⟩ | ⟨k, ks, hks, hleast⟩
    · simp [hnil] at hs
    · -- Nothing passes the first gap.
      obtain rfl : i = items.length := by
        by_contra hne
        refine hbefore items.length (by omega) (gapStep k) ?_
        rw [List.getElem?_append_right (by simp), List.length_mapIdx, Nat.sub_self, hks]
        rfl
      rw [hks, Nat.sub_self, List.map_cons, List.getElem?_cons_zero] at hs
      obtain rfl := Option.some.inj hs
      cases hp with
      | missing =>
        have hk : items.length ≤ k := hleast.1.1
        refine ⟨k, ⟨.inr hleast.1, ?_⟩, by rw [refusal, if_neg (Nat.not_lt.mpr hk)]⟩
        rintro j (⟨hj, hf⟩ | hj)
        · rw [hgood (Nat.lt_of_lt_of_le hj keptCount_le) hj] at hf
          cases hf
        · exact hleast.2 hj

/-- What is made of the steps of items that leave no gap. -/
theorem flatMap_steps {γ : Type} {g : Step (Except Fault) → List γ} {kept rejected : Nat → List γ}
    (hgaps : gaps es rest items.length = [])
    (hkept : ∀ i (p : Parser (Except Fault)) v, p v = .ok (outcomes i) → g (.take (.index i) p v) = kept i)
    (hrejected : ∀ i, g (.unexpected (.index i)) = rejected i) :
    (steps (es.map (Element.map f)) (rest.map (Rest.map f)) items).flatMap g =
      (List.range (keptCount es rest items.length)).flatMap kept ++
        (List.range' (keptCount es rest items.length) (items.length - keptCount es rest items.length)).flatMap
          rejected := by
  rw [steps_eq_mapIdx, hgaps, List.map_nil, List.append_nil, ← flatMap_range_ite keptCount_le]
  refine flatMap_mapIdx fun i v hv => ?_
  rcases itemStep_cases h hv with ⟨hk, p, hp, hs⟩ | ⟨hk, hs⟩
  · rw [hs, hkept i p v hp, if_pos hk]
  · rw [hs, hrejected, if_neg (Nat.not_lt.mpr hk)]

/-- A run that comes to its end refuses nothing, and keeps what comes out of the items in order. -/
theorem kept_of_gather {ms : List (Segment × Value)} {ws : List Problem}
    (hg : gather (steps (es.map (Element.map f)) (rest.map (Rest.map f)) items) = .ok (.kept ms ws)) :
    (∀ i, ¬Refused es rest items.length outcomes i) ∧
      ms.map Prod.snd = (List.range (keptCount es rest items.length)).flatMap (fun i => (outcomes i).value?.toList) ∧
      ws = reports es rest items.length outcomes := by
  obtain ⟨hpass, rfl, rfl⟩ := (gather_eq_kept_iff _ _ _).mp hg
  have hgaps : gaps es rest items.length = [] ∧ ∀ i, ¬Absent es rest items.length i := by
    rcases gaps_cases es rest items.length with hnil | ⟨k, ks, hks, _⟩
    · exact hnil
    · refine (hpass (gapStep k) ?_).elim
      rw [steps_eq_mapIdx, hks]
      exact List.mem_append_right _ List.mem_cons_self
  refine ⟨?_, ?_, ?_⟩
  · rintro i (⟨hi, hf⟩ | hi)
    · rw [isFailure_of_passes h hi fun s hs => hpass s (List.mem_of_getElem? hs)] at hf
      cases hf
    · exact hgaps.2 i hi
  · have hmembers (i : Nat) (p : Parser (Except Fault)) (v : Value) (hp : p v = .ok (outcomes i)) :
        (Step.take (.index i) p v).members.map Prod.snd = (outcomes i).value?.toList := by
      simp [Step.members, hp, Function.comp_def]
    rw [List.map_flatMap, flatMap_steps h hgaps.1 hmembers fun _ => rfl]
    simp [Step.members]
  · have hwarnings (i : Nat) (p : Parser (Except Fault)) (v : Value) (hp : p v = .ok (outcomes i)) :
        (Step.take (.index i) p v).warnings = itemWarnings outcomes i := by
      cases ho : outcomes i <;> simp [Step.warnings, itemWarnings, hp, ho]
    rw [flatMap_steps h hgaps.1 hwarnings fun _ => rfl, reports, List.map_eq_flatMap]
    rfl

end

/-- Outcomes that are no failures have values, one for each. -/
theorem exists_values {outcomes : Nat → Outcome} {k : Nat} (h : ∀ i < k, (outcomes i).isFailure = false) :
    ∃ outs : List Value, (List.range k).flatMap (fun i => (outcomes i).value?.toList) = outs ∧ outs.length = k ∧
      ∀ i < k, (outcomes i).value? = outs[i]? := by
  induction k with
  | zero => exact ⟨[], rfl, rfl, fun i hi => absurd hi (Nat.not_lt_zero i)⟩
  | succ k ih =>
    obtain ⟨outs, houts, hl, hvalues⟩ := ih fun i hi => h i (Nat.lt_succ_of_lt hi)
    obtain ⟨v, hv⟩ := (Outcome.isFailure_iff _).mp (h k (Nat.lt_succ_self k))
    refine ⟨outs ++ [v], by simp [List.range_succ, houts, hv], by simp [hl], fun i hi => ?_⟩
    rcases Nat.lt_succ_iff_lt_or_eq.mp hi with hi | rfl
    · rw [hvalues i hi, List.getElem?_append_left (hl ▸ hi)]
    · rw [List.getElem?_append_right (Nat.le_of_eq hl), hl, Nat.sub_self, hv]
      rfl

section
variable {f : σ → Parser (Except Fault)} {items : List Value} {outcomes : Nat → Outcome} {x : Value}
  (scope : Scope) (a : Annotations)

/-- The least of all that is refused is what a tuple fails with. -/
theorem parse_refused (hx : x.items? = some items) (h : Given f es rest items outcomes)
    (hi : IsLeast {i | Refused es rest items.length outcomes i} i) :
    parse scope a (es.map (Element.map f)) (rest.map (Rest.map f)) x =
      .ok (.failure [refusal outcomes items.length i]) := by
  obtain ⟨g, hg⟩ := gather_steps_returns h
  cases g with
  | stopped p =>
    obtain ⟨j, hj, rfl⟩ := refusal_of_stopped h hg
    obtain rfl := hj.unique hi
    simp only [parse, hx, hg]
    rfl
  | kept ms ws => exact absurd hi.1 ((kept_of_gather h hg).1 i)

/-- Where nothing is refused, a tuple gives what its items give. -/
theorem parse_kept (hx : x.items? = some items) (h : Given f es rest items outcomes)
    (hnone : ∀ i, ¬Refused es rest items.length outcomes i) :
    ∃ outs : List Value, outs.length = keptCount es rest items.length ∧
      (∀ i < keptCount es rest items.length, (outcomes i).value? = outs[i]?) ∧
      parse scope a (es.map (Element.map f)) (rest.map (Rest.map f)) x =
        .ok (.warn (rebuild x outs) (reports es rest items.length outcomes)) := by
  obtain ⟨g, hg⟩ := gather_steps_returns h
  cases g with
  | stopped p =>
    obtain ⟨i, hi, _⟩ := refusal_of_stopped h hg
    exact absurd hi.1 (hnone i)
  | kept ms ws =>
    obtain ⟨_, hms, rfl⟩ := kept_of_gather h hg
    have hgood (i : Nat) (hi : i < keptCount es rest items.length) : (outcomes i).isFailure = false := by
      by_contra hf
      exact hnone i (.inl ⟨hi, by simpa using hf⟩)
    obtain ⟨outs, houts, hl, hvalues⟩ := exists_values hgood
    refine ⟨outs, hl, hvalues, ?_⟩
    simp only [parse, hx, hg]
    show Except.ok (finish x (.kept ms _)) = _
    rw [finish, hms, houts]

end

end Tuple

namespace Scope
variable {scope : Scope} {direction : Direction} {a : Annotations} {es : List (Element Schema)}
  {rest : Option (Rest Schema)} {readonly : Bool} {x : Value} {items : List Value} {outcomes : Nat → Outcome}

/-- Enough fuel for all items at once. -/
theorem exists_given (h : ∀ i t v, Tuple.part es rest items.length i = some t → items[i]? = some v →
      scope.Yields direction t v (outcomes i)) :
    ∃ n, Tuple.Given (scope.run direction n) es rest items outcomes := by
  have hall : ∀ᶠ n in Filter.atTop, ∀ i ∈ List.range items.length, ∀ t, Tuple.part es rest items.length i = some t →
      ∀ v, items[i]? = some v → scope.run direction n t v = .ok (outcomes i) := by
    refine eventually_forall_mem fun i _ => ?_
    by_cases hi : ∃ t v, Tuple.part es rest items.length i = some t ∧ items[i]? = some v
    · obtain ⟨t, v, ht, hv⟩ := hi
      refine (h i t v ht hv).eventually.mono fun n hn t' ht' v' hv' => ?_
      obtain rfl := Option.some.inj (ht.symm.trans ht')
      obtain rfl := Option.some.inj (hv.symm.trans hv')
      exact hn
    · exact .of_forall fun n t ht v hv => absurd ⟨t, v, ht, hv⟩ hi
  obtain ⟨n, hn⟩ := hall.exists
  refine ⟨n, fun i t ht v hv => hn i ?_ t ht v hv⟩
  exact List.mem_range.mpr (List.getElem?_eq_some_iff.mp hv).1

/-- Every item of a tuple goes to one part at most, and in turn. The tuple fails exactly if an item fails at its part or
if something has to be there that is not, at the least such place; else it gives what the items give, with their
warnings, and warns of every item that goes nowhere. -/
theorem tuple_outcome (hx : x.items? = some items)
    (h : ∀ i t v, Tuple.part es rest items.length i = some t → items[i]? = some v →
      scope.Yields direction t v (outcomes i)) :
    let n := items.length
    let k := Tuple.keptCount es rest n
    (∀ f : Schema → Parser (Except Fault), ∃ missing : List Nat, (∀ i ∈ missing, n ≤ i) ∧
      Tuple.steps (es.map (Element.map f)) (rest.map (Rest.map f)) items =
        (items.mapIdx fun i v => Tuple.itemStep i ((Tuple.part es rest n i).map f) v) ++
          missing.map Tuple.gapStep) ∧
    (∀ i < n, (Tuple.part es rest n i).isSome ↔ i < es.length ∨ rest.isSome) ∧
    ∃ o, scope.Yields direction (.tuple a es rest readonly) x o ∧
      (o.isFailure ↔ ∃ i, Tuple.Refused es rest n outcomes i) ∧
      (∀ i, IsLeast {i | Tuple.Refused es rest n outcomes i} i → o = .failure [Tuple.refusal outcomes n i]) ∧
      ((∀ i, ¬Tuple.Refused es rest n outcomes i) →
        ∃ outs : List Value, outs.length = k ∧ (∀ i < k, (outcomes i).value? = outs[i]?) ∧
          o = .warn (Tuple.rebuild x outs) (Tuple.reports es rest n outcomes)) := by
  intro n k
  refine ⟨fun f => ⟨_, fun i hi => Tuple.le_of_mem_gaps hi, Tuple.steps_eq_mapIdx f es rest items⟩,
    fun i hi => Tuple.part_isSome_iff hi, ?_⟩
  obtain ⟨fuel, hgiven⟩ := exists_given h
  by_cases hsome : ∃ i, Tuple.Refused es rest n outcomes i
  · obtain ⟨i, hi⟩ : ∃ i, IsLeast {i | Tuple.Refused es rest n outcomes i} i := by
      classical
      exact ⟨Nat.find hsome, Nat.find_spec hsome, fun j hj => Nat.find_min' hsome hj⟩
    refine ⟨_, ⟨fuel, (run_tuple ..).symm ▸ Tuple.parse_refused scope a hx hgiven hi⟩, iff_of_true rfl hsome,
      fun j hj => ?_, fun hnone => absurd hi.1 (hnone i)⟩
    rw [hj.unique hi]
  · have hnone := not_exists.mp hsome
    obtain ⟨outs, hl, hvalues, hparse⟩ := Tuple.parse_kept scope a hx hgiven hnone
    refine ⟨_, ⟨fuel, (run_tuple ..).symm ▸ hparse⟩, iff_of_false (by simp [Outcome.isFailure_warn]) hsome,
      fun i hi => absurd hi.1 (hnone i), fun _ => ⟨outs, hl, hvalues, rfl⟩⟩

def series : Schema :=
  .tuple .empty [⟨.word .string, false⟩] (some ⟨.word .number, [.word .boolean]⟩) true

/-- The second of two measurements is not a number, which is passed on with a warning. -/
theorem tuple_outcome_series :
    let es : List (Element Schema) := [⟨.word .string, false⟩]
    let rest : Option (Rest Schema) := some ⟨.word .number, [.word .boolean]⟩
    let items : List Value := [.text "width", .int 2, .float .nan, .bool true]
    let doubt : List Problem := [.anomaly (.float .nan) .notANumber]
    let outcomes (i : Nat) : Outcome :=
      if i = 2 then .warning (.float .nan) doubt else .success (items[i]?.getD .null)
    (∀ i t v, Tuple.part es rest items.length i = some t → items[i]? = some v →
      (Stock.scope []).Yields .decode t v (outcomes i)) ∧
    (∀ i, ¬Tuple.Refused es rest items.length outcomes i) ∧
    (Stock.scope []).Yields .decode series (.tuple items) (.warning (.tuple items) [.within (.index 2) doubt]) := by
  intro es rest items doubt outcomes
  have hitems : ∀ i t v, Tuple.part es rest items.length i = some t → items[i]? = some v →
      (Stock.scope []).Yields .decode t v (outcomes i) := by
    intro i t v ht hv
    obtain ⟨hi, _⟩ := List.getElem?_eq_some_iff.mp hv
    have hfour : i = 0 ∨ i = 1 ∨ i = 2 ∨ i = 3 := by
      simp [items] at hi
      omega
    rcases hfour with rfl | rfl | rfl | rfl
    all_goals
      obtain rfl := Option.some.inj ht
      obtain rfl := Option.some.inj hv
      exact ⟨0, rfl⟩
  have hnone : ∀ i, ¬Tuple.Refused es rest items.length outcomes i := by
    rintro i (⟨_, hf⟩ | ⟨hi, ⟨e, he, _⟩ | ⟨r, hr, hle, hlt⟩⟩)
    · by_cases hi : i = 2 <;> simp [outcomes, hi, Outcome.isFailure] at hf
    · obtain ⟨hlt, _⟩ := List.getElem?_eq_some_iff.mp he
      simp [items, es] at hi hlt
      omega
    · obtain rfl := Option.some.inj hr
      simp [items, es, Tuple.trailingStart] at hi hlt
      omega
  refine ⟨hitems, hnone, ?_⟩
  obtain ⟨_, _, o, ho, _, _, hkept⟩ :=
    @tuple_outcome (Stock.scope []) .decode .empty es rest true (.tuple items) items outcomes rfl hitems
  obtain ⟨outs, hl, hvalues, rfl⟩ := hkept hnone
  obtain rfl : outs = items := by
    apply List.ext_getElem?
    intro i
    by_cases hi : i < 4
    · have hfour : i = 0 ∨ i = 1 ∨ i = 2 ∨ i = 3 := by omega
      rw [← hvalues i hi]
      rcases hfour with rfl | rfl | rfl | rfl <;> rfl
    · have hlen : outs.length = 4 := hl
      rw [List.getElem?_eq_none (by omega), List.getElem?_eq_none (by simp [items]; omega)]
  exact ho

end Scope
end Schemata
