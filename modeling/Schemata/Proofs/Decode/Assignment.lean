import Schemata.Decode.Tuple
import Schemata.Proofs.Decode.Run

/-!
Which part of a tuple each item goes to. The assignment depends on the number of items alone, and the steps of a tuple
are one for each item, by what it is assigned to, followed by the gaps.
-/
namespace Schemata.Tuple

variable {σ τ : Type} {m : Type → Type}

def restAssigned (rest : Option (Rest σ)) (count : Nat) : List (Option σ) :=
  match rest with
  | none => List.replicate count none
  | some r => List.replicate (count - r.trailing.length) (some r.head) ++ (r.trailing.take count).map some

/-- What each of a number of items is assigned to, if anything. -/
def assigned (elements : List (Element σ)) (rest : Option (Rest σ)) (count : Nat) : List (Option σ) :=
  (elements.take count).map (fun e => some e.type) ++ restAssigned rest (count - elements.length)

def positionGaps (i : Nat) : List (Element σ) → List Nat
  | [] => []
  | e :: es => if e.optional then positionGaps (i + 1) es else [i]

def trailingGaps (i : Nat) (rest : Option (Rest σ)) (count : Nat) : List Nat :=
  match rest with
  | none => []
  | some r => if count < r.trailing.length then [i + count] else []

def gaps (elements : List (Element σ)) (rest : Option (Rest σ)) (count : Nat) : List Nat :=
  positionGaps count (elements.drop count) ++
    trailingGaps elements.length rest (count - elements.length)

def itemStep (i : Nat) : Option (Parser m) → Value → Step m
  | some p, v => .take (.index i) p v
  | none, _ => .unexpected (.index i)

def itemSteps (i : Nat) : List (Option (Parser m)) → List Value → List (Step m)
  | p :: ps, v :: vs => itemStep i p v :: itemSteps (i + 1) ps vs
  | _, _ => []

def gapStep (i : Nat) : Step m := .missing (.index i)

theorem length_restAssigned (rest : Option (Rest σ)) (count : Nat) :
    (restAssigned rest count).length = count := by
  cases rest with
  | none => simp [restAssigned]
  | some r =>
    simp only [restAssigned, List.length_append, List.length_replicate, List.length_map, List.length_take]
    omega

theorem length_assigned (elements : List (Element σ)) (rest : Option (Rest σ)) (count : Nat) :
    (assigned elements rest count).length = count := by
  simp only [assigned, List.length_append, List.length_map, List.length_take, length_restAssigned]
  omega

theorem assigned_map (f : σ → τ) (elements : List (Element σ)) (rest : Option (Rest σ)) (count : Nat) :
    assigned (elements.map (Element.map f)) (rest.map (Rest.map f)) count =
      (assigned elements rest count).map (Option.map f) := by
  have hr (k : Nat) : restAssigned (rest.map (Rest.map f)) k = (restAssigned rest k).map (Option.map f) := by
    cases rest with
    | none => simp [restAssigned]
    | some r => simp [restAssigned, Rest.map, List.map_take, Function.comp_def]
  simp [assigned, hr, Element.map, Function.comp_def, ← List.map_take]

theorem gaps_map (f : σ → τ) (elements : List (Element σ)) (rest : Option (Rest σ)) (count : Nat) :
    gaps (elements.map (Element.map f)) (rest.map (Rest.map f)) count = gaps elements rest count := by
  have hp (i : Nat) (es : List (Element σ)) :
      positionGaps i (es.map (Element.map f)) = positionGaps i es := by
    induction es generalizing i with
    | nil => rfl
    | cons e es ih => simp [positionGaps, Element.map, ih]
  have ht (i k : Nat) : trailingGaps i (rest.map (Rest.map f)) k = trailingGaps i rest k := by
    cases rest <;> simp [trailingGaps, Rest.map]
  simp [gaps, ← List.map_drop, hp, ht]

theorem positionGaps_eq_nil_iff (i : Nat) (es : List (Element σ)) :
    positionGaps i es = [] ↔ ∀ e ∈ es, e.optional := by
  induction es generalizing i with
  | nil => simp [positionGaps]
  | cons e es ih => cases h : e.optional <;> simp [positionGaps, h, ih]

theorem trailingGaps_eq_nil_iff (i : Nat) (rest : Option (Rest σ)) (count : Nat) :
    trailingGaps i rest count = [] ↔ ∀ r ∈ rest, r.trailing.length ≤ count := by
  cases rest <;> simp [trailingGaps]

theorem gaps_eq_nil_iff (es : List (Element σ)) (rest : Option (Rest σ)) (count : Nat) :
    gaps es rest count = [] ↔ (∀ e ∈ es.drop count, e.optional) ∧
      ∀ r ∈ rest, r.trailing.length ≤ count - es.length := by
  rw [gaps, List.append_eq_nil_iff, positionGaps_eq_nil_iff, trailingGaps_eq_nil_iff]

/-- Gaps lie beyond the items. -/
theorem le_of_mem_gaps {es : List (Element σ)} {rest : Option (Rest σ)} {count i : Nat} (h : i ∈ gaps es rest count) :
    count ≤ i := by
  have positions (j : Nat) (es : List (Element σ)) (hi : i ∈ positionGaps j es) : j ≤ i := by
    induction es generalizing j with
    | nil => cases hi
    | cons e es ih =>
      rw [positionGaps] at hi
      split at hi
      · exact Nat.le_of_succ_le (ih (j + 1) hi)
      · exact Nat.le_of_eq (List.mem_singleton.mp hi).symm
  rcases List.mem_append.mp h with hi | hi
  · exact positions count _ hi
  · cases rest with
    | none => cases hi
    | some r =>
      rw [trailingGaps] at hi
      split at hi
      · obtain rfl := List.mem_singleton.mp hi
        omega
      · cases hi

theorem getElem?_assigned_position {es : List (Element σ)} {rest : Option (Rest σ)} {count i : Nat}
    (hi : i < es.length) (hc : i < count) : (assigned es rest count)[i]? = some (some es[i].type) := by
  have hl : i < ((es.take count).map fun e => some e.type).length := by
    rw [List.length_map, List.length_take]
    omega
  rw [assigned, List.getElem?_append_left hl]
  simp [hi, hc]

theorem getElem?_assigned_rest {es : List (Element σ)} {rest : Option (Rest σ)} {count i : Nat}
    (hi : es.length ≤ i) (hc : i < count) :
    (assigned es rest count)[i]? = (restAssigned rest (count - es.length))[i - es.length]? := by
  have hl : ((es.take count).map fun e => some e.type).length = es.length := by
    rw [List.length_map, List.length_take]
    omega
  rw [assigned, List.getElem?_append_right (by omega), hl]

/-- Beyond the positions all items are assigned to parts of the rest run. -/
theorem mem_restAssigned {r : Rest σ} {count : Nat} {q : Option σ} (h : q ∈ restAssigned (some r) count) :
    ∃ t ∈ r.toList, q = some t := by
  rw [restAssigned, List.mem_append] at h
  rcases h with h | h
  · exact ⟨r.head, List.mem_cons_self, List.eq_of_mem_replicate h⟩
  · obtain ⟨t, ht, rfl⟩ := List.mem_map.mp h
    exact ⟨t, List.mem_cons_of_mem _ (List.mem_of_mem_take ht), rfl⟩

/-- Items are assigned to parts of the tuple only. -/
theorem mem_assigned {elements : List (Element σ)} {rest : Option (Rest σ)} {count : Nat} {t : σ}
    (h : some t ∈ assigned elements rest count) :
    t ∈ elements.map (fun e => e.type) ++ (rest.map Rest.toList).getD [] := by
  rw [assigned, List.mem_append] at h
  rcases h with h | h
  · obtain ⟨e, he, ht⟩ := List.mem_map.mp h
    obtain rfl := Option.some.inj ht
    exact List.mem_append_left _ (List.mem_map_of_mem (List.mem_of_mem_take he))
  · apply List.mem_append_right _
    cases rest with
    | none => simp [restAssigned] at h
    | some r =>
      obtain ⟨u, hu, ht⟩ := mem_restAssigned h
      obtain rfl := Option.some.inj ht
      exact hu

/-- The parts of a tuple with other types come from the parts of the tuple. -/
theorem parts_map (f : σ → τ) (elements : List (Element σ)) (rest : Option (Rest σ)) :
    (elements.map (Element.map f)).map (fun e => e.type) ++
        ((rest.map (Rest.map f)).map Rest.toList).getD [] =
      (elements.map (fun e => e.type) ++ (rest.map Rest.toList).getD []).map f := by
  cases rest with
  | none => simp [Element.map, Function.comp_def]
  | some r => simp [Element.map, Rest.map, Rest.toList, Function.comp_def]

theorem itemSteps_append (i : Nat) {ps qs : List (Option (Parser m))} {vs ws : List Value}
    (h : ps.length = vs.length) :
    itemSteps i (ps ++ qs) (vs ++ ws) = itemSteps i ps vs ++ itemSteps (i + vs.length) qs ws := by
  induction vs generalizing i ps with
  | nil => simp [List.eq_nil_of_length_eq_zero h, itemSteps]
  | cons v vs ih =>
    cases ps with
    | nil => cases h
    | cons p ps =>
      have hl : i + 1 + vs.length = i + (vs.length + 1) := by omega
      simp [itemSteps, ih (i + 1) (Nat.succ.inj h), hl]

theorem positionSteps_eq (i : Nat) (es : List (Element (Parser m))) (vs : List Value) :
    positionSteps i es vs = itemSteps i ((es.take vs.length).map fun e => some e.type) (vs.take es.length) ++
      (positionGaps (i + vs.length) (es.drop vs.length)).map gapStep := by
  induction es generalizing i vs with
  | nil => cases vs <;> simp [positionSteps, itemSteps, positionGaps]
  | cons e es ih =>
    cases vs with
    | nil =>
      have hi := ih (i + 1) []
      simp only [List.length_nil, List.take_zero, List.map_nil, itemSteps, List.nil_append,
        Nat.add_zero, List.drop_zero] at hi ⊢
      rw [positionSteps, positionGaps]
      split
      · exact hi
      · rfl
    | cons v vs =>
      have hl : i + 1 + vs.length = i + (vs.length + 1) := by omega
      simp [positionSteps, itemSteps, itemStep, ih (i + 1) vs, hl]

theorem runSteps_eq (i : Nat) (p : Parser m) (vs : List Value) :
    runSteps i p vs = itemSteps i (List.replicate vs.length (some p)) vs := by
  induction vs generalizing i with
  | nil => rfl
  | cons v vs ih => simp [runSteps, List.replicate_succ, itemSteps, itemStep, ih]

theorem unexpectedSteps_eq (i : Nat) (vs : List Value) :
    (unexpectedSteps i vs : List (Step m)) = itemSteps i (List.replicate vs.length none) vs := by
  induction vs generalizing i with
  | nil => rfl
  | cons v vs ih => simp [unexpectedSteps, List.replicate_succ, itemSteps, itemStep, ih]

theorem trailingSteps_eq (i : Nat) {ps : List (Parser m)} {vs : List Value} (h : vs.length ≤ ps.length) :
    trailingSteps i ps vs = itemSteps i ((ps.take vs.length).map some) vs ++
      (if vs.length < ps.length then [i + vs.length] else []).map gapStep := by
  induction ps generalizing i vs with
  | nil => simp [List.eq_nil_of_length_eq_zero (Nat.le_zero.mp h), trailingSteps, itemSteps]
  | cons p ps ih =>
    cases vs with
    | nil => simp [trailingSteps, itemSteps, gapStep]
    | cons v vs =>
      have hl : i + 1 + vs.length = i + (vs.length + 1) := by omega
      simp [trailingSteps, itemSteps, itemStep, ih (i + 1) (Nat.le_of_succ_le_succ h), hl]

theorem restSteps_eq (i : Nat) (rest : Option (Rest (Parser m))) (vs : List Value) :
    restSteps i rest vs = itemSteps i (restAssigned rest vs.length) vs ++
      (trailingGaps i rest vs.length).map gapStep := by
  cases rest with
  | none => simp [restSteps, restAssigned, trailingGaps, unexpectedSteps_eq]
  | some r =>
    obtain ⟨as, bs, hvs, hlen, hb⟩ : ∃ as bs, vs = as ++ bs ∧
        as.length = vs.length - r.trailing.length ∧ bs.length ≤ r.trailing.length := by
      refine ⟨vs.take (vs.length - r.trailing.length), vs.drop (vs.length - r.trailing.length), ?_, ?_, ?_⟩
      · rw [List.take_append_drop]
      · rw [List.length_take]
        omega
      · rw [List.length_drop]
        omega
    -- Either all trailing items are there or nothing is left for the repeated item.
    have hcount : vs.length = as.length + bs.length := by rw [hvs, List.length_append]
    have htake : r.trailing.take vs.length = r.trailing.take bs.length := by
      rcases Nat.eq_zero_or_pos as.length with h0 | h0
      · rw [hcount, h0, Nat.zero_add]
      · rw [List.take_of_length_le (by omega), List.take_of_length_le (by omega)]
    have hgap : (if vs.length < r.trailing.length then [i + vs.length] else []) =
        if bs.length < r.trailing.length then [i + as.length + bs.length] else [] := by
      split <;> split <;> first | rfl | omega | (congr 1; omega)
    simp only [restSteps, restAssigned, trailingGaps, ← hlen, htake, hgap]
    subst hvs
    rw [List.take_left, List.drop_left, runSteps_eq, trailingSteps_eq _ hb,
      itemSteps_append i (by simp), List.append_assoc]

/-- One step for each item by what it is assigned to, and one for each gap. -/
theorem steps_eq (elements : List (Element (Parser m))) (rest : Option (Rest (Parser m)))
    (items : List Value) :
    steps elements rest items = itemSteps 0 (assigned elements rest items.length) items ++
      (gaps elements rest items.length).map gapStep := by
  rw [steps, positionSteps_eq, restSteps_eq, assigned, gaps, List.length_drop, Nat.zero_add, List.map_append]
  rcases Nat.le_total items.length elements.length with h | h
  · have hr : restAssigned rest (items.length - elements.length) = [] :=
      List.eq_nil_of_length_eq_zero (by rw [length_restAssigned]; omega)
    rw [List.take_of_length_le h, List.drop_of_length_le h, hr, List.append_nil]
    simp [itemSteps]
  · obtain ⟨as, bs, rfl, hlen⟩ : ∃ as bs, items = as ++ bs ∧ as.length = elements.length :=
      ⟨items.take elements.length, items.drop elements.length, (List.take_append_drop _ _).symm,
        by rw [List.length_take]; omega⟩
    have hp : positionGaps (as ++ bs).length (elements.drop (as ++ bs).length) = [] := by
      rw [List.drop_of_length_le h, positionGaps]
    rw [hp, List.take_of_length_le h, ← hlen, List.take_left, List.drop_left,
      itemSteps_append 0 (by simp [hlen]), Nat.zero_add]
    simp

/-- The steps of tuples that differ in their parsers differ in nothing else. -/
theorem steps_map (f : σ → Parser m) (elements : List (Element σ)) (rest : Option (Rest σ)) (items : List Value) :
    steps (elements.map (Element.map f)) (rest.map (Rest.map f)) items =
      itemSteps 0 ((assigned elements rest items.length).map (Option.map f)) items ++
        (gaps elements rest items.length).map gapStep := by
  rw [steps_eq, assigned_map, gaps_map]

theorem mem_itemSteps_iff {i : Nat} {qs : List (Option (Parser m))} {vs : List Value} {s : Step m} :
    s ∈ itemSteps i qs vs ↔ ∃ j q v, qs[j]? = some q ∧ vs[j]? = some v ∧ s = itemStep (i + j) q v := by
  induction vs generalizing i qs with
  | nil => cases qs <;> simp [itemSteps]
  | cons v vs ih =>
    cases qs with
    | nil => simp [itemSteps]
    | cons q qs =>
      rw [itemSteps, List.mem_cons, ih]
      constructor
      · rintro (rfl | ⟨j, q, v, hq, hv, rfl⟩)
        · exact ⟨0, q, v, rfl, rfl, rfl⟩
        · exact ⟨j + 1, q, v, hq, hv, by rw [Nat.add_assoc, Nat.add_comm 1 j]⟩
      · rintro ⟨j, q', v', hq, hv, rfl⟩
        cases j with
        | zero =>
          obtain rfl := Option.some.inj hq
          obtain rfl := Option.some.inj hv
          exact .inl rfl
        | succ j => exact .inr ⟨j, q', v', hq, hv, by rw [Nat.add_assoc, Nat.add_comm 1 j]⟩

/-- A step of a tuple: an item goes to what it is assigned to, is not expected, or is not there. -/
inductive IsStep (f : σ → Parser m) (elements : List (Element σ)) (rest : Option (Rest σ)) (items : List Value) :
    Step m → Prop
  | item {i : Nat} {t : σ} {v : Value} (ht : (assigned elements rest items.length)[i]? = some (some t))
    (hv : items[i]? = some v) : IsStep f elements rest items (.take (.index i) (f t) v)
  | unexpected {i : Nat} {v : Value} (ht : (assigned elements rest items.length)[i]? = some none)
    (hv : items[i]? = some v) : IsStep f elements rest items (.unexpected (.index i))
  | missing {i : Nat} (hi : i ∈ gaps elements rest items.length) :
    IsStep f elements rest items (.missing (.index i))

theorem mem_steps_iff {f : σ → Parser m} {elements : List (Element σ)} {rest : Option (Rest σ)} {items : List Value}
    {s : Step m} : s ∈ steps (elements.map (Element.map f)) (rest.map (Rest.map f)) items ↔
      IsStep f elements rest items s := by
  rw [steps_map, List.mem_append, mem_itemSteps_iff]
  constructor
  · rintro (⟨j, q, v, hq, hv, rfl⟩ | hs)
    · obtain ⟨t, ht, rfl⟩ := List.getElem?_map .. ▸ hq |> Option.map_eq_some_iff.mp
      rw [Nat.zero_add]
      cases t with
      | none => exact .unexpected ht hv
      | some t => exact .item ht hv
    · obtain ⟨i, hi, rfl⟩ := List.mem_map.mp hs
      exact .missing hi
  · rintro (⟨ht, hv⟩ | ⟨ht, hv⟩ | hi)
    · exact .inl ⟨_, _, _, by rw [List.getElem?_map, ht]; rfl, hv, by rw [Nat.zero_add]; rfl⟩
    · exact .inl ⟨_, _, _, by rw [List.getElem?_map, ht]; rfl, hv, by rw [Nat.zero_add]; rfl⟩
    · exact .inr (List.mem_map_of_mem hi)

end Schemata.Tuple
