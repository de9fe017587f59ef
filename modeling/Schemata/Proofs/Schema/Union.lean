import Schemata.Proofs.Schema.Equality
import Schemata.Schema.Union

/-!
What canonical unions leave out. Every alternative of a candidate stays a member, or an equal one stays in its place, or
a keyword that absorbs it; and nothing but alternatives of candidates gets in.
-/
namespace Schemata.Schema

def keep (kept : List Schema) (s : Schema) : List Schema :=
  if s.occursIn kept then kept else kept ++ [s]

theorem distinct_eq (ss : List Schema) : distinct ss = ss.foldl keep [] := rfl

theorem mem_keep {kept : List Schema} {s t : Schema} (h : t ∈ keep kept s) : t ∈ kept ∨ t = s := by
  rw [keep] at h
  split at h
  · exact .inl h
  · simpa using h

theorem subset_keep (kept : List Schema) (s : Schema) : kept ⊆ keep kept s := by
  intro t ht
  rw [keep]
  split
  · exact ht
  · exact List.mem_append_left _ ht

theorem exists_mem_keep (kept : List Schema) (s : Schema) : ∃ t ∈ keep kept s, t = s ∨ t.equals s := by
  rw [keep]
  split
  · rename_i h
    obtain ⟨t, ht, hts⟩ := List.any_eq_true.mp h
    exact ⟨t, ht, .inr hts⟩
  · exact ⟨s, List.mem_append_right _ (List.mem_singleton_self s), .inl rfl⟩

theorem mem_foldl_keep {ss kept : List Schema} {t : Schema} (h : t ∈ ss.foldl keep kept) : t ∈ kept ∨ t ∈ ss := by
  induction ss generalizing kept with
  | nil => exact .inl h
  | cons s ss ih =>
    rcases ih h with h | h
    · rcases mem_keep h with h | rfl
      · exact .inl h
      · exact .inr List.mem_cons_self
    · exact .inr (List.mem_cons_of_mem _ h)

theorem subset_foldl_keep (ss kept : List Schema) : kept ⊆ ss.foldl keep kept := by
  induction ss generalizing kept with
  | nil => exact fun _ ht => ht
  | cons s ss ih => exact fun _ ht => ih _ (subset_keep kept s ht)

theorem exists_mem_foldl_keep {ss : List Schema} {s : Schema} (h : s ∈ ss) (kept : List Schema) :
    ∃ t ∈ ss.foldl keep kept, t = s ∨ t.equals s := by
  induction ss generalizing kept with
  | nil => cases h
  | cons u ss ih =>
    rcases List.mem_cons.mp h with rfl | h
    · obtain ⟨t, ht, hts⟩ := exists_mem_keep kept s
      exact ⟨t, subset_foldl_keep ss _ ht, hts⟩
    · exact ih h (keep kept u)

theorem mem_of_mem_distinct {ss : List Schema} {t : Schema} (h : t ∈ distinct ss) : t ∈ ss := by
  rw [distinct_eq] at h
  rcases mem_foldl_keep h with h | h
  · cases h
  · exact h

/-- Of every schema a list keeps an equal one when duplicates go. -/
theorem exists_mem_distinct {ss : List Schema} {s : Schema} (h : s ∈ ss) :
    ∃ t ∈ distinct ss, t = s ∨ t.equals s := by
  rw [distinct_eq]
  exact exists_mem_foldl_keep h []

theorem pairwise_keep {kept : List Schema} (h : kept.Pairwise fun s t => ¬s.equals t) (s : Schema) :
    (keep kept s).Pairwise fun s t => ¬s.equals t := by
  rw [keep]
  split
  · exact h
  · rename_i hs
    refine List.pairwise_append.mpr ⟨h, List.pairwise_singleton _ s, fun t ht u hu heq => ?_⟩
    obtain rfl := List.mem_singleton.mp hu
    exact hs (List.any_eq_true.mpr ⟨t, ht, heq⟩)

theorem pairwise_distinct (ss : List Schema) : (distinct ss).Pairwise fun s t => ¬s.equals t := by
  have hfold {kept : List Schema} (h : kept.Pairwise fun s t => ¬s.equals t) :
      (ss.foldl keep kept).Pairwise fun s t => ¬s.equals t := by
    induction ss generalizing kept with
    | nil => exact h
    | cons s ss ih => exact ih (pairwise_keep h s)
  exact hfold .nil

/-- How a schema can make another superfluous. -/
inductive Absorbs : Schema → Schema → Prop
  | text (a b : Annotations) {x : Scalar} (h : x.isText) : Absorbs (keyword a .string) (literal b x)
  | number (a b : Annotations) {x : Scalar} (h : x.isNumber) : Absorbs (keyword a .number) (literal b x)
  | symbol (a b : Annotations) (key : String) : Absorbs (keyword a .symbol) (uniqueSymbol b key)

theorem absorbs_iff {k s : Schema} : k.absorbs s ↔ Absorbs k s := by
  constructor
  · intro h
    unfold absorbs at h
    split at h
    · exact .text _ _ h
    · exact .number _ _ h
    · exact .symbol _ _ _
    · cases h
  · intro h
    cases h with
    | text _ _ h | number _ _ h => exact h
    | symbol => rfl

theorem mem_unabsorbed {ss : List Schema} {s : Schema} :
    s ∈ unabsorbed ss ↔ s ∈ ss ∧ ∀ k ∈ ss, ¬Absorbs k s := by
  simp only [unabsorbed, List.mem_filter, Bool.not_eq_true', List.any_eq_false, absorbs_iff]

/-- What is left of a list absorbs whatever else it had: keywords themselves stay. -/
theorem exists_absorbs_of_not_mem {ss : List Schema} {s : Schema} (hs : s ∈ ss) (h : s ∉ unabsorbed ss) :
    ∃ k ∈ unabsorbed ss, Absorbs k s := by
  obtain ⟨k, hk, hks⟩ : ∃ k ∈ ss, Absorbs k s := by simpa [mem_unabsorbed, hs] using h
  refine ⟨k, mem_unabsorbed.mpr ⟨hk, fun l _ hl => ?_⟩, hks⟩
  cases hks <;> cases hl

theorem pairwise_unify (cs : List Schema) : (unify cs).Pairwise fun s t => ¬s.equals t :=
  (pairwise_distinct _).filter _

theorem not_absorbs_of_mem_unify {cs : List Schema} {k s : Schema} (hk : k ∈ unify cs) (hs : s ∈ unify cs) :
    ¬Absorbs k s :=
  (mem_unabsorbed.mp hs).2 k (mem_unabsorbed.mp hk).1

theorem mem_unify {cs : List Schema} {s : Schema} (h : s ∈ unify cs) : ∃ c ∈ cs, s ∈ c.alternatives :=
  List.mem_flatMap.mp (mem_of_mem_distinct (mem_unabsorbed.mp h).1)

theorem forall_unify {motive : Schema → Prop} {cs : List Schema} (h : ∀ c ∈ cs, ∀ s ∈ c.alternatives, motive s) :
    ∀ s ∈ unify cs, motive s := by
  intro s hs
  obtain ⟨c, hc, hsc⟩ := mem_unify hs
  exact h c hc s hsc

/-- Every alternative of a candidate is represented in the union. -/
theorem unify_covers {cs : List Schema} {c s : Schema} (hc : c ∈ cs) (hs : s ∈ c.alternatives) :
    ∃ t, (∃ d ∈ cs, t ∈ d.alternatives) ∧ (t = s ∨ t.equals s) ∧ (t ∈ unify cs ∨ ∃ k ∈ unify cs, Absorbs k t) := by
  obtain ⟨t, ht, hts⟩ := exists_mem_distinct (List.mem_flatMap.mpr ⟨c, hc, hs⟩)
  refine ⟨t, List.mem_flatMap.mp (mem_of_mem_distinct ht), hts, ?_⟩
  by_cases hu : t ∈ unabsorbed (distinct (cs.flatMap alternatives))
  · exact .inl hu
  · exact .inr (exists_absorbs_of_not_mem ht hu)

theorem mem_ranked {ss : List Schema} {s : Schema} : s ∈ ranked ss ↔ s ∈ ss := by
  rw [ranked, List.mem_mergeSort]

theorem ranked_trans (s t u : Schema) (h : decide (t.weight ≤ s.weight)) (k : decide (u.weight ≤ t.weight)) :
    decide (u.weight ≤ s.weight) := by
  simp only [decide_eq_true_eq] at *
  omega

theorem ranked_total (s t : Schema) : decide (t.weight ≤ s.weight) || decide (s.weight ≤ t.weight) := by
  simp only [Bool.or_eq_true, decide_eq_true_eq]
  omega

theorem pairwise_ranked (ss : List Schema) : (ranked ss).Pairwise fun s t => t.weight ≤ s.weight := by
  have h : (ranked ss).Pairwise fun s t => decide (t.weight ≤ s.weight) = true :=
    List.pairwise_mergeSort ranked_trans ranked_total ss
  exact h.imp of_decide_eq_true

theorem ranked_weights (ss : List Schema) : ((ranked ss).map weight).Pairwise fun v w => w ≤ v :=
  List.pairwise_map.mpr (pairwise_ranked ss)

/-- Equal schemas have one weight, and schemas of one weight keep their order. -/
theorem pairwise_ranked_of_distinct {ss : List Schema} (h : ss.Pairwise fun s t => ¬s.equals t) :
    (ranked ss).Pairwise fun s t => ¬s.equals t := by
  refine Lists.pairwise_mergeSort_of_stable ranked_trans ranked_total (fun s t => ?_) h
  by_cases heq : s.equals t
  · have hw := weight_eq_of_equals heq
    exact .inr ⟨by simp [hw], by simp [hw]⟩
  · exact .inl heq

/-- The three shapes of a canonical union. -/
theorem oneOf_eq (cs : List Schema) (a : Annotations) :
    (unify cs = [] ∧ oneOf cs a = word .never) ∨ (∃ s, unify cs = [s] ∧ oneOf cs a = s) ∨
      (unify cs ≠ [] ∧ oneOf cs a = union a (ranked (unify cs))) := by
  rw [oneOf]
  split
  · rename_i h
    exact .inl ⟨h, rfl⟩
  · rename_i s h
    exact .inr (.inl ⟨s, h, rfl⟩)
  · rename_i h _
    exact .inr (.inr ⟨h, rfl⟩)

end Schemata.Schema
