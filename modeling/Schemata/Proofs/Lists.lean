import Mathlib.Data.List.Basic
import Mathlib.Data.List.Forall2

/-!
Facts about lists whose members are related one by one.
-/
namespace Schemata.Lists

variable {α β γ δ : Type}

theorem exists_of_mem_left {R : α → β → Prop} {as : List α} {bs : List β} (h : List.Forall₂ R as bs) {a : α}
    (ha : a ∈ as) : ∃ b ∈ bs, R a b := by
  induction h with
  | nil => cases ha
  | cons hab _ ih =>
    rcases List.mem_cons.mp ha with rfl | ha
    · exact ⟨_, List.mem_cons_self, hab⟩
    · obtain ⟨b, hb, h⟩ := ih ha
      exact ⟨b, List.mem_cons_of_mem _ hb, h⟩

theorem exists_of_mem_right {R : α → β → Prop} {as : List α} {bs : List β} (h : List.Forall₂ R as bs) {b : β}
    (hb : b ∈ bs) : ∃ a ∈ as, R a b :=
  exists_of_mem_left h.flip hb

theorem exists_mem_zip {as : List α} {bs : List β} (h : as.length = bs.length) {b : β} (hb : b ∈ bs) :
    ∃ a, (a, b) ∈ as.zip bs := by
  have hzip : List.Forall₂ (fun a b => (a, b) ∈ as.zip bs) as bs := List.forall₂_iff_zip.mpr ⟨h, id⟩
  obtain ⟨a, _, ha⟩ := exists_of_mem_right hzip hb
  exact ⟨a, ha⟩

theorem exists_forall₂ {R : α → β → Prop} {as : List α} (h : ∀ a ∈ as, ∃ b, R a b) :
    ∃ bs, List.Forall₂ R as bs := by
  induction as with
  | nil => exact ⟨[], .nil⟩
  | cons a as ih =>
    rw [List.forall_mem_cons] at h
    obtain ⟨b, hb⟩ := h.1
    obtain ⟨bs, hbs⟩ := ih h.2
    exact ⟨b :: bs, .cons hb hbs⟩

theorem pairwise_of_forall₂ {R : α → β → Prop} {S : β → β → Prop} {T : α → α → Prop} {as : List α}
    {bs : List β} (h : List.Forall₂ R as bs) (hb : bs.Pairwise S)
    (ht : ∀ a b a' b', R a b → R a' b' → S b b' → T a a') : as.Pairwise T := by
  induction h with
  | nil => exact .nil
  | cons hab hs ih =>
    rw [List.pairwise_cons] at hb ⊢
    refine ⟨fun a' ha' => ?_, ih hb.2⟩
    obtain ⟨b', hb', hab'⟩ := exists_of_mem_left hs ha'
    exact ht _ _ _ _ hab hab' (hb.1 b' hb')

theorem forall₂_map {R : α → β → Prop} {S : γ → δ → Prop} {as : List α} {bs : List β} {f : α → γ}
    {g : β → δ} (h : List.Forall₂ R as bs) (hfg : ∀ a ∈ as, ∀ b ∈ bs, R a b → S (f a) (g b)) :
    List.Forall₂ S (as.map f) (bs.map g) := by
  induction h with
  | nil => exact .nil
  | cons hab _ ih =>
    refine .cons (hfg _ List.mem_cons_self _ List.mem_cons_self hab) (ih fun a ha b hb => ?_)
    exact hfg a (List.mem_cons_of_mem _ ha) b (List.mem_cons_of_mem _ hb)

/-- Relations along two lists compose, where what is composed may depend on the members of the first. -/
theorem forall₂_trans {R : α → β → Prop} {S : β → γ → Prop} {T : α → γ → Prop} {as : List α} {bs : List β}
    {cs : List γ} (h : List.Forall₂ R as bs) (k : List.Forall₂ S bs cs)
    (hT : ∀ a ∈ as, ∀ b c, R a b → S b c → T a c) : List.Forall₂ T as cs := by
  induction h generalizing cs with
  | nil =>
    cases k
    exact .nil
  | cons hab _ ih =>
    cases k with
    | cons hbc k =>
      rw [List.forall_mem_cons] at hT
      exact .cons (hT.1 _ _ hab hbc) (ih k hT.2)

theorem forall₂_symm {R : α → β → Prop} {S : β → α → Prop} {as : List α} {bs : List β} (h : List.Forall₂ R as bs)
    (hS : ∀ a ∈ as, ∀ b, R a b → S b a) : List.Forall₂ S bs as :=
  .flip (((List.forall₂_and_left as bs).mpr ⟨fun _ ha => ha, h⟩).imp fun a b hab => hS a hab.1 b hab.2)

/-- Where as many members are found on the left as there are on the right, and no two of them find the same one, every
member on the right is found. -/
theorem exists_of_mem_of_distinct {R : α → β → Prop} {as : List α} {bs : List β} (hl : as.length = bs.length)
    (h : ∀ a ∈ as, ∃ b ∈ bs, R a b) (hd : as.Pairwise fun a a' => ∀ b, R a b → ¬R a' b) :
    ∀ b ∈ bs, ∃ a ∈ as, R a b := by
  induction as generalizing bs with
  | nil => simp [List.length_eq_zero_iff.mp hl.symm]
  | cons a as ih =>
    rw [List.forall_mem_cons] at h
    rw [List.pairwise_cons] at hd
    obtain ⟨⟨b₀, hb₀, hab⟩, hfound⟩ := h
    obtain ⟨front, back, rfl⟩ := List.append_of_mem hb₀
    have hothers : ∀ b ∈ front ++ back, ∃ a ∈ as, R a b := by
      refine ih (by simp at hl ⊢; omega) (fun a' ha' => ?_) hd.2
      obtain ⟨b, hb, ha'b⟩ := hfound a' ha'
      have hne : b ≠ b₀ := by
        rintro rfl
        exact hd.1 a' ha' b hab ha'b
      exact ⟨b, by simpa [hne] using hb, ha'b⟩
    intro b hb
    by_cases heq : b = b₀
    · exact ⟨a, List.mem_cons_self, heq ▸ hab⟩
    · obtain ⟨a', ha', hb⟩ := hothers b (by simpa [heq] using hb)
      exact ⟨a', List.mem_cons_of_mem a ha', hb⟩

/-- Related lists are related at the places where they face each other. -/
theorem forall₂_zip {R : α → β → Prop} {as : List α} {bs : List β} (h : List.Forall₂ R as bs) :
    List.Forall₂ (fun a b => (a, b) ∈ as.zip bs ∧ R a b) as bs := by
  obtain ⟨hl, hR⟩ := List.forall₂_iff_zip.mp h
  exact List.forall₂_iff_zip.mpr ⟨hl, fun hab => ⟨hab, hR hab⟩⟩

theorem mem_zip_map {as : List α} {bs : List β} {a : α} {b : β} (f : α → γ) (g : β → δ) (h : (a, b) ∈ as.zip bs) :
    (f a, g b) ∈ (as.map f).zip (bs.map g) := by
  rw [List.zip_map]
  exact List.mem_map_of_mem h

theorem mem_zip_append_left {as as' : List α} {bs bs' : List β} {a : α} {b : β} (h : (a, b) ∈ as.zip bs) :
    (a, b) ∈ (as ++ as').zip (bs ++ bs') := by
  induction as generalizing bs with
  | nil => cases h
  | cons a' as ih =>
    cases bs with
    | nil => cases h
    | cons b' bs =>
      rcases List.mem_cons.mp h with h | h
      · exact h ▸ List.mem_cons_self
      · exact List.mem_cons_of_mem _ (ih h)

theorem mem_zip_append_right {as as' : List α} {bs bs' : List β} {a : α} {b : β} (hl : as.length = bs.length)
    (h : (a, b) ∈ as'.zip bs') : (a, b) ∈ (as ++ as').zip (bs ++ bs') := by
  rw [List.zip_append hl]
  exact List.mem_append_right _ h

theorem any_eq_any_of_forall₂ {R : α → β → Prop} {as : List α} {bs : List β} {p : α → Bool} {q : β → Bool}
    (h : List.Forall₂ R as bs) (hR : ∀ a b, R a b → p a = q b) : as.any p = bs.any q := by
  induction h with
  | nil => rfl
  | cons hab _ ih => rw [List.any_cons, List.any_cons, hR _ _ hab, ih]

/-- What is kept of two related lists is related if the same positions are kept. -/
theorem forall₂_filter {R : α → β → Prop} {as : List α} {bs : List β} {p : α → Bool} {q : β → Bool}
    (h : List.Forall₂ R as bs) (hpq : ∀ a b, R a b → p a = q b) : List.Forall₂ R (as.filter p) (bs.filter q) := by
  induction h with
  | nil => exact .nil
  | @cons a b as bs hab _ ih =>
    have hp := hpq a b hab
    cases hq : q b <;> simpa [hp, hq, hab] using ih

/-- Two functions on the members of one list. -/
theorem forall₂_map_same {R : γ → δ → Prop} {as : List α} {f : α → γ} {g : α → δ} (h : ∀ a ∈ as, R (f a) (g a)) :
    List.Forall₂ R (as.map f) (as.map g) := by
  rw [List.forall₂_map_left_iff, List.forall₂_map_right_iff, List.forall₂_same]
  exact h

/-- Lists put together from parts of the same lengths are related when the parts are. -/
theorem forall₂_append_iff {R : α → β → Prop} {as as' : List α} {bs bs' : List β} (h : as.length = bs.length) :
    List.Forall₂ R (as ++ as') (bs ++ bs') ↔ List.Forall₂ R as bs ∧ List.Forall₂ R as' bs' := by
  induction as generalizing bs with
  | nil =>
    obtain rfl := List.eq_nil_of_length_eq_zero h.symm
    simp
  | cons a as ih =>
    cases bs with
    | nil => cases h
    | cons b bs => simp [ih (Nat.succ.inj h), and_assoc]

theorem forall₂_replicate_left {R : α → β → Prop} (a : α) (bs : List β) :
    List.Forall₂ R (List.replicate bs.length a) bs ↔ ∀ b ∈ bs, R a b := by
  induction bs with
  | nil => simp
  | cons b bs ih => simp [List.replicate_succ, ih]

/-- A list put together member by member, each giving one for what is selected for it. -/
theorem forall₂_filterMap {R : β → γ → Prop} {as : List α} {f : α → List β} {g : α → Option γ}
    (h : ∀ a ∈ as, List.Forall₂ R (f a) (g a).toList) : List.Forall₂ R (as.flatMap f) (as.filterMap g) := by
  rw [List.filterMap_eq_flatMap_toList]
  induction as with
  | nil => exact .nil
  | cons a as ih =>
    rw [List.forall_mem_cons] at h
    exact List.rel_append h.1 (ih h.2)

/-- Of members that exclude one another at most one contributes. -/
theorem flatMap_eq_of_mem {S : α → α → Prop} {as : List α} (hp : as.Pairwise S) {a : α} (ha : a ∈ as)
    {f : α → List β} (hf : ∀ b ∈ as, S a b ∨ S b a → f b = []) : as.flatMap f = f a := by
  induction as with
  | nil => cases ha
  | cons b as ih =>
    rw [List.pairwise_cons] at hp
    rw [List.forall_mem_cons] at hf
    rcases List.mem_cons.mp ha with rfl | ha
    · have hrest : as.flatMap f = [] :=
        List.flatMap_eq_nil_iff.mpr fun c hc => hf.2 c hc (.inl (hp.1 c hc))
      rw [List.flatMap_cons, hrest, List.append_nil]
    · rw [List.flatMap_cons, hf.1 (.inr (hp.1 a ha)), List.nil_append, ih hp.2 ha hf.2]

theorem flatMap_filter {as : List α} (p : α → Bool) (f : α → List β) :
    (as.filter p).flatMap f = as.flatMap fun a => if p a then f a else [] := by
  induction as with
  | nil => rfl
  | cons a as ih => cases h : p a <;> simp [h, ih]

theorem mem_dropLast_or_getLast? {as : List α} {a : α} (h : a ∈ as) : a ∈ as.dropLast ∨ as.getLast? = some a := by
  rcases List.eq_nil_or_concat as with rfl | ⟨init, last, rfl⟩
  · cases h
  · rw [List.concat_eq_append] at h ⊢
    rcases List.mem_append.mp h with h | h
    · exact .inl (by simpa using h)
    · exact .inr (by simp [List.mem_singleton.mp h])

/-- A member of a list up to which a walk comes that goes on from each member with the property. -/
inductive Reached (p : α → Prop) : List α → α → Prop
  | here (a : α) (as : List α) : Reached p (a :: as) a
  | later {a b : α} {as : List α} (ha : p a) (h : Reached p as b) : Reached p (a :: as) b

theorem Reached.mem {p : α → Prop} {as : List α} {a : α} (h : Reached p as a) : a ∈ as := by
  induction h with
  | here => exact List.mem_cons_self
  | later _ _ ih => exact List.mem_cons_of_mem _ ih

theorem exists_reached_cons {p q : α → Prop} {a : α} {as : List α} :
    (∃ b, Reached p (a :: as) b ∧ q b) ↔ q a ∨ (p a ∧ ∃ b, Reached p as b ∧ q b) := by
  constructor
  · rintro ⟨b, hb, hq⟩
    cases hb with
    | here => exact .inl hq
    | later ha hb => exact .inr ⟨ha, b, hb, hq⟩
  · rintro (hq | ⟨ha, b, hb, hq⟩)
    · exact ⟨a, .here a as, hq⟩
    · exact ⟨b, .later ha hb, hq⟩

theorem exists_reached_map {f : α → β} {p q : β → Prop} {as : List α} :
    (∃ b, Reached p (as.map f) b ∧ q b) ↔ ∃ a, Reached (fun a => p (f a)) as a ∧ q (f a) := by
  induction as with
  | nil => exact iff_of_false (fun ⟨_, h, _⟩ => nomatch h) fun ⟨_, h, _⟩ => nomatch h
  | cons a as ih => rw [List.map_cons, exists_reached_cons, exists_reached_cons (q := fun a => q (f a)), ih]

/-- A stable sort keeps a relation that can only fail between members of equal rank. -/
theorem pairwise_mergeSort_of_stable {R : α → α → Prop} {le : α → α → Bool} {l : List α}
    (ht : ∀ a b c, le a b → le b c → le a c) (htotal : ∀ a b, le a b || le b a)
    (hR : ∀ a b, R a b ∨ (le a b ∧ le b a)) (hl : l.Pairwise R) : (l.mergeSort le).Pairwise R := by
  rw [← List.mergeSort_zipIdx, List.pairwise_map]
  have hsorted := List.pairwise_mergeSort (List.zipIdxLE_trans ht) (List.zipIdxLE_total htotal) l.zipIdx
  have hindex : (l.zipIdx.mergeSort (List.zipIdxLE le)).Pairwise fun a b => a.2 ≠ b.2 := by
    refine ((List.mergeSort_perm _ _).pairwise_iff fun h => h.symm).mpr (List.pairwise_map.mp ?_)
    rw [List.zipIdx_map_snd]
    exact List.nodup_range'
  refine (hsorted.and hindex).imp_of_mem fun {a b} ha hb h => ?_
  rcases hR a.1 b.1 with hab | ⟨hab, hba⟩
  · exact hab
  · have hlt : a.2 < b.2 := by
      have hle : a.2 ≤ b.2 := by simpa [List.zipIdxLE, hab, hba] using h.1
      exact Nat.lt_of_le_of_ne hle h.2
    have hget {c : α × Nat} (hc : c ∈ l.zipIdx.mergeSort (List.zipIdxLE le)) : l[c.2]? = some c.1 :=
      List.mem_zipIdx_iff_getElem?.mp (List.mem_mergeSort.mp hc)
    obtain ⟨hi, ha⟩ := List.getElem?_eq_some_iff.mp (hget ha)
    obtain ⟨hj, hb⟩ := List.getElem?_eq_some_iff.mp (hget hb)
    rw [← ha, ← hb]
    exact List.pairwise_iff_getElem.mp hl a.2 b.2 hi hj hlt

/-- The members of a class end where something else starts. -/
theorem append_inj_of_all {p : α → Bool} {as as' bs bs' : List α} (ha : ∀ a ∈ as, p a) (ha' : ∀ a ∈ as', p a)
    (hb : ∀ b ∈ bs.head?, ¬p b) (hb' : ∀ b ∈ bs'.head?, ¬p b) (h : as ++ bs = as' ++ bs') : as = as' ∧ bs = bs' := by
  have hspan {as bs : List α} (ha : ∀ a ∈ as, p a) (hb : ∀ b ∈ bs.head?, ¬p b) : (as ++ bs).takeWhile p = as := by
    rw [List.takeWhile_append_of_pos ha]
    cases bs with
    | nil => exact List.append_nil as
    | cons b bs => rw [List.takeWhile_cons_of_neg (hb b rfl), List.append_nil]
  have has : as = as' := by rw [← hspan ha hb, h, hspan ha' hb']
  subst has
  exact ⟨rfl, List.append_cancel_left h⟩

end Schemata.Lists
