import Schemata.Proofs.Value.Entries
import Mathlib.Data.List.Induction

/-!
Tables in another order. Look-up does not see the order of a table, and a table that is stored group by group, no two
groups having a key in common, may be stored with the groups in any order.
-/
namespace Schemata
namespace Entries

theorem distinct_of_perm {es fs : Entries} (h : es.Perm fs) (hd : es.distinct) : fs.distinct := by
  obtain ⟨hkeys, _⟩ := (distinct_iff es).mp hd
  refine (distinct_iff fs).mpr ⟨fun e he => hkeys e (h.mem_iff.mpr he), ?_⟩
  have hboth := (h.pairwise_iff fun hef => hef.symm).mp (pairwise_of_distinct hd)
  exact hboth.imp And.left

theorem lookup_perm {es fs : Entries} (h : es.Perm fs) (hd : es.distinct) (key : Value) :
    fs.lookup key = es.lookup key := by
  apply Option.ext
  intro v
  rw [lookup_eq_some_iff hd, lookup_eq_some_iff (distinct_of_perm h hd)]
  simp only [h.mem_iff]

/-- A table compares with itself in another order as with itself. -/
theorem same_dict_of_perm {es fs : Entries} (h : es.Perm fs) : (Value.dict es).same (.dict fs) := by
  rw [Value.same, Value.equalsUpTo_iff]
  refine .mapping rfl rfl h.length_eq fun e he => ⟨e, h.mem_iff.mp he, ?_, ?_⟩
  · exact Value.same_refl e.1
  · exact Value.same_refl e.2

/-- Storing an entry leaves alone the entries in front that have other keys. -/
theorem insert_append {es fs : Entries} {key x : Value} (h : ∀ e ∈ es, e.1.equals key = false) :
    insert (es ++ fs) key x = es ++ insert fs key x := by
  induction es with
  | nil => rfl
  | cons e es ih =>
    rw [List.forall_mem_cons] at h
    rw [List.cons_append, insert, h.1, ih h.2]
    rfl

theorem mem_insert {es : Entries} {key x : Value} {e : Value × Value} (h : e ∈ es.insert key x) :
    e.1 = key ∨ ∃ f ∈ es, f.1 = e.1 := by
  induction es with
  | nil =>
    rw [insert, List.mem_singleton] at h
    exact .inl (congrArg Prod.fst h)
  | cons f es ih =>
    rw [insert] at h
    split at h <;> rcases List.mem_cons.mp h with rfl | h
    · exact .inr ⟨f, List.mem_cons_self, rfl⟩
    · exact .inr ⟨e, List.mem_cons_of_mem _ h, rfl⟩
    · exact .inr ⟨_, List.mem_cons_self, rfl⟩
    · refine (ih h).imp_right ?_
      rintro ⟨g, hg, hge⟩
      exact ⟨g, List.mem_cons_of_mem _ hg, hge⟩

theorem ofList_concat (es : List (Value × Value)) (e : Value × Value) :
    ofList (es ++ [e]) = (ofList es).insert e.1 e.2 := by
  rw [ofList, List.foldl_concat]
  rfl

/-- Every key of a table that was stored is one of those that were given. -/
theorem mem_ofList {es : List (Value × Value)} {e : Value × Value} (h : e ∈ ofList es) : ∃ f ∈ es, f.1 = e.1 := by
  induction es using List.reverseRecOn generalizing e with
  | nil => cases h
  | append_singleton es f ih =>
    rw [ofList_concat] at h
    rcases mem_insert h with hk | ⟨g, hg, hk⟩
    · exact ⟨f, List.mem_append_right _ (List.mem_singleton_self f), hk.symm⟩
    · obtain ⟨f', hf', hk'⟩ := ih hg
      exact ⟨f', List.mem_append_left _ hf', hk'.trans hk⟩

theorem value_mem_insert {es : Entries} {key x : Value} {e : Value × Value} (h : e ∈ es.insert key x) :
    e.2 = x ∨ ∃ f ∈ es, f.2 = e.2 := by
  induction es with
  | nil =>
    rw [insert, List.mem_singleton] at h
    exact .inl (congrArg Prod.snd h)
  | cons f es ih =>
    rw [insert] at h
    split at h <;> rcases List.mem_cons.mp h with rfl | h
    · exact .inl rfl
    · exact .inr ⟨e, List.mem_cons_of_mem _ h, rfl⟩
    · exact .inr ⟨_, List.mem_cons_self, rfl⟩
    · refine (ih h).imp_right ?_
      rintro ⟨g, hg, hge⟩
      exact ⟨g, List.mem_cons_of_mem _ hg, hge⟩

/-- Every value of a table that was stored is one of those that were given. -/
theorem value_mem_ofList {es : List (Value × Value)} {e : Value × Value} (h : e ∈ ofList es) :
    ∃ f ∈ es, f.2 = e.2 := by
  induction es using List.reverseRecOn generalizing e with
  | nil => cases h
  | append_singleton es f ih =>
    rw [ofList_concat] at h
    rcases value_mem_insert h with hv | ⟨g, hg, hv⟩
    · exact ⟨f, List.mem_append_right _ (List.mem_singleton_self f), hv.symm⟩
    · obtain ⟨f', hf', hv'⟩ := ih hg
      exact ⟨f', List.mem_append_left _ hf', hv'.trans hv⟩

/-- After storing a value look-up finds it under its key, and finds what it did under every other. -/
theorem lookup_insert {es : Entries} (hes : ∀ e ∈ es, e.1.hashable) {key : Value} (hk : key.hashable) (x k : Value) :
    (es.insert key x).lookup k = if key.equals k then some x else es.lookup k := by
  induction es with
  | nil => cases h : key.equals k <;> simp [insert, lookup, h]
  | cons e es ih =>
    rw [List.forall_mem_cons] at hes
    rw [insert]
    split
    · rename_i heq
      have hcongr : e.1.equals k = key.equals k := by
        rw [Bool.eq_iff_iff]
        exact ⟨Value.equals_trans (Value.equals_symm hes.1 heq), Value.equals_trans heq⟩
      cases h : key.equals k <;> simp [lookup, hcongr, h]
    · rename_i hne
      cases h : e.1.equals k with
      | false => simpa [lookup, h] using ih hes.2
      | true =>
        have hother : key.equals k = false := by
          by_contra hc
          have hkey : key.equals k := by simpa using hc
          exact hne (Value.equals_trans h (Value.equals_symm hk hkey))
        simp [lookup, h, hother]

/-- Of the values that were stored under a key, look-up finds the last. -/
theorem lookup_ofList {es : List (Value × Value)} (hes : ∀ e ∈ es, e.1.hashable) (k : Value) :
    (ofList es).lookup k = ((es.filter fun e => e.1.equals k).map Prod.snd).getLast? := by
  induction es using List.reverseRecOn with
  | nil => rfl
  | append_singleton es e ih =>
    rw [List.forall_mem_append, List.forall_mem_singleton] at hes
    have hstored : ∀ f ∈ ofList es, f.1.hashable := by
      intro f hf
      obtain ⟨g, hg, hk⟩ := mem_ofList hf
      exact hk ▸ hes.1 g hg
    rw [ofList_concat, lookup_insert hstored hes.2, ih hes.1, List.filter_append, List.map_append]
    cases h : e.1.equals k <;> simp [h]

def Apart (es fs : Entries) : Prop :=
  ∀ e ∈ es, ∀ f ∈ fs, e.1.equals f.1 = false ∧ f.1.equals e.1 = false

theorem Apart.symm {es fs : Entries} (h : es.Apart fs) : fs.Apart es :=
  fun f hf e he => (h e he f hf).symm

theorem ofList_append {es fs : List (Value × Value)} (h : Apart es fs) :
    ofList (es ++ fs) = ofList es ++ ofList fs := by
  induction fs using List.reverseRecOn with
  | nil => simp [ofList]
  | append_singleton fs f ih =>
    have hfs : Apart es fs := fun e he f' hf' => h e he f' (List.mem_append_left _ hf')
    have hf : ∀ e ∈ ofList es, e.1.equals f.1 = false := by
      intro e he
      obtain ⟨e', he', hk⟩ := mem_ofList he
      rw [← hk]
      exact (h e' he' f (List.mem_append_right _ (List.mem_singleton_self f))).1
    rw [← List.append_assoc, ofList_concat, ofList_concat, ih hfs, insert_append hf]

theorem ofList_flatten {gs : List Entries} (h : gs.Pairwise Apart) : ofList gs.flatten = gs.flatMap ofList := by
  induction gs with
  | nil => rfl
  | cons g gs ih =>
    rw [List.pairwise_cons] at h
    have hg : g.Apart gs.flatten := by
      intro e he f hf
      obtain ⟨k, hk, hf⟩ := List.mem_flatten.mp hf
      exact h.1 k hk e he f hf
    rw [List.flatten_cons, ofList_append hg, ih h.2, List.flatMap_cons]

/-- Groups without common keys give the same entries in whatever order the groups are stored. -/
theorem ofList_flatten_perm {gs ks : List Entries} (hp : gs.Perm ks) (h : gs.Pairwise Apart) :
    (ofList gs.flatten).Perm (ofList ks.flatten) := by
  have hk : ks.Pairwise Apart := (hp.pairwise_iff Apart.symm).mp h
  rw [ofList_flatten h, ofList_flatten hk]
  exact hp.flatMap_right ofList

end Entries
end Schemata
