import Schemata.Proofs.Lists
import Schemata.Proofs.Value.Equality
import Mathlib.Data.List.Perm.Basic

/-!
Well-formed values and their tables. In a well-formed value the keys of every mapping are hashable and pairwise
different, so that look-up finds the one entry of a key and a set of distinct names selects distinct entries.
-/
namespace Schemata

namespace Entries

def distinct : Entries → Bool
  | [] => true
  | e :: rest => e.1.hashable && rest.all (fun f => !e.1.equals f.1) && distinct rest

theorem distinct_iff (es : Entries) : es.distinct ↔
    (∀ e ∈ es, e.1.hashable) ∧ es.Pairwise fun e f => e.1.equals f.1 = false := by
  induction es with
  | nil => simp [distinct]
  | cons e es ih =>
    simp only [distinct, Bool.and_eq_true, List.all_eq_true, Bool.not_eq_true', ih,
      List.forall_mem_cons, List.pairwise_cons]
    tauto

/-- At most one entry of a table has a key that equals the given one, and look-up finds it. -/
theorem find?_eq_some_iff {es : Entries} (h : es.distinct) {key : Value} {e : Value × Value} :
    es.find? (fun f => f.1.equals key) = some e ↔ e ∈ es ∧ e.1.equals key := by
  constructor
  · intro hf
    exact ⟨List.mem_of_find?_eq_some hf, by simpa using List.find?_some hf⟩
  · rintro ⟨he, hk⟩
    induction es with
    | nil => cases he
    | cons f es ih =>
      simp only [distinct, Bool.and_eq_true, List.all_eq_true, Bool.not_eq_true'] at h
      obtain ⟨⟨hf, hall⟩, hes⟩ := h
      rcases List.mem_cons.mp he with rfl | he
      · simp [hk]
      · have hfk : f.1.equals key = false := by
          by_contra hc
          have hfe := Value.equals_trans (by simpa using hc)
            (Value.equals_symm ((distinct_iff es).mp hes |>.1 e he) hk)
          simp [hall e he] at hfe
        simp [hfk, ih hes he]

theorem lookup_eq_some_iff {es : Entries} (h : es.distinct) {key x : Value} :
    es.lookup key = some x ↔ ∃ k, (k, x) ∈ es ∧ k.equals key := by
  simp only [lookup, Option.map_eq_some_iff, find?_eq_some_iff h, Prod.exists, exists_eq_right]

theorem insert_of_absent {es : Entries} {key x : Value} (h : ∀ e ∈ es, e.1.equals key = false) :
    es.insert key x = es ++ [(key, x)] := by
  induction es with
  | nil => rfl
  | cons e es ih =>
    simp only [List.forall_mem_cons] at h
    simp [insert, h.1, ih h.2]

/-- Storing entries whose keys are pairwise different changes nothing about them. -/
theorem ofList_of_pairwise {es : Entries} (h : es.Pairwise fun e f => e.1.equals f.1 = false) :
    ofList es = es := by
  have hgen (table rest : Entries)
      (h : (table ++ rest).Pairwise fun e f => e.1.equals f.1 = false) :
      rest.foldl (fun t e => t.insert e.1 e.2) table = table ++ rest := by
    induction rest generalizing table with
    | nil => simp
    | cons e rest ih =>
      have hnew : ∀ f ∈ table, f.1.equals e.1 = false :=
        fun f hf => (List.pairwise_append.mp h).2.2 f hf e List.mem_cons_self
      rw [List.foldl_cons, insert_of_absent hnew, ih _ (by simpa using h)]
      simp
  simpa [ofList] using hgen [] es (by simpa using h)

/-- The keys of a table differ whichever of two is compared with the other. -/
theorem pairwise_of_distinct {es : Entries} (h : es.distinct) :
    es.Pairwise fun e f => e.1.equals f.1 = false ∧ f.1.equals e.1 = false := by
  obtain ⟨hkeys, hpw⟩ := (distinct_iff es).mp h
  exact hpw.imp_of_mem fun {e f} he hf hef => ⟨hef, Value.differs_symm (hkeys f hf) hef⟩

/-- A table whose keys equal those of distinct entries of another one has distinct keys. -/
theorem distinct_of_respelled {es outs srcs : Entries} {p : Value × Value → Bool} (hes : es.distinct)
    (hsrc : srcs.Perm (es.filter p))
    (h : List.Forall₂ (fun out e => out.1.hashable ∧ out.1.equals e.1) outs srcs) : outs.distinct := by
  have hsrcs : srcs.Pairwise fun e f => e.1.equals f.1 = false ∧ f.1.equals e.1 = false :=
    (hsrc.pairwise_iff fun h => h.symm).mpr ((pairwise_of_distinct hes).filter _)
  refine (distinct_iff outs).mpr ⟨fun out ho => ?_, ?_⟩
  · obtain ⟨e, _, hk⟩ := Lists.exists_of_mem_left h ho
    exact hk.1
  · apply Lists.pairwise_of_forall₂ h hsrcs
    intro out e out' e' hk hk' hee
    by_contra hc
    have hc' : out.1.equals out'.1 := by simpa using hc
    have := Value.equals_trans (Value.equals_symm hk.1 hk.2) (Value.equals_trans hc' hk'.2)
    simp [hee.1] at this

section
variable {es : Entries} {names : List Value}

/-- Distinct names select distinct entries, and between them all entries that have one of the names. -/
theorem filterMap_find?_perm (h : es.distinct) (hn : names.Pairwise fun a b => a.equals b = false) :
    (names.filterMap fun n => es.find? fun e => e.1.equals n).Perm
      (es.filter fun e => e.1.occursIn names) := by
  obtain ⟨hkeys, hpw⟩ := (distinct_iff es).mp h
  refine (List.perm_ext_iff_of_nodup ?_ ?_).mpr fun e => ?_
  · rw [List.Nodup, List.pairwise_filterMap]
    refine hn.imp fun {a b} hab e he f hf hef => ?_
    subst hef
    have ha := ((find?_eq_some_iff h).mp he)
    have hb := ((find?_eq_some_iff h).mp hf)
    have := Value.equals_trans (Value.equals_symm (hkeys e ha.1) ha.2) hb.2
    simp [hab] at this
  · refine (hpw.filter _).imp_of_mem fun {e f} he _ hef heq => ?_
    subst heq
    obtain ⟨n, _, hne⟩ := (Value.occursIn_iff _ _).mp (List.mem_filter.mp he).2
    have hk := hkeys e (List.mem_filter.mp he).1
    have := Value.equals_trans ((Value.equals_comm hk).mpr hne) hne
    simp [hef] at this
  · simp only [List.mem_filterMap, find?_eq_some_iff h, List.mem_filter, Value.occursIn_iff]
    constructor
    · rintro ⟨n, hn, he, hk⟩
      exact ⟨he, n, hn, Value.equals_symm (hkeys e he) hk⟩
    · rintro ⟨he, n, hn, hk⟩
      exact ⟨n, hn, he, (Value.equals_comm (hkeys e he)).mpr hk⟩

end

end Entries

namespace Value

mutual

def everywhere (p : Value → Bool) : Value → Bool
  | list items => p (list items) && allEverywhere p items
  | tuple items => p (tuple items) && allEverywhere p items
  | set items => p (set items) && allEverywhere p items
  | array kind items => p (array kind items) && allEverywhere p items
  | dict es => p (dict es) && entriesEverywhere p es
  | view es => p (view es) && entriesEverywhere p es
  | v => p v

def allEverywhere (p : Value → Bool) : List Value → Bool
  | [] => true
  | v :: rest => v.everywhere p && allEverywhere p rest

def entriesEverywhere (p : Value → Bool) : List (Value × Value) → Bool
  | [] => true
  | (k, v) :: rest => k.everywhere p && v.everywhere p && entriesEverywhere p rest

end

theorem everywhere_iff (p : Value → Bool) (v : Value) :
    v.everywhere p ↔ p v ∧ ∀ w ∈ v.parts, w.everywhere p := by
  have items (vs : List Value) : allEverywhere p vs ↔ ∀ w ∈ vs, w.everywhere p := by
    induction vs with
    | nil => simp [allEverywhere]
    | cons v vs ih => simp [allEverywhere, ih]
  have entries (es : List (Value × Value)) : entriesEverywhere p es ↔
      ∀ w ∈ es.flatMap (fun e => [e.1, e.2]), w.everywhere p := by
    induction es with
    | nil => simp [entriesEverywhere]
    | cons e es ih =>
      obtain ⟨k, v⟩ := e
      simp only [entriesEverywhere, Bool.and_eq_true, ih, List.flatMap_cons, List.cons_append,
        List.nil_append, List.forall_mem_cons, and_assoc]
  cases v <;> simp [everywhere, parts, items, entries]

/-- The keys of every mapping in a value are hashable and pairwise different. -/
def wellFormed : Value → Bool :=
  everywhere fun v => v.entries?.all Entries.distinct

def arrayFree : Value → Bool :=
  everywhere fun
    | array _ _ => false
    | _ => true

theorem wellFormed_part {v w : Value} (h : v.wellFormed) (hw : w ∈ v.parts) : w.wellFormed :=
  ((everywhere_iff _ v).mp h).2 w hw

theorem distinct_of_wellFormed {v : Value} (h : v.wellFormed) {es : Entries} (he : v.entries? = some es) :
    es.distinct := by
  simpa [he] using ((everywhere_iff _ v).mp h).1

structure Plain (v : Value) : Prop where
  wellFormed : v.wellFormed
  arrayFree : v.arrayFree

theorem Plain.part {v w : Value} (h : v.Plain) (hw : w ∈ v.parts) : w.Plain :=
  ⟨wellFormed_part h.wellFormed hw, ((everywhere_iff _ v).mp h.arrayFree).2 w hw⟩

theorem Plain.distinct {v : Value} (h : v.Plain) {es : Entries} (he : v.entries? = some es) : es.distinct :=
  distinct_of_wellFormed h.wellFormed he

theorem Plain.not_array {kind : CellKind} {items : List Value} : ¬(array kind items).Plain := fun h => by
  simpa using ((everywhere_iff _ _).mp h.arrayFree).1

theorem plain_list {items : List Value} (h : ∀ v ∈ items, v.Plain) : (list items).Plain where
  wellFormed := (everywhere_iff _ _).mpr ⟨by simp [entries?], fun w hw => (h w hw).wellFormed⟩
  arrayFree := (everywhere_iff _ _).mpr ⟨rfl, fun w hw => (h w hw).arrayFree⟩

theorem plain_tuple {items : List Value} (h : ∀ v ∈ items, v.Plain) : (tuple items).Plain where
  wellFormed := (everywhere_iff _ _).mpr ⟨by simp [entries?], fun w hw => (h w hw).wellFormed⟩
  arrayFree := (everywhere_iff _ _).mpr ⟨rfl, fun w hw => (h w hw).arrayFree⟩

theorem plain_dict {es : Entries} (hd : es.distinct) (h : ∀ e ∈ es, e.1.Plain ∧ e.2.Plain) :
    (dict es).Plain := by
  have hp : ∀ w ∈ (dict es).parts, w.Plain := by
    intro w hw
    obtain ⟨e, he, hw⟩ := List.mem_flatMap.mp hw
    simp only [List.mem_cons, List.not_mem_nil, or_false] at hw
    rcases hw with rfl | rfl
    · exact (h e he).1
    · exact (h e he).2
  constructor
  · exact (everywhere_iff _ _).mpr ⟨by simpa [entries?] using hd, fun w hw => (hp w hw).wellFormed⟩
  · exact (everywhere_iff _ _).mpr ⟨rfl, fun w hw => (hp w hw).arrayFree⟩

/-- Keys hold no mappings and no arrays. -/
theorem plain_of_hashable {v : Value} (h : v.hashable) : v.Plain := by
  induction v using partsInduction with
  | step v ih =>
    cases v with
    | tuple items => exact plain_tuple fun w hw => ih w hw ((allHashable_iff items).mp h w hw)
    | list | dict | view | set | array => simp [hashable] at h
    | _ => constructor <;> rfl

end Value
end Schemata
