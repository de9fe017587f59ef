import Schemata.Proofs.Decode.Gather
import Schemata.Proofs.Lists
import Schemata.Proofs.Value.Entries

/-!
Which part of a struct each entry goes to: the entry of a declared key to its declaration, any other entry to the index
signature that claims it.
-/
namespace Schemata
namespace Struct

def found {σ : Type} (ps : List (Property σ)) (es : Entries) : List (Property σ × (Value × Value)) :=
  ps.filterMap fun p => (es.find? fun e => e.1.equals p.name).map (p, ·)

def claimed {ι : Type} (claims : ι → Value → Bool) (declared : List Value) (is : List ι) (es : Entries) :
    List (ι × (Value × Value)) :=
  es.filterMap fun e =>
    if e.1.occursIn declared then none else (is.find? fun i => claims i e.1).map (·, e)

/-- A table with the found keys in their declared spelling and then the claimed ones, and with other values. -/
def respell {σ ι : Type} (claims : ι → Value → Bool) (ps : List (Property σ)) (is : List ι) (es : Entries)
    (value : Property σ × (Value × Value) → Value) (value' : ι × (Value × Value) → Value) : Entries :=
  (found ps es).map (fun r => (r.1.name, value r)) ++
    (claimed claims (ps.map fun p => p.name) is es).map fun r => (r.2.1, value' r)

section
variable {σ ι : Type} {claims : ι → Value → Bool} {ps : List (Property σ)} {is : List ι} {es : Entries}

theorem mem_found (hes : es.distinct) {r : Property σ × (Value × Value)} :
    r ∈ found ps es ↔ r.1 ∈ ps ∧ r.2 ∈ es ∧ r.2.1.equals r.1.name := by
  obtain ⟨p, e⟩ := r
  simp only [found, List.mem_filterMap, Option.map_eq_some_iff, Prod.mk.injEq, Entries.find?_eq_some_iff hes]
  constructor
  · rintro ⟨q, hq, f, hf, rfl, rfl⟩
    exact ⟨hq, hf⟩
  · rintro ⟨hp, he⟩
    exact ⟨p, hp, e, he, rfl, rfl⟩

theorem mem_claimed {declared : List Value} {r : ι × (Value × Value)} (h : r ∈ claimed claims declared is es) :
    r.2 ∈ es ∧ r.2.1.occursIn declared = false ∧ (is.find? fun i => claims i r.2.1) = some r.1 := by
  obtain ⟨e, he, h⟩ := List.mem_filterMap.mp h
  split at h
  · cases h
  · rename_i hd
    obtain ⟨i, hi, rfl⟩ := Option.map_eq_some_iff.mp h
    exact ⟨he, by simpa using hd, hi⟩

/-- Each entry with a declared or a claimed key goes to one part. -/
theorem found_claimed_perm (hes : es.distinct)
    (hn : ps.Pairwise fun p q => p.name.equals q.name = false) :
    ((found ps es).map Prod.snd ++ (claimed claims (ps.map fun p => p.name) is es).map Prod.snd).Perm
      (es.filter fun e => e.1.occursIn (ps.map fun p => p.name) || is.any fun i => claims i e.1) := by
  have hf : (found ps es).map Prod.snd =
      (ps.map fun p => p.name).filterMap fun n => es.find? fun e => e.1.equals n := by
    rw [found, List.map_filterMap, List.filterMap_map]
    apply List.filterMap_congr
    intro p _
    simp [Function.comp_def]
  have hc : (claimed claims (ps.map fun p => p.name) is es).map Prod.snd =
      es.filter fun e => !e.1.occursIn (ps.map fun p => p.name) && is.any fun i => claims i e.1 := by
    rw [claimed, List.map_filterMap, ← List.filterMap_eq_filter]
    apply List.filterMap_congr
    intro e _
    cases hd : e.1.occursIn (ps.map fun p => p.name) with
    | true => simp [Option.guard, hd]
    | false =>
      cases hi : is.find? (fun i => claims i e.1) with
      | none =>
        have : (is.any fun i => claims i e.1) = false := by simpa using hi
        simp [Option.guard, hd, this]
      | some i =>
        have : (is.any fun i => claims i e.1) = true :=
          List.any_eq_true.mpr ⟨i, List.mem_of_find?_eq_some hi, by simpa using List.find?_some hi⟩
        simp [Option.guard, hd, this]
  have hnames : (ps.map fun p => p.name).Pairwise fun a b => a.equals b = false := by
    rwa [List.pairwise_map]
  rw [hf, hc]
  refine ((Entries.filterMap_find?_perm hes hnames).append (.refl _)).trans ?_
  refine .trans (.of_eq ?_) (List.filter_append_perm (fun e => e.1.occursIn (ps.map fun p => p.name)) _)
  rw [List.filter_filter, List.filter_filter]
  congr 1 <;> refine List.filter_congr fun e _ => ?_ <;>
    cases e.1.occursIn (ps.map fun p => p.name) <;> simp

theorem equals_self_of_claimed {symbols : Bool} {key : Value}
    (h : (if symbols then key.isSymbol else key.isText) = true) : key.equals key := by
  cases symbols <;> cases key <;> simp_all [Value.isText, Value.isSymbol, Value.equals, Value.equalsUpTo]

/-- Where each sort of key has one index signature at most, a key is claimed by none or by one. -/
theorem claiming_cases {symbols : ι → Bool} (h : ∀ sort, (is.filter fun i => symbols i == sort).length ≤ 1)
    (key : Value) :
    (is.filter fun i => if symbols i then key.isSymbol else key.isText) = [] ∨
      ∃ i, (is.filter fun i => if symbols i then key.isSymbol else key.isText) = [i] := by
  have hl : (is.filter fun i => if symbols i then key.isSymbol else key.isText).length ≤ 1 := by
    refine Nat.le_trans (List.Sublist.length_le ?_) (h key.isSymbol)
    apply List.monotone_filter_right is
    intro i hi
    cases key <;> cases hs : symbols i <;> simp_all [Value.isText, Value.isSymbol]
  rcases Nat.le_one_iff_eq_zero_or_eq_one.mp hl with h | h
  · exact .inl (List.eq_nil_of_length_eq_zero h)
  · exact .inr (List.length_eq_one_iff.mp h)

def SelfClaims (claims : ι → Value → Bool) : Prop :=
  ∀ i key, claims i key → key.equals key

variable (value : Property σ × (Value × Value) → Value) (value' : ι × (Value × Value) → Value)

/-- Every entry of the new table comes from one of the old that has the same key. -/
theorem respell_forall₂ (hes : es.distinct) (hc : SelfClaims claims) {R : Value → Value → Prop}
    (hv : ∀ r ∈ found ps es, R (value r) r.2.2)
    (hv' : ∀ r ∈ claimed claims (ps.map fun p => p.name) is es, R (value' r) r.2.2) :
    List.Forall₂ (fun out e => out.1.hashable ∧ out.1.equals e.1 ∧ R out.2 e.2)
      (respell claims ps is es value value')
      ((found ps es).map Prod.snd ++ (claimed claims (ps.map fun p => p.name) is es).map Prod.snd) := by
  have hkeys := ((Entries.distinct_iff es).mp hes).1
  refine List.rel_append ?_ ?_
  · refine Lists.forall₂_map_same fun r hr => ?_
    obtain ⟨_, he, hk⟩ := (mem_found hes).mp hr
    exact ⟨(Value.hashable_congr hk).mp (hkeys _ he), Value.equals_symm (hkeys _ he) hk, hv r hr⟩
  · refine Lists.forall₂_map_same fun r hr => ?_
    obtain ⟨he, _, hi⟩ := mem_claimed hr
    exact ⟨hkeys r.2 he, hc r.1 r.2.1 (by simpa using List.find?_some hi), hv' r hr⟩

theorem respell_distinct (hes : es.distinct) (hn : ps.Pairwise fun p q => p.name.equals q.name = false)
    (hc : SelfClaims claims) : (respell claims ps is es value value').distinct := by
  have h : List.Forall₂ (fun (out e : Value × Value) => out.1.hashable ∧ out.1.equals e.1 ∧ True)
      (respell claims ps is es value value') _ :=
    respell_forall₂ value value' hes hc (R := fun _ _ => True) (fun _ _ => trivial) fun _ _ => trivial
  exact Entries.distinct_of_respelled hes (found_claimed_perm hes hn)
    (h.imp fun _ _ h => ⟨h.1, h.2.1⟩)

theorem find?_respell (hes : es.distinct) (hn : ps.Pairwise fun p q => p.name.equals q.name = false)
    (hc : SelfClaims claims) {p : Property σ} (hp : p ∈ ps) :
    (respell claims ps is es value value').find? (fun e => e.1.equals p.name) =
      (es.find? fun e => e.1.equals p.name).map fun e => (p.name, value (p, e)) := by
  have hd : (respell claims ps is es value value').distinct := respell_distinct value value' hes hn hc
  cases hf : es.find? (fun e => e.1.equals p.name) with
  | some e =>
    obtain ⟨he, hk⟩ := (Entries.find?_eq_some_iff hes).mp hf
    refine (Entries.find?_eq_some_iff hd).mpr ⟨List.mem_append_left _ ?_, ?_⟩
    · exact List.mem_map.mpr ⟨(p, e), (mem_found hes).mpr ⟨hp, he, hk⟩, rfl⟩
    · exact Value.equals_trans (Value.equals_symm (((Entries.distinct_iff es).mp hes).1 e he) hk) hk
  | none =>
    rw [Option.map_none, List.find?_eq_none]
    intro out hout hk
    rcases List.mem_append.mp hout with hout | hout
    · obtain ⟨r, hr, rfl⟩ := List.mem_map.mp hout
      obtain ⟨hq, he, hek⟩ := (mem_found hes).mp hr
      have hep := Value.equals_trans hek hk
      exact List.find?_eq_none.mp hf r.2 he hep
    · obtain ⟨r, hr, rfl⟩ := List.mem_map.mp hout
      exact List.find?_eq_none.mp hf r.2 (mem_claimed hr).1 hk

/-- The new table has the declared keys that the old one has. -/
theorem found_respell (hes : es.distinct) (hn : ps.Pairwise fun p q => p.name.equals q.name = false)
    (hc : SelfClaims claims) :
    found ps (respell claims ps is es value value') =
      (found ps es).map fun r => (r.1, (r.1.name, value r)) := by
  rw [found, found, List.map_filterMap]
  apply List.filterMap_congr
  intro p hp
  rw [find?_respell value value' hes hn hc hp]
  cases es.find? fun e => e.1.equals p.name <;> rfl

/-- The new table has the claimed keys that the old one has. -/
theorem claimed_respell (hes : es.distinct) :
    claimed claims (ps.map fun p => p.name) is (respell claims ps is es value value') =
      (claimed claims (ps.map fun p => p.name) is es).map fun r => (r.1, (r.2.1, value' r)) := by
  have hleft : ((found ps es).map fun r => (r.1.name, value r)).filterMap (fun e =>
      if e.1.occursIn (ps.map fun p => p.name) then none
      else (is.find? fun i => claims i e.1).map fun i => (i, e)) = [] := by
    rw [List.filterMap_eq_nil_iff]
    intro out hout
    obtain ⟨r, hr, rfl⟩ := List.mem_map.mp hout
    obtain ⟨hp, he, hk⟩ := (mem_found hes).mp hr
    have hself : r.1.name.equals r.1.name :=
      Value.equals_trans (Value.equals_symm (((Entries.distinct_iff es).mp hes).1 _ he) hk) hk
    exact if_pos ((Value.occursIn_iff _ _).mpr ⟨_, List.mem_map_of_mem hp, hself⟩)
  have hright : claimed claims (ps.map fun p => p.name) is (respell claims ps is es value value') =
      ((claimed claims (ps.map fun p => p.name) is es).map fun r => (r.2.1, value' r)).filterMap fun e =>
        if e.1.occursIn (ps.map fun p => p.name) then none
        else (is.find? fun i => claims i e.1).map fun i => (i, e) := by
    conv => lhs; rw [claimed, respell, List.filterMap_append, hleft, List.nil_append]
  rw [hright, List.filterMap_map]
  refine (List.filterMap_congr fun r hr => ?_).trans (congrFun List.filterMap_eq_map _)
  obtain ⟨_, hd, hi⟩ := mem_claimed hr
  simp [hd, hi]

theorem respell_congr {value₂ : Property σ × (Value × Value) → Value} {value₂' : ι × (Value × Value) → Value}
    (h : ∀ r ∈ found ps es, value r = value₂ r)
    (h' : ∀ r ∈ claimed claims (ps.map fun p => p.name) is es, value' r = value₂' r) :
    respell claims ps is es value value' = respell claims ps is es value₂ value₂' := by
  rw [respell, respell]
  congr 1
  · exact List.map_congr_left fun r hr => congrArg (Prod.mk r.1.name) (h r hr)
  · exact List.map_congr_left fun r hr => congrArg (Prod.mk r.2.1) (h' r hr)

end

end Struct

/-- The names of a struct are pairwise different, and each sort of key is claimed by one index signature at most. -/
def Schema.Unambiguous : Schema → Prop
  | struct _ properties indexes =>
    (properties.Pairwise fun p q => p.name.equals q.name = false) ∧
      ∀ symbols, (indexes.filter fun i => i.parameter.isKeyword .symbol == symbols).length ≤ 1
  | _ => True

def IndexSignature.claims (i : IndexSignature Schema) (key : Value) : Bool :=
  if i.parameter.isKeyword .symbol then key.isSymbol else key.isText

namespace Struct

theorem selfClaims_index : SelfClaims IndexSignature.claims :=
  fun _ _ h => equals_self_of_claimed h

/-- A claimed key is no container and no number. -/
theorem simple_of_claims {i : IndexSignature Schema} {key : Value} (h : i.claims key) :
    key.items? = none ∧ key.entries? = none ∧ Scope.anomaly? key = none := by
  rw [IndexSignature.claims] at h
  cases key with
  | text s => exact ⟨rfl, rfl, rfl⟩
  | symbol k => exact ⟨rfl, rfl, rfl⟩
  | _ => simp [Value.isText, Value.isSymbol] at h

/-- Every declared key that must be there is there, and every other key is claimed once. -/
structure Fits (ps : List (Property Schema)) (is : List (IndexSignature Schema)) (es : Entries) : Prop where
  optional : ∀ p ∈ ps, es.find? (fun e => e.1.equals p.name) = none → p.optional
  once : ∀ e ∈ es, e.1.occursIn (ps.map fun p => p.name) = false →
    ∃ i, (is.filter fun i => i.claims e.1) = [i]

section
variable {ps : List (Property Schema)} {is : List (IndexSignature Schema)} {es : Entries}
  {m : Type → Type}

theorem filter_parsers (f : Schema → Parser m) (key : Value) :
    ((is.map (IndexSignature.parsers f)).filter fun i => i.claims key) =
      (is.filter fun i => i.claims key).map (IndexSignature.parsers f) := by
  rw [List.filter_map]
  rfl

theorem names_map (f : Schema → Parser m) :
    ((ps.map (Property.map f)).map fun p => p.name) = ps.map fun p => p.name := by
  rw [List.map_map]
  rfl

/-- A step of a struct: a declared key is there or is missing; an undeclared key and its value go to every index
signature that claims the key, and a key that none claims is not expected. -/
inductive IsStep (f : Schema → Parser m) (ps : List (Property Schema)) (is : List (IndexSignature Schema))
    (es : Entries) : Step m → Prop
  | property {p : Property Schema} {v : Value} (hp : p ∈ ps) (hv : es.lookup p.name = some v) :
    IsStep f ps is es (.take (.key p.name) (f p.type) v)
  | missing {p : Property Schema} (hp : p ∈ ps) (hv : es.lookup p.name = none) (ho : p.optional = false) :
    IsStep f ps is es (.missing (.key p.name))
  | unexpected {e : Value × Value} (he : e ∈ es) (hd : e.1.occursIn (ps.map fun p => p.name) = false)
    (hc : ∀ i ∈ is, i.claims e.1 = false) : IsStep f ps is es (.unexpected (.key e.1))
  | parameter {e : Value × Value} {i : IndexSignature Schema} (he : e ∈ es)
    (hd : e.1.occursIn (ps.map fun p => p.name) = false) (hi : i ∈ is) (hc : i.claims e.1) :
    IsStep f ps is es (.check (.key e.1) (f i.parameter) e.1)
  | index {e : Value × Value} {i : IndexSignature Schema} (he : e ∈ es)
    (hd : e.1.occursIn (ps.map fun p => p.name) = false) (hi : i ∈ is) (hc : i.claims e.1) :
    IsStep f ps is es (.take (.key e.1) (f i.type) e.2)

theorem mem_propertySteps_iff {f : Schema → Parser m} {p : Property Schema} {s : Step m} :
    s ∈ propertySteps es (p.map f) ↔ (∃ v, es.lookup p.name = some v ∧ s = .take (.key p.name) (f p.type) v) ∨
      (es.lookup p.name = none ∧ p.optional = false ∧ s = .missing (.key p.name)) := by
  cases hl : es.lookup p.name with
  | some v => simp [propertySteps, Property.map, hl]
  | none => cases ho : p.optional <;> simp [propertySteps, Property.map, hl, ho]

theorem mem_entrySteps_iff {f : Schema → Parser m} {declared : List Value} {e : Value × Value} {s : Step m} :
    s ∈ entrySteps declared (is.map (IndexSignature.parsers f)) e ↔ e.1.occursIn declared = false ∧
      (((∀ i ∈ is, i.claims e.1 = false) ∧ s = .unexpected (.key e.1)) ∨ ∃ i ∈ is, i.claims e.1 ∧
        (s = .check (.key e.1) (f i.parameter) e.1 ∨ s = .take (.key e.1) (f i.type) e.2)) := by
  rw [entrySteps, filter_parsers]
  cases hd : e.1.occursIn declared with
  | true => simp
  | false =>
    have hmem {i : IndexSignature Schema} : i ∈ is ∧ i.claims e.1 ↔ i ∈ is.filter fun i => i.claims e.1 := by
      rw [List.mem_filter]
    simp only [← and_assoc, hmem]
    cases hf : is.filter fun i => i.claims e.1 with
    | nil =>
      have hnone : ∀ i ∈ is, i.claims e.1 = false := by simpa using hf
      simpa using fun _ => hnone
    | cons i claiming =>
      have hsome : ¬∀ i ∈ is, i.claims e.1 = false := fun h => by
        have hi := List.mem_filter.mp (hf ▸ List.mem_cons_self (a := i))
        simp [h i hi.1] at hi
      simp [hsome, IndexSignature.parsers, or_assoc]

theorem mem_steps_iff {f : Schema → Parser m} {s : Step m} :
    s ∈ steps (ps.map (Property.map f)) (is.map (IndexSignature.parsers f)) es ↔ IsStep f ps is es s := by
  rw [steps, names_map, List.mem_append]
  simp only [List.flatMap_map, List.mem_flatMap, mem_propertySteps_iff, mem_entrySteps_iff]
  constructor
  · rintro (⟨p, hp, ⟨v, hv, rfl⟩ | ⟨hv, ho, rfl⟩⟩ | ⟨e, he, hd, ⟨hc, rfl⟩ | ⟨i, hi, hc, rfl | rfl⟩⟩)
    · exact .property hp hv
    · exact .missing hp hv ho
    · exact .unexpected he hd hc
    · exact .parameter he hd hi hc
    · exact .index he hd hi hc
  · intro h
    cases h with
    | property hp hv => exact .inl ⟨_, hp, .inl ⟨_, hv, rfl⟩⟩
    | missing hp hv ho => exact .inl ⟨_, hp, .inr ⟨hv, ho, rfl⟩⟩
    | unexpected he hd hc => exact .inr ⟨_, he, hd, .inl ⟨hc, rfl⟩⟩
    | parameter he hd hi hc => exact .inr ⟨_, he, hd, .inr ⟨_, hi, hc, .inl rfl⟩⟩
    | index he hd hi hc => exact .inr ⟨_, he, hd, .inr ⟨_, hi, hc, .inr rfl⟩⟩

/-- The steps through a table that fits: one for each found key, and two for each claimed one. -/
theorem Fits.steps_eq (h : Fits ps is es) (f : Schema → Parser m) :
    steps (ps.map (Property.map f)) (is.map (IndexSignature.parsers f)) es =
      (found ps es).map (fun r => .take (.key r.1.name) (f r.1.type) r.2.2) ++
        (claimed IndexSignature.claims (ps.map fun p => p.name) is es).flatMap fun r =>
          [.check (.key r.2.1) (f r.1.parameter) r.2.1, .take (.key r.2.1) (f r.1.type) r.2.2] := by
  rw [steps, names_map, List.flatMap_map]
  congr 1
  · rw [found, List.map_filterMap, List.filterMap_eq_flatMap_toList]
    apply List.flatMap_congr
    intro p hp
    cases hf : es.find? fun e => e.1.equals p.name with
    | some e => simp [propertySteps, Property.map, Entries.lookup, hf]
    | none => simp [propertySteps, Property.map, Entries.lookup, hf, h.optional p hp hf]
  · rw [claimed, List.filterMap_eq_flatMap_toList, List.flatMap_assoc]
    apply List.flatMap_congr
    intro e he
    rw [entrySteps, filter_parsers]
    cases hd : e.1.occursIn (ps.map fun p => p.name) with
    | true => simp
    | false =>
      obtain ⟨i, hi⟩ := h.once e he hd
      have hf : (is.find? fun i => i.claims e.1) = some i := by
        rw [← List.head?_filter, hi]
        rfl
      simp [hi, hf, IndexSignature.parsers]

/-- A table whose steps are all clean fits. -/
theorem fits_of_clean {a : Annotations} (hu : (Schema.struct a ps is).Unambiguous) {f : Schema → Parser (Except Fault)}
    (h : ∀ s ∈ steps (ps.map (Property.map f)) (is.map (IndexSignature.parsers f)) es, s.Clean) :
    Fits ps is es := by
  constructor
  · intro p hp hf
    by_contra ho
    have hs : .missing (.key p.name) ∈ propertySteps es (p.map f) := by
      simp [propertySteps, Property.map, Entries.lookup, hf, ho]
    exact h _ (List.mem_append_left _ (List.mem_flatMap.mpr ⟨_, List.mem_map_of_mem hp, hs⟩))
  · intro e he hd
    rcases claiming_cases hu.2 e.1 with hc | hc
    · have hc' : (is.filter fun i => i.claims e.1) = [] := hc
      have hs : .unexpected (.key e.1) ∈ entrySteps (ps.map fun p => p.name)
          (is.map (IndexSignature.parsers f)) e := by
        rw [entrySteps, filter_parsers, hc']
        simp [hd]
      exact absurd (h _ (List.mem_append_right _ (List.mem_flatMap.mpr ⟨e, he, by rwa [names_map]⟩))) id
    · exact hc

/-- The respelled table fits where the declared keys that are not there are optional and claimed keys are claimed
once. -/
theorem fits_respell (hes : es.distinct) (hn : ps.Pairwise fun p q => p.name.equals q.name = false)
    (ho : ∀ p ∈ ps, es.find? (fun e => e.1.equals p.name) = none → p.optional)
    (honce : ∀ r ∈ claimed IndexSignature.claims (ps.map fun p => p.name) is es,
      ∃ i, (is.filter fun i => i.claims r.2.1) = [i])
    (value : Property Schema × (Value × Value) → Value)
    (value' : IndexSignature Schema × (Value × Value) → Value) :
    Fits ps is (respell IndexSignature.claims ps is es value value') := by
  constructor
  · intro p hp hf
    rw [find?_respell value value' hes hn selfClaims_index hp, Option.map_eq_none_iff] at hf
    exact ho p hp hf
  · intro out hout hd
    rcases List.mem_append.mp hout with hout | hout
    · obtain ⟨r, hr, rfl⟩ := List.mem_map.mp hout
      obtain ⟨hp, he, hk⟩ := (mem_found hes).mp hr
      have hself : r.1.name.equals r.1.name :=
        Value.equals_trans (Value.equals_symm (((Entries.distinct_iff es).mp hes).1 _ he) hk) hk
      rw [Value.differs_of_not_occursIn hd (List.mem_map_of_mem hp)] at hself
      cases hself
    · obtain ⟨r, hr, rfl⟩ := List.mem_map.mp hout
      exact honce r hr

theorem Fits.respell (h : Fits ps is es) (hes : es.distinct)
    (hn : ps.Pairwise fun p q => p.name.equals q.name = false)
    (value : Property Schema × (Value × Value) → Value)
    (value' : IndexSignature Schema × (Value × Value) → Value) :
    Fits ps is (Struct.respell IndexSignature.claims ps is es value value') :=
  fits_respell hes hn h.optional
    (fun r hr => h.once r.2 (mem_claimed hr).1 (mem_claimed hr).2.1) value value'

/-- A table that fits has all its entries among those that go to a part. -/
theorem Fits.perm (h : Fits ps is es) (hes : es.distinct)
    (hn : ps.Pairwise fun p q => p.name.equals q.name = false) :
    ((found ps es).map Prod.snd ++
      (Struct.claimed IndexSignature.claims (ps.map fun p => p.name) is es).map Prod.snd).Perm es := by
  refine (found_claimed_perm hes hn).trans (.of_eq (List.filter_eq_self.mpr fun e he => ?_))
  cases hd : e.1.occursIn (ps.map fun p => p.name) with
  | true => rfl
  | false =>
    obtain ⟨i, hi⟩ := h.once e he hd
    have hmem : i ∈ is.filter fun i => i.claims e.1 := hi ▸ List.mem_cons_self
    exact List.any_eq_true.mpr ⟨i, List.mem_filter.mp hmem⟩

end
end Struct
end Schemata
