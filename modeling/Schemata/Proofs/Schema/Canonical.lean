import Schemata.Proofs.Schema.Spine
import Schemata.Proofs.Schema.Union
import Schemata.Schema.Tuple
import Schemata.Template.Combine

/-!
Canonical schemas. Every union in them is a canonical one and every struct has its members in order; what is put
together from canonical schemas is canonical again.
-/
namespace Schemata

namespace Schema
variable {s t u : Schema} {a : Annotations}

/-- The members of a canonical union: at least two, no two of them equal, none of them a union or a literal beside its
keyword, and the heavier ones first. Members are compared as they stand, the earlier one with the later one. -/
structure CanonicalMembers (ss : List Schema) : Prop where
  several : 2 ≤ ss.length
  distinct : ss.Pairwise fun s t => ¬s.equals t
  flat : ∀ s ∈ ss, s.kind ≠ .union
  unabsorbed : ∀ k ∈ ss, ∀ s ∈ ss, ¬Absorbs k s
  ranked : ss.Pairwise fun s t => t.weight ≤ s.weight

def CanonicalNode : Schema → Prop
  | union _ members => CanonicalMembers members
  | struct _ properties indexes =>
    properties.Pairwise (fun p q => p.type.cardinality ≤ q.type.cardinality) ∧
      indexes.Pairwise fun i j => i.type.cardinality ≤ j.type.cardinality
  | _ => True

/-- The node is canonical, and so is everything that it holds. -/
inductive Canonical : Schema → Prop
  | intro {s : Schema} (node : s.CanonicalNode) (held : ∀ t ∈ s.held, Canonical t) : Canonical s

theorem Canonical.node (h : s.Canonical) : s.CanonicalNode := by
  cases h
  assumption

theorem Canonical.held (h : s.Canonical) (ht : t ∈ s.held) : t.Canonical := by
  cases h with
  | intro _ held => exact held t ht

theorem Canonical.leaf (hn : s.CanonicalNode) (h : s.held = []) : s.Canonical :=
  .intro hn fun t ht => absurd ht (by simp [h])

theorem canonical_word (k : Keyword) : (word k).Canonical :=
  .leaf trivial rfl

/-! ### Unions and structs -/

theorem Canonical.alternative (h : s.Canonical) (ht : t ∈ s.alternatives) : t.Canonical ∧ t.kind ≠ .union := by
  cases s with
  | union a ss => exact ⟨h.held ht, h.node.flat t ht⟩
  | _ =>
    obtain rfl := List.mem_singleton.mp ht
    exact ⟨h, by simp [kind]⟩

theorem CanonicalMembers.of_unify {cs : List Schema} (h : ∀ c ∈ cs, c.Canonical) (hl : 2 ≤ (unify cs).length) :
    CanonicalMembers (Schema.ranked (unify cs)) where
  several := by rwa [Schema.ranked, List.length_mergeSort]
  distinct := pairwise_ranked_of_distinct (pairwise_unify cs)
  flat s hs := forall_unify (fun c hc _ hs => ((h c hc).alternative hs).2) s (mem_ranked.mp hs)
  unabsorbed _ hk _ hs := not_absorbs_of_mem_unify (mem_ranked.mp hk) (mem_ranked.mp hs)
  ranked := pairwise_ranked _

theorem Canonical.oneOf {cs : List Schema} (h : ∀ c ∈ cs, c.Canonical) (a : Annotations) :
    (oneOf cs a).Canonical := by
  have hu : ∀ s ∈ unify cs, s.Canonical := forall_unify fun c hc _ hs => ((h c hc).alternative hs).1
  rw [Schema.oneOf]
  split
  · exact canonical_word .never
  · rename_i s hs
    exact hu s (by simp [hs])
  · rename_i hnil hone
    have hl : 2 ≤ (unify cs).length := by
      rcases hm : unify cs with _ | ⟨s, _ | ⟨t, ss⟩⟩
      · exact absurd hm hnil
      · exact absurd hm (hone s)
      · simp
    exact .intro (.of_unify h hl) fun s hs => hu s (mem_ranked.mp hs)

/-- What is sorted by a rank stands by ascending rank. -/
theorem pairwise_sorted {α : Type} (rank : α → Nat) (as : List α) :
    (as.mergeSort fun a b => decide (rank a ≤ rank b)).Pairwise fun a b => rank a ≤ rank b := by
  have h : (as.mergeSort fun a b => decide (rank a ≤ rank b)).Pairwise fun a b => decide (rank a ≤ rank b) = true := by
    refine List.pairwise_mergeSort (fun a b c hab hbc => ?_) (fun a b => ?_) as
    · simp only [decide_eq_true_eq] at *
      omega
    · simp only [Bool.or_eq_true, decide_eq_true_eq]
      omega
  exact h.imp of_decide_eq_true

/-- Members of one type stand in a struct as they are given. -/
theorem structOf_of_type {value : Schema} {ps : List (Property Schema)} {is : List (IndexSignature Schema)}
    (hp : ∀ p ∈ ps, p.type = value) (hi : ∀ i ∈ is, i.type = value) (a : Annotations) :
    structOf ps is a = struct a ps is := by
  have hps : rankedProperties ps = ps := List.mergeSort_of_pairwise <|
    List.pairwise_of_forall_mem_list fun p hpm q hqm => by simp [hp p hpm, hp q hqm]
  have his : rankedIndexes is = is := List.mergeSort_of_pairwise <|
    List.pairwise_of_forall_mem_list fun i him j hjm => by simp [hi i him, hi j hjm]
  rw [structOf, hps, his]

theorem Canonical.structOf {ps : List (Property Schema)} {is : List (IndexSignature Schema)}
    (hp : ∀ p ∈ ps, p.type.Canonical) (hi : ∀ i ∈ is, i.parameter.Canonical ∧ i.type.Canonical)
    (a : Annotations) : (structOf ps is a).Canonical := by
  refine .intro ⟨pairwise_sorted _ ps, pairwise_sorted _ is⟩ fun t ht => ?_
  rcases List.mem_append.mp ht with ht | ht
  · obtain ⟨p, hpm, rfl⟩ := List.mem_map.mp ht
    exact hp p (List.mem_mergeSort.mp hpm)
  · obtain ⟨i, him, ht⟩ := List.mem_flatMap.mp ht
    have hic := hi i (List.mem_mergeSort.mp him)
    simp only [List.mem_cons, List.not_mem_nil, or_false] at ht
    rcases ht with rfl | rfl
    · exact hic.1
    · exact hic.2

theorem Canonical.property {ps : List (Property Schema)} {is : List (IndexSignature Schema)}
    (h : (struct a ps is).Canonical) {p : Property Schema} (hp : p ∈ ps) : p.type.Canonical := by
  have hm : p.type ∈ (struct a ps is).children := mem_children_of_property hp
  exact h.held hm

theorem Canonical.index {ps : List (Property Schema)} {is : List (IndexSignature Schema)}
    (h : (struct a ps is).Canonical) {i : IndexSignature Schema} (hi : i ∈ is) :
    i.parameter.Canonical ∧ i.type.Canonical := by
  have hm : i.parameter ∈ (struct a ps is).children ∧ i.type ∈ (struct a ps is).children :=
    mem_children_of_index hi
  exact ⟨h.held hm.1, h.held hm.2⟩

/-! ### Annotations and partial forms -/

theorem Canonical.annotate (h : s.Canonical) (overlay : Annotations) : (s.annotate overlay).Canonical := by
  cases s <;> exact .intro h.node fun t ht => h.held ht

theorem Canonical.tuple {es : List (Element Schema)} {r : Option (Rest Schema)} (he : ∀ e ∈ es, e.type.Canonical)
    (hr : ∀ q ∈ r, ∀ t ∈ q.toList, t.Canonical) (a : Annotations) (readonly : Bool) :
    (tuple a es r readonly).Canonical := by
  refine .intro trivial fun t ht => ?_
  rcases List.mem_append.mp ht with ht | ht
  · obtain ⟨e, hem, rfl⟩ := List.mem_map.mp ht
    exact he e hem
  · cases r with
    | none => cases ht
    | some q => exact hr q rfl t ht

theorem Canonical.element {es : List (Element Schema)} {r : Option (Rest Schema)} {readonly : Bool}
    (h : (Schema.tuple a es r readonly).Canonical) {e : Element Schema} (he : e ∈ es) : e.type.Canonical := by
  have hm : e.type ∈ (Schema.tuple a es r readonly).children := mem_children_of_element he
  exact h.held hm

theorem Canonical.rest {es : List (Element Schema)} {r : Rest Schema} {readonly : Bool}
    (h : (Schema.tuple a es (some r) readonly).Canonical) (ht : t ∈ r.toList) : t.Canonical := by
  have hm : t ∈ (Schema.tuple a es (some r) readonly).children := mem_children_of_rest ht
  exact h.held hm

theorem mem_partialForms {path : List Nat} {i : Nat} {ss : List Schema} (h : t ∈ partialForms path i ss) :
    ∃ s ∈ ss, ∃ path', t = s.partialForm path' := by
  induction ss generalizing i with
  | nil => cases h
  | cons s ss ih =>
    rcases List.mem_cons.mp h with rfl | h
    · exact ⟨s, List.mem_cons_self, i :: path, rfl⟩
    · obtain ⟨u, hu, path', rfl⟩ := ih h
      exact ⟨u, List.mem_cons_of_mem s hu, path', rfl⟩

theorem Canonical.partialForm (h : s.Canonical) (path : List Nat) : (s.partialForm path).Canonical := by
  induction s using heldInduction generalizing path with
  | step s ih =>
    have wrapped {t : Schema} (ht : t ∈ s.behind) (path : List Nat) : (t.partialForm path).Canonical :=
      ih t (mem_held_of_behind ht) (h.held (mem_held_of_behind ht)) path
    cases s with
    | typeAlias a ps t => exact wrapped List.mem_cons_self path
    | refinement a t p => exact wrapped List.mem_cons_self path
    | transform a t u c => exact wrapped List.mem_cons_self path
    | lazy a handle => exact .leaf trivial rfl
    | union a ss =>
      rw [Schema.partialForm]
      refine .oneOf (fun t ht => ?_) _
      obtain ⟨s, hs, path', rfl⟩ := mem_partialForms ht
      exact wrapped hs path'
    | struct a ps is =>
      rw [Schema.partialForm]
      refine .structOf (fun p hp => ?_) (fun i hi => h.index hi) _
      obtain ⟨q, hq, rfl⟩ := List.mem_map.mp hp
      have hqc := h.property hq
      exact hqc
    | tuple a es r readonly =>
      rw [Schema.partialForm]
      refine .tuple (fun e he => ?_) (fun q hq t ht => ?_) _ _
      · obtain ⟨f, hf, rfl⟩ := List.mem_map.mp he
        have hfc := h.element hf
        exact hfc
      · obtain ⟨q', hq', rfl⟩ := Option.map_eq_some_iff.mp hq
        subst hq'
        obtain rfl := List.mem_singleton.mp ht
        refine .oneOf (fun u hu => ?_) _
        rcases List.mem_append.mp hu with hu | hu
        · exact h.rest hu
        · obtain rfl := List.mem_singleton.mp hu
          exact canonical_word .undefined
    | _ => exact h

/-! ### Tuples grown item by item -/

theorem Canonical.appendElement {e : Element Schema} (h : s.Canonical) (he : e.type.Canonical)
    (ht : s.appendElement e = .ok t) : t.Canonical := by
  cases s with
  | tuple a es r readonly =>
    simp only [Schema.appendElement] at ht
    split at ht
    · cases ht
    · cases r with
      | none =>
        obtain rfl := Except.ok.inj ht
        refine .tuple (fun f hf => ?_) (fun _ hq => absurd hq (Option.not_mem_none _)) _ _
        rcases List.mem_append.mp hf with hf | hf
        · exact h.element hf
        · rwa [List.mem_singleton.mp hf]
      | some r =>
        simp only at ht
        split at ht
        · cases ht
        · obtain rfl := Except.ok.inj ht
          refine .tuple (fun f hf => h.element hf) (fun q hq u hu => ?_) _ _
          obtain rfl := Option.some.inj hq
          rcases List.mem_cons.mp hu with rfl | hu
          · exact h.rest List.mem_cons_self
          · rcases List.mem_append.mp hu with hu | hu
            · exact h.rest (List.mem_cons_of_mem _ hu)
            · rwa [List.mem_singleton.mp hu]
  | _ => cases ht

theorem Canonical.appendRest {item : Schema} (h : s.Canonical) (hi : item.Canonical)
    (ht : s.appendRest item = .ok t) : t.Canonical := by
  cases s with
  | tuple a es r readonly =>
    cases r with
    | some r => cases ht
    | none =>
      obtain rfl := Except.ok.inj ht
      refine .tuple (fun f hf => h.element hf) (fun q hq u hu => ?_) _ _
      obtain rfl := Option.some.inj hq
      rwa [List.mem_singleton.mp hu]
  | _ => cases ht

/-! ### Templates -/

theorem canonical_templateOf (head : String) (spans : List Span) : (templateOf head spans).Canonical := by
  cases spans <;> exact .leaf trivial rfl

theorem templatePartsOfAll_eq_ok_iff {ss parts : List Schema} : templatePartsOfAll ss = .ok parts ↔
    ∃ pss, List.Forall₂ (fun s ps => s.templateParts = .ok ps) ss pss ∧ parts = pss.flatten :=
  concat_eq_ok_iff templateParts templatePartsOfAll rfl fun _ _ => rfl

theorem canonical_templateParts {parts : List Schema} (h : s.templateParts = .ok parts) :
    ∀ p ∈ parts, p.Canonical := by
  induction s using heldInduction generalizing parts with
  | step s ih =>
    have leaf {u : Schema} (hp : [u] = parts) (hn : u.CanonicalNode) (hu : u.held = []) :
        ∀ p ∈ parts, p.Canonical := by
      subst hp
      simpa using Canonical.leaf hn hu
    cases s with
    | literal a x => exact leaf (Except.ok.inj h) trivial rfl
    | keyword a w =>
      cases w with
      | string | number => exact leaf (Except.ok.inj h) trivial rfl
      | _ => cases h
    | union a ss =>
      obtain ⟨pss, hall, rfl⟩ := templatePartsOfAll_eq_ok_iff.mp h
      intro p hp
      obtain ⟨ps, hps, hp⟩ := List.mem_flatten.mp hp
      obtain ⟨s, hs, hsp⟩ := Lists.exists_of_mem_right hall hps
      exact ih s hs hsp p hp
    | _ => cases h

theorem canonical_combine (h : s.combine t = .ok u) : u.Canonical := by
  rw [combine.eq_def] at h
  split at h
  · obtain rfl := Except.ok.inj h
    exact .leaf trivial rfl
  · obtain rfl := Except.ok.inj h
    exact canonical_templateOf _ _
  · obtain rfl := Except.ok.inj h
    exact canonical_templateOf _ _
  · obtain rfl := Except.ok.inj h
    exact canonical_templateOf _ _
  · cases h

theorem canonical_combineAll {ss ts us : List Schema} (h : combineAll ss ts = .ok us) : ∀ u ∈ us, u.Canonical := by
  obtain ⟨rows, hrows, hus⟩ := bind_eq_ok_iff.mp h
  obtain rfl := Except.ok.inj hus
  intro u hu
  obtain ⟨row, hrow, hu⟩ := List.mem_flatten.mp hu
  obtain ⟨s, _, hs⟩ := Lists.exists_of_mem_right (mapM_eq_ok_iff.mp hrows) hrow
  obtain ⟨t, _, ht⟩ := Lists.exists_of_mem_right (mapM_eq_ok_iff.mp hs) hu
  exact canonical_combine ht

theorem canonical_extendParts {sofar ss parts : List Schema} (hs : ∀ p ∈ sofar, p.Canonical)
    (h : extendParts sofar ss = .ok parts) : ∀ p ∈ parts, p.Canonical := by
  induction ss generalizing sofar with
  | nil =>
    obtain rfl := Except.ok.inj h
    exact hs
  | cons s ss ih =>
    obtain ⟨ps, _, h⟩ := bind_eq_ok_iff.mp h
    obtain ⟨sofar', hc, h⟩ := bind_eq_ok_iff.mp h
    exact ih (canonical_combineAll hc) h

theorem canonical_templateUnion {ss : List Schema} (h : templateUnion ss = .ok t) : t.Canonical := by
  cases ss with
  | nil => cases h
  | cons s ss =>
    obtain ⟨first, hf, h⟩ := bind_eq_ok_iff.mp h
    obtain ⟨parts, hp, h⟩ := bind_eq_ok_iff.mp h
    obtain rfl := Except.ok.inj h
    exact .oneOf (canonical_extendParts (canonical_templateParts hf) hp) _

/-! ### Records -/

def CanonicalRecord (members : List (Property Schema) × List (IndexSignature Schema)) : Prop :=
  (∀ p ∈ members.1, p.type.Canonical) ∧ ∀ i ∈ members.2, i.parameter.Canonical ∧ i.type.Canonical

theorem canonical_recordMembersOfAll {value : Schema} {readonly : Bool} {ss : List Schema}
    (ih : ∀ s ∈ ss, ∀ members, recordMembers value readonly s = .ok members → CanonicalRecord members)
    {members : List (Property Schema) × List (IndexSignature Schema)}
    (h : recordMembersOfAll value readonly ss = .ok members) : CanonicalRecord members := by
  induction ss generalizing members with
  | nil =>
    obtain rfl := Except.ok.inj h
    exact ⟨fun _ hp => absurd hp List.not_mem_nil, fun _ hi => absurd hi List.not_mem_nil⟩
  | cons s ss ihs =>
    obtain ⟨first, hf, h⟩ := bind_eq_ok_iff.mp h
    obtain ⟨others, ho, h⟩ := bind_eq_ok_iff.mp h
    obtain rfl := Except.ok.inj h
    rw [List.forall_mem_cons] at ih
    have hfirst := ih.1 first hf
    have hothers := ihs ih.2 ho
    exact ⟨List.forall_mem_append.mpr ⟨hfirst.1, hothers.1⟩, List.forall_mem_append.mpr ⟨hfirst.2, hothers.2⟩⟩

theorem canonical_recordMembers {key value : Schema} {readonly : Bool} (hk : key.Canonical) (hv : value.Canonical)
    {members : List (Property Schema) × List (IndexSignature Schema)}
    (h : recordMembers value readonly key = .ok members) : CanonicalRecord members := by
  induction key using heldInduction generalizing members with
  | step key ih =>
    have index {u : Schema} (hu : u.Canonical) (hm : ([], [⟨u, value, readonly⟩]) = members) :
        CanonicalRecord members := by
      subst hm
      exact ⟨fun _ hp => absurd hp List.not_mem_nil, by simpa using ⟨hu, hv⟩⟩
    cases key with
    | typeAlias a ps t => exact ih t (by simp [Schema.held]) (hk.held (by simp [Schema.held])) h
    | union a ss =>
      refine canonical_recordMembersOfAll (fun s hs members hm => ?_) h
      exact ih s hs (hk.held hs) hm
    | keyword a w =>
      cases w with
      | never =>
        obtain rfl := Except.ok.inj h
        exact ⟨fun _ hp => absurd hp List.not_mem_nil, fun _ hi => absurd hi List.not_mem_nil⟩
      | string | symbol => exact index hk (Except.ok.inj h)
      | _ => cases h
    | template => exact index hk (Except.ok.inj h)
    | refinement => exact index hk (Except.ok.inj h)
    | literal a x =>
      obtain rfl := Except.ok.inj h
      refine ⟨fun p hp => ?_, fun _ hi => absurd hi List.not_mem_nil⟩
      split at hp
      · rwa [List.mem_singleton.mp hp]
      · cases hp
    | uniqueSymbol a k =>
      obtain rfl := Except.ok.inj h
      refine ⟨fun p hp => ?_, fun _ hi => absurd hi List.not_mem_nil⟩
      rwa [List.mem_singleton.mp hp]
    | _ => cases h

theorem canonical_record {key value : Schema} {readonly : Bool} (hk : key.Canonical) (hv : value.Canonical)
    (h : record key value readonly = .ok t) : t.Canonical := by
  obtain ⟨members, hm, h⟩ := bind_eq_ok_iff.mp h
  obtain rfl := Except.ok.inj h
  have hc := canonical_recordMembers hk hv hm
  exact .structOf hc.1 hc.2 _

end Schema

/-! ### Keys -/

namespace Spine
variable {p : Spine}

theorem canonical_keyType {v : Value} {t : Schema} (h : keyType v = .ok t) : t.Canonical := by
  rw [keyType.eq_def] at h
  split at h
  · obtain rfl := Except.ok.inj h
    exact .leaf trivial rfl
  · rw [Schema.literalOf] at h
    split at h
    · obtain rfl := Except.ok.inj h
      exact .leaf trivial rfl
    · cases h

theorem canonical_nodeKeyTypes {s : Schema} (hs : s.Canonical) {ts : List Schema} (h : nodeKeyTypes s = .ok ts) :
    ∀ t ∈ ts, t.Canonical := by
  cases s with
  | struct a ps is =>
    obtain ⟨names, hn, h⟩ := bind_eq_ok_iff.mp h
    obtain rfl := Except.ok.inj h
    refine List.forall_mem_append.mpr ⟨fun t ht => ?_, fun t ht => ?_⟩
    · obtain ⟨p, _, hp⟩ := Lists.exists_of_mem_right (mapM_eq_ok_iff.mp hn) ht
      exact canonical_keyType hp
    · obtain ⟨i, hi, rfl⟩ := List.mem_map.mp ht
      exact (hs.index hi).1
  | keyword a w =>
    have length : (Schema.literal .empty (.text "length")).Canonical := .leaf trivial rfl
    cases w <;> cases h <;> simp [Schema.canonical_word, length]
  | literal | template | tuple => cases h
  | _ =>
    cases h
    simp [Schema.canonical_word]

theorem canonical_keyTypes (hp : ∀ s, p.Leads s → s.Canonical) {ts : List Schema} (h : p.keyTypes = .ok ts) :
    ∀ t ∈ ts, t.Canonical :=
  forall_keyTypes (fun s _ hs => canonical_nodeKeyTypes (hp s hs)) h

theorem canonical_nodeProperties {s : Schema} (hs : s.Canonical) : ∀ q ∈ nodeProperties s, q.type.Canonical := by
  intro q hq
  cases s with
  | struct a ps is => exact hs.property hq
  | tuple a es r readonly =>
    obtain ⟨⟨e, i⟩, he, rfl⟩ := List.mem_map.mp hq
    have hec := hs.element (List.fst_mem_of_mem_zipIdx he)
    exact hec
  | _ => cases hq

theorem canonical_properties (hp : ∀ s, p.Leads s → s.Canonical) {qs : List (Property Schema)}
    (h : p.properties = .ok qs) : ∀ q ∈ qs, q.type.Canonical :=
  forall_properties (fun s hs => canonical_nodeProperties (hp s hs)) (fun _ hts => .oneOf hts _) h

end Spine

end Schemata
