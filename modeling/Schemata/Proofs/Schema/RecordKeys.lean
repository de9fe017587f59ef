import Schemata.Proofs.Schema.Canonical
import Schemata.Proofs.Schema.Members
import Schemata.Stock

/-!
The key types of a record. A record takes a key type apart: what names a single key becomes a declared key, and what
describes keys becomes an index signature. The struct gives both back as key types, those that name keys first, and
uniting them again leaves out none.
-/
namespace Schemata

namespace Schema
variable {s t value : Schema} {ss : List Schema} {readonly : Bool}

/-- The key types that a record keeps in full: literals and symbols without annotations, and whatever describes an open
sort of keys. -/
inductive KeyNode : Schema → Prop
  | literal {x : Scalar} (h : x.isText ∨ x.isNumber) : KeyNode (literal .empty x)
  | uniqueSymbol (key : String) : KeyNode (uniqueSymbol .empty key)
  | string (a : Annotations) : KeyNode (keyword a .string)
  | symbol (a : Annotations) : KeyNode (keyword a .symbol)
  | template (a : Annotations) (head : String) (first : Span) (more : List Span) :
      KeyNode (template a head first more)
  | refinement (a : Annotations) (base : Schema) (p : Predicate) : KeyNode (refinement a base p)

inductive RecordKey : Schema → Prop
  | node {s : Schema} (h : s.KeyNode) : RecordKey s
  | oneOf {cs : List Schema} (h : ∀ c ∈ cs, ∀ s ∈ c.alternatives, s.KeyNode) (a : Annotations) : RecordKey (oneOf cs a)

def namesKey : Schema → Bool
  | literal .. => true
  | uniqueSymbol .. => true
  | _ => false

theorem namesKey_eq_of_equals (h : s.equals t) : s.namesKey = t.namesKey := by
  cases alike_of_equals h <;> rfl

namespace KeyNode

theorem single (h : s.KeyNode) : s.Single := by
  cases h <;> constructor <;> simp [kind]

theorem weight_eq (h : s.KeyNode) : s.weight = 0 := by
  cases h <;> rfl

/-- A key type that names a key declares it, and is the type of that key. -/
theorem recordMembers_of_named (h : s.KeyNode) (hn : s.namesKey) (value : Schema) (readonly : Bool) :
    ∃ name, recordMembers value readonly s = .ok ([⟨name, value, false, readonly, .empty⟩], []) ∧
      Spine.keyType name = .ok s := by
  cases h with
  | @literal x h =>
    have hx : x.isText || x.isNumber := by simpa using h
    refine ⟨x.value, by rw [recordMembers, if_pos hx]; rfl, ?_⟩
    cases x <;> rfl
  | uniqueSymbol key => exact ⟨.symbol key, rfl, rfl⟩
  | string | symbol | template | refinement => cases hn

theorem recordMembers_of_open (h : s.KeyNode) (hn : s.namesKey = false) :
    recordMembers value readonly s = .ok ([], [⟨s, value, readonly⟩]) := by
  cases h with
  | literal | uniqueSymbol => cases hn
  | string | symbol | template | refinement => rfl

end KeyNode

theorem recordMembersOfAll_cons {first others : List (Property Schema) × List (IndexSignature Schema)}
    (hs : recordMembers value readonly s = .ok first) (hss : recordMembersOfAll value readonly ss = .ok others) :
    recordMembersOfAll value readonly (s :: ss) = .ok (first.1 ++ others.1, first.2 ++ others.2) := by
  rw [recordMembersOfAll, hs, hss]
  rfl

/-- A record over a key type is put together from its members. -/
theorem recordMembersOfAll_members (s : Schema) :
    recordMembersOfAll value readonly s.members = recordMembers value readonly s := by
  have alone (s : Schema) : recordMembersOfAll value readonly [s] = recordMembers value readonly s := by
    cases h : recordMembers value readonly s with
    | error f =>
      rw [recordMembersOfAll, h]
      rfl
    | ok first =>
      have hnone : recordMembersOfAll value readonly [] = .ok ([], []) := rfl
      rw [recordMembersOfAll_cons h hnone, List.append_nil, List.append_nil]
  cases s with
  | keyword a w =>
    cases w with
    | never => rfl
    | _ => exact alone _
  | union => rfl
  | _ => exact alone _

/-- The declared keys of a record have the key types that name one, and its index signatures have the others. -/
theorem recordMembersOfAll_keyNodes (h : ∀ s ∈ ss, s.KeyNode) (value : Schema) (readonly : Bool) :
    ∃ ps, recordMembersOfAll value readonly ss =
        .ok (ps, (ss.filter fun s => !s.namesKey).map fun k => ⟨k, value, readonly⟩) ∧
      (∀ p ∈ ps, p.type = value) ∧ List.Forall₂ (fun p s => Spine.keyType p.name = .ok s) ps (ss.filter namesKey) := by
  induction ss with
  | nil => exact ⟨[], rfl, by simp, .nil⟩
  | cons s ss ih =>
    rw [List.forall_mem_cons] at h
    obtain ⟨ps, hps, htypes, hkeys⟩ := ih h.2
    cases hn : s.namesKey with
    | true =>
      obtain ⟨name, hs, hname⟩ := h.1.recordMembers_of_named hn value readonly
      refine ⟨⟨name, value, false, readonly, .empty⟩ :: ps, ?_, ?_, ?_⟩
      · rw [recordMembersOfAll_cons hs hps, List.filter_cons_of_neg (by simp [hn])]
        rfl
      · exact List.forall_mem_cons.mpr ⟨rfl, htypes⟩
      · rw [List.filter_cons_of_pos hn]
        exact .cons hname hkeys
    | false =>
      refine ⟨ps, ?_, htypes, ?_⟩
      · rw [recordMembersOfAll_cons (h.1.recordMembers_of_open hn) hps, List.filter_cons_of_pos (by simp [hn])]
        rfl
      · rwa [List.filter_cons_of_neg (by simp [hn])]

theorem settled_singleton (h : s.Single) : Settled [s] where
  distinct := List.pairwise_singleton _ s
  single := List.forall_mem_singleton.mpr h
  unabsorbed k hk t ht habs := by
    obtain rfl := List.mem_singleton.mp hk
    obtain rfl := List.mem_singleton.mp ht
    cases habs

/-- A settled list stays settled when the schemas that name keys are put in front. -/
theorem Settled.partition (h : Settled ss) :
    Settled (ss.filter namesKey ++ ss.filter fun s => !s.namesKey) := by
  have hmem {s : Schema} (hs : s ∈ ss.filter namesKey ++ ss.filter fun s => !s.namesKey) : s ∈ ss :=
    (List.filter_append_perm namesKey ss).mem_iff.mp hs
  refine ⟨List.pairwise_append.mpr ⟨h.distinct.filter _, h.distinct.filter _, fun s hs t ht heq => ?_⟩,
    fun s hs => h.single s (hmem hs), fun k hk s hs => h.unabsorbed k (hmem hk) s (hmem hs)⟩
  -- Only here the order is new, and what names a key never equals what does not.
  have hsn := (List.mem_filter.mp hs).2
  have htn := (List.mem_filter.mp ht).2
  rw [namesKey_eq_of_equals heq] at hsn
  simp [hsn] at htn

/-- Uniting leaves out none of the members of a canonical union of key types. -/
theorem RecordKey.settled_members (h : s.RecordKey) : Settled s.members ∧ ∀ t ∈ s.members, t.KeyNode := by
  cases h with
  | node h =>
    rw [h.single.members_eq]
    exact ⟨settled_singleton h.single, List.forall_mem_singleton.mpr h⟩
  | @oneOf cs h a =>
    have hsingle : ∀ c ∈ cs, ∀ t ∈ c.alternatives, t.Single := fun c hc t ht => (h c hc t ht).single
    rw [members_oneOf hsingle]
    exact ⟨(settled_unify hsingle).ranked, fun t ht => forall_unify h t (mem_ranked.mp ht)⟩

end Schema

namespace Scope
variable {key : Schema}

/-- The key types of a record are the key types that it was made of. -/
theorem keyof_record (scope : Scope) (hk : key.RecordKey) (value : Schema) (readonly : Bool) :
    ∃ t k, Schema.record key value readonly = .ok t ∧ scope.keyof t = .ok k ∧ k.members.Perm key.members := by
  obtain ⟨hsettled, hnodes⟩ := hk.settled_members
  obtain ⟨ps, hmembers, htypes, hnames⟩ := Schema.recordMembersOfAll_keyNodes hnodes value readonly
  rw [Schema.recordMembersOfAll_members] at hmembers
  let is : List (IndexSignature Schema) := (key.members.filter fun s => !s.namesKey).map fun k => ⟨k, value, readonly⟩
  have hrecord : Schema.record key value readonly = .ok (.struct .empty ps is) := by
    rw [← Schema.structOf_of_type htypes (List.forall_mem_map.mpr fun _ _ => rfl)]
    exact bind_eq_ok_iff.mpr ⟨_, hmembers, rfl⟩
  have hopen : is.map (fun i => i.parameter) = key.members.filter fun s => !s.namesKey := by
    simp [is, Function.comp_def]
  refine ⟨_, _, hrecord, bind_eq_ok_iff.mpr ⟨_, Spine.keyTypes_struct hnames, rfl⟩, ?_⟩
  have hperm := List.filter_append_perm Schema.namesKey key.members
  rw [hopen, hsettled.partition.members_oneOf fun s hs => (hnodes s (hperm.mem_iff.mp hs)).weight_eq]
  exact hperm

/-- A record over a symbol, texts that begin with an "a", a number, a text, and every symbol, which absorbs the one. -/
theorem keyof_record_labels :
    let prefixed := Schema.template .empty "a" ⟨.string, .empty, ""⟩ []
    let labels := Schema.oneOf [.uniqueSymbol .empty "s", prefixed, .literal .empty (.int 1),
      .union .empty [.literal .empty (.text "b"), .word .symbol]] .empty
    labels.members = [prefixed, .literal .empty (.int 1), .literal .empty (.text "b"), .word .symbol] ∧
      ∃ t k, Schema.record labels (.word .unknown) true = .ok t ∧ (Stock.scope []).keyof t = .ok k ∧
        k.members.Perm labels.members := by
  intro prefixed labels
  have hnodes : ∀ c ∈ [Schema.uniqueSymbol .empty "s", prefixed, .literal .empty (.int 1),
      .union .empty [.literal .empty (.text "b"), .word .symbol]], ∀ s ∈ c.alternatives, s.KeyNode := by
    simp only [List.forall_mem_cons, Schema.alternatives, prefixed]
    exact ⟨⟨.uniqueSymbol _, by simp⟩, ⟨.template .., by simp⟩, ⟨.literal (.inr rfl), by simp⟩,
      ⟨.literal (.inl rfl), .symbol _, by simp⟩, by simp⟩
  refine ⟨?_, keyof_record (Stock.scope []) (.oneOf hnodes .empty) (.word .unknown) true⟩
  have hsingle := fun c hc s hs => (hnodes c hc s hs).single
  rw [Schema.members_oneOf hsingle]
  exact Schema.ranked_of_weightless fun s hs => (Schema.forall_unify hnodes s hs).weight_eq

end Scope
end Schemata
