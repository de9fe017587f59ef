import Schemata.Proofs.Decode.Congruence
import Schemata.Proofs.Schema.Members
import Schemata.Proofs.Schema.Unfolding
import Schemata.Stock

/-!
The queries for the keys of structs and unions of structs. Each of them goes along the spine of a schema and intersects
what it finds at the ends: names, declarations, or the nodes of names. Nodes of names are equal exactly if the names
are, so that all three keep the same positions.
-/
namespace Schemata

theorem Value.hashable_of_isName {v : Value} (h : v.isName) : v.hashable := by
  cases v <;> first | rfl | cases h

namespace Spine

/-! ### Nodes of names -/

inductive Names : Value → Schema → Prop
  | text (s : String) : Names (.text s) (.literal .empty (.text s))
  | int (n : Int) : Names (.int n) (.literal .empty (.int n))
  | symbol (key : String) : Names (.symbol key) (.uniqueSymbol .empty key)

namespace Names
variable {v w : Value} {s t : Schema}

theorem isName (h : Names v s) : v.isName := by
  cases h <;> rfl

theorem keyType_eq (h : Names v s) : keyType v = .ok s := by
  cases h <;> rfl

theorem single (h : Names v s) : s.Single := by
  cases h <;> constructor <;> simp [Schema.kind]

theorem weight_eq (h : Names v s) : s.weight = 0 := by
  cases h <;> rfl

/-- Nodes of names are equal exactly if the names are. -/
theorem equals_eq (h : Names v s) (k : Names w t) : s.equals t = v.equals w := by
  cases h <;> cases k <;>
    simp [Schema.equals, Scalar.equals, Scalar.tag, Scalar.value, Value.equals, Value.equalsUpTo, Value.numeral?,
      Annotations.equals, Annotations.empty, Annotations.equalExamples]

end Names

theorem exists_names {v : Value} (h : v.isName) : ∃ s, Names v s := by
  cases v with
  | text s => exact ⟨_, .text s⟩
  | int n => exact ⟨_, .int n⟩
  | symbol key => exact ⟨_, .symbol key⟩
  | _ => cases h

/-- The nodes of different names are settled. -/
theorem settled_of_names {names : List Value} {ts : List Schema} (h : List.Forall₂ Names names ts)
    (hd : names.Pairwise fun v w => v.equals w = false) : Schema.Settled ts where
  distinct := by
    apply Lists.pairwise_of_forall₂ h.flip hd
    intro s v t w hv hw hvw
    rw [hv.equals_eq hw, hvw]
    exact Bool.false_ne_true
  single t ht := by
    obtain ⟨v, _, hv⟩ := Lists.exists_of_mem_right h ht
    exact hv.single
  unabsorbed k hk s _ habs := by
    obtain ⟨v, _, hv⟩ := Lists.exists_of_mem_right h hk
    cases habs <;> cases hv

/-! ### Intersections -/

section
variable {α β : Type} {R : α → β → Prop} {same : α → α → Bool} {same' : β → β → Bool}

/-- Related lists have related intersections if being the same is so related. -/
theorem forall₂_intersect (hsame : ∀ a b c d, R a b → R c d → same c a = same' d b) {ass : List (List α)}
    {bss : List (List β)} (h : List.Forall₂ (List.Forall₂ R) ass bss) :
    List.Forall₂ R (intersect same ass) (intersect same' bss) := by
  cases h with
  | nil => exact .nil
  | @cons first first' others others' hfirst hothers =>
    rw [intersect, intersect]
    induction hothers generalizing first first' with
    | nil => exact hfirst
    | cons hother _ ih =>
      rw [List.foldl_cons, List.foldl_cons]
      apply ih
      apply Lists.forall₂_filter hfirst
      intro a b hab
      exact Lists.any_eq_any_of_forall₂ hother fun c d hcd => hsame a b c d hab hcd

theorem intersect_sublist (first : List α) (others : List (List α)) :
    (intersect same (first :: others)).Sublist first := by
  rw [intersect]
  induction others generalizing first with
  | nil => exact .refl first
  | cons other others ih =>
    rw [List.foldl_cons]
    exact (ih _).trans List.filter_sublist

end

/-- A name is common to lists of names when it is in each of them. -/
theorem occursIn_intersect {nss : List (List Value)} (hne : nss ≠ []) (hh : ∀ ns ∈ nss, ∀ n ∈ ns, n.hashable)
    (name : Value) : name.occursIn (intersect Value.equals nss) ↔ ∀ ns ∈ nss, name.occursIn ns := by
  cases nss with
  | nil => exact absurd rfl hne
  | cons first others =>
    simp only [Value.occursIn_iff, mem_intersect]
    constructor
    · intro h
      obtain ⟨n, ⟨hn, hshared⟩, hname⟩ := h
      refine List.forall_mem_cons.mpr ⟨⟨n, hn, hname⟩, fun other hother => ?_⟩
      obtain ⟨m, hm, hmn⟩ := hshared other hother
      exact ⟨m, hm, Value.equals_trans hmn hname⟩
    · intro h
      obtain ⟨⟨n, hn, hname⟩, hothers⟩ := List.forall_mem_cons.mp h
      refine ⟨n, ⟨hn, fun other hother => ?_⟩, hname⟩
      -- Both equal the name, and so one another.
      obtain ⟨m, hm, hmname⟩ := hothers other hother
      have hsymm := Value.equals_symm (hh first List.mem_cons_self n hn) hname
      exact ⟨m, hm, Value.equals_trans hmname hsymm⟩

/-! ### Spines of structs -/

inductive Structs : Spine → Prop
  | node (a : Annotations) {ps : List (Property Schema)} (hn : ∀ p ∈ ps, p.name.isName)
    (hd : ps.Pairwise fun p q => p.name.equals q.name = false) : Structs (.node (.struct a ps []))
  | fork {ms : List Spine} (hne : ms ≠ []) (h : ∀ m ∈ ms, Structs m) : Structs (.fork ms)

/-- The spine declares names of these nodes, no two of them equal: those that every struct at its ends declares. -/
structure Declares (p : Spine) (names : List Value) (ts : List Schema) : Prop where
  keys : p.keys = .ok names
  keyTypes : p.keyTypes = .ok ts
  nodes : List.Forall₂ Names names ts
  distinct : names.Pairwise fun v w => v.equals w = false
  occursIn_iff : ∀ name : Value, name.occursIn names ↔
    ∀ a ps is, p.Leads (.struct a ps is) → name.occursIn (ps.map fun p => p.name)

variable {p : Spine} {names : List Value} {ts : List Schema}

theorem Declares.hashable (h : p.Declares names ts) : ∀ n ∈ names, n.hashable := by
  intro n hn
  obtain ⟨t, _, hnt⟩ := Lists.exists_of_mem_left h.nodes hn
  exact Value.hashable_of_isName hnt.isName

theorem exists_declares_node (a : Annotations) {ps : List (Property Schema)} (hn : ∀ p ∈ ps, p.name.isName)
    (hd : ps.Pairwise fun p q => p.name.equals q.name = false) :
    ∃ names ts, (node (.struct a ps [])).Declares names ts := by
  obtain ⟨ts, hts⟩ := Lists.exists_forall₂ fun p hp => exists_names (hn p hp)
  refine ⟨ps.map fun p => p.name, ts, rfl, ?_, List.forall₂_map_left_iff.mpr hts, List.pairwise_map.mpr hd, ?_⟩
  · rw [keyTypes_struct (hts.imp fun _ _ h => h.keyType_eq), List.map_nil, List.append_nil]
  · intro name
    constructor
    · intro h b qs is hl
      cases hl
      exact h
    · exact fun h => h a ps [] (.node _)

/-- A union declares what all its members do. -/
theorem declares_fork {ms : List Spine} {bs : List (List Value × List Schema)} (hne : ms ≠ [])
    (h : List.Forall₂ (fun m b => m.Declares b.1 b.2) ms bs) :
    (fork ms).Declares (intersect Value.equals (bs.map Prod.fst)) (intersect Schema.equals (bs.map Prod.snd)) where
  keys := keys_fork_eq_ok_iff.mpr ⟨_, List.forall₂_map_right_iff.mpr (h.imp fun _ _ h => h.keys), rfl⟩
  keyTypes := keyTypes_fork_eq_ok_iff.mpr ⟨_, List.forall₂_map_right_iff.mpr (h.imp fun _ _ h => h.keyTypes), rfl⟩
  nodes := by
    apply forall₂_intersect fun v s w t hv hw => (hw.equals_eq hv).symm
    apply Lists.forall₂_map_same
    intro b hb
    obtain ⟨m, _, hm⟩ := Lists.exists_of_mem_right h hb
    exact hm.nodes
  distinct := by
    cases h with
    | nil => exact .nil
    | cons hm _ => exact hm.distinct.sublist (intersect_sublist _ _)
  occursIn_iff name := by
    have hbs : bs.map Prod.fst ≠ [] := by
      cases h with
      | nil => exact absurd rfl hne
      | cons => exact List.cons_ne_nil _ _
    rw [occursIn_intersect hbs, List.forall_mem_map]
    · constructor
      · intro hname a ps is hl
        cases hl with
        | fork hm hl =>
          obtain ⟨b, hb, hmb⟩ := Lists.exists_of_mem_left h hm
          exact (hmb.occursIn_iff name).mp (hname b hb) a ps is hl
      · intro hname b hb
        obtain ⟨m, hm, hmb⟩ := Lists.exists_of_mem_right h hb
        exact (hmb.occursIn_iff name).mpr fun a ps is hl => hname a ps is (.fork hm hl)
    · rw [List.forall_mem_map]
      intro b hb
      obtain ⟨m, _, hmb⟩ := Lists.exists_of_mem_right h hb
      exact hmb.hashable

theorem Structs.exists_declares (h : p.Structs) : ∃ names ts, p.Declares names ts := by
  induction h with
  | node a hn hd => exact exists_declares_node a hn hd
  | @fork ms hne _ ih =>
    have hpairs : ∀ m ∈ ms, ∃ b : List Value × List Schema, m.Declares b.1 b.2 := by
      intro m hm
      obtain ⟨names, ts, hdeclares⟩ := ih m hm
      exact ⟨(names, ts), hdeclares⟩
    obtain ⟨bs, hbs⟩ := Lists.exists_forall₂ hpairs
    exact ⟨_, _, declares_fork hne hbs⟩

end Spine

namespace Scope
variable {scope : Scope} {s t : Schema}

/-! ### Schemas of structs -/

/-- Structs without index signatures, of different names that are texts, integers or symbols, unions of such schemas,
and wrappers around them. A transform is looked through on the side of its target. -/
inductive Structs (scope : Scope) : Schema → Prop
  | struct (a : Annotations) {ps : List (Property Schema)} (hn : ∀ p ∈ ps, p.name.isName)
    (hd : ps.Pairwise fun p q => p.name.equals q.name = false) : Structs scope (.struct a ps [])
  | union (a : Annotations) {ss : List Schema} (hne : ss ≠ []) (h : ∀ s ∈ ss, Structs scope s) :
      Structs scope (.union a ss)
  | typeAlias (a : Annotations) (parameters : List Schema) {t : Schema} (h : Structs scope t) :
      Structs scope (.typeAlias a parameters t)
  | lazy (a : Annotations) {handle : Handle} {t : Schema} (ht : scope.force handle = .ok t) (h : Structs scope t) :
      Structs scope (.lazy a handle)
  | refinement (a : Annotations) {t : Schema} (p : Predicate) (h : Structs scope t) :
      Structs scope (.refinement a t p)
  | transform (a : Annotations) (source : Schema) {target : Schema} (c : Conversion) (h : Structs scope target) :
      Structs scope (.transform a source target c)

namespace Structs

theorem unfolding (hs : scope.Structs s) (ht : t ∈ scope.unfolding Schema.behind s) : scope.Structs t := by
  cases hs with
  | struct => cases ht
  | union a hne h => exact h t ht
  | lazy a hu h =>
    obtain rfl := Except.ok.inj (hu.symm.trans (mem_unfolding_lazy.mp ht))
    exact h
  | typeAlias _ _ h | refinement _ _ h | transform _ _ _ h =>
    obtain rfl := List.mem_singleton.mp ht
    exact h

theorem behind (hs : scope.Structs s) (ht : scope.Behind s t) : scope.Structs t := by
  induction ht with
  | refl => exact hs
  | tail _ hu ih => exact ih.unfolding hu

/-- Looking through wrappers comes to an end. -/
theorem unfolds (hs : scope.Structs s) : scope.Unfolds s where
  forced a h hb := by
    cases hs.behind hb with
    | lazy _ ht _ => exact ⟨_, ht⟩
  guarded := by
    induction hs with
    | struct => exact .intro _ fun t ht => nomatch ht
    | union a hne h ih => exact .intro _ fun t ht => ih t ht
    | lazy a hu h ih =>
      refine .intro _ fun t ht => ?_
      obtain rfl := Except.ok.inj (hu.symm.trans (mem_unfolding_lazy.mp ht))
      exact ih
    | typeAlias _ _ _ ih | refinement _ _ _ ih | transform _ _ _ _ ih =>
      refine .intro _ fun t ht => ?_
      obtain rfl := List.mem_singleton.mp ht
      exact ih

theorem spine_of_unfold {unfold : Handle → Spine}
    (hu : ∀ a h, scope.Structs (.lazy a h) → (unfold h).Whole → (unfold h).Structs) (hs : scope.Structs s)
    (hw : (s.spine unfold).Whole) : (s.spine unfold).Structs := by
  induction hs with
  | struct a hn hd => exact .node a hn hd
  | @union a ss hne h ih =>
    rw [Schema.spine_union] at hw ⊢
    cases hw with
    | fork hw =>
      refine .fork (by simpa using hne) (List.forall_mem_map.mpr fun t ht => ih t ht ?_)
      exact hw _ (List.mem_map_of_mem ht)
  | lazy a ht h => exact hu a _ (.lazy a ht h) hw
  | typeAlias _ _ _ ih | refinement _ _ _ ih | transform _ _ _ _ ih => exact ih hw

theorem unfoldSpine {n : Nat} {a : Annotations} {h : Handle} (hs : scope.Structs (.lazy a h))
    (hw : (scope.unfoldSpine n h).Whole) : (scope.unfoldSpine n h).Structs := by
  induction n generalizing a h with
  | zero => cases hw
  | succ n ih =>
    cases hs with
    | lazy _ ht h =>
      rw [Scope.unfoldSpine, ht] at hw ⊢
      exact h.spine_of_unfold (fun _ _ => ih) hw

/-- The spine of a schema of structs is a spine of structs. -/
theorem spine (hs : scope.Structs s) : (scope.spine s).Structs :=
  hs.spine_of_unfold (fun _ _ => unfoldSpine) hs.unfolds.whole

end Structs

/-! ### Structs behind a schema -/

section
variable {a : Annotations} {ps : List (Property Schema)} {is : List (IndexSignature Schema)}

theorem leads_of_behind {unfold : Handle → Spine}
    (hu : ∀ b h, (unfold h).Whole → scope.Behind (.lazy b h) (.struct a ps is) → (unfold h).Leads (.struct a ps is))
    (hw : (s.spine unfold).Whole) (hb : scope.Behind s (.struct a ps is)) :
    (s.spine unfold).Leads (.struct a ps is) := by
  induction s using Schema.heldInduction with
  | step s ih =>
    cases Relation.ReflTransGen.cases_head hb with
    | inl heq =>
      subst heq
      exact .node _
    | inr h =>
      obtain ⟨t, ht, htb⟩ := h
      have wrapped (ht : t ∈ s.behind) (hw : (t.spine unfold).Whole) :
          (t.spine unfold).Leads (.struct a ps is) := ih t (Schema.mem_held_of_behind ht) hw htb
      cases s with
      | typeAlias | refinement | transform =>
        obtain rfl := List.mem_singleton.mp ht
        exact wrapped (List.mem_singleton_self t) hw
      | lazy b h => exact hu b h hw hb
      | union b ss =>
        rw [Schema.spine_union] at hw ⊢
        cases hw with
        | fork hw =>
          have hm := List.mem_map_of_mem (f := Schema.spine unfold) ht
          exact .fork hm (wrapped ht (hw _ hm))
      | _ => cases ht

theorem leads_of_behind_unfoldSpine {n : Nat} {b : Annotations} {h : Handle} (hw : (scope.unfoldSpine n h).Whole)
    (hb : scope.Behind (.lazy b h) (.struct a ps is)) : (scope.unfoldSpine n h).Leads (.struct a ps is) := by
  induction n generalizing b h with
  | zero => cases hw
  | succ n ih =>
    cases Relation.ReflTransGen.cases_head hb with
    | inl heq => cases heq
    | inr hb =>
      obtain ⟨t, ht, htb⟩ := hb
      rw [unfoldSpine, mem_unfolding_lazy.mp ht] at hw ⊢
      exact leads_of_behind (fun _ _ => ih) hw htb

/-- The structs at the ends of a spine are those met when wrappers are looked through. -/
theorem leads_spine_iff (hw : (scope.spine s).Whole) :
    (scope.spine s).Leads (.struct a ps is) ↔ scope.Behind s (.struct a ps is) :=
  ⟨behind_of_leads_spine, leads_of_behind (fun _ _ => leads_of_behind_unfoldSpine) hw⟩

end

/-- The queries for keys agree. Declarations and names are the same, one for each key that all structs declare, and the
key types are the nodes of the names. -/
theorem keyQueries_agree (hs : scope.Structs s) :
    ∃ qs ks k, scope.propertySignatures s = .ok qs ∧ scope.propertyKeys s = .ok ks ∧ scope.keyof s = .ok k ∧
      (qs.map fun q => q.name) = ks ∧ ks.Pairwise (fun v w => v.equals w = false) ∧
      (∀ name : Value, name.occursIn ks ↔
        ∀ a ps is, scope.Behind s (.struct a ps is) → name.occursIn (ps.map fun p => p.name)) ∧
      List.Forall₂ Spine.Names ks k.members := by
  have hw := hs.unfolds.whole
  obtain ⟨ks, ts, hdeclares⟩ := hs.spine.exists_declares
  obtain ⟨qs, hqs⟩ := hw.exists_properties
  have hsettled := Spine.settled_of_names hdeclares.nodes hdeclares.distinct
  have hweight : ∀ t ∈ ts, t.weight = 0 := by
    intro t ht
    obtain ⟨v, _, hv⟩ := Lists.exists_of_mem_right hdeclares.nodes ht
    exact hv.weight_eq
  refine ⟨qs, ks, .oneOf ts .empty, hqs, hdeclares.keys, bind_eq_ok_iff.mpr ⟨ts, hdeclares.keyTypes, rfl⟩, ?_,
    hdeclares.distinct, fun name => ?_, ?_⟩
  · exact Except.ok.inj ((Spine.keys_of_properties hqs).symm.trans hdeclares.keys)
  · simp only [hdeclares.occursIn_iff, leads_spine_iff hw]
  · rw [hsettled.members_oneOf hweight]
    exact hdeclares.nodes

def person : Schema := .struct .empty
  [⟨.symbol "tag", .word .unknown, false, false, .empty⟩, ⟨.text "name", .word .string, false, false, .empty⟩,
    ⟨.int 1, .word .number, true, false, .empty⟩] []

def firm : Schema := .transform .empty (.word .string) (.struct .empty
  [⟨.int 1, .word .string, false, true, .empty⟩, ⟨.symbol "tag", .word .unknown, false, false, .empty⟩] [])
  ⟨"parse", 0, "text", "firm"⟩

def party : Schema :=
  .typeAlias .empty [] (.union .empty [.lazy .empty (.root 0), .refinement .empty firm (.named "always")])

/-- A tag and a number are what persons and firms have in common, in the order in which persons declare them. -/
theorem keyQueries_agree_party :
    let scope := Stock.scope [(0, .ok person)]
    scope.Structs party ∧ scope.propertyKeys party = .ok [.symbol "tag", .int 1] ∧
      ∃ qs k, scope.propertySignatures party = .ok qs ∧ (qs.map fun q => q.name) = [.symbol "tag", .int 1] ∧
        scope.keyof party = .ok k ∧ List.Forall₂ Spine.Names [.symbol "tag", .int 1] k.members := by
  intro scope
  have hperson : scope.Structs person := .struct .empty (by decide) (by decide)
  have hfirm : scope.Structs firm := .transform .empty _ _ (.struct .empty (by decide) (by decide))
  have hparty : scope.Structs party := .typeAlias .empty [] <| .union .empty (List.cons_ne_nil _ _) <| by
    rw [List.forall_mem_cons, List.forall_mem_singleton]
    exact ⟨.lazy .empty rfl hperson, .refinement .empty _ hfirm⟩
  have hkeys : scope.propertyKeys party = .ok [.symbol "tag", .int 1] := rfl
  obtain ⟨qs, ks, k, hqs, hks, hk, hnames, _, _, hnodes⟩ := keyQueries_agree hparty
  obtain rfl := Except.ok.inj (hkeys.symm.trans hks)
  exact ⟨hparty, hkeys, qs, k, hqs, hnames, hk, hnodes⟩

end Scope
end Schemata
