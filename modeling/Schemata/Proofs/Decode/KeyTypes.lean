import Schemata.Proofs.Decode.Signatures
import Schemata.Proofs.Schema.Equivalence

/-!
The key types of a union. A union offers a key type when each of its members offers an equal one, and what a canonical
union leaves out offers what is kept; so the union of two schemas has the key types that both have. A key is not
offered by both for being accepted by both: a text that one declares and the other covers by an index signature has no
key type in common.
-/
namespace Schemata

namespace Spine

def Offers (p : Spine) (k : Schema) : Prop :=
  ∃ ks, p.keyTypes = .ok ks ∧ ∃ l ∈ ks, l.equals k

variable {p : Spine} {k : Schema}

theorem offers_iff {ks : List Schema} (h : p.keyTypes = .ok ks) : p.Offers k ↔ ∃ l ∈ ks, l.equals k := by
  constructor
  · rintro ⟨ls, hls, hl⟩
    obtain rfl := Except.ok.inj (hls.symm.trans h)
    exact hl
  · exact fun hl => ⟨ks, h, hl⟩

/-- A union offers what all its members offer. -/
theorem offers_fork_iff {ms : List Spine} (hne : ms ≠ []) (h : ∃ ks, (fork ms).keyTypes = .ok ks)
    (ho : ∀ m ∈ ms, ∀ ks, m.keyTypes = .ok ks → ∀ l ∈ ks, l.Orderly) :
    (fork ms).Offers k ↔ ∀ m ∈ ms, m.Offers k := by
  obtain ⟨_, h⟩ := h
  obtain ⟨kss, hall, rfl⟩ := keyTypes_fork_eq_ok_iff.mp h
  rw [offers_iff h]
  cases hall with
  | nil => exact absurd rfl hne
  | @cons m first ms others hfirst hothers =>
    constructor
    · rintro ⟨l, hl, hlk⟩
      obtain ⟨hl, hshared⟩ := mem_intersect.mp hl
      refine List.forall_mem_cons.mpr ⟨⟨first, hfirst, l, hl, hlk⟩, fun m' hm' => ?_⟩
      obtain ⟨other, hother, hkeys⟩ := Lists.exists_of_mem_left hothers hm'
      obtain ⟨y, hy, hyl⟩ := hshared other hother
      exact ⟨other, hkeys, y, hy, Schema.equals_trans hyl hlk⟩
    · intro hoffers
      obtain ⟨l, hl, hlk⟩ := (offers_iff hfirst).mp (hoffers m List.mem_cons_self)
      refine ⟨l, mem_intersect.mpr ⟨hl, fun other hother => ?_⟩, hlk⟩
      obtain ⟨m', hm', hkeys⟩ := Lists.exists_of_mem_right hothers hother
      obtain ⟨y, hy, hyk⟩ := (offers_iff hkeys).mp (hoffers m' (List.mem_cons_of_mem m hm'))
      have hkl := Schema.equals_symm (ho m List.mem_cons_self first hfirst l hl) hlk
      exact ⟨y, hy, Schema.equals_trans hyk hkl⟩

end Spine

namespace Scope
variable {scope : Scope} {s t k : Schema} {x : Value}

/-- A key type that can be compared either way, equals itself and accepts what its equals accept, and whose alternatives
come to an outcome on every text, integer and symbol. -/
structure ReliableKey (scope : Scope) (k : Schema) : Prop where
  orderly : k.Orderly
  self : k.equals k
  conventional : scope.Conventional k
  answers : ∀ x : Value, x.isName → ∀ s ∈ k.alternatives, ∃ o, scope.Yields .decode s x o

/-- A schema whose key types can be relied on: no union is empty, declared keys are texts, integers and symbols, and the
parameters of index signatures are key types of this sort. -/
structure Keyable (scope : Scope) (s : Schema) : Prop where
  members (a : Annotations) : ¬scope.Behind s (.union a [])
  names (a : Annotations) (ps : List (Property Schema)) (is : List (IndexSignature Schema))
    (h : scope.Behind s (.struct a ps is)) : ∀ p ∈ ps, p.name.isName
  parameters (a : Annotations) (ps : List (Property Schema)) (is : List (IndexSignature Schema))
    (h : scope.Behind s (.struct a ps is)) : ∀ i ∈ is, scope.ReliableKey i.parameter

theorem Keyable.behind (hs : scope.Keyable s) (h : scope.Behind s t) : scope.Keyable t where
  members a hb := hs.members a (h.trans hb)
  names a ps is hb := hs.names a ps is (h.trans hb)
  parameters a ps is hb := hs.parameters a ps is (h.trans hb)

theorem Keyable.of_unfolding (hn : ∀ a, s ≠ .union a []) (hs : ∀ a ps is, s ≠ .struct a ps is)
    (h : ∀ t ∈ scope.unfolding Schema.behind s, scope.Keyable t) : scope.Keyable s := by
  have cases {u : Schema} (hu : scope.Behind s u) : s = u ∨ ∃ t, scope.Keyable t ∧ scope.Behind t u := by
    rcases Relation.ReflTransGen.cases_head hu with rfl | ⟨t, ht, htu⟩
    · exact .inl rfl
    · exact .inr ⟨t, h t ht, htu⟩
  refine ⟨fun a hb => ?_, fun a ps is hb => ?_, fun a ps is hb => ?_⟩
  · obtain heq | ⟨t, ht, htu⟩ := cases hb
    · exact hn a heq
    · exact ht.members a htu
  · obtain heq | ⟨t, ht, htu⟩ := cases hb
    · exact absurd heq (hs a ps is)
    · exact ht.names a ps is htu
  · obtain heq | ⟨t, ht, htu⟩ := cases hb
    · exact absurd heq (hs a ps is)
    · exact ht.parameters a ps is htu

/-! ### The key types of a node -/

theorem reliableKey_of_leaf (ho : k.values = []) (hh : k.held = []) (he : k.equals k)
    (hb : scope.WellBehaved .decode k) : scope.ReliableKey k where
  orderly := .intro (by simp [ho]) (by simp [hh])
  self := he
  conventional := hb.conventional
  answers x _ _ ht := (hb.alternative ht).yields x

theorem reliableKey_word (w : Keyword) : scope.ReliableKey (.word w) := by
  refine reliableKey_of_leaf rfl rfl ?_ (.of_next trivial trivial fun _ ht => absurd ht List.not_mem_nil)
  simp [Schema.word, Schema.equals, Annotations.equals, Annotations.titled, Annotations.equalExamples]

theorem reliableKey_literal {y : Scalar} (hy : y.equals y) : scope.ReliableKey (.literal .empty y) := by
  refine reliableKey_of_leaf rfl rfl ?_ (.of_next trivial trivial fun _ ht => absurd ht List.not_mem_nil)
  simp [Schema.equals, hy, Annotations.equals, Annotations.empty, Annotations.equalExamples]

theorem reliableKey_uniqueSymbol (key : String) : scope.ReliableKey (.uniqueSymbol .empty key) := by
  refine reliableKey_of_leaf rfl rfl ?_ (.of_next trivial trivial fun _ ht => absurd ht List.not_mem_nil)
  simp [Schema.equals, Annotations.equals, Annotations.empty, Annotations.equalExamples]

theorem reliableKey_name {name : Value} (hn : name.isName) (h : Spine.keyType name = .ok k) : scope.ReliableKey k := by
  have self {y : Scalar} (hy : y.value = name) : y.equals y := by
    simpa [Scalar.equals, hy] using Value.equals_self_of_isName hn
  cases name with
  | text s | int n =>
    obtain rfl := Except.ok.inj h
    exact reliableKey_literal (self rfl)
  | symbol key =>
    obtain rfl := Except.ok.inj h
    exact reliableKey_uniqueSymbol key
  | _ => cases hn

theorem Keyable.nodeKeyTypes (hs : scope.Keyable s) {ks : List Schema} (h : Spine.nodeKeyTypes s = .ok ks) :
    ∀ k ∈ ks, scope.ReliableKey k := by
  cases s with
  | struct a ps is =>
    obtain ⟨names, hn, h⟩ := bind_eq_ok_iff.mp h
    obtain rfl := Except.ok.inj h
    refine List.forall_mem_append.mpr ⟨fun k hk => ?_, fun k hk => ?_⟩
    · obtain ⟨p, hp, hpk⟩ := (mem_iff_of_mapM hn).mp hk
      exact reliableKey_name (hs.names a ps is .refl p hp) hpk
    · obtain ⟨i, hi, rfl⟩ := List.mem_map.mp hk
      exact hs.parameters a ps is .refl i hi
  | keyword a w =>
    have length : scope.ReliableKey (.literal .empty (.text "length")) := reliableKey_literal (by decide)
    cases w <;> cases h <;> simp [reliableKey_word, length]
  | literal | template | tuple => cases h
  | _ =>
    cases h
    simp [reliableKey_word]

theorem Keyable.keyTypes (hs : scope.Keyable s) {ks : List Schema} (h : (scope.spine s).keyTypes = .ok ks) :
    ∀ k ∈ ks, scope.ReliableKey k :=
  Spine.forall_keyTypes (fun _ _ ht => (hs.behind (behind_of_leads_spine ht)).nodeKeyTypes) h

/-- Equal nodes have equal key types. -/
theorem nodeKeyTypes_agree (hs : scope.Keyable s) (ht : scope.Keyable t) (h : s.equals t) {ks ls : List Schema}
    (hks : Spine.nodeKeyTypes s = .ok ks) (hls : Spine.nodeKeyTypes t = .ok ls) :
    List.Forall₂ (fun k l => k.equals l) ks ls := by
  have same (heq : Spine.nodeKeyTypes s = Spine.nodeKeyTypes t) :
      List.Forall₂ (fun k l => k.equals l) ks ls := by
    obtain rfl := Except.ok.inj (hks.symm.trans (heq.trans hls))
    exact List.forall₂_same.mpr fun k hk => (hs.nodeKeyTypes hks k hk).self
  cases Schema.alike_of_equals h with
  | @struct a b ps qs is js hp hi =>
    obtain ⟨names, hn, hks⟩ := bind_eq_ok_iff.mp hks
    obtain ⟨names', hn', hls⟩ := bind_eq_ok_iff.mp hls
    obtain rfl := Except.ok.inj hks
    obtain rfl := Except.ok.inj hls
    refine List.rel_append ?_ (Lists.forall₂_map hi fun _ _ _ _ hij => hij.1)
    -- Equal names are the same, and so are their key types.
    have hnames : names = names' := by
      have hsame : List.Forall₂ (fun p q => Spine.keyType p.name = Spine.keyType q.name) ps qs := by
        refine (Lists.forall₂_zip hp).imp fun p q ⟨hpq, hname, _⟩ => congrArg Spine.keyType ?_
        have hmem := List.of_mem_zip hpq
        exact Value.eq_of_isName (hs.names a ps is .refl p hmem.1) (ht.names b qs js .refl q hmem.2) hname
      have hall := Lists.forall₂_trans (mapM_eq_ok_iff.mp hn).flip
        (Lists.forall₂_trans hsame (mapM_eq_ok_iff.mp hn') fun _ _ _ _ heq hq => heq.trans hq)
        (T := fun k l => k = l) fun _ _ _ _ hk hl => Except.ok.inj (hk.symm.trans hl)
      rwa [List.forall₂_eq_eq_eq] at hall
    subst hnames
    exact List.forall₂_same.mpr fun k hk => by
      obtain ⟨p, hp, hpk⟩ := (mem_iff_of_mapM hn).mp hk
      have hkey : scope.ReliableKey k := reliableKey_name (hs.names a ps is .refl p hp) hpk
      exact hkey.self
  | literal | template | tuple => cases hks
  | keyword word => exact same (by cases word <;> rfl)
  | _ => exact same rfl

/-! ### What unions offer -/

theorem spine_union (scope : Scope) (a : Annotations) (ss : List Schema) :
    scope.spine (.union a ss) = .fork (ss.map scope.spine) :=
  Schema.spine_union ..

theorem exists_keyTypes_union {ss : List Schema} (h : ∀ s ∈ ss, ∃ ks, (scope.spine s).keyTypes = .ok ks)
    (a : Annotations) : ∃ ks, (scope.spine (.union a ss)).keyTypes = .ok ks := by
  obtain ⟨kss, hall⟩ := Lists.exists_forall₂ h
  rw [spine_union]
  exact ⟨_, Spine.keyTypes_fork_eq_ok_iff.mpr ⟨kss, List.forall₂_map_left_iff.mpr hall, rfl⟩⟩

theorem exists_keyTypes_alternative (h : ∃ ks, (scope.spine s).keyTypes = .ok ks) (ht : t ∈ s.alternatives) :
    ∃ ks, (scope.spine t).keyTypes = .ok ks := by
  cases s with
  | union a ss =>
    obtain ⟨_, h⟩ := h
    rw [spine_union] at h
    obtain ⟨kss, hall, _⟩ := Spine.keyTypes_fork_eq_ok_iff.mp h
    obtain ⟨ks, _, hks⟩ := Lists.exists_of_mem_left hall (List.mem_map_of_mem ht)
    exact ⟨ks, hks⟩
  | _ =>
    obtain rfl := List.mem_singleton.mp ht
    exact h

theorem Keyable.alternative (hs : scope.Keyable s) (ht : t ∈ s.alternatives) : scope.Keyable t := by
  cases s with
  | union a ss => exact hs.behind (.single (mem_unfolding_behind ht))
  | _ =>
    obtain rfl := List.mem_singleton.mp ht
    exact hs

theorem Keyable.exists_alternative (hs : scope.Keyable s) : ∃ t, t ∈ s.alternatives := by
  cases s with
  | union a ss =>
    refine List.exists_mem_of_ne_nil _ ?_
    rintro rfl
    exact hs.members a .refl
  | _ => exact ⟨_, List.mem_singleton_self _⟩

/-- A schema offers what all its alternatives offer. -/
theorem offers_alternatives_iff (hs : scope.Keyable s) (h : ∃ ks, (scope.spine s).keyTypes = .ok ks) :
    (scope.spine s).Offers k ↔ ∀ t ∈ s.alternatives, (scope.spine t).Offers k := by
  cases s with
  | union a ss =>
    rw [spine_union] at h ⊢
    have hne : ss.map scope.spine ≠ [] := by
      obtain ⟨t, ht⟩ := hs.exists_alternative
      exact List.ne_nil_of_mem (List.mem_map_of_mem ht)
    rw [Spine.offers_fork_iff hne h, List.forall_mem_map]
    · rfl
    · rw [List.forall_mem_map]
      exact fun t ht ks hks l hl => ((hs.alternative ht).keyTypes hks l hl).orderly
  | _ => simp [Schema.alternatives]

/-- Equal schemas offer the same. -/
theorem offers_congr (hs : scope.Keyable s) (ht : scope.Keyable t) (h : s.equals t)
    (hks : ∃ ks, (scope.spine s).keyTypes = .ok ks) (hls : ∃ ls, (scope.spine t).keyTypes = .ok ls) :
    (scope.spine s).Offers k ↔ (scope.spine t).Offers k := by
  induction s using Schema.heldInduction generalizing t with
  | step s ih =>
    have wrapped {u v : Schema} (hu : u ∈ s.behind) (hv : v ∈ t.behind) (huv : u.equals v)
        (hsu : scope.spine s = scope.spine u) (htv : scope.spine t = scope.spine v) :
        (scope.spine s).Offers k ↔ (scope.spine t).Offers k := by
      rw [hsu] at hks ⊢
      rw [htv] at hls ⊢
      exact ih u (Schema.mem_held_of_behind hu) (hs.behind (.single (mem_unfolding_behind hu)))
        (ht.behind (.single (mem_unfolding_behind hv))) huv hks hls
    have node (hns : scope.spine s = .node s) (hnt : scope.spine t = .node t) :
        (scope.spine s).Offers k ↔ (scope.spine t).Offers k := by
      obtain ⟨ks, hks⟩ := hks
      obtain ⟨ls, hls⟩ := hls
      rw [Spine.offers_iff hks, Spine.offers_iff hls]
      have hkeys := hs.keyTypes hks
      rw [hns] at hks
      rw [hnt] at hls
      have hagree := nodeKeyTypes_agree hs ht h hks hls
      constructor
      · rintro ⟨l, hl, hlk⟩
        obtain ⟨l', hl', hll'⟩ := Lists.exists_of_mem_left hagree hl
        exact ⟨l', hl', Schema.equals_trans (Schema.equals_symm (hkeys l hl).orderly hll') hlk⟩
      · rintro ⟨l', hl', hlk⟩
        obtain ⟨l, hl, hll'⟩ := Lists.exists_of_mem_right hagree hl'
        exact ⟨l, hl, Schema.equals_trans hll' hlk⟩
    cases Schema.alike_of_equals h with
    | typeAlias hu => exact wrapped List.mem_cons_self List.mem_cons_self hu rfl rfl
    | refinement p hu => exact wrapped List.mem_cons_self List.mem_cons_self hu rfl rfl
    | transform c _ =>
      exact wrapped List.mem_cons_self List.mem_cons_self (Schema.target_equals_of_equals h) rfl rfl
    | lazy handle => exact Iff.rfl
    | @union a b ss ts hall =>
      rw [offers_alternatives_iff hs hks, offers_alternatives_iff ht hls]
      have member {u v : Schema} (hu : u ∈ ss) (hv : v ∈ ts) (huv : u.equals v) :
          (scope.spine u).Offers k ↔ (scope.spine v).Offers k :=
        ih u hu (hs.alternative hu) (ht.alternative hv) huv (exists_keyTypes_alternative hks hu)
          (exists_keyTypes_alternative hls hv)
      constructor
      · intro hoffers v hv
        obtain ⟨u, hu, huv⟩ := Lists.exists_of_mem_right hall hv
        exact (member hu hv huv).mp (hoffers u hu)
      · intro hoffers u hu
        obtain ⟨v, hv, huv⟩ := Lists.exists_of_mem_left hall hu
        exact (member hu hv huv).mpr (hoffers v hv)
    | _ => exact node rfl rfl

/-- Where a schema that makes another superfluous has key types, the other has the same, if any. -/
theorem offers_of_absorbs (h : Schema.Absorbs s t) (hls : ∃ ls, (scope.spine t).keyTypes = .ok ls)
    (hs : (scope.spine s).Offers k) : (scope.spine t).Offers k := by
  obtain ⟨ls, hls⟩ := hls
  cases h with
  | text | number => cases hls
  | symbol => exact hs

section
variable {cs : List Schema}

theorem Keyable.oneOf (h : ∀ c ∈ cs, scope.Keyable c) (a : Annotations) : scope.Keyable (.oneOf cs a) := by
  have hu : ∀ s ∈ Schema.unify cs, scope.Keyable s := Schema.forall_unify fun c hc _ hs => (h c hc).alternative hs
  rcases Schema.oneOf_eq cs a with ⟨_, hc⟩ | ⟨s, hs, hc⟩ | ⟨hne, hc⟩
  · rw [hc]
    exact .of_unfolding (by simp [Schema.word]) (by simp [Schema.word]) fun _ ht => absurd ht List.not_mem_nil
  · rw [hc]
    exact hu s (by simp [hs])
  · rw [hc]
    refine .of_unfolding (fun b heq => ?_) (by simp) fun s hs => hu s (Schema.mem_ranked.mp hs)
    obtain ⟨s, hs⟩ := List.exists_mem_of_ne_nil _ hne
    have hmem := Schema.mem_ranked.mpr hs
    rw [(Schema.union.inj heq).2] at hmem
    cases hmem

/-- The canonical union of schemas with key types has key types, and offers what they all offer. -/
theorem offers_oneOf_iff (hne : cs ≠ []) (h : ∀ c ∈ cs, scope.Keyable c ∧ ∃ ks, (scope.spine c).keyTypes = .ok ks)
    (a : Annotations) : (∃ ks, (scope.spine (.oneOf cs a)).keyTypes = .ok ks) ∧
      ((scope.spine (.oneOf cs a)).Offers k ↔ ∀ c ∈ cs, (scope.spine c).Offers k) := by
  have hkeyed : ∀ s ∈ Schema.unify cs, scope.Keyable s :=
    Schema.forall_unify fun c hc _ hs => (h c hc).1.alternative hs
  have hkeys : ∀ s ∈ Schema.unify cs, ∃ ks, (scope.spine s).keyTypes = .ok ks :=
    Schema.forall_unify fun c hc _ hs => exists_keyTypes_alternative (h c hc).2 hs
  have hunify : (∀ s ∈ Schema.unify cs, (scope.spine s).Offers k) ↔ ∀ c ∈ cs, (scope.spine c).Offers k := by
    constructor
    · intro hoffers c hc
      obtain ⟨hcs, hck⟩ := h c hc
      refine (offers_alternatives_iff hcs hck).mpr fun s hs => ?_
      obtain ⟨t, ⟨d, hd, htd⟩, hts, hleft⟩ := Schema.unify_covers hc hs
      have htk := exists_keyTypes_alternative (h d hd).2 htd
      have ht : (scope.spine t).Offers k := by
        rcases hleft with hu | ⟨l, hl, habs⟩
        · exact hoffers t hu
        · exact offers_of_absorbs habs htk (hoffers l hl)
      rcases hts with rfl | heq
      · exact ht
      · exact (offers_congr ((h d hd).1.alternative htd) (hcs.alternative hs) heq htk
          (exists_keyTypes_alternative hck hs)).mp ht
    · intro hoffers
      refine Schema.forall_unify fun c hc s hs => ?_
      exact (offers_alternatives_iff (h c hc).1 (h c hc).2).mp (hoffers c hc) s hs
  rw [← hunify]
  have hkeyedUnion := Keyable.oneOf (fun c hc => (h c hc).1) a
  rcases Schema.oneOf_eq cs a with ⟨hu, _⟩ | ⟨s, hu, hc⟩ | ⟨_, hc⟩
  · obtain ⟨c, hc⟩ := List.exists_mem_of_ne_nil cs hne
    obtain ⟨s, hs⟩ := (h c hc).1.exists_alternative
    obtain ⟨t, _, _, ht | ⟨l, hl, _⟩⟩ := Schema.unify_covers hc hs
    · simp [hu] at ht
    · simp [hu] at hl
  · rw [hc, hu]
    exact ⟨hkeys s (by simp [hu]), by simp⟩
  · rw [hc] at hkeyedUnion ⊢
    have hok := exists_keyTypes_union (fun s hs => hkeys s (Schema.mem_ranked.mp hs)) a
    refine ⟨hok, (offers_alternatives_iff hkeyedUnion hok).trans ?_⟩
    simp only [Schema.alternatives, Schema.mem_ranked]

end

/-- The key type of a schema comes to an outcome on every key, and accepts what some key type accepts. -/
theorem Keyable.keyof (hs : scope.Keyable s) (h : scope.keyof s = .ok t) : ∃ ks, (scope.spine s).keyTypes = .ok ks ∧
    ∀ x : Value, x.isName → ∃ o, scope.Yields .decode t x o ∧
      (o.isFailure = false ↔ ∃ k ∈ ks, scope.Passes .decode true k x) := by
  obtain ⟨ks, hks, ht⟩ := bind_eq_ok_iff.mp h
  obtain rfl := Except.ok.inj ht
  refine ⟨ks, hks, fun x hx => ?_⟩
  have hkeys := hs.keyTypes hks
  obtain ⟨o, ho, hpass⟩ := exists_yields_oneOf (fun k hk => (hkeys k hk).conventional)
    (fun k hk => (hkeys k hk).answers x hx) .empty
  exact ⟨o, ho, (Outcome.passes_true o).symm.trans hpass⟩

theorem ReliableKey.passes_iff {i j : Schema} (hi : scope.ReliableKey i) (hj : scope.ReliableKey j) (h : i.equals j) :
    scope.Passes .decode true i x ↔ scope.Passes .decode true j x :=
  passes_iff_of_equals h hi.conventional hj.conventional

/-- Key types that offer what two lists of key types both offer accept what some type of both lists accepts. -/
theorem passes_shared_iff {ks ls ms : List Schema} (hks : ∀ k ∈ ks, scope.ReliableKey k)
    (hls : ∀ l ∈ ls, scope.ReliableKey l) (hms : ∀ m ∈ ms, scope.ReliableKey m)
    (h : ∀ k, (∃ m ∈ ms, m.equals k) ↔ (∃ i ∈ ks, i.equals k) ∧ ∃ j ∈ ls, j.equals k) :
    (∃ m ∈ ms, scope.Passes .decode true m x) ↔
      ∃ i ∈ ks, ∃ j ∈ ls, i.equals j ∧ scope.Passes .decode true i x := by
  constructor
  · rintro ⟨m, hm, hpass⟩
    obtain ⟨⟨i, hi, him⟩, j, hj, hjm⟩ := (h m).mp ⟨m, hm, (hms m hm).self⟩
    have hij := Schema.equals_trans him (Schema.equals_symm (hls j hj).orderly hjm)
    exact ⟨i, hi, j, hj, hij, ((hks i hi).passes_iff (hms m hm) him).mpr hpass⟩
  · rintro ⟨i, hi, j, hj, hij, hpass⟩
    have hji := Schema.equals_symm (hks i hi).orderly hij
    obtain ⟨m, hm, hmi⟩ := (h i).mpr ⟨⟨i, hi, (hks i hi).self⟩, j, hj, hji⟩
    exact ⟨m, hm, ((hms m hm).passes_iff (hks i hi) hmi).mpr hpass⟩

/-- The key type of a union of two schemas. It exists when both schemas have key types, and accepts a key exactly when
the two offer equal key types that accept it. So both schemas take whatever key the union takes; and the union takes
what both take, where they never take a key through different key types. -/
theorem keyof_union {s t k l : Schema} (hs : scope.Keyable s) (ht : scope.Keyable t) (hk : scope.keyof s = .ok k)
    (hl : scope.keyof t = .ok l) (a : Annotations) :
    ∃ m ks ls, scope.keyof (.oneOf [s, t] a) = .ok m ∧ (scope.spine s).keyTypes = .ok ks ∧
      (scope.spine t).keyTypes = .ok ls ∧ ∀ x : Value, x.isName → ∃ o p q,
        scope.Yields .decode m x o ∧ scope.Yields .decode k x p ∧ scope.Yields .decode l x q ∧
        (o.isFailure = false ↔ ∃ i ∈ ks, ∃ j ∈ ls, i.equals j ∧ scope.Passes .decode true i x) ∧
        (o.isFailure = false → p.isFailure = false ∧ q.isFailure = false) ∧
        ((∀ i ∈ ks, ∀ j ∈ ls, scope.Passes .decode true i x → scope.Passes .decode true j x → i.equals j) →
          p.isFailure = false → q.isFailure = false → o.isFailure = false) := by
  obtain ⟨ks, hks, hks'⟩ := hs.keyof hk
  obtain ⟨ls, hls, hls'⟩ := ht.keyof hl
  have hcs : ∀ c ∈ [s, t], scope.Keyable c ∧ ∃ ks, (scope.spine c).keyTypes = .ok ks := by
    simp only [List.forall_mem_cons]
    exact ⟨⟨hs, ks, hks⟩, ⟨ht, ls, hls⟩, by simp⟩
  have hu : scope.Keyable (.oneOf [s, t] a) := .oneOf (fun c hc => (hcs c hc).1) a
  have hoffers (k : Schema) := offers_oneOf_iff (k := k) (List.cons_ne_nil _ _) hcs a
  obtain ⟨ms, hms⟩ := (hoffers s).1
  have hm : scope.keyof (.oneOf [s, t] a) = .ok (.oneOf ms .empty) := bind_eq_ok_iff.mpr ⟨ms, hms, rfl⟩
  obtain ⟨_, hms', hunion⟩ := hu.keyof hm
  obtain rfl := Except.ok.inj (hms'.symm.trans hms)
  refine ⟨_, ks, ls, hm, hks, hls, fun x hx => ?_⟩
  obtain ⟨o, ho, hpassU⟩ := hunion x hx
  obtain ⟨p, hp, hpassS⟩ := hks' x hx
  obtain ⟨q, hq, hpassT⟩ := hls' x hx
  have hshared : o.isFailure = false ↔ ∃ i ∈ ks, ∃ j ∈ ls, i.equals j ∧ scope.Passes .decode true i x := by
    rw [hpassU, passes_shared_iff (hs.keyTypes hks) (ht.keyTypes hls) (hu.keyTypes hms) fun k => ?_]
    rw [← Spine.offers_iff hms, ← Spine.offers_iff hks, ← Spine.offers_iff hls, (hoffers k).2]
    simp
  refine ⟨o, p, q, ho, hp, hq, hshared, fun hpass => ?_, fun hdiscrete hs' ht' => ?_⟩
  · obtain ⟨i, hi, j, hj, hij, hix⟩ := hshared.mp hpass
    have hjx := ((hs.keyTypes hks i hi).passes_iff (ht.keyTypes hls j hj) hij).mp hix
    exact ⟨hpassS.mpr ⟨i, hi, hix⟩, hpassT.mpr ⟨j, hj, hjx⟩⟩
  · obtain ⟨i, hi, hix⟩ := hpassS.mp hs'
    obtain ⟨j, hj, hjx⟩ := hpassT.mp ht'
    exact hshared.mpr ⟨i, hi, j, hj, hdiscrete i hi j hj hix hjx, hix⟩

def entry : Schema := .struct .empty
  [⟨.text "id", .keyword .empty .number, false, true, .empty⟩]
  [⟨.keyword .empty .string, .keyword .empty .number, false⟩]

theorem keyable_struct {a : Annotations} {ps : List (Property Schema)} {is : List (IndexSignature Schema)}
    (hp : ∀ p ∈ ps, p.name.isName) (hi : ∀ i ∈ is, scope.ReliableKey i.parameter) :
    scope.Keyable (.struct a ps is) := by
  have self {t : Schema} (h : scope.Behind (.struct a ps is) t) : t = .struct a ps is := by
    rcases Relation.ReflTransGen.cases_head h with rfl | ⟨u, hu, _⟩
    · rfl
    · cases hu
  refine ⟨fun b hb => (nomatch self hb), fun b qs js hb => ?_, fun b qs js hb => ?_⟩
  · obtain ⟨-, rfl, rfl⟩ := Schema.struct.inj (self hb)
    exact hp
  · obtain ⟨-, rfl, rfl⟩ := Schema.struct.inj (self hb)
    exact hi

theorem keyable_item : (Stock.scope [(0, .ok numbered)]).Keyable item := by
  have hnumbered : (Stock.scope [(0, .ok numbered)]).Keyable numbered :=
    keyable_struct (by simp [Value.isName]) (by simp)
  have hnamed : (Stock.scope [(0, .ok numbered)]).Keyable named := keyable_struct (by simp [Value.isName]) (by simp)
  have hlink : (Stock.scope [(0, .ok numbered)]).Keyable (.lazy .empty (.root 0)) := by
    refine .of_unfolding (by simp) (by simp) fun t ht => ?_
    obtain rfl := Except.ok.inj ((mem_unfolding_lazy.mp ht).symm.trans (by rfl : _ = Except.ok numbered))
    exact hnumbered
  refine .of_unfolding (by simp [item]) (by simp [item]) (List.forall_mem_singleton.mpr ?_)
  refine .of_unfolding (by simp) (by simp) ?_
  simpa [unfolding, Schema.behind] using ⟨hlink, hnamed⟩

theorem keyable_entry (scope : Scope) : scope.Keyable entry := by
  refine keyable_struct (by simp [Value.isName]) (List.forall_mem_singleton.mpr ?_)
  exact reliableKey_of_leaf rfl rfl (by decide) (.of_next trivial trivial fun _ ht => absurd ht List.not_mem_nil)

/-- Items of both sorts and entries declare the identifier, which is a key of their union. -/
theorem keyof_union_item :
    let scope := Stock.scope [(0, .ok numbered)]
    ∃ k l m o, scope.keyof item = .ok k ∧ scope.keyof entry = .ok l ∧
      scope.keyof (.oneOf [item, entry] .empty) = .ok m ∧ scope.Yields .decode m (.text "id") o ∧
      o.isFailure = false := by
  intro scope
  obtain ⟨k, hk⟩ : ∃ k, scope.keyof item = .ok k := ⟨_, rfl⟩
  obtain ⟨l, hl⟩ : ∃ l, scope.keyof entry = .ok l := ⟨_, rfl⟩
  obtain ⟨m, ks, ls, hm, hks, hls, hx⟩ := keyof_union keyable_item (keyable_entry scope) hk hl .empty
  obtain ⟨o, _, _, ho, _, _, hshared, _⟩ := hx (.text "id") rfl
  refine ⟨k, l, m, o, hk, hl, hm, ho, hshared.mpr ?_⟩
  obtain rfl := Except.ok.inj (hks.symm.trans (by rfl : _ = Except.ok [Schema.literal .empty (.text "id")]))
  obtain rfl := Except.ok.inj (hls.symm.trans
    (by rfl : _ = Except.ok [Schema.literal .empty (.text "id"), .keyword .empty .string]))
  exact ⟨_, List.mem_cons_self, _, List.mem_cons_self, by decide, _, ⟨0, rfl⟩, rfl⟩

/-- A text that one schema declares and the other takes by an index signature is a key of both, but not of their union;
it is a key of the union once the other schema declares it too, which does not change the key type of that schema. -/
theorem declared_key_lost :
    let scope := Stock.scope []
    let number := Schema.keyword .empty .number
    let name : Property Schema := ⟨.text "a", number, false, false, .empty⟩
    let texts : IndexSignature Schema := ⟨.keyword .empty .string, number, false⟩
    let declared := Schema.struct .empty [name] []
    let indexed := Schema.struct .empty [] [texts]
    let both := Schema.struct .empty [name] [texts]
    ∃ k l m n, scope.keyof declared = .ok k ∧ scope.keyof indexed = .ok l ∧ scope.keyof both = .ok l ∧
      scope.keyof (.oneOf [declared, indexed] .empty) = .ok m ∧ scope.keyof (.oneOf [both, declared] .empty) = .ok n ∧
      (∃ o, scope.Yields .decode k (.text "a") o ∧ o.isSuccess) ∧
      (∃ o, scope.Yields .decode l (.text "a") o ∧ o.isSuccess) ∧
      (∃ o, scope.Yields .decode m (.text "a") o ∧ o.isFailure) ∧
      ∃ o, scope.Yields .decode n (.text "a") o ∧ o.isSuccess := by
  intro scope number name texts declared indexed both
  have hlost : Schema.oneOf [declared, indexed] .empty = .union .empty [declared, indexed] :=
    congrArg (Schema.union .empty) (List.mergeSort_of_pairwise (by decide))
  have hkept : Schema.oneOf [both, declared] .empty = .union .empty [both, declared] :=
    congrArg (Schema.union .empty) (List.mergeSort_of_pairwise (by decide))
  rw [hlost, hkept]
  exact ⟨_, _, _, _, rfl, rfl, rfl, rfl, rfl, ⟨_, ⟨0, rfl⟩, rfl⟩, ⟨_, ⟨0, rfl⟩, rfl⟩, ⟨_, ⟨0, rfl⟩, rfl⟩,
    ⟨_, ⟨0, rfl⟩, rfl⟩⟩

end Scope
end Schemata
