import Schemata.Proofs.Schema.Equivalence
import Schemata.Proofs.Schema.Union

/-!
The members of a canonical union depend neither on the order of the candidates nor on how they are grouped. Which
schemas a union has among its members, up to equality, is said by the alternatives of all candidates alone: those that
none of the alternatives absorbs. What an inner union leaves out is absorbed by a keyword that the inner union keeps,
so that the outer one would leave it out as well.
-/
namespace Schemata.Schema
variable {s t k l u : Schema} {as bs cs ps ss ts : List Schema}

/-! ### What is absorbed -/

def absorber? : Schema → Option Keyword
  | literal _ x =>
    match x.tag with
    | .text => some .string
    | .number => some .number
    | _ => none
  | uniqueSymbol .. => some .symbol
  | _ => none

theorem absorbs_iff_absorber : Absorbs k s ↔ ∃ w, s.absorber? = some w ∧ k.isKeyword w := by
  constructor
  · intro h
    cases h with
    | text a b h =>
      rw [Scalar.isText_eq, beq_iff_eq] at h
      exact ⟨.string, by simp [absorber?, h], rfl⟩
    | number a b h =>
      rw [Scalar.isNumber, beq_iff_eq] at h
      exact ⟨.number, by simp [absorber?, h], rfl⟩
    | symbol a b key => exact ⟨.symbol, rfl, rfl⟩
  · rintro ⟨w, hs, hk⟩
    cases k with
    | keyword a w' =>
      obtain rfl : w' = w := by simpa [isKeyword] using hk
      cases s with
      | literal b x =>
        cases hx : x.tag with
        | text =>
          obtain rfl := Option.some.inj (by simpa [absorber?, hx] using hs)
          exact .text a b (by simp [Scalar.isText_eq, hx])
        | number =>
          obtain rfl := Option.some.inj (by simpa [absorber?, hx] using hs)
          exact .number a b (by simp [Scalar.isNumber, hx])
        | null | boolean => simp [absorber?, hx] at hs
      | uniqueSymbol b key =>
        obtain rfl := Option.some.inj hs
        exact .symbol a b key
      | _ => cases hs
    | _ => cases hk

theorem absorber?_eq_of_equals (h : s.equals t) : s.absorber? = t.absorber? := by
  cases alike_of_equals h with
  | literal hx =>
    simp only [Scalar.equals, Bool.and_eq_true, beq_iff_eq] at hx
    simp only [absorber?, hx.1]
  | _ => rfl

/-- Equal schemas are absorbed by the same keywords. -/
theorem absorbs_congr (h : s.equals t) : Absorbs k s ↔ Absorbs k t := by
  rw [absorbs_iff_absorber, absorbs_iff_absorber, absorber?_eq_of_equals h]

/-- Equal keywords absorb the same schemas. -/
theorem absorbs_congr_keyword (h : k.equals l) : Absorbs k s ↔ Absorbs l s := by
  simp only [absorbs_iff_absorber, isKeyword_eq_of_equals h]

/-! ### Members up to equality -/

/-- A list of alternatives comes to a schema: an equal one is among them, and none of them makes it superfluous. -/
def ComesTo (ss : List Schema) (u : Schema) : Prop :=
  (∃ t ∈ ss, t.equals u) ∧ ∀ k ∈ ss, ¬Absorbs k u

theorem comesTo_congr (h : ∀ t, t ∈ ss ↔ t ∈ ts) : ComesTo ss u ↔ ComesTo ts u := by
  simp only [ComesTo, h]

/-- A union keeps what absorbs an alternative: keywords themselves are absorbed by nothing. -/
theorem exists_keeper (hk : k ∈ cs.flatMap alternatives) (h : Absorbs k u) : ∃ l ∈ unify cs, Absorbs l u := by
  obtain ⟨l, hl, hlk⟩ := exists_mem_distinct hk
  have hlu : Absorbs l u := by
    rcases hlk with rfl | hlk
    · exact h
    · exact (absorbs_congr_keyword hlk).mpr h
  refine ⟨l, mem_unabsorbed.mpr ⟨hl, fun k' _ hk' => ?_⟩, hlu⟩
  cases hlu <;> cases hk'

/-- A union has a schema among its members, up to equality, exactly if the alternatives of its candidates come to it. -/
theorem exists_mem_unify_iff : (∃ t ∈ unify cs, t.equals u) ↔ ComesTo (cs.flatMap alternatives) u := by
  constructor
  · rintro ⟨t, ht, htu⟩
    obtain ⟨htd, habs⟩ := mem_unabsorbed.mp ht
    refine ⟨⟨t, mem_of_mem_distinct htd, htu⟩, fun k hk hku => ?_⟩
    obtain ⟨l, hl, hlu⟩ := exists_keeper hk hku
    exact habs l (mem_unabsorbed.mp hl).1 ((absorbs_congr htu).mpr hlu)
  · rintro ⟨⟨t, ht, htu⟩, habs⟩
    obtain ⟨t', ht', heq⟩ := exists_mem_distinct ht
    have htu' : t'.equals u := by
      rcases heq with rfl | heq
      · exact htu
      · exact equals_trans heq htu
    refine ⟨t', mem_unabsorbed.mpr ⟨ht', fun k hk hkt => ?_⟩, htu'⟩
    exact habs k (mem_of_mem_distinct hk) ((absorbs_congr htu').mp hkt)

/-- Candidates may be united first: what goes by that comes back in no other way. -/
theorem comesTo_regroup : ComesTo (unify as ++ ss) u ↔ ComesTo (as.flatMap alternatives ++ ss) u := by
  have hsub {t : Schema} (ht : t ∈ unify as) : t ∈ as.flatMap alternatives := List.mem_flatMap.mpr (mem_unify ht)
  simp only [ComesTo, List.mem_append]
  constructor
  · rintro ⟨⟨t, ht, htu⟩, habs⟩
    refine ⟨⟨t, ht.imp_left hsub, htu⟩, fun k hk hku => ?_⟩
    rcases hk with hk | hk
    · obtain ⟨l, hl, hlu⟩ := exists_keeper hk hku
      exact habs l (.inl hl) hlu
    · exact habs k (.inr hk) hku
  · rintro ⟨⟨t, ht, htu⟩, habs⟩
    refine ⟨?_, fun k hk => habs k (hk.imp_left hsub)⟩
    rcases ht with ht | ht
    · obtain ⟨t', ht', htu'⟩ := exists_mem_unify_iff.mpr ⟨⟨t, ht, htu⟩, fun k hk => habs k (.inl hk)⟩
      exact ⟨t', .inl ht', htu'⟩
    · exact ⟨t, .inr ht, htu⟩

/-! ### Canonical unions -/

structure Flat (s : Schema) : Prop where
  inhabited : s.alternatives ≠ []
  flat : ∀ t ∈ s.alternatives, t.kind ≠ .union

theorem alternatives_of_ne_union (h : s.kind ≠ .union) : s.alternatives = [s] := by
  cases s with
  | union => exact absurd rfl h
  | _ => rfl

theorem unify_ne_nil (hne : cs ≠ []) (h : ∀ c ∈ cs, c.Flat) : unify cs ≠ [] := by
  obtain ⟨c, hc⟩ := List.exists_mem_of_ne_nil cs hne
  obtain ⟨s, hs⟩ := List.exists_mem_of_ne_nil _ (h c hc).inhabited
  obtain ⟨t, _, _, ht | ⟨k, hk, _⟩⟩ := unify_covers hc hs
  · exact List.ne_nil_of_mem ht
  · exact List.ne_nil_of_mem hk

/-- The members of a canonical union are what has been united, unless a union is all that is left. -/
theorem alternatives_oneOf_of_single (hne : unify cs ≠ []) (h : ∀ s, unify cs = [s] → s.kind ≠ .union)
    (a : Annotations) : (oneOf cs a).alternatives = ranked (unify cs) := by
  rcases oneOf_eq cs a with ⟨hu, _⟩ | ⟨s, hu, hc⟩ | ⟨_, hc⟩
  · exact absurd hu hne
  · rw [hc, alternatives_of_ne_union (h s hu), hu, ranked, List.mergeSort_singleton]
  · rw [hc]
    rfl

/-- The members of a canonical union are those that it was made of, a single one standing for itself. -/
theorem alternatives_oneOf (hne : cs ≠ []) (h : ∀ c ∈ cs, c.Flat) (a : Annotations) :
    (oneOf cs a).alternatives = ranked (unify cs) := by
  refine alternatives_oneOf_of_single (unify_ne_nil hne h) (fun s hu => ?_) a
  exact forall_unify (fun c hc => (h c hc).flat) s (by simp [hu])

theorem mem_alternatives_oneOf (hne : cs ≠ []) (h : ∀ c ∈ cs, c.Flat) (a : Annotations) :
    t ∈ (oneOf cs a).alternatives ↔ t ∈ unify cs := by
  rw [alternatives_oneOf hne h, mem_ranked]

theorem Flat.oneOf (hne : cs ≠ []) (h : ∀ c ∈ cs, c.Flat) (a : Annotations) : (oneOf cs a).Flat where
  inhabited := by
    obtain ⟨t, ht⟩ := List.exists_mem_of_ne_nil _ (unify_ne_nil hne h)
    exact List.ne_nil_of_mem ((mem_alternatives_oneOf hne h a).mpr ht)
  flat t ht := forall_unify (fun c hc => (h c hc).flat) t ((mem_alternatives_oneOf hne h a).mp ht)

structure Comparable (s : Schema) : Prop where
  orderly : s.Orderly
  nanFree : s.NanFree

theorem Orderly.alternative (h : s.Orderly) (ht : t ∈ s.alternatives) : t.Orderly := by
  cases s with
  | union a ms =>
    obtain ⟨_, hm⟩ := h
    exact hm t ht
  | _ =>
    obtain rfl := List.mem_singleton.mp ht
    exact h

theorem NanFree.alternative (h : s.NanFree) (ht : t ∈ s.alternatives) : t.NanFree := by
  cases s with
  | union a ms =>
    obtain ⟨_, hm⟩ := h
    exact hm t ht
  | _ =>
    obtain rfl := List.mem_singleton.mp ht
    exact h

theorem NanFree.oneOf (h : ∀ c ∈ cs, c.NanFree) : (Schema.oneOf cs .empty).NanFree := by
  have hmem : ∀ s ∈ unify cs, s.NanFree := forall_unify fun c hc _ hs => (h c hc).alternative hs
  rcases oneOf_eq cs .empty with ⟨_, hc⟩ | ⟨s, hs, hc⟩ | ⟨_, hc⟩
  · rw [hc]
    exact ⟨by simp [word, constants, values, annotations, Annotations.titled], by simp [word, held, children]⟩
  · rw [hc]
    exact hmem s (by simp [hs])
  · rw [hc]
    exact ⟨by simp [constants, values, annotations, Annotations.empty], fun s hs => hmem s (mem_ranked.mp hs)⟩

theorem comparable_of_held_nil (h : s.held = []) (ho : ∀ v ∈ s.values, v.orderly) (hn : ∀ v ∈ s.constants, v.nanFree) :
    s.Comparable :=
  ⟨⟨ho, by simp [h]⟩, ⟨hn, by simp [h]⟩⟩

/-- Two schemas have the same members up to equality; what is no union is its own only member. -/
structure SameMembers (s t : Schema) : Prop where
  left : ∀ u ∈ s.alternatives, ∃ v ∈ t.alternatives, u.equals v
  right : ∀ v ∈ t.alternatives, ∃ u ∈ s.alternatives, v.equals u

/-- Candidates whose alternatives come to the same schemas have the same canonical union, whatever their order. -/
theorem sameMembers_oneOf {ds : List Schema} (hc : cs ≠ []) (hd : ds ≠ []) (hcs : ∀ c ∈ cs, c.Flat)
    (hds : ∀ d ∈ ds, d.Flat) (hct : ∀ t ∈ cs.flatMap alternatives, t.Comparable)
    (hdt : ∀ t ∈ ds.flatMap alternatives, t.Comparable)
    (h : ∀ u, ComesTo (cs.flatMap alternatives) u ↔ ComesTo (ds.flatMap alternatives) u) (a b : Annotations) :
    SameMembers (oneOf cs a) (oneOf ds b) := by
  have found {cs ds : List Schema} (hct : ∀ t ∈ cs.flatMap alternatives, t.Comparable)
      (hdt : ∀ t ∈ ds.flatMap alternatives, t.Comparable)
      (h : ∀ u, ComesTo (cs.flatMap alternatives) u → ComesTo (ds.flatMap alternatives) u) :
      ∀ u ∈ unify cs, ∃ v ∈ unify ds, u.equals v := by
    intro u hu
    have hself := equals_self_of_nanFree (hct u (List.mem_flatMap.mpr (mem_unify hu))).nanFree
    obtain ⟨v, hv, hvu⟩ := exists_mem_unify_iff.mpr (h u (exists_mem_unify_iff.mp ⟨u, hu, hself⟩))
    exact ⟨v, hv, equals_symm (hdt v (List.mem_flatMap.mpr (mem_unify hv))).orderly hvu⟩
  constructor
  · simpa only [mem_alternatives_oneOf hc hcs, mem_alternatives_oneOf hd hds] using found hct hdt fun u => (h u).mp
  · simpa only [mem_alternatives_oneOf hc hcs, mem_alternatives_oneOf hd hds] using found hdt hct fun u => (h u).mpr

/-! ### Uniting once more -/

theorem foldl_keep_of_pairwise (kept : List Schema) (h : (kept ++ ss).Pairwise fun s t => ¬s.equals t) :
    ss.foldl keep kept = kept ++ ss := by
  induction ss generalizing kept with
  | nil => simp
  | cons s ss ih =>
    have hnew : s.occursIn kept = false := by
      rw [occursIn, List.any_eq_false]
      exact fun t ht => (List.pairwise_append.mp h).2.2 t ht s List.mem_cons_self
    have hstep : keep kept s = kept ++ [s] := by simp [keep, hnew]
    rw [List.append_cons] at h ⊢
    rw [List.foldl_cons, hstep, ih _ h]

theorem distinct_of_pairwise (h : ss.Pairwise fun s t => ¬s.equals t) : distinct ss = ss :=
  foldl_keep_of_pairwise [] h

/-- Uniting leaves out nothing of distinct schemas of which none is a union and none absorbs another. -/
theorem unify_eq_self (hf : ∀ s ∈ ss, s.kind ≠ .union) (hd : ss.Pairwise fun s t => ¬s.equals t)
    (hu : ∀ k ∈ ss, ∀ s ∈ ss, ¬Absorbs k s) : unify ss = ss := by
  have hflat : ss.flatMap alternatives = ss := by
    rw [List.flatMap_congr fun s hs => alternatives_of_ne_union (hf s hs), List.flatMap_singleton']
  rw [unify, hflat, distinct_of_pairwise hd, unabsorbed, List.filter_eq_self]
  intro s hs
  rw [Bool.not_eq_true', List.any_eq_false]
  exact fun k hk habs => hu k hk s hs (absorbs_iff.mp habs)

theorem unabsorbed_ranked_unify : unabsorbed (ranked (unify cs)) = ranked (unify cs) := by
  refine List.filter_eq_self.mpr fun s hs => ?_
  simp only [Bool.not_eq_true', List.any_eq_false, absorbs_iff]
  exact fun k hk => not_absorbs_of_mem_unify (mem_ranked.mp hk) (mem_ranked.mp hs)

theorem ranked_ranked : ranked (ranked ss) = ranked ss :=
  List.mergeSort_of_pairwise ((pairwise_ranked ss).imp fun h => decide_eq_true h)

theorem unify_oneOf (hne : cs ≠ []) (h : ∀ c ∈ cs, c.Flat) (a : Annotations) :
    unify [oneOf cs a] = ranked (unify cs) := by
  rw [unify, List.flatMap_singleton, alternatives_oneOf hne h,
    distinct_of_pairwise (pairwise_ranked_of_distinct (pairwise_unify cs)), unabsorbed_ranked_unify]

theorem oneOf_eq_of_ranked (h : unify ps = ranked (unify cs)) (a : Annotations) : oneOf ps a = oneOf cs a := by
  have hl : (unify ps).length = (unify cs).length := by simp [h, ranked]
  rcases hps : unify ps with _ | ⟨s, _ | ⟨t, ss⟩⟩
  · have hcs : unify cs = [] := List.eq_nil_of_length_eq_zero (by rw [← hl, hps, List.length_nil])
    simp only [oneOf, hps, hcs]
  · obtain ⟨u, hcs⟩ : ∃ u, unify cs = [u] := List.length_eq_one_iff.mp (by rw [← hl, hps, List.length_singleton])
    rw [hps, hcs, ranked, List.mergeSort_singleton] at h
    simp only [oneOf, hps, hcs, h]
  · rcases hcs : unify cs with _ | ⟨u, _ | ⟨v, us⟩⟩
    · simp [hps, hcs] at hl
    · simp [hps, hcs] at hl
    · rw [hps, hcs] at h
      simp only [oneOf, hps, hcs]
      rw [h, ranked_ranked]

/-- A canonical union is the canonical union of itself, member for member. -/
theorem oneOf_oneOf (hne : cs ≠ []) (h : ∀ c ∈ cs, c.Flat) (a b : Annotations) :
    oneOf [oneOf cs a] b = oneOf cs b :=
  oneOf_eq_of_ranked (unify_oneOf hne h a) b

/-! ### Regrouping -/

/-- The alternatives of a canonical union beside further candidates come to what all the candidates come to. -/
theorem comesTo_oneOf_cons (hne : as ≠ []) (h : ∀ c ∈ as, c.Flat) (a : Annotations) :
    ComesTo ((oneOf as a :: bs).flatMap alternatives) u ↔ ComesTo ((as ++ bs).flatMap alternatives) u := by
  have hranked : ∀ t, t ∈ ranked (unify as) ++ bs.flatMap alternatives ↔ t ∈ unify as ++ bs.flatMap alternatives := by
    simp only [List.mem_append, mem_ranked, implies_true]
  rw [List.flatMap_cons, alternatives_oneOf hne h, comesTo_congr hranked, comesTo_regroup, List.flatMap_append]

theorem mem_alternatives_of_oneOf_cons (hne : as ≠ []) (h : ∀ c ∈ as, c.Flat) {a : Annotations}
    (ht : t ∈ (oneOf as a :: bs).flatMap alternatives) : t ∈ (as ++ bs).flatMap alternatives := by
  rw [List.flatMap_cons, alternatives_oneOf hne h, List.mem_append, mem_ranked] at ht
  rw [List.flatMap_append, List.mem_append]
  exact ht.imp_left fun ht => List.mem_flatMap.mpr (mem_unify ht)

/-- Candidates can be united in any order and in any grouping: the members are the same up to equality. Uniting a
canonical union once more changes nothing, the order of its members included. -/
theorem oneOf_regroup (has : as ≠ []) (hflat : ∀ c ∈ as ++ bs, c.Flat) (hcomp : ∀ c ∈ as ++ bs, c.Comparable)
    (hp : ps.Perm (as ++ bs)) (a b c d : Annotations) :
    SameMembers (oneOf (oneOf as a :: bs) b) (oneOf (as ++ bs) c) ∧ SameMembers (oneOf ps d) (oneOf (as ++ bs) c) ∧
      oneOf [oneOf as a] b = oneOf as b ∧ (oneOf [oneOf as .empty] .empty).equals (oneOf as .empty) := by
  have hflatAs : ∀ c ∈ as, c.Flat := fun c hc => hflat c (List.mem_append_left _ hc)
  have hne : as ++ bs ≠ [] := by simp [has]
  have hparts : ∀ t ∈ (as ++ bs).flatMap alternatives, t.Comparable := by
    intro t ht
    obtain ⟨c, hc, htc⟩ := List.mem_flatMap.mp ht
    exact ⟨(hcomp c hc).orderly.alternative htc, (hcomp c hc).nanFree.alternative htc⟩
  have hmem : ∀ t, t ∈ ps.flatMap alternatives ↔ t ∈ (as ++ bs).flatMap alternatives := fun t =>
    (hp.flatMap_right alternatives).mem_iff
  refine ⟨?_, ?_, oneOf_oneOf has hflatAs a b, ?_⟩
  · have hflatOuter : ∀ c ∈ oneOf as a :: bs, c.Flat :=
      List.forall_mem_cons.mpr ⟨.oneOf has hflatAs a, fun c hc => hflat c (List.mem_append_right _ hc)⟩
    exact sameMembers_oneOf (by simp) hne hflatOuter hflat
      (fun t ht => hparts t (mem_alternatives_of_oneOf_cons has hflatAs ht)) hparts
      (fun u => comesTo_oneOf_cons has hflatAs a) b c
  · have hpne : ps ≠ [] := fun h => hne (List.nil_perm.mp (h ▸ hp))
    exact sameMembers_oneOf hpne hne (fun c hc => hflat c (hp.mem_iff.mp hc)) hflat
      (fun t ht => hparts t ((hmem t).mp ht)) hparts (fun u => comesTo_congr hmem) d c
  · rw [oneOf_oneOf has hflatAs]
    refine equals_self_of_nanFree (NanFree.oneOf fun c hc => ?_)
    exact (hcomp c (List.mem_append_left _ hc)).nanFree

/-- The inner union keeps the text that the outer one drops for the keyword, and the flag is a candidate twice. -/
theorem oneOf_regroup_switch :
    let on := literal .empty (.text "on")
    let flag := literal .empty (.bool true)
    let as := [on, union .empty [flag, literal .empty .null]]
    let bs := [word .string, flag]
    as ≠ [] ∧ (∀ c ∈ as ++ bs, c.Flat) ∧ (∀ c ∈ as ++ bs, c.Comparable) ∧ (bs ++ as).Perm (as ++ bs) ∧
      on ∈ unify as ∧ on ∉ unify (as ++ bs) ∧
      SameMembers (oneOf (oneOf as .empty :: bs) .empty) (oneOf (as ++ bs) .empty) ∧
      SameMembers (oneOf (bs ++ as) .empty) (oneOf (as ++ bs) .empty) ∧
      oneOf [oneOf as .empty] .empty = oneOf as .empty ∧
      (oneOf [oneOf as .empty] .empty).equals (oneOf as .empty) := by
  intro on flag as bs
  have hflat : ∀ c ∈ as ++ bs, c.Flat := by
    have hkinds : ∀ c ∈ as ++ bs, c.alternatives ≠ [] ∧ ∀ t ∈ c.alternatives, t.kind ≠ .union := by
      simp [as, bs, on, flag, word, alternatives, kind]
    exact fun c hc => ⟨(hkinds c hc).1, (hkinds c hc).2⟩
  have hcomp : ∀ c ∈ as ++ bs, c.Comparable := by
    have leaf (x : Scalar) (hx : x.value.nanFree) : (literal .empty x).Comparable :=
      comparable_of_held_nil rfl (fun _ h => nomatch h) fun v hv => by
        obtain rfl := List.mem_singleton.mp hv
        exact hx
    have hunion : (union .empty [flag, literal .empty .null]).Comparable := by
      have hmem : ∀ t ∈ [flag, literal .empty .null], t.Comparable := by
        simpa using ⟨leaf (.bool true) rfl, leaf .null rfl⟩
      exact ⟨⟨(fun _ h => nomatch h), fun t ht => (hmem t ht).orderly⟩,
        ⟨(fun _ h => nomatch h), fun t ht => (hmem t ht).nanFree⟩⟩
    have hstring : (word .string).Comparable :=
      comparable_of_held_nil rfl (fun _ h => nomatch h) (fun _ h => nomatch h)
    simpa [as, bs] using ⟨leaf (.text "on") rfl, hunion, hstring, leaf (.bool true) rfl⟩
  have hp : (bs ++ as).Perm (as ++ bs) := List.perm_append_comm
  refine ⟨List.cons_ne_nil _ _, hflat, hcomp, hp, ?_, ?_,
    oneOf_regroup (List.cons_ne_nil _ _) hflat hcomp hp .empty .empty .empty .empty⟩
  · have hu : unify as = [on, flag, literal .empty .null] := rfl
    simp [hu]
  · have hu : unify (as ++ bs) = [flag, literal .empty .null, word .string] := rfl
    simp [hu, on, flag, word]

end Schemata.Schema
