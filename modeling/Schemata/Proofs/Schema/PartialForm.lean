import Schemata.Proofs.Schema.Regrouping
import Schemata.Proofs.Schema.Unfolding

/-!
Making a schema partial once more changes nothing. Where no lazy schema is met, a partial form is built of tuples and
structs whose parts are optional already and of canonical unions of such schemas. A canonical union is the union of its
own members, and the run behind the positions of a tuple, widened by undefined once, has undefined among its members.
-/
namespace Schemata.Schema
variable {s t : Schema} {a : Annotations} {cs ss : List Schema} {path : List Nat}

/-! ### Uniting what has been united -/

theorem unify_singleton (h : s.kind ≠ .union) : unify [s] = [s] := by
  refine unify_eq_self (by simpa using h) (List.pairwise_singleton _ s) ?_
  simp only [List.mem_singleton, forall_eq]
  rintro (_ | _ | _)

/-- What has been united is united already, unless a union of unions has left unions in it. -/
theorem unify_ranked_unify (hf : ∀ s ∈ unify cs, s.kind ≠ .union) :
    unify (ranked (unify cs)) = ranked (unify cs) := by
  refine unify_eq_self (fun s hs => hf s (mem_ranked.mp hs))
    (pairwise_ranked_of_distinct (pairwise_unify cs)) fun k hk s hs => ?_
  exact not_absorbs_of_mem_unify (mem_ranked.mp hk) (mem_ranked.mp hs)

theorem kind_eq_of_equals (h : s.equals t) : s.kind = t.kind := by
  cases alike_of_equals h <;> rfl

/-- A schema that equals one of distinct schemas before it is dropped. -/
theorem distinct_concat (hd : ss.Pairwise fun s t => ¬s.equals t) (h : s.occursIn ss) : distinct (ss ++ [s]) = ss := by
  have hstep : keep ss s = ss := if_pos h
  rw [distinct_eq, List.foldl_append, ← distinct_eq, distinct_of_pairwise hd]
  exact hstep

/-- A canonical union brings all its members back, and a candidate equal to one of them adds nothing. -/
theorem unify_oneOf_concat (hs : s.kind ≠ .union) (h : s.occursIn (unify cs)) :
    unify [oneOf cs .empty, s] = ranked (unify cs) := by
  obtain ⟨t, ht, heq⟩ := List.any_eq_true.mp h
  have hne : unify cs ≠ [] := List.ne_nil_of_mem ht
  -- Where one schema is the whole union it is equal to `s`, and so no union either.
  have hsingle : ∀ u, unify cs = [u] → u.kind ≠ .union := by
    intro u hu
    rw [hu, List.mem_singleton] at ht
    rw [← ht, kind_eq_of_equals heq]
    exact hs
  have hagain : s.occursIn (ranked (unify cs)) := List.any_eq_true.mpr ⟨t, mem_ranked.mpr ht, heq⟩
  rw [unify, List.flatMap_cons, List.flatMap_singleton, alternatives_oneOf_of_single hne hsingle,
    alternatives_of_ne_union hs, distinct_concat (pairwise_ranked_of_distinct (pairwise_unify cs)) hagain,
    unabsorbed_ranked_unify]

/-! ### Rest runs -/

/-- Undefined is never left out of a union: no keyword absorbs it. -/
theorem occursIn_unify_undefined (h : word .undefined ∈ cs) : (word .undefined).occursIn (unify cs) := by
  obtain ⟨t, _, ht, hleft⟩ := unify_covers h (List.mem_singleton_self _)
  have hself : (word .undefined).equals (word .undefined) := by decide
  have hequal : t.equals (word .undefined) := by
    rcases ht with rfl | ht
    · exact hself
    · exact ht
  rcases hleft with hu | ⟨k, _, habs⟩
  · exact List.any_eq_true.mpr ⟨t, hu, hequal⟩
  · cases (absorbs_congr hequal).mp habs

/-- A run that has been widened by undefined is not widened further. -/
theorem partialRest_partialRest (r : Rest Schema) : partialRest (partialRest r) = partialRest r := by
  have hmem : word .undefined ∈ r.toList ++ [word .undefined] := List.mem_append_right _ (List.mem_singleton_self _)
  have hunify : unify [oneOf (r.toList ++ [word .undefined]) .empty, word .undefined] =
      ranked (unify (r.toList ++ [word .undefined])) :=
    unify_oneOf_concat (by decide) (occursIn_unify_undefined hmem)
  rw [partialRest, partialRest, Rest.mk.injEq]
  exact ⟨oneOf_eq_of_ranked hunify .empty, rfl⟩

/-! ### Schemas that are their own partial forms -/

def Final (s : Schema) : Prop :=
  ∀ path, s.partialForm path = s

theorem partialForms_of_final {n : Nat} (h : ∀ s ∈ ss, s.Final) : partialForms path n ss = ss := by
  induction ss generalizing n with
  | nil => rfl
  | cons s ss ih =>
    rw [List.forall_mem_cons] at h
    rw [partialForms, h.1, ih h.2]

/-- The canonical union of its own members, none of which is a union or has another partial form. -/
structure Ready (s : Schema) : Prop where
  flat : ∀ t ∈ s.alternatives, t.kind ≠ .union
  final : ∀ t ∈ s.alternatives, t.Final
  united : oneOf s.alternatives .empty = s

theorem Ready.self (h : s.Ready) : s.Final := by
  intro path
  cases s with
  | union a ss =>
    have hsame : partialForms path 0 ss = ss := partialForms_of_final h.final
    rw [partialForm, hsame]
    exact h.united
  | _ => exact h.final _ (List.mem_singleton_self _) path

theorem Ready.of_final (hk : s.kind ≠ .union) (h : s.Final) : s.Ready := by
  have halone := alternatives_of_ne_union hk
  refine ⟨by simpa [halone] using hk, by simpa [halone] using h, ?_⟩
  rw [halone, oneOf, unify_singleton hk]

/-- A canonical union takes in members that are partial, and unions of such members, but nothing else. -/
theorem Ready.oneOf (h : ∀ c ∈ cs, c.Ready) : (oneOf cs .empty).Ready := by
  have hflat : ∀ s ∈ unify cs, s.kind ≠ .union := forall_unify fun c hc => (h c hc).flat
  have hfinal : ∀ s ∈ unify cs, s.Final := forall_unify fun c hc => (h c hc).final
  rcases oneOf_eq cs .empty with ⟨_, hc⟩ | ⟨s, hs, hc⟩ | ⟨_, hc⟩
  · rw [hc]
    exact .of_final (by decide) fun _ => rfl
  · rw [hc]
    have hmem : s ∈ unify cs := by simp [hs]
    exact .of_final (hflat s hmem) (hfinal s hmem)
  · have hunited := oneOf_eq_of_ranked (unify_ranked_unify hflat) .empty
    rw [hc] at hunited ⊢
    exact ⟨fun t ht => hflat t (mem_ranked.mp ht), fun t ht => hfinal t (mem_ranked.mp ht), hunited⟩

theorem final_partial_tuple (es : List (Element Schema)) (r : Option (Rest Schema)) (readonly : Bool) :
    (tuple .empty (es.map fun e => ⟨e.type, true⟩) (r.map partialRest) readonly).Final := by
  intro path
  have hrest : (r.map partialRest).map partialRest = r.map partialRest := by
    cases r with
    | none => rfl
    | some r => exact congrArg some (partialRest_partialRest r)
  rw [partialForm, hrest, List.map_map]
  rfl

theorem final_partial_struct (ps : List (Property Schema)) (is : List (IndexSignature Schema)) :
    (structOf (ps.map fun p => { p with optional := true }) is .empty).Final := by
  intro path
  have hoptional : ∀ p ∈ rankedProperties (ps.map fun p => { p with optional := true }),
      ({ p with optional := true } : Property Schema) = p := by
    intro p hp
    obtain ⟨q, _, rfl⟩ := List.mem_map.mp (List.mem_mergeSort.mp hp)
    rfl
  have hproperties (qs : List (Property Schema)) : rankedProperties (rankedProperties qs) = rankedProperties qs :=
    List.mergeSort_of_pairwise ((pairwise_sorted (fun p : Property Schema => p.type.cardinality) qs).imp decide_eq_true)
  have hindexes : rankedIndexes (rankedIndexes is) = rankedIndexes is :=
    List.mergeSort_of_pairwise
      ((pairwise_sorted (fun i : IndexSignature Schema => i.type.cardinality) is).imp decide_eq_true)
  rw [structOf, partialForm, (List.map_congr_left hoptional).trans (List.map_id' _), structOf, hproperties, hindexes]

/-! ### Without lazy schemas -/

/-- No lazy schema stands behind the wrappers and the unions of the schema. -/
def Eager (s : Schema) : Prop :=
  ∀ i, ¬s.Awaits i

theorem Eager.behind (h : s.Eager) (ht : t ∈ s.behind) : t.Eager :=
  fun i hi => h i (.behind ht hi)

theorem eager_of_behind (hs : s.handle? = none) (h : ∀ t ∈ s.behind, t.Eager) : s.Eager := by
  intro i hi
  obtain ⟨t, ht, hti⟩ := (awaits_iff hs).mp hi
  exact h t ht i hti

/-- Where no lazy schema is met, a partial form is the canonical union of members that are partial already. -/
theorem Eager.ready (h : s.Eager) (path : List Nat) : (s.partialForm path).Ready := by
  induction s using heldInduction generalizing path with
  | step s ih =>
    have wrapped {t : Schema} (ht : t ∈ s.behind) (path : List Nat) : (t.partialForm path).Ready :=
      ih t (mem_held_of_behind ht) (h.behind ht) path
    cases s with
    | typeAlias a ps t => exact wrapped List.mem_cons_self path
    | refinement a t p => exact wrapped List.mem_cons_self path
    | transform a u t c => exact wrapped List.mem_cons_self path
    | lazy a handle => exact absurd (.lazy a handle) (h handle.index)
    | union a ss =>
      rw [partialForm]
      refine .oneOf fun c hc => ?_
      obtain ⟨t, ht, path', rfl⟩ := mem_partialForms hc
      exact wrapped ht path'
    | tuple a es r readonly => exact .of_final (by simp [partialForm, kind]) (final_partial_tuple es r readonly)
    | struct a ps is => exact .of_final (by simp [partialForm, structOf, kind]) (final_partial_struct ps is)
    | _ => exact .of_final (by simp [partialForm, kind]) fun _ => rfl

/-! ### What a partial form inherits -/

/-- A property that goes from a schema to what it holds, and to each node that a partial form makes of such schemas. -/
structure Inherited (p : Schema → Prop) : Prop where
  held : ∀ {s t}, p s → t ∈ s.held → p t
  word : ∀ k, p (word k)
  lazy : ∀ h, p (lazy .empty h)
  union : ∀ {ss}, (∀ s ∈ ss, p s) → p (union .empty ss)
  tuple : ∀ {es r readonly}, (∀ t ∈ (tuple .empty es r readonly).held, p t) → p (tuple .empty es r readonly)
  struct : ∀ {a ps is}, p (struct a ps is) → p (structOf (ps.map fun q => { q with optional := true }) is .empty)

namespace Inherited
variable {p : Schema → Prop}

theorem oneOf (h : Inherited p) (hc : ∀ c ∈ cs, p c) : p (oneOf cs .empty) := by
  have hmem : ∀ s ∈ unify cs, p s := by
    refine forall_unify fun c hc' s hs => ?_
    cases c with
    | union a ms => exact h.held (hc _ hc') hs
    | _ =>
      obtain rfl := List.mem_singleton.mp hs
      exact hc _ hc'
  rcases oneOf_eq cs .empty with ⟨_, hc⟩ | ⟨s, hs, hc⟩ | ⟨_, hc⟩
  · exact hc ▸ h.word .never
  · exact hc ▸ hmem s (by simp [hs])
  · exact hc ▸ h.union fun s hs => hmem s (mem_ranked.mp hs)

theorem partialForm (h : Inherited p) (hs : p s) (path : List Nat) : p (s.partialForm path) := by
  induction s using heldInduction generalizing path with
  | step s ih =>
    have wrapped {t : Schema} (ht : t ∈ s.behind) (path : List Nat) : p (t.partialForm path) :=
      ih t (mem_held_of_behind ht) (h.held hs (mem_held_of_behind ht)) path
    cases s with
    | typeAlias a ps t => exact wrapped List.mem_cons_self path
    | refinement a t q => exact wrapped List.mem_cons_self path
    | transform a u t c => exact wrapped List.mem_cons_self path
    | lazy a handle => exact h.lazy _
    | union a ss =>
      rw [Schema.partialForm]
      refine h.oneOf fun c hc => ?_
      obtain ⟨t, ht, path', rfl⟩ := mem_partialForms hc
      exact wrapped ht path'
    | tuple a es r readonly =>
      rw [Schema.partialForm]
      refine h.tuple fun t ht => ?_
      rcases List.mem_append.mp ht with ht | ht
      · rw [List.map_map] at ht
        obtain ⟨e, he, rfl⟩ := List.mem_map.mp ht
        have hheld : e.type ∈ (Schema.tuple a es r readonly).children := mem_children_of_element he
        exact h.held hs hheld
      · cases r with
        | none => cases ht
        | some r =>
          obtain rfl := List.mem_singleton.mp ht
          refine h.oneOf fun c hc => ?_
          rcases List.mem_append.mp hc with hc | hc
          · have hheld : c ∈ (Schema.tuple a es (some r) readonly).children := mem_children_of_rest hc
            exact h.held hs hheld
          · obtain rfl := List.mem_singleton.mp hc
            exact h.word .undefined
    | struct a ps is => exact h.struct hs
    | _ => exact hs

end Inherited

theorem copyLists_iff : copyLists ss ↔ ∀ s ∈ ss, s.equalsCopy := by
  induction ss with
  | nil => simp [copyLists]
  | cons s ss ih => simp [copyLists, ih]

theorem copyElements_iff {es : List (Element Schema)} : copyElements es ↔ ∀ e ∈ es, e.type.equalsCopy := by
  induction es with
  | nil => simp [copyElements]
  | cons e es ih => simp [copyElements, ih]

theorem copyProperties_iff {ps : List (Property Schema)} : copyProperties ps ↔ ∀ p ∈ ps, p.type.equalsCopy := by
  induction ps with
  | nil => simp [copyProperties]
  | cons p ps ih => simp [copyProperties, ih]

theorem copyIndexes_iff {is : List (IndexSignature Schema)} :
    copyIndexes is ↔ ∀ i ∈ is, i.parameter.equalsCopy ∧ i.type.equalsCopy := by
  induction is with
  | nil => simp [copyIndexes]
  | cons i is ih => simp [copyIndexes, ih]

/-- A schema equals its copies unless a literal in it differs from itself. -/
theorem equalsCopy_iff : s.equalsCopy ↔ (∀ a x, s = literal a x → x.equals x) ∧ ∀ t ∈ s.held, t.equalsCopy := by
  cases s with
  | tuple a es r readonly =>
    cases r <;> simp [equalsCopy, copyElements_iff, copyRest, copyLists_iff, held, children, Rest.toList, or_imp,
      forall_and]
  | struct a ps is =>
    simp only [equalsCopy, Bool.and_eq_true, copyProperties_iff, copyIndexes_iff, held, children,
      List.forall_mem_append, List.forall_mem_map, List.forall_mem_flatMap, List.forall_mem_cons]
    simp
  | _ => simp [equalsCopy, copyLists_iff, held, children, or_imp, forall_and]

/-- A struct with other flags holds no other schemas. -/
theorem held_optional {ps : List (Property Schema)} {is : List (IndexSignature Schema)}
    (h : t ∈ (structOf (ps.map fun p => { p with optional := true }) is .empty).held) : t ∈ (struct a ps is).held := by
  rcases List.mem_append.mp h with h | h
  · obtain ⟨p, hp, rfl⟩ := List.mem_map.mp h
    obtain ⟨q, hq, rfl⟩ := List.mem_map.mp (List.mem_mergeSort.mp hp)
    have hheld : q.type ∈ (struct a ps is).children := mem_children_of_property hq
    exact hheld
  · obtain ⟨i, hi, ht⟩ := List.mem_flatMap.mp h
    exact List.mem_append_right _ (List.mem_flatMap.mpr ⟨i, List.mem_mergeSort.mp hi, ht⟩)

theorem inherited_equalsCopy : Inherited fun s => s.equalsCopy where
  held hs ht := (equalsCopy_iff.mp hs).2 _ ht
  word _ := rfl
  lazy _ := rfl
  union h := equalsCopy_iff.mpr ⟨fun _ _ heq => (nomatch heq), h⟩
  tuple h := equalsCopy_iff.mpr ⟨fun _ _ heq => (nomatch heq), h⟩
  struct h := equalsCopy_iff.mpr ⟨fun _ _ heq => (nomatch heq), fun t ht => (equalsCopy_iff.mp h).2 t (held_optional ht)⟩

theorem inherited_nanFree : Inherited NanFree where
  held hs ht := by
    obtain ⟨_, hheld⟩ := hs
    exact hheld _ ht
  word k := ⟨fun _ hv => (nomatch hv), fun _ ht => nomatch ht⟩
  lazy h := ⟨fun _ hv => (nomatch hv), fun _ ht => nomatch ht⟩
  union h := ⟨fun _ hv => (nomatch hv), h⟩
  tuple h := ⟨fun _ hv => (nomatch hv), h⟩
  struct h := by
    obtain ⟨hnode, hheld⟩ := h
    refine ⟨fun v hv => hnode v ?_, fun t ht => hheld t (held_optional ht)⟩
    obtain ⟨p, hp, hv⟩ := List.mem_flatMap.mp hv
    obtain ⟨q, hq, rfl⟩ := List.mem_map.mp (List.mem_mergeSort.mp hp)
    exact List.mem_append_right _ (List.mem_flatMap.mpr ⟨q, hq, hv⟩)

/-- Where no lazy schema is met, the partial form of a partial form is that partial form, node for node. The two
compare as equal if the literals of the schema equal themselves, the values elsewhere in it being the same objects on
both sides, and also as schemas with copied values if no not-a-number stands anywhere in it. -/
theorem partialForm_partialForm (h : s.Eager) (path path' : List Nat) :
    (s.partialForm path).partialForm path' = s.partialForm path ∧
      (s.equalsCopy → (s.partialForm path).equalsCopy) ∧
      (s.NanFree → ((s.partialForm path).partialForm path').equals (s.partialForm path)) := by
  have hsame : (s.partialForm path).partialForm path' = s.partialForm path := (h.ready path).self path'
  refine ⟨hsame, fun hs => inherited_equalsCopy.partialForm hs path, fun hs => ?_⟩
  rw [hsame]
  exact equals_self_of_nanFree (inherited_nanFree.partialForm hs path)

def page : Schema :=
  tuple .empty [⟨lazy .empty (.root 0), false⟩]
    (some ⟨union .empty [word .number, union .empty [word .bigint, word .number]], [word .string]⟩) true

def entry : Schema :=
  struct .empty [⟨.text "next", lazy .empty (.root 0), false, false, .empty⟩] [⟨word .string, word .number, false⟩]

def choice : Schema :=
  union .empty [union .empty [page, literal .empty (.text "none")],
    transform .empty (word .string) entry ⟨"parse", 0, "text", "entry"⟩, word .string]

def draft : Schema :=
  typeAlias .empty [] (refinement .empty choice (.named "checked"))

/-- The lazy schemas of the draft stand under a position and under a key, where a partial form does not look. -/
theorem eager_draft : draft.Eager := by
  have leaf {s : Schema} (hs : s.handle? = none) (hb : s.behind = []) : s.Eager := fun _ => not_awaits hs hb
  have wrapped {s t : Schema} (hs : s.handle? = none) (hb : s.behind = [t]) (ht : t.Eager) : s.Eager :=
    eager_of_behind hs (by simpa [hb] using ht)
  have hpages : (union .empty [page, literal .empty (.text "none")]).Eager := by
    refine eager_of_behind rfl fun t ht => ?_
    rcases List.mem_pair.mp ht with rfl | rfl <;> exact leaf rfl rfl
  have hread : (transform .empty (word .string) entry ⟨"parse", 0, "text", "entry"⟩).Eager :=
    wrapped rfl rfl (leaf rfl rfl)
  have hchoice : choice.Eager := eager_of_behind rfl (by simpa [choice, behind] using ⟨hpages, hread, leaf rfl rfl⟩)
  exact wrapped rfl rfl (wrapped rfl rfl hchoice)

theorem nanFree_draft : draft.NanFree := by
  have node {s : Schema} (hs : ∀ v ∈ s.constants, v.nanFree) (hh : ∀ t ∈ s.held, t.NanFree) : s.NanFree := ⟨hs, hh⟩
  have hword : ∀ k, (word k).NanFree := inherited_nanFree.word
  have hnext : (lazy .empty (.root 0)).NanFree := inherited_nanFree.lazy _
  have hnone : (literal .empty (.text "none")).NanFree := node (by decide) (by simp [held, children])
  have hcount : (union .empty [word .number, union .empty [word .bigint, word .number]]).NanFree :=
    inherited_nanFree.union (by simpa using ⟨hword _, inherited_nanFree.union (by simp [hword])⟩)
  have hpage : page.NanFree := node (by decide) (by simp [page, held, children, Rest.toList, hnext, hcount, hword])
  have hpages : (union .empty [page, literal .empty (.text "none")]).NanFree :=
    inherited_nanFree.union (by simp [hpage, hnone])
  have hentry : entry.NanFree := node (by decide) (by simp [entry, held, children, hnext, hword])
  have hread : (transform .empty (word .string) entry ⟨"parse", 0, "text", "entry"⟩).NanFree :=
    node (by decide) (by simp [held, hword, hentry])
  have hchoice : choice.NanFree := inherited_nanFree.union (by simp [hpages, hread, hword])
  have hchecked : (refinement .empty choice (.named "checked")).NanFree :=
    node (by decide) (by simpa [held, children] using hchoice)
  exact node (by decide) (by simpa [draft, held] using hchecked)

theorem partialForm_partialForm_draft :
    draft.Eager ∧ draft.equalsCopy ∧ draft.NanFree ∧
      (draft.partialForm []).partialForm [] = draft.partialForm [] ∧ (draft.partialForm []).equalsCopy ∧
      ((draft.partialForm []).partialForm []).equals (draft.partialForm []) := by
  have hcopy : draft.equalsCopy := by decide
  obtain ⟨hsame, hequalsCopy, hequals⟩ := partialForm_partialForm eager_draft [] []
  exact ⟨eager_draft, hcopy, nanFree_draft, hsame, hequalsCopy hcopy, hequals nanFree_draft⟩

end Schemata.Schema
