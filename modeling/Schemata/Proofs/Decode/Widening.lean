import Schemata.Proofs.Decode.Turns

/-!
The partial form only widens a schema. Where wrappers are looked through, the partial form of what is behind them takes
their place; a tuple hands the items of its rest run to one union, and a struct misses no key any more. What a schema
accepts is followed to the containers and from there back into the partial form.
-/
namespace Schemata

variable {good : Schema → Value → Prop}

/-- Optional positions, and a repeated item that is as good as any part of the rest run, suit the same items. -/
theorem Tuple.Suits.optional {es : List (Element Schema)} {rest : Option (Rest Schema)} {items : List Value}
    (h : Suits good es rest items) (widened : Rest Schema → Schema)
    (hr : ∀ r ∈ rest, ∀ t ∈ r.toList, ∀ v, good t v → good (widened r) v) :
    Suits good (es.map fun e => ⟨e.type, true⟩) (rest.map fun r => ⟨widened r, []⟩) items where
  gaps := by
    rw [gaps_eq_nil_iff]
    constructor
    · intro e he
      obtain ⟨f, _, rfl⟩ := List.mem_map.mp (List.mem_of_mem_drop he)
      rfl
    · intro r hr
      obtain ⟨q, _, rfl⟩ := Option.map_eq_some_iff.mp hr
      exact Nat.zero_le _
  item := by
    intro i t v ht hv
    obtain ⟨hi, _⟩ := List.getElem?_eq_some_iff.mp hv
    by_cases hp : i < es.length
    · rw [getElem?_assigned_position (by simpa using hp) hi, List.getElem_map] at ht
      obtain rfl := Option.some.inj (Option.some.inj ht)
      exact h.item i _ v (getElem?_assigned_position hp hi) hv
    · have hle : es.length ≤ i := Nat.le_of_not_lt hp
      rw [getElem?_assigned_rest (by simpa using hle) hi] at ht
      cases rest with
      | none => simp [restAssigned, List.getElem?_replicate] at ht
      | some r =>
        obtain ⟨u, hu, he⟩ := mem_restAssigned (List.mem_of_getElem? ht)
        obtain rfl := Option.some.inj he
        obtain rfl := List.mem_singleton.mp hu
        have hl : i - es.length < (restAssigned (some r) (items.length - es.length)).length := by
          rw [length_restAssigned]
          omega
        obtain ⟨w, hw, hq⟩ := mem_restAssigned (List.getElem_mem hl)
        refine hr r rfl w hw v (h.item i w v ?_ hv)
        rw [getElem?_assigned_rest hle hi, List.getElem?_eq_getElem hl, hq]

theorem Schema.mem_rankedProperties_optional {ps : List (Property Schema)} {q : Property Schema}
    (h : q ∈ rankedProperties (ps.map fun p => { p with optional := true })) :
    ∃ p ∈ ps, { p with optional := true } = q := by
  rw [rankedProperties, List.mem_mergeSort] at h
  exact List.mem_map.mp h

/-- Optional keys, in whatever order they and the index signatures stand, suit the same tables. -/
theorem Struct.Suits.optional {ps : List (Property Schema)} {is : List (IndexSignature Schema)} {es : Entries}
    (h : Suits good ps is es) :
    Suits good (Schema.rankedProperties (ps.map fun p => { p with optional := true })) (Schema.rankedIndexes is)
      es := by
  refine ⟨fun q hq v hv => ?_, fun q hq _ => ?_, fun e he hd i hi hc => ?_⟩
  · obtain ⟨p, hp, rfl⟩ := Schema.mem_rankedProperties_optional hq
    exact h.property p hp v hv
  · obtain ⟨p, hp, rfl⟩ := Schema.mem_rankedProperties_optional hq
    rfl
  · refine h.index e he ?_ i (List.mem_mergeSort.mp hi) hc
    rw [Value.occursIn, List.any_eq_false] at hd ⊢
    intro k hk
    obtain ⟨p, hp, rfl⟩ := List.mem_map.mp hk
    refine hd p.name (List.mem_map.mpr ⟨{ p with optional := true }, ?_, rfl⟩)
    rw [Schema.rankedProperties, List.mem_mergeSort]
    exact List.mem_map_of_mem hp

namespace Scope
variable {scope : Scope} {direction : Direction} {s t : Schema} {x : Value}

theorem Passes.exists_items {a : Annotations} {es : List (Element Schema)} {rest : Option (Rest Schema)} {o : Bool}
    (h : scope.Passes direction true (.tuple a es rest o) x) : ∃ items, x.items? = some items := by
  obtain ⟨n, o, hn, ho⟩ := passes_iff_exists_run.mp h
  rw [run_tuple] at hn
  obtain ⟨items, hx, _⟩ := Tuple.parse_accepts_iff.mp ⟨hn, ho⟩
  exact ⟨items, hx⟩

theorem Passes.exists_entries {a : Annotations} {ps : List (Property Schema)} {is : List (IndexSignature Schema)}
    (h : scope.Passes direction true (.struct a ps is) x) : ∃ es, x.entries? = some es := by
  obtain ⟨n, o, hn, ho⟩ := passes_iff_exists_run.mp h
  rw [run_struct] at hn
  obtain ⟨es, hx, _⟩ := Struct.parse_accepts_iff.mp ⟨hn, ho⟩
  exact ⟨es, hx⟩

/-- Induction on what is met when wrappers are looked through. -/
theorem Unfolds.induction {motive : Schema → Prop} (hs : scope.Unfolds s)
    (step : ∀ t, scope.Behind s t → (∀ u ∈ scope.unfolding Schema.behind t, motive u) → motive t) : motive s := by
  have hacc := hs.guarded
  suffices h : ∀ t, scope.Behind s t → Acc (fun u v => u ∈ scope.unfolding Schema.behind v) t → motive t from
    h s .refl hacc
  intro t ht hacc
  induction hacc with
  | intro t _ ih => exact step t ht fun u hu => ih u hu (ht.tail hu)

/-- The rest run of a partial tuple is well-behaved when the parts of the rest run are. -/
theorem wellBehaved_partialRest {r : Rest Schema} (h : ∀ t ∈ r.toList, scope.WellBehaved direction t) :
    ∀ t ∈ r.toList ++ [Schema.word .undefined], scope.WellBehaved direction t := by
  intro t ht
  rcases List.mem_append.mp ht with ht | ht
  · exact h t ht
  · obtain rfl := List.mem_singleton.mp ht
    exact .of_next trivial trivial fun _ hu => absurd hu List.not_mem_nil

/-- Nothing faults on the partial form where nothing faults on the schema. -/
theorem WellBehaved.partialForm (hs : scope.WellBehaved direction s) (ht : scope.Untransformed s) (path : List Nat) :
    scope.WellBehaved direction (s.partialForm path) := by
  refine (hs.productive.unfolds ht).induction
    (motive := fun t => ∀ path, scope.WellBehaved direction (t.partialForm path)) (fun t hb ih => ?_) path
  have hw : scope.WellBehaved direction t := hs.part (ht.part hb)
  have child (v : Schema) (hv : v ∈ t.children) : scope.WellBehaved direction v := hw.part (.child hv)
  intro path
  cases t with
  | transform a u v c => exact absurd hb (ht a u v c)
  | typeAlias a ps t => exact ih t (mem_unfolding_behind List.mem_cons_self) path
  | refinement a t p => exact ih t (mem_unfolding_behind List.mem_cons_self) path
  | lazy a h =>
    obtain ⟨u, hu⟩ := hw.productive.forced a h (.refl scope _)
    have hforce : scope.force (.partialOf h path) = .ok (u.partialForm path) := by rw [Scope.force, hu]; rfl
    refine .of_next ⟨_, hforce⟩ trivial fun v hv => ?_
    obtain rfl := Except.ok.inj (hforce.symm.trans (mem_next_lazy.mp hv))
    exact ih u (mem_unfolding_lazy.mpr hu) path
  | union a ss =>
    rw [Schema.partialForm]
    refine .oneOf (fun c hc => ?_) .empty
    obtain ⟨u, hu, path', rfl⟩ := Schema.mem_partialForms hc
    exact ih u hu path'
  | tuple a es rest readonly =>
    refine .of_next trivial trivial fun u hu => ?_
    rcases List.mem_append.mp hu with hu | hu
    · obtain ⟨e, he, rfl⟩ := List.mem_map.mp hu
      obtain ⟨f, hf, rfl⟩ := List.mem_map.mp he
      exact child f.type (Schema.mem_children_of_element hf)
    · cases rest with
      | none => cases hu
      | some r =>
        obtain rfl := List.mem_singleton.mp hu
        exact .oneOf (wellBehaved_partialRest fun t ht => child t (Schema.mem_children_of_rest ht)) .empty
  | struct a ps is =>
    rw [Schema.partialForm, Schema.structOf]
    refine .of_next trivial (fun q hq => ?_) fun u hu => ?_
    · obtain ⟨p, hp, rfl⟩ := Schema.mem_rankedProperties_optional hq
      exact hw.conventional _ (.refl scope _) p hp
    · rcases List.mem_append.mp hu with hu | hu
      · obtain ⟨q, hq, rfl⟩ := List.mem_map.mp hu
        obtain ⟨p, hp, rfl⟩ := Schema.mem_rankedProperties_optional hq
        exact child p.type (Schema.mem_children_of_property hp)
      · obtain ⟨i, hi, hu⟩ := List.mem_flatMap.mp hu
        exact child u (List.mem_append_right _ (List.mem_flatMap.mpr ⟨i, List.mem_mergeSort.mp hi, hu⟩))
  | _ => exact hw

/-- What a schema accepts, its partial form accepts. -/
theorem Passes.partialForm (hs : scope.WellBehaved direction s) (ht : scope.Untransformed s)
    (hx : scope.Passes direction true s x) (path : List Nat) :
    scope.Passes direction true (s.partialForm path) x := by
  refine (hs.productive.unfolds ht).induction (motive := fun t => scope.Passes direction true t x →
    ∀ path, scope.Passes direction true (t.partialForm path) x) (fun t hb ih => ?_) hx path
  have hw : scope.WellBehaved direction t := hs.part (ht.part hb)
  intro hx path
  cases t with
  | transform a u v c => exact absurd hb (ht a u v c)
  | typeAlias a ps t => exact ih t (mem_unfolding_behind List.mem_cons_self) hx path
  | refinement a t p =>
    obtain ⟨n, o, hn, ho⟩ := passes_iff_exists_run.mp hx
    rw [run_refinement] at hn
    have hbase := passes_iff_exists_run.mpr ⟨n, o, Refinement.parse_accepts hn ho, ho⟩
    exact ih t (mem_unfolding_behind List.mem_cons_self) hbase path
  | lazy a h =>
    obtain ⟨u, hu, hux⟩ := hx.force
    obtain ⟨n, o, hn, ho⟩ := passes_iff_exists_run.mp (ih u (mem_unfolding_lazy.mpr hu) hux path)
    refine passes_iff_exists_run.mpr ⟨n + 1, o, ?_, ho⟩
    rw [Schema.partialForm, run_lazy_succ, Scope.force, hu]
    exact hn
  | union a ss =>
    obtain ⟨o, ho, hpass⟩ := hx
    obtain ⟨u, hu, hux⟩ := ho.union_passes_iff.mp hpass
    obtain ⟨path', hp⟩ : ∃ path', u.partialForm path' ∈ Schema.partialForms path 0 ss :=
      Schema.exists_partialForm_mem hu
    rw [Schema.partialForm]
    refine WellBehaved.passes_oneOf (fun c hc => ?_) hp (ih u hu hux path') .empty
    obtain ⟨v, hv, path'', rfl⟩ := Schema.mem_partialForms hc
    have hbv : scope.Behind s v := hb.tail (mem_unfolding_behind hv)
    exact (hs.part (ht.part hbv)).partialForm (ht.behind hbv) path''
  | tuple a es rest readonly =>
    obtain ⟨items, hi⟩ := hx.exists_items
    have hsuits := (passes_tuple_iff hi).mp hx
    rw [Schema.partialForm, passes_tuple_iff hi]
    refine hsuits.optional (fun r => (Schema.partialRest r).head) fun r hr t ht v hv => ?_
    obtain rfl := hr
    have hparts := wellBehaved_partialRest fun t ht => hw.part (.child (Schema.mem_children_of_rest ht))
    exact WellBehaved.passes_oneOf hparts (List.mem_append_left _ ht) hv .empty
  | struct a ps is =>
    obtain ⟨es, he⟩ := hx.exists_entries
    rw [Schema.partialForm, Schema.structOf, passes_struct_iff he]
    exact ((passes_struct_iff he).mp hx).optional
  | _ => exact hx

/-- The partial form only widens. On a schema of which nothing faults and behind whose wrappers no transform stands,
the partial form decodes every value that the schema decodes, with or without warnings. -/
theorem partialForm_widens (hs : scope.Productive .decode s) (hc : scope.Conventional s)
    (ht : scope.Untransformed s) {o : Outcome} (ho : scope.Yields .decode s x o) (hf : o.isFailure = false)
    (path : List Nat) :
    ∃ p, scope.decode (s.partialForm path) x = .ok p ∧ scope.Yields .decode (s.partialForm path) x p ∧
      p.isFailure = false := by
  have hw : scope.WellBehaved .decode s := ⟨hs, hc⟩
  have hx : scope.Passes .decode true s x := ⟨o, ho, (Outcome.passes_true o).mpr hf⟩
  obtain ⟨q, hq, hpass⟩ := hx.partialForm hw ht path
  obtain ⟨p, hp⟩ := (hw.partialForm ht path).productive.run_of_fuelFor_le (le_refl (scope.fuelFor x))
  have hyields : scope.Yields .decode (s.partialForm path) x p := ⟨_, hp⟩
  obtain rfl := hq.unique hyields
  exact ⟨q, hp, hq, (Outcome.passes_true q).mp hpass⟩

theorem untransformed_of_unfolding (hs : s.kind ≠ .transform)
    (h : ∀ t ∈ scope.unfolding Schema.behind s, scope.Untransformed t) : scope.Untransformed s := by
  intro a u v c hb
  rcases Relation.ReflTransGen.cases_head hb with rfl | ⟨t, ht, hb⟩
  · exact hs rfl
  · exact h t ht a u v c hb

def listing : Schema :=
  .typeAlias .empty [] (.refinement .empty (.union .empty
    [.tuple .empty [⟨item, false⟩] (some ⟨.word .string, [.word .number]⟩) true, item]) (.named "always"))

/-- A list of an item, two texts and a number; the item comes back to its own schema. -/
theorem partialForm_widens_listing :
    let scope := Stock.scope [(0, .ok numbered)]
    let x : Value := .list [.dict [(.text "id", .int 1), (.text "next", .dict [(.text "id", .int 2)])],
      .text "a", .text "b", .int 3]
    scope.Yields .decode listing x (.success x) ∧
      ∃ p, scope.decode (listing.partialForm []) x = .ok p ∧ scope.Yields .decode (listing.partialForm []) x p ∧
        p.isFailure = false := by
  intro scope x
  have word (k : Keyword) : scope.WellBehaved .decode (.word k) :=
    .of_next trivial trivial fun _ ht => absurd ht List.not_mem_nil
  have hitem : scope.WellBehaved .decode item := ⟨productive_item, conventional_item⟩
  have hlisting : scope.WellBehaved .decode listing := by
    refine .of_next trivial trivial (List.forall_mem_singleton.mpr ?_)
    refine .of_next (fun _ _ _ _ => ⟨true, rfl⟩) trivial (List.forall_mem_singleton.mpr ?_)
    refine .of_next (List.cons_ne_nil _ _) trivial
      (List.forall_mem_cons.mpr ⟨?_, List.forall_mem_singleton.mpr hitem⟩)
    refine .of_next trivial trivial fun t ht => ?_
    simp only [next, Schema.children, List.map_cons, List.map_nil, Option.map_some, Option.getD_some, Rest.toList,
      List.singleton_append, List.mem_cons, List.not_mem_nil, or_false] at ht
    rcases ht with rfl | rfl | rfl
    · exact hitem
    · exact word .string
    · exact word .number
  have huntransformed : scope.Untransformed listing := by
    have closed {s : Schema} (hs : s.kind ≠ .transform) (hb : scope.unfolding Schema.behind s = []) :
        scope.Untransformed s := untransformed_of_unfolding hs (by simp [hb])
    have hitem : scope.Untransformed item := by
      refine untransformed_of_unfolding (by decide) (List.forall_mem_singleton.mpr ?_)
      refine untransformed_of_unfolding (by decide) (List.forall_mem_cons.mpr ⟨?_, List.forall_mem_singleton.mpr ?_⟩)
      · refine untransformed_of_unfolding (by decide) fun t ht => ?_
        obtain rfl := Except.ok.inj ((mem_unfolding_lazy.mp ht).symm.trans (by rfl : _ = Except.ok numbered))
        exact closed (by decide) rfl
      · exact closed (by decide) rfl
    refine untransformed_of_unfolding (by decide) (List.forall_mem_singleton.mpr ?_)
    refine untransformed_of_unfolding (by decide) (List.forall_mem_singleton.mpr ?_)
    refine untransformed_of_unfolding (by decide) (List.forall_mem_cons.mpr ⟨?_, List.forall_mem_singleton.mpr hitem⟩)
    exact closed (by decide) rfl
  have hx : scope.Yields .decode listing x (.success x) := ⟨2, rfl⟩
  exact ⟨hx, partialForm_widens hlisting.productive hlisting.conventional huntransformed hx rfl []⟩

end Scope
end Schemata
