import Schemata.Proofs.Decode.Order
import Schemata.Proofs.Schema.Canonical
import Schemata.Schema.Derived

/-!
Selected keys. What a struct stores for one declared key does not depend on which others are declared. So the struct of
some of the keys gives what the whole struct gives, restricted to them; all other entries are unexpected members of it,
those too that index signatures claimed before.
-/
namespace Schemata

namespace Struct
variable {ps : List (Property (Parser (Except Fault)))} {is : List (Index (Except Fault))} {es : Entries}

/-- No two groups keep members under one key, in whatever order the keys are declared. -/
theorem pairwise_stored_perm {qs : List (Property (Parser (Except Fault)))} (hps : ps.Perm qs)
    (hn : qs.Pairwise fun p q => p.name.equals q.name = false) (hd : es.distinct) (is : List (Index (Except Fault))) :
    ((groups ps is es).map stored).Pairwise Entries.Apart := by
  have hgroups : (groups ps is es).Perm (groups qs is es) := groups_perm hps (.refl es) hd
  apply ((hgroups.map stored).pairwise_iff Entries.Apart.symm).mpr
  exact pairwise_stored hn hd

theorem stored_entrySteps_of_nil (declared : List Value) (e : Value × Value) :
    stored (entrySteps (m := Except Fault) declared [] e) = [] := by
  rw [entrySteps]
  split <;> rfl

/-- A struct without index signatures stores what its declared keys store. -/
theorem flatten_stored_of_nil (qs : List (Property (Parser (Except Fault)))) :
    ((groups qs [] es).map stored).flatten = (qs.map fun p => stored (propertySteps es p)).flatten := by
  have hentries : es.flatMap (stored ∘ entrySteps (qs.map fun p => p.name) []) = [] :=
    List.flatMap_eq_nil_iff.mpr fun e _ => stored_entrySteps_of_nil _ e
  rw [groups, List.map_append, List.map_map, List.map_map, List.flatten_append, ← List.flatMap_def (l := es),
    hentries, List.append_nil]
  rfl

/-- What a struct gives, one declared key and one entry after another. -/
theorem ofList_groups (hapart : ((groups ps is es).map stored).Pairwise Entries.Apart) :
    Entries.ofList ((groups ps is es).map stored).flatten =
      (ps.flatMap fun p => Entries.ofList (stored (propertySteps es p))) ++
        es.flatMap fun e => Entries.ofList (stored (entrySteps (ps.map fun p => p.name) is e)) := by
  rw [Entries.ofList_flatten hapart, groups, List.map_append, List.map_map, List.map_map, List.flatMap_append,
    List.flatMap_map, List.flatMap_map]
  rfl

/-- What is stored under a declared key stands under one of the names. -/
theorem occursIn_names_of_stored (hd : es.distinct) {p : Property (Parser (Except Fault))} (hp : p ∈ ps)
    {e : Value × Value} (he : e ∈ stored (propertySteps es p)) : e.1.occursIn (ps.map fun p => p.name) := by
  obtain ⟨hname, hh⟩ := stored_propertySteps hd he
  obtain ⟨s, hs, _, hm⟩ := mem_stored he
  rw [hname]
  rw [propertySteps] at hs
  split at hs
  · rename_i v hv
    obtain ⟨k, hkv, hkp⟩ := (Entries.lookup_eq_some_iff hd).mp hv
    have hk : k.hashable := (Value.hashable_congr hkp).mpr hh
    refine (Value.occursIn_iff _ _).mpr ⟨p.name, List.mem_map_of_mem hp, ?_⟩
    exact Value.equals_trans (Value.equals_symm hk hkp) hkp
  · split at hs
    · cases hs
    · obtain rfl := List.mem_singleton.mp hs
      exact absurd rfl hm

section
variable (chosen : Value → Bool)

def selects (names : List Value) (e : Value × Value) : Bool :=
  e.1.occursIn names && chosen e.1

theorem filter_stored_declared (hd : es.distinct) {p : Property (Parser (Except Fault))} (hp : p ∈ ps) :
    (Entries.ofList (stored (propertySteps es p))).filter (selects chosen (ps.map fun p => p.name)) =
      if chosen p.name then Entries.ofList (stored (propertySteps es p)) else [] := by
  have hselects : ∀ e ∈ Entries.ofList (stored (propertySteps es p)),
      selects chosen (ps.map fun p => p.name) e = chosen p.name := by
    intro e he
    obtain ⟨f, hf, hk⟩ := Entries.mem_ofList he
    obtain ⟨hname, _⟩ := stored_propertySteps hd hf
    rw [selects, ← hk, occursIn_names_of_stored hd hp hf, hname, Bool.true_and]
  cases h : chosen p.name with
  | true => exact List.filter_eq_self.mpr fun e he => (hselects e he).trans h
  | false => exact List.filter_eq_nil_iff.mpr fun e he => by simp [hselects e he, h]

theorem filter_stored_undeclared (entry : Value × Value) :
    (Entries.ofList (stored (entrySteps (ps.map fun p => p.name) is entry))).filter
      (selects chosen (ps.map fun p => p.name)) = [] := by
  refine List.filter_eq_nil_iff.mpr fun e he => ?_
  obtain ⟨f, hf, hk⟩ := Entries.mem_ofList he
  obtain ⟨hname, hocc⟩ := stored_entrySteps hf
  simp [selects, ← hk, hname, hocc]

/-- The chosen declarations give what the struct gives, restricted to declared keys that are chosen. -/
theorem filter_stored (hapart : ((groups ps is es).map stored).Pairwise Entries.Apart) (hd : es.distinct) :
    (Entries.ofList ((groups ps is es).map stored).flatten).filter (selects chosen (ps.map fun p => p.name)) =
      Entries.ofList ((groups (ps.filter fun p => chosen p.name) [] es).map stored).flatten := by
  have hdeclared : (ps.map fun p => stored (propertySteps es p)).Pairwise Entries.Apart := by
    rw [groups, List.map_append, List.map_map, List.pairwise_append] at hapart
    exact hapart.1
  have hchosen := hdeclared.sublist ((List.filter_sublist (p := fun p => chosen p.name)).map _)
  have hentries : (es.flatMap fun e => Entries.ofList (stored (entrySteps (ps.map fun p => p.name) is e))).filter
      (selects chosen (ps.map fun p => p.name)) = [] := by
    rw [List.filter_flatMap]
    exact List.flatMap_eq_nil_iff.mpr fun e _ => filter_stored_undeclared chosen e
  -- No two groups have a key in common, so the restriction can be made group by group.
  rw [ofList_groups hapart, List.filter_append, hentries, List.append_nil, List.filter_flatMap]
  rw [flatten_stored_of_nil, Entries.ofList_flatten hchosen, List.flatMap_map, Lists.flatMap_filter]
  exact List.flatMap_congr fun p hp => filter_stored_declared chosen hd hp

/-- The steps of the chosen declarations pass where all steps do. -/
theorem passes_selection (h : ∀ s ∈ steps ps is es, s.Passes) :
    ∀ s ∈ steps (ps.filter fun p => chosen p.name) [] es, s.Passes := by
  intro s hs
  cases List.mem_append.mp hs with
  | inl hs =>
    obtain ⟨p, hp, hs⟩ := List.mem_flatMap.mp hs
    apply h
    exact List.mem_append_left _ (List.mem_flatMap.mpr ⟨p, List.mem_of_mem_filter hp, hs⟩)
  | inr hs =>
    obtain ⟨e, _, hs⟩ := List.mem_flatMap.mp hs
    rw [entrySteps] at hs
    split at hs
    · cases hs
    · obtain rfl := List.mem_singleton.mp hs
      trivial

theorem rebuild_steps : rebuild ((steps ps is es).flatMap Step.members) =
    .dict (Entries.ofList ((groups ps is es).map stored).flatten) := by
  rw [← flatten_groups, rebuild_flatten]

variable {scope : Scope} {x : Value} {a : Annotations}

/-- Where a struct accepts, so do the chosen declarations, and they give the chosen part of the result. -/
theorem parse_selection (hapart : ((groups ps is es).map stored).Pairwise Entries.Apart) (hx : x.entries? = some es)
    (hd : es.distinct) {o : Outcome} (ho : parse scope a ps is x = .ok o) (hf : o.isFailure = false)
    (b : Annotations) :
    ∃ out q, o.value? = some (.dict out) ∧
      parse scope b (ps.filter fun p => chosen p.name) [] x = .ok q ∧
      q.value? = some (.dict (out.filter (selects chosen (ps.map fun p => p.name)))) := by
  obtain ⟨es', hes', hpass, rfl⟩ := parse_accepts_iff.mp ⟨ho, hf⟩
  obtain rfl := Option.some.inj (hx.symm.trans hes')
  refine ⟨Entries.ofList ((groups ps is es).map stored).flatten, _, ?_,
    And.left (parse_accepts_iff.mpr ⟨es, hx, passes_selection chosen hpass, rfl⟩), ?_⟩
  · rw [Outcome.value?_warn, rebuild_steps]
  · rw [Outcome.value?_warn, rebuild_steps, filter_stored chosen hapart hd]

end
end Struct

/-- Declared keys chosen from ranked ones are ranked. -/
theorem Schema.structOf_filter (ps : List (Property Schema)) (chosen : Value → Bool) (a : Annotations) :
    structOf ((rankedProperties ps).filter fun p => chosen p.name) [] a =
      struct a ((rankedProperties ps).filter fun p => chosen p.name) [] := by
  have hranked : rankedProperties ((rankedProperties ps).filter fun p => chosen p.name) =
      (rankedProperties ps).filter fun p => chosen p.name := by
    apply List.mergeSort_of_pairwise
    refine List.Pairwise.filter _ ((pairwise_sorted (fun p => p.type.cardinality) ps).imp fun hpq => ?_)
    exact decide_eq_true hpq
  rw [structOf, hranked, rankedIndexes, List.mergeSort_nil]

namespace Scope
variable {scope : Scope} {direction : Direction} {x v : Value} {ps : List (Property Schema)}
  {is : List (IndexSignature Schema)} {es : Entries} {o : Outcome} {a : Annotations}

/-- A struct of some of the declared keys gives what the struct of all gives under them. -/
theorem yields_selection (chosen : Value → Bool) (hn : ps.Pairwise fun p q => p.name.equals q.name = false)
    (hx : x.entries? = some es) (hd : es.distinct) (ho : scope.Yields direction (.structOf ps is a) x o)
    (hv : o.value? = some v) (b : Annotations) :
    ∃ out q, v = .dict out ∧
      scope.Yields direction (.struct b ((Schema.rankedProperties ps).filter fun p => chosen p.name) []) x q ∧
      q.value? = some (.dict (out.filter (Struct.selects chosen
        ((Schema.rankedProperties ps).map fun p => p.name)))) := by
  obtain ⟨n, hr⟩ := ho
  have hf : o.isFailure = false := (Outcome.isFailure_iff o).mpr ⟨v, hv⟩
  rw [Schema.structOf, run_struct] at hr
  have hperm := (rankedProperties_perm ps).map (Property.map (scope.run direction n))
  have hapart := Struct.pairwise_stored_perm hperm (List.pairwise_map.mpr hn) hd
    ((Schema.rankedIndexes is).map (IndexSignature.parsers (scope.run direction n)))
  obtain ⟨out, q, hout, hq, hrestricted⟩ := Struct.parse_selection chosen hapart hx hd hr hf b
  rw [Struct.names_map] at hrestricted
  refine ⟨out, q, Option.some.inj (hv.symm.trans hout), ⟨n, ?_⟩, hrestricted⟩
  rw [run_struct, ← hq, List.filter_map]
  rfl

/-- Some of the declared keys and the others make up what a canonical struct declares. What the struct gives, restricted
to the ones and to the others, is what the structs of the ones and of the others give. -/
theorem selections_restrict (scope : Scope) (direction : Direction) (a : Annotations) {ps : List (Property Schema)}
    (is : List (IndexSignature Schema)) (keys : List Value)
    (hn : ps.Pairwise fun p q => p.name.equals q.name = false) :
    ∃ all picked rest, scope.propertySignatures (.structOf ps is a) = .ok all ∧
      scope.pick (.structOf ps is a) keys = .ok picked ∧ scope.without (.structOf ps is a) keys = .ok rest ∧
      scope.propertySignatures picked = .ok (all.filter fun p => p.name.occursIn keys) ∧
      scope.propertySignatures rest = .ok (all.filter fun p => !p.name.occursIn keys) ∧
      ∀ (x : Value) (es : Entries), x.entries? = some es → es.distinct →
        ∀ o v, scope.Yields direction (.structOf ps is a) x o → o.value? = some v →
          let declared := all.map fun p => p.name
          ∃ out, v = .dict out ∧
            (∃ q, scope.Yields direction picked x q ∧
              q.value? = some (.dict (out.filter fun e => e.1.occursIn declared && e.1.occursIn keys))) ∧
            ∃ r, scope.Yields direction rest x r ∧
              r.value? = some (.dict (out.filter fun e => e.1.occursIn declared && !e.1.occursIn keys)) := by
  have hpick := Schema.structOf_filter ps (fun name => name.occursIn keys) .empty
  have hwithout := Schema.structOf_filter ps (fun name => !name.occursIn keys) .empty
  refine ⟨Schema.rankedProperties ps, _, _, rfl, congrArg Except.ok hpick, congrArg Except.ok hwithout, rfl, rfl,
    fun x es hx hd o v ho hv => ?_⟩
  intro declared
  obtain ⟨out, q, hout, hq, hqv⟩ := yields_selection (fun name => name.occursIn keys) hn hx hd ho hv .empty
  obtain ⟨out', r, hout', hr, hrv⟩ := yields_selection (fun name => !name.occursIn keys) hn hx hd ho hv .empty
  obtain rfl := Value.dict.inj (hout.symm.trans hout')
  exact ⟨out, hout, ⟨q, hq, hqv⟩, r, hr, hrv⟩

def parcel : List (Property Schema) × List (IndexSignature Schema) :=
  ([⟨.text "label", .word .string, false, false, .empty⟩,
    ⟨.int 1, .transform .empty (.word .number) (.word .unknown) ⟨"wrap", 0, "item", "box"⟩, true, false, .empty⟩],
    [⟨.word .string, .word .string, false⟩])

/-- The boxed number of a parcel by itself, under a key that equals its name, and the label by itself. -/
theorem selections_restrict_parcel :
    let scope := Stock.scope []
    let s := Schema.structOf parcel.1 parcel.2 .empty
    let x : Value := .dict [(.bool true, .int 5), (.symbol "s", .null), (.text "note", .text "n"),
      (.text "label", .text "a")]
    ∃ picked rest, scope.pick s [.text "note", .bool true] = .ok picked ∧
      scope.without s [.text "note", .bool true] = .ok rest ∧
      (∃ q, scope.Yields .decode picked x q ∧ q.value? = some (.dict [(.int 1, .list [.int 5])])) ∧
      ∃ r, scope.Yields .decode rest x r ∧ r.value? = some (.dict [(.text "label", .text "a")]) := by
  intro scope s x
  have hranked : Schema.rankedProperties parcel.1 = parcel.1 := List.mergeSort_of_pairwise (by decide)
  have hdistinct : parcel.1.Pairwise fun p q => p.name.equals q.name = false := by decide
  have hs : s = .struct .empty parcel.1 parcel.2 :=
    congrArg₂ (Schema.struct .empty) hranked (List.mergeSort_singleton _)
  have ho : scope.Yields .decode s x (.warning (.dict [(.text "label", .text "a"), (.int 1, .list [.int 5]),
      (.text "note", .text "n")]) [.within (.key (.symbol "s")) [.unexpected (.key (.symbol "s"))]]) := by
    rw [hs]
    exact ⟨0, rfl⟩
  obtain ⟨all, picked, rest, hall, hpicked, hrest, _, _, hvalues⟩ :=
    selections_restrict scope .decode .empty parcel.2 [.text "note", .bool true] hdistinct
  obtain rfl : parcel.1 = all := hranked ▸ Except.ok.inj hall
  obtain ⟨out, hout, hq, hr⟩ := hvalues x _ rfl (by decide) _ _ ho rfl
  obtain rfl := Value.dict.inj hout
  exact ⟨picked, rest, hpicked, hrest, hq, hr⟩

end Scope
end Schemata
