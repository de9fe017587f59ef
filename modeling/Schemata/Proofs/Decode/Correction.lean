import Schemata.Proofs.Decode.Places
import Schemata.Proofs.Decode.RoundTrip

/-!
Correction is done once. Decoding what decoding gave gives it again, with the warnings that are not about unexpected
members: those members are gone, and what else there was to warn of is still there. The induction is along the first
run; a container hands on to its parts what they gave, in the order in which they gave it.
-/
namespace Schemata

namespace Problem

def branch (f : List Problem → Problem) (ps : List Problem) : List Problem :=
  if ps.isEmpty then [] else [f ps]

mutual

/-- What stands of a problem without the reports of unexpected members. A branch that this leaves empty goes as well. -/
def standing : Problem → List Problem
  | unexpected _ => []
  | within segment ps => branch (within segment) (standingOfAll ps)
  | ofMember ps => branch ofMember (standingOfAll ps)
  | p => [p]

def standingOfAll : List Problem → List Problem
  | [] => []
  | p :: ps => p.standing ++ standingOfAll ps

end

theorem standingOfAll_eq (ps : List Problem) : standingOfAll ps = ps.flatMap standing := by
  induction ps with
  | nil => rfl
  | cons p ps ih => rw [standingOfAll, ih, List.flatMap_cons]

theorem standingOfAll_append (ps qs : List Problem) :
    standingOfAll (ps ++ qs) = standingOfAll ps ++ standingOfAll qs := by
  simp only [standingOfAll_eq, List.flatMap_append]

theorem standingOfAll_flatMap {α : Type} (as : List α) (f : α → List Problem) :
    standingOfAll (as.flatMap f) = as.flatMap fun a => standingOfAll (f a) := by
  simp only [standingOfAll_eq, List.flatMap_assoc]

theorem standingOfAll_anomaly (v : Value) : standingOfAll (Scope.anomaly? v).toList = (Scope.anomaly? v).toList := by
  rw [Scope.anomaly?]
  split
  · rfl
  · split <;> rfl

end Problem

open Problem (branch standing standingOfAll)

/-- What a parser gives for a value it gives again for that, with the warnings that stand. -/
def SettlesOn (p : Parser (Except Fault)) (x w : Value) : Prop :=
  ∃ o, p x = .ok o ∧ o.value? = some w ∧ p w = .ok (.warn w (standingOfAll o.warnings))

namespace SettlesOn
variable {p : Parser (Except Fault)} {x w : Value} {segment : Segment}

theorem passes_again (h : SettlesOn p x w) : (Step.take segment p w).Passes := by
  obtain ⟨o, _, _, hw⟩ := h
  exact ⟨_, hw, Outcome.isFailure_warn _ _⟩

theorem members (h : SettlesOn p x w) : (Step.take segment p x).members = [(segment, w)] := by
  obtain ⟨o, ho, hv, _⟩ := h
  exact Step.members_take ho hv

theorem members_again (h : SettlesOn p x w) : (Step.take segment p w).members = [(segment, w)] := by
  obtain ⟨o, _, _, hw⟩ := h
  exact Step.members_take hw (Outcome.value?_warn _ _)

theorem warnings_again (h : SettlesOn p x w) :
    (Step.take segment p w).warnings = standingOfAll (Step.take segment p x).warnings := by
  obtain ⟨o, ho, hv, hw⟩ := h
  have hagain : (Step.take segment p w).warnings = branch (.within segment) (standingOfAll o.warnings) := by
    rw [Step.warnings, hw]
    cases standingOfAll o.warnings <;> rfl
  rw [hagain, Step.warnings, ho]
  cases o with
  | success v => rfl
  | failure ps => cases hv
  | warning v ps => simp [standingOfAll, standing, Outcome.warnings]

end SettlesOn

namespace Struct
variable {ps : List (Property Schema)} {is : List (IndexSignature Schema)} {es : Entries} {m : Type → Type}

/-- What is made of the steps through a table whose keys are claimed once each, when nothing is made of steps that keep
nothing. -/
theorem flatMap_steps {f : Schema → Parser m} {γ : Type} {g : Step m → List γ}
    (hu : ∀ symbols, (is.filter fun i => i.parameter.isKeyword .symbol == symbols).length ≤ 1)
    (hcheck : ∀ segment p v, g (.check segment p v) = []) (hmissing : ∀ segment, g (.missing segment) = [])
    (hunexpected : ∀ segment, g (.unexpected segment) = []) :
    (steps (ps.map (Property.map f)) (is.map (IndexSignature.parsers f)) es).flatMap g =
      (found ps es).flatMap (fun r => g (.take (.key r.1.name) (f r.1.type) r.2.2)) ++
        (claimed IndexSignature.claims (ps.map fun p => p.name) is es).flatMap fun r =>
          g (.take (.key r.2.1) (f r.1.type) r.2.2) := by
  rw [steps, names_map, List.flatMap_map, List.flatMap_append, List.flatMap_assoc, List.flatMap_assoc]
  congr 1
  · rw [found, List.filterMap_eq_flatMap_toList, List.flatMap_assoc]
    apply List.flatMap_congr
    intro p hp
    cases hf : es.find? fun e => e.1.equals p.name with
    | some e => simp [propertySteps, Property.map, Entries.lookup, hf]
    | none => cases ho : p.optional <;> simp [propertySteps, Property.map, Entries.lookup, hf, ho, hmissing]
  · rw [claimed, List.filterMap_eq_flatMap_toList, List.flatMap_assoc]
    apply List.flatMap_congr
    intro e he
    rw [entrySteps, filter_parsers]
    cases hd : e.1.occursIn (ps.map fun p => p.name) with
    | true => simp
    | false =>
      have hfirst : (is.find? fun i => i.claims e.1) = (is.filter fun i => i.claims e.1).head? := List.head?_filter.symm
      have hcases : (is.filter fun i => i.claims e.1) = [] ∨ ∃ i, (is.filter fun i => i.claims e.1) = [i] :=
        claiming_cases hu e.1
      rcases hcases with hc | ⟨i, hc⟩ <;> rw [hc] at hfirst <;>
        simp [hc, hfirst, hcheck, hunexpected, IndexSignature.parsers]

structure Settles (f : Schema → Parser (Except Fault)) (ps : List (Property Schema))
    (is : List (IndexSignature Schema)) (es : Entries) : Prop where
  names : ps.Pairwise fun p q => p.name.equals q.name = false
  claims : ∀ symbols, (is.filter fun i => i.parameter.isKeyword .symbol == symbols).length ≤ 1
  distinct : es.distinct
  passes : ∀ s ∈ steps (ps.map (Property.map f)) (is.map (IndexSignature.parsers f)) es, s.Passes
  declared : ∀ r ∈ found ps es, SettlesOn (f r.1.type) r.2.2 (valueOf (f r.1.type) r.2.2)
  undeclared : ∀ r ∈ claimed IndexSignature.claims (ps.map fun p => p.name) is es,
    SettlesOn (f r.1.type) r.2.2 (valueOf (f r.1.type) r.2.2)

namespace Settles
variable {f : Schema → Parser (Except Fault)}

theorem fits (h : Settles f ps is es) : Fits ps is (results f ps is es) := by
  refine fits_respell h.distinct h.names (fun p hp hf => ?_) (fun r hr => ?_) _ _
  · exact (passes_steps_iff.mp h.passes).missing p hp (by simp [Entries.lookup, hf])
  · obtain ⟨_, _, hf⟩ := mem_claimed hr
    have hmem : r.1 ∈ is.filter fun i => i.claims r.2.1 :=
      List.mem_filter.mpr ⟨List.mem_of_find?_eq_some hf, by simpa using List.find?_some hf⟩
    exact (claiming_cases h.claims r.2.1).resolve_left fun hnil => List.ne_nil_of_mem hmem hnil

theorem members (h : Settles f ps is es) :
    ((steps (ps.map (Property.map f)) (is.map (IndexSignature.parsers f)) es).flatMap Step.members).map
      (fun e => (segmentKey e.1, e.2)) = results f ps is es := by
  rw [flatMap_steps h.claims (fun _ _ _ => rfl) (fun _ => rfl) fun _ => rfl, List.map_append, List.map_flatMap,
    List.map_flatMap, results, respell]
  congr 1
  · refine (List.flatMap_congr fun r hr => ?_).trans List.map_eq_flatMap.symm
    rw [(h.declared r hr).members]
    rfl
  · refine (List.flatMap_congr fun r hr => ?_).trans List.map_eq_flatMap.symm
    rw [(h.undeclared r hr).members]
    rfl

/-- What is made of the steps through the table that came out. -/
theorem flatMap_steps_again (h : Settles f ps is es) {γ : Type} {g : Step (Except Fault) → List γ}
    (hcheck : ∀ segment p v, g (.check segment p v) = []) :
    (steps (ps.map (Property.map f)) (is.map (IndexSignature.parsers f)) (results f ps is es)).flatMap g =
      (found ps es).flatMap (fun r => g (.take (.key r.1.name) (f r.1.type) (valueOf (f r.1.type) r.2.2))) ++
        (claimed IndexSignature.claims (ps.map fun p => p.name) is es).flatMap fun r =>
          g (.take (.key r.2.1) (f r.1.type) (valueOf (f r.1.type) r.2.2)) := by
  rw [h.fits.steps_eq f, results, found_respell _ _ h.distinct h.names selfClaims_index,
    claimed_respell _ _ h.distinct, List.map_map, List.flatMap_map, List.flatMap_append, List.flatMap_map,
    List.flatMap_assoc]
  simp [hcheck]

theorem passes_again (h : Settles f ps is es) :
    ∀ s ∈ steps (ps.map (Property.map f)) (is.map (IndexSignature.parsers f)) (results f ps is es), s.Passes := by
  rw [h.fits.steps_eq f, results, found_respell _ _ h.distinct h.names selfClaims_index,
    claimed_respell _ _ h.distinct, List.map_map, List.flatMap_map, List.forall_mem_append, List.forall_mem_map]
  refine ⟨fun r hr => (h.declared r hr).passes_again, fun s hs => ?_⟩
  obtain ⟨r, hr, hs⟩ := List.mem_flatMap.mp hs
  simp only [List.mem_cons, List.not_mem_nil, or_false] at hs
  rcases hs with rfl | rfl
  · obtain ⟨he, hd, hf⟩ := mem_claimed hr
    exact h.passes _ (mem_steps_iff.mpr (.parameter he hd (List.mem_of_find?_eq_some hf)
      (by simpa using List.find?_some hf)))
  · exact (h.undeclared r hr).passes_again

theorem members_again (h : Settles f ps is es) :
    ((steps (ps.map (Property.map f)) (is.map (IndexSignature.parsers f)) (results f ps is es)).flatMap
      Step.members).map (fun e => (segmentKey e.1, e.2)) = results f ps is es := by
  refine .trans ?_ h.members
  rw [h.flatMap_steps_again fun _ _ _ => rfl, flatMap_steps h.claims (fun _ _ _ => rfl) (fun _ => rfl) fun _ => rfl]
  congr 2
  · exact List.flatMap_congr fun r hr => (h.declared r hr).members_again.trans (h.declared r hr).members.symm
  · exact List.flatMap_congr fun r hr => (h.undeclared r hr).members_again.trans (h.undeclared r hr).members.symm

theorem warnings_again (h : Settles f ps is es) :
    (steps (ps.map (Property.map f)) (is.map (IndexSignature.parsers f)) (results f ps is es)).flatMap Step.warnings =
      standingOfAll
        ((steps (ps.map (Property.map f)) (is.map (IndexSignature.parsers f)) es).flatMap Step.warnings) := by
  rw [h.flatMap_steps_again fun _ _ _ => rfl, Problem.standingOfAll_flatMap,
    flatMap_steps h.claims (fun _ _ _ => rfl) (fun _ => rfl) fun _ => rfl]
  congr 1
  · exact List.flatMap_congr fun r hr => (h.declared r hr).warnings_again
  · exact List.flatMap_congr fun r hr => (h.undeclared r hr).warnings_again

theorem rebuild_eq (h : Settles f ps is es) {ms : List (Segment × Value)}
    (hms : ms.map (fun e => (segmentKey e.1, e.2)) = results f ps is es) :
    rebuild ms = .dict (results f ps is es) := by
  have hd : (results f ps is es).distinct := respell_distinct _ _ h.distinct h.names selfClaims_index
  rw [rebuild, hms, Entries.ofList_of_pairwise ((Entries.distinct_iff _).mp hd).2]

/-- A struct gives what its parts give, and that again. -/
theorem settlesOn (h : Settles f ps is es) (scope : Scope) (a : Annotations) {x : Value} (hx : x.entries? = some es) :
    SettlesOn (parse scope a (ps.map (Property.map f)) (is.map (IndexSignature.parsers f))) x
      (.dict (results f ps is es)) := by
  have hfirst := (@parse_accepts_iff scope a _ _ x _).mpr ⟨es, hx, h.passes, rfl⟩
  have hagain := (@parse_accepts_iff scope a _ _ (.dict (results f ps is es)) _).mpr
    ⟨_, rfl, h.passes_again, rfl⟩
  rw [h.rebuild_eq h.members] at hfirst
  rw [h.rebuild_eq h.members_again, h.warnings_again] at hagain
  exact ⟨_, hfirst.1, Outcome.value?_warn _ _, by rw [Outcome.warnings_warn]; exact hagain.1⟩

end Settles
end Struct

namespace Tuple
variable {σ : Type} {es : List (Element σ)} {rest : Option (Rest σ)} {count i : Nat}

theorem part_keptCount (hi : i < keptCount es rest count) :
    part es rest (keptCount es rest count) i = part es rest count i := by
  cases rest with
  | some r => rfl
  | none => simp [part]

theorem keptCount_keptCount : keptCount es rest (keptCount es rest count) = keptCount es rest count := by
  cases rest with
  | some r => rfl
  | none => simp [keptCount]

theorem absent_of_keptCount (h : Absent es rest (keptCount es rest count) i) : Absent es rest count i := by
  cases rest with
  | some r => exact h
  | none =>
    obtain ⟨hi, ⟨e, he, ho⟩ | ⟨r, hr, _⟩⟩ := h
    · obtain ⟨hlt, _⟩ := List.getElem?_eq_some_iff.mp he
      rw [keptCount] at hi
      simp only [Option.isSome_none, Bool.false_eq_true, if_false] at hi
      exact ⟨by omega, .inl ⟨e, he, ho⟩⟩
    · cases hr

section
variable {f : σ → Parser (Except Fault)} {items : List Value} {outcomes : Nat → Outcome} {x : Value}

/-- The outcomes of the items that a run has passed. -/
theorem exists_given_of_passes
    (h : ∀ s ∈ steps (es.map (Element.map f)) (rest.map (Rest.map f)) items, s.Passes) :
    ∃ outcomes, Given f es rest items outcomes ∧ ∀ i, ¬Refused es rest items.length outcomes i := by
  obtain ⟨hgaps, hitem⟩ := passes_steps_iff.mp h
  have hexists (i : Nat) : ∃ o : Outcome, o.isFailure = false ∧
      ∀ t, part es rest items.length i = some t → ∀ v, items[i]? = some v → f t v = .ok o := by
    by_cases hi : ∃ t v, part es rest items.length i = some t ∧ items[i]? = some v
    · obtain ⟨t, v, ht, hv⟩ := hi
      have hlt : i < items.length := (List.getElem?_eq_some_iff.mp hv).1
      obtain ⟨o, ho, hf⟩ := hitem i t v (by rw [getElem?_assigned hlt, ht]) hv
      refine ⟨o, hf, fun t' ht' v' hv' => ?_⟩
      obtain rfl := Option.some.inj (ht.symm.trans ht')
      obtain rfl := Option.some.inj (hv.symm.trans hv')
      exact ho
    · exact ⟨.success .null, rfl, fun t ht v hv => absurd ⟨t, v, ht, hv⟩ hi⟩
  choose outcomes hgood hgiven using hexists
  refine ⟨outcomes, hgiven, ?_⟩
  rintro i (⟨_, hf⟩ | hi)
  · rw [hgood i] at hf
    cases hf
  · rcases gaps_cases es rest items.length with ⟨_, hnone⟩ | ⟨k, ks, hks, _⟩
    · exact hnone i hi
    · rw [hgaps] at hks
      cases hks

theorem itemWarnings_warn {w : Value} {ps : List Problem} (h : outcomes i = .warn w ps) :
    itemWarnings outcomes i = branch (.within (.index i)) ps := by
  rw [itemWarnings, h]
  cases ps <;> rfl

theorem standingOfAll_itemWarnings (outcomes : Nat → Outcome) (i : Nat) :
    standingOfAll (itemWarnings outcomes i) = branch (.within (.index i)) (standingOfAll (outcomes i).warnings) := by
  rw [itemWarnings]
  cases outcomes i with
  | success | failure => rfl
  | warning w ps => simp [standingOfAll, standing, Outcome.warnings]

theorem standingOfAll_reports (es : List (Element σ)) (rest : Option (Rest σ)) (count : Nat)
    (outcomes : Nat → Outcome) :
    standingOfAll (reports es rest count outcomes) = (List.range (keptCount es rest count)).flatMap fun i =>
      branch (.within (.index i)) (standingOfAll (outcomes i).warnings) := by
  rw [reports, Problem.standingOfAll_append, List.map_eq_flatMap, Problem.standingOfAll_flatMap,
    Problem.standingOfAll_flatMap]
  simp [standingOfAll_itemWarnings, standingOfAll, standing, branch]

/-- A tuple gives what its items give, and that again. -/
theorem settlesOn (scope : Scope) (a : Annotations) (hx : x.items? = some items) (h : Given f es rest items outcomes)
    (hnone : ∀ i, ¬Refused es rest items.length outcomes i)
    (hsettles : ∀ i t, part es rest items.length i = some t → ∀ y, items[i]? = some y →
      ∀ w, (outcomes i).value? = some w → f t w = .ok (.warn w (standingOfAll (outcomes i).warnings))) :
    ∃ v, SettlesOn (parse scope a (es.map (Element.map f)) (rest.map (Rest.map f))) x v := by
  obtain ⟨outs, hl, hvalues, hparse⟩ := parse_kept scope a hx h hnone
  let again (i : Nat) : Outcome := .warn (outs[i]?.getD .null) (standingOfAll (outcomes i).warnings)
  have houts : (rebuild x outs).items? = some outs := by
    cases x <;> rfl
  have hitem {i : Nat} (hi : i < outs.length) : ∃ w, outs[i]? = some w ∧ (outcomes i).value? = some w ∧
      again i = .warn w (standingOfAll (outcomes i).warnings) := by
    have hw : outs[i]? = some outs[i] := List.getElem?_eq_getElem hi
    exact ⟨outs[i], hw, (hvalues i (hl ▸ hi)).trans hw, by simp only [again, hw, Option.getD_some]⟩
  have hgiven : Given f es rest outs again := by
    intro i t ht w hw
    have hi : i < outs.length := (List.getElem?_eq_some_iff.mp hw).1
    obtain ⟨w', hw', hv, hagain⟩ := hitem hi
    obtain rfl := Option.some.inj (hw.symm.trans hw')
    have hk : i < keptCount es rest items.length := hl ▸ hi
    have hlt : i < items.length := Nat.lt_of_lt_of_le hk keptCount_le
    rw [hl, part_keptCount hk] at ht
    rw [hagain]
    exact hsettles i t ht items[i] (List.getElem?_eq_getElem hlt) w hv
  have hnone' : ∀ i, ¬Refused es rest outs.length again i := by
    rintro i (⟨_, hf⟩ | hi)
    · simp [again, Outcome.isFailure_warn] at hf
    · exact hnone i (.inr (absent_of_keptCount (hl ▸ hi)))
  have hkept : keptCount es rest outs.length = outs.length := by
    rw [hl, keptCount_keptCount]
  obtain ⟨outs', hl', hvalues', hparse'⟩ := parse_kept scope a houts hgiven hnone'
  obtain rfl : outs' = outs := by
    rw [hkept] at hl' hvalues'
    apply List.ext_getElem?
    intro i
    rcases Nat.lt_or_ge i outs.length with hi | hi
    · obtain ⟨w, hw, _, hagain⟩ := hitem hi
      rw [← hvalues' i hi, hagain, hw, Outcome.value?_warn]
    · rw [List.getElem?_eq_none hi, List.getElem?_eq_none (hl' ▸ hi)]
  have hreports : reports es rest outs'.length again = standingOfAll (reports es rest items.length outcomes) := by
    rw [standingOfAll_reports, reports, hkept, hl, Nat.sub_self, List.range'_zero, List.map_nil, List.append_nil]
    refine List.flatMap_congr fun i hi => ?_
    obtain ⟨w, _, _, hagain⟩ := hitem (hl ▸ List.mem_range.mp hi)
    exact itemWarnings_warn hagain
  have hrebuild : rebuild (rebuild x outs') outs' = rebuild x outs' := by
    cases x <;> rfl
  rw [hreports, hrebuild] at hparse'
  exact ⟨rebuild x outs', _, hparse, Outcome.value?_warn _ _, by rw [Outcome.warnings_warn]; exact hparse'⟩

end

end Tuple

namespace Scope
variable {scope : Scope}

def Settles (scope : Scope) (n : Nat) (s : Schema) : Prop :=
  ∀ x v o, x.wellFormed → scope.run .decode n s x = .ok o → o.value? = some v → SettlesOn (scope.run .decode n s) x v

theorem settles_atom {n : Nat} {s : Schema} (hs : s.isAtom) (hc : s.converts = false) : scope.Settles n s := by
  intro x v o _ hr hv
  obtain ⟨p, hp, hid⟩ := scope.run_atom hs hc x
  obtain rfl := Except.ok.inj (hr.symm.trans (hp .decode n))
  refine ⟨o, hr, hv, ?_⟩
  rcases hid ((Outcome.isFailure_iff _).mpr ⟨v, hv⟩) with rfl | rfl
  · obtain rfl := Option.some.inj hv
    exact hr
  · rw [Outcome.value?_warn] at hv
    obtain rfl := Option.some.inj hv
    rw [Outcome.warnings_warn, Problem.standingOfAll_anomaly]
    exact hr

theorem settles_refinement {n : Nat} {a : Annotations} {s : Schema} {p : Predicate} (h : scope.Settles n s) :
    scope.Settles n (.refinement a s p) := by
  intro x v o hx hr hv
  rw [run_refinement] at hr ⊢
  have haccepts := Refinement.decode_accepts_iff.mp ⟨hr, (Outcome.isFailure_iff o).mpr ⟨v, hv⟩⟩
  obtain ⟨hb, w, hw, ht⟩ := haccepts
  obtain rfl := Option.some.inj (hv.symm.trans hw)
  obtain ⟨o', ho', _, hagain⟩ := h x v o hx hb hv
  obtain rfl := Except.ok.inj (hb.symm.trans ho')
  exact ⟨o, hr, hv, (Refinement.decode_accepts_iff.mpr ⟨hagain, v, Outcome.value?_warn _ _, ht⟩).1⟩

theorem settles_tuple {n : Nat} {a : Annotations} {es : List (Element Schema)} {rest : Option (Rest Schema)}
    {readonly : Bool} (h : ∀ t ∈ (Schema.tuple a es rest readonly).children, scope.Settles n t) :
    scope.Settles n (.tuple a es rest readonly) := by
  intro x v o hx hr hv
  rw [run_tuple] at hr ⊢
  obtain ⟨items, hi, hpass, _⟩ := Tuple.parse_accepts_iff.mp ⟨hr, (Outcome.isFailure_iff o).mpr ⟨v, hv⟩⟩
  obtain ⟨outcomes, hgiven, hnone⟩ := Tuple.exists_given_of_passes hpass
  have hsettles : ∀ i t, Tuple.part es rest items.length i = some t → ∀ y, items[i]? = some y →
      ∀ w, (outcomes i).value? = some w →
        scope.run .decode n t w = .ok (.warn w (standingOfAll (outcomes i).warnings)) := by
    intro i t ht y hy w hw
    have hlt : i < items.length := (List.getElem?_eq_some_iff.mp hy).1
    have hchild : t ∈ (Schema.tuple a es rest readonly).children :=
      Tuple.mem_assigned (List.mem_of_getElem? (ht ▸ Tuple.getElem?_assigned hlt))
    have hwf := Value.wellFormed_part hx (Value.mem_parts_of_items hi (List.mem_of_getElem? hy))
    obtain ⟨o', ho', _, hagain⟩ := h t hchild y w _ hwf (hgiven i t ht y hy) hw
    obtain rfl := Except.ok.inj ((hgiven i t ht y hy).symm.trans ho')
    exact hagain
  obtain ⟨w, hw⟩ := Tuple.settlesOn scope a hi hgiven hnone hsettles
  obtain ⟨o', ho', hv', _⟩ := id hw
  obtain rfl := Except.ok.inj (hr.symm.trans ho')
  obtain rfl := Option.some.inj (hv.symm.trans hv')
  exact hw

theorem settles_struct {n : Nat} {a : Annotations} {ps : List (Property Schema)} {is : List (IndexSignature Schema)}
    (hu : (Schema.struct a ps is).Unambiguous) (h : ∀ t ∈ (Schema.struct a ps is).children, scope.Settles n t) :
    scope.Settles n (.struct a ps is) := by
  intro x v o hx hr hv
  rw [run_struct] at hr ⊢
  obtain ⟨es, he, hpass, _⟩ := Struct.parse_accepts_iff.mp ⟨hr, (Outcome.isFailure_iff o).mpr ⟨v, hv⟩⟩
  have hes := Value.distinct_of_wellFormed hx he
  have hsuits := Struct.passes_steps_iff.mp hpass
  have hpart {t : Schema} (ht : t ∈ (Schema.struct a ps is).children) {e : Value × Value} (hmem : e ∈ es)
      (hgood : ∃ o, scope.run .decode n t e.2 = .ok o ∧ o.isFailure = false) :
      SettlesOn (scope.run .decode n t) e.2 (valueOf (scope.run .decode n t) e.2) := by
    obtain ⟨p, hp, hf⟩ := hgood
    obtain ⟨w, hw⟩ := (Outcome.isFailure_iff p).mp hf
    have hvalue : valueOf (scope.run .decode n t) e.2 = w := by simp [valueOf, hp, hw]
    rw [hvalue]
    exact h t ht e.2 w p (Value.wellFormed_part hx (Value.mem_parts_of_entries he hmem).2) hp hw
  have hsettles : Struct.Settles (scope.run .decode n) ps is es := by
    refine ⟨hu.1, hu.2, hes, hpass, fun r hr => ?_, fun r hr => ?_⟩
    · obtain ⟨hp, hmem, hk⟩ := (Struct.mem_found hes).mp hr
      refine hpart (Schema.mem_children_of_property hp) hmem (hsuits.property _ hp _ ?_)
      rw [Entries.lookup, (Entries.find?_eq_some_iff hes).mpr ⟨hmem, hk⟩]
      rfl
    · obtain ⟨hmem, hd, hf⟩ := Struct.mem_claimed hr
      have hi := List.mem_of_find?_eq_some hf
      exact hpart (Schema.mem_children_of_index hi).2 hmem
        (hsuits.index _ hmem hd _ hi (by simpa using List.find?_some hf)).2
  have hw := hsettles.settlesOn scope a he
  obtain ⟨o', ho', hv', _⟩ := id hw
  obtain rfl := Except.ok.inj (hr.symm.trans ho')
  obtain rfl := Option.some.inj (hv.symm.trans hv')
  exact hw

/-- What decoding gives it gives again. The induction is along the first run. -/
theorem run_settles {n : Nat} {s : Schema}
    (hs : ∀ t, scope.Part s t → t.converts = false ∧ t.kind ≠ .union ∧ t.Unambiguous) : scope.Settles n s := by
  induction n, s using scope.runInduction with
  | spent a h =>
    intro x v o _ hr
    rw [run_lazy_zero] at hr
    cases hr
  | unfolded n a h ih =>
    intro x v o hx hr hv
    cases hf : scope.force h with
    | error f =>
      rw [run_lazy_succ, hf] at hr
      cases hr
    | ok t =>
      have heq : scope.run .decode (n + 1) (.lazy a h) = scope.run .decode n t := by
        funext y
        rw [run_lazy_succ, hf]
        rfl
      rw [heq] at hr ⊢
      exact ih t hf (fun u hu => hs u (.trans (.force hf) hu)) x v o hx hr hv
  | node n s hl ih =>
    have hc : ∀ t ∈ s.children, scope.Settles n t := fun t ht => ih t ht fun u hu => hs u (.trans (.child ht) hu)
    obtain ⟨hconv, hkind, hu⟩ := hs s (.refl scope s)
    cases s with
    | lazy a h => cases hl
    | union => exact absurd rfl hkind
    | transform => cases hconv
    | literal | uniqueSymbol | keyword | enums | template => exact settles_atom rfl hconv
    | typeAlias a ps t => exact hc t List.mem_cons_self
    | refinement a t p => exact settles_refinement (hc t List.mem_cons_self)
    | tuple a es r o => exact settles_tuple hc
    | struct a ps is => exact settles_struct hu hc

/-- Correction is done once: decoding what decoding gave gives the same value, and warns of the same things in the same
order, without the members that it was corrected by. -/
theorem decode_decode {s : Schema} {x v : Value} {o : Outcome}
    (hs : ∀ t, scope.Part s t → t.converts = false ∧ t.kind ≠ .union ∧ t.Unambiguous) (hx : x.wellFormed)
    (h : scope.Yields .decode s x o) (hv : o.value? = some v) :
    scope.Yields .decode s v (.warn v (standingOfAll o.warnings)) := by
  obtain ⟨n, hn⟩ := h
  obtain ⟨o', ho', _, hagain⟩ := run_settles hs x v o hx hn hv
  obtain rfl := Except.ok.inj (hn.symm.trans ho')
  exact ⟨n, hagain⟩

def spot : Schema := .tuple .empty [⟨.keyword .empty .number, false⟩] none true

def trail : Schema := .struct .empty
  [⟨.text "at", spot, false, false, .empty⟩,
    ⟨.text "next", .lazy .empty (.root 0), true, false, .empty⟩] []

/-- Of what is wrong with the first value the second run finds the number that is none; the rest is corrected. -/
theorem decode_decode_trail :
    let scope := Stock.scope [(0, .ok trail)]
    let x : Value := .dict [(.text "extra", .null), (.text "next", .dict [(.text "at", .list [.int 1, .int 2])]),
      (.text "at", .tuple [.float .nan, .null])]
    let v : Value := .dict [(.text "at", .tuple [.float .nan]), (.text "next", .dict [(.text "at", .list [.int 1])])]
    let doubt : Problem := .within (.index 0) [.anomaly (.float .nan) .notANumber]
    let surplus : Problem := .within (.index 1) [.unexpected (.index 1)]
    let ws : List Problem := [.within (.key (.text "at")) [doubt, surplus],
      .within (.key (.text "next")) [.within (.key (.text "at")) [surplus]],
      .within (.key (.text "extra")) [.unexpected (.key (.text "extra"))]]
    (∀ t, scope.Part trail t → t.converts = false ∧ t.kind ≠ .union ∧ t.Unambiguous) ∧ x.wellFormed ∧
      scope.Yields .decode trail x (.warning v ws) ∧
      standingOfAll ws = [.within (.key (.text "at")) [doubt]] ∧
      scope.Yields .decode trail v (.warn v (standingOfAll ws)) := by
  intro scope x v doubt surplus ws
  have hparts : ∀ t, scope.Part trail t → t.converts = false ∧ t.kind ≠ .union ∧ t.Unambiguous := by
    intro t ht
    have hmem : t ∈ [trail, spot, .keyword .empty .number, .lazy .empty (.root 0)] := by
      refine Part.of_closed (by simp) (fun s hs u hu => ?_) ht
      simp only [List.mem_cons, List.not_mem_nil, or_false] at hs
      rcases hs with rfl | rfl | rfl | rfl
      · have hu : u ∈ [spot, .lazy .empty (.root 0)] := hu
        simp only [List.mem_cons, List.not_mem_nil, or_false] at hu ⊢
        tauto
      · obtain rfl := List.mem_singleton.mp hu
        simp
      · cases hu
      · obtain rfl := List.mem_singleton.mp hu
        exact List.mem_cons_self
    simp only [List.mem_cons, List.not_mem_nil, or_false] at hmem
    rcases hmem with rfl | rfl | rfl | rfl
    · exact ⟨rfl, by decide, by decide, by simp⟩
    · exact ⟨rfl, by decide, trivial⟩
    · exact ⟨rfl, by decide, trivial⟩
    · exact ⟨rfl, by decide, trivial⟩
  have hx : x.wellFormed := by rfl
  have hy : scope.Yields .decode trail x (.warning v ws) := ⟨2, rfl⟩
  exact ⟨hparts, hx, hy, rfl, decode_decode hparts hx hy rfl⟩

end Scope
end Schemata
