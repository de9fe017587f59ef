import Schemata.Proofs.Decode.Correction
import Schemata.Proofs.Decode.Location
import Schemata.Proofs.Decode.Order

/-!
Unexpected members are left out. Where a struct hands the value of a key to several schemas, each of them decodes it:
the warnings of all of them are kept, but the value that the last one gives is stored over those of the others. So a
member that only one of the others reports may be there in the end. Every other member that is reported is not.
-/
namespace Schemata

def Value.at? (v : Value) : Path → Option Value
  | [] => some v
  | segment :: path => (v.member? segment).bind fun w => w.at? path

namespace Struct
variable {ps : List (Property Schema)} {is : List (IndexSignature Schema)} {es : Entries}
  {f : Schema → Parser (Except Fault)} {key w : Value}

def takers (ps : List (Property Schema)) (is : List (IndexSignature Schema)) (key : Value) : List Schema :=
  if key.occursIn (ps.map fun p => p.name) then (ps.filter fun p => p.name.equals key).map fun p => p.type
  else (is.filter fun i => i.claims key).map fun i => i.type

theorem takers_undeclared (hd : key.occursIn (ps.map fun p => p.name) = false) :
    takers ps is key = (is.filter fun i => i.claims key).map fun i => i.type :=
  if_neg (by simp [hd])

/-- A name under which there is a value equals itself, so it is declared. -/
theorem occursIn_names_of_lookup (hes : es.distinct) {p : Property Schema} (hp : p ∈ ps)
    (hw : es.lookup p.name = some w) : p.name.equals p.name ∧ p.name.occursIn (ps.map fun p => p.name) := by
  obtain ⟨k, he, hk⟩ := (Entries.lookup_eq_some_iff hes).mp hw
  have hkeys := ((Entries.distinct_iff es).mp hes).1
  have hself : p.name.equals p.name := Value.equals_trans (Value.equals_symm (hkeys _ he) hk) hk
  exact ⟨hself, (Value.occursIn_iff _ _).mpr ⟨p.name, List.mem_map_of_mem hp, hself⟩⟩

def storedAt (key : Value) (group : List (Step (Except Fault))) : List Value :=
  ((stored group).filter fun e => e.1.equals key).map Prod.snd

theorem storedAt_append (key : Value) (g h : List (Step (Except Fault))) :
    storedAt key (g ++ h) = storedAt key g ++ storedAt key h := by
  simp [storedAt, stored]

theorem storedAt_flatMap {α : Type} (key : Value) (as : List α) (g : α → List (Step (Except Fault))) :
    storedAt key (as.flatMap g) = as.flatMap fun a => storedAt key (g a) := by
  induction as with
  | nil => rfl
  | cons a as ih => rw [List.flatMap_cons, storedAt_append, ih, List.flatMap_cons]

theorem storedAt_eq_nil {group : List (Step (Except Fault))}
    (h : ∀ e ∈ stored group, e.1.equals key = false) : storedAt key group = [] := by
  rw [storedAt, List.map_eq_nil_iff, List.filter_eq_nil_iff]
  exact fun e he => by simp [h e he]

def outputs (p : Parser (Except Fault)) (v : Value) : List Value :=
  match p v with
  | .ok o => o.value?.toList
  | .error _ => []

theorem storedAt_take {k : Value} (hk : k.equals key) (p : Parser (Except Fault)) (v : Value) :
    storedAt key [.take (.key k) p v] = outputs p v := by
  cases hv : p v with
  | error e => simp [storedAt, stored, Step.members, outputs, hv]
  | ok o => cases ho : o.value? <;> simp [storedAt, stored, Step.members, outputs, hv, ho, segmentKey, hk]

/-- Under a declared key its declarations store what they give for the value there. -/
theorem storedAt_declared (hes : es.distinct) {p : Property Schema} (hp : p ∈ ps) (hw : es.lookup p.name = some w) :
    storedAt p.name (steps (ps.map (Property.map f)) (is.map (IndexSignature.parsers f)) es) =
      (takers ps is p.name).flatMap fun t => outputs (f t) w := by
  have hkeys := ((Entries.distinct_iff es).mp hes).1
  obtain ⟨k, he, hk⟩ := (Entries.lookup_eq_some_iff hes).mp hw
  have hdeclared := (occursIn_names_of_lookup hes hp hw).2
  have hentries : es.flatMap (fun e => storedAt p.name
      (entrySteps (ps.map fun p => p.name) (is.map (IndexSignature.parsers f)) e)) = [] := by
    refine List.flatMap_eq_nil_iff.mpr fun e he => storedAt_eq_nil fun r hr => ?_
    obtain ⟨hre, hd⟩ := stored_entrySteps hr
    rw [hre]
    exact Value.differs_symm (hkeys e he) (Value.differs_of_not_occursIn hd (List.mem_map_of_mem hp))
  rw [steps, names_map, storedAt_append, storedAt_flatMap, storedAt_flatMap, hentries, List.append_nil, takers,
    if_pos hdeclared, List.flatMap_map, List.flatMap_map, Lists.flatMap_filter]
  refine List.flatMap_congr fun q _ => ?_
  cases hqp : q.name.equals p.name with
  | true =>
    have hq : q.name.hashable := (Value.hashable_congr hqp).mpr ((Value.hashable_congr hk).mp (hkeys _ he))
    have hkq : k.equals q.name := Value.equals_trans hk (Value.equals_symm hq hqp)
    have hlookup : es.lookup q.name = some w := (Entries.lookup_eq_some_iff hes).mpr ⟨k, he, hkq⟩
    simp only [propertySteps, Property.map, hlookup, if_true]
    exact storedAt_take hqp _ _
  | false =>
    rw [if_neg Bool.false_ne_true]
    refine storedAt_eq_nil fun r hr => ?_
    rw [(stored_propertySteps hes hr).1]
    exact hqp

/-- Under an undeclared key the index signatures that claim it store what they give for the value there. -/
theorem storedAt_claimed (hes : es.distinct) {e : Value × Value} (he : e ∈ es)
    (hd : e.1.occursIn (ps.map fun p => p.name) = false) (hself : e.1.equals e.1) :
    storedAt e.1 (steps (ps.map (Property.map f)) (is.map (IndexSignature.parsers f)) es) =
      (takers ps is e.1).flatMap fun t => outputs (f t) e.2 := by
  have hproperties : (ps.map (Property.map f)).flatMap (fun p => storedAt e.1 (propertySteps es p)) = [] := by
    refine List.flatMap_eq_nil_iff.mpr fun p hp => storedAt_eq_nil fun r hr => ?_
    rw [(stored_propertySteps hes hr).1]
    obtain ⟨q, hq, rfl⟩ := List.mem_map.mp hp
    exact Value.differs_of_not_occursIn hd (List.mem_map_of_mem hq)
  have hentries : es.flatMap (fun g => storedAt e.1
        (entrySteps (ps.map fun p => p.name) (is.map (IndexSignature.parsers f)) g)) =
      storedAt e.1 (entrySteps (ps.map fun p => p.name) (is.map (IndexSignature.parsers f)) e) := by
    refine Lists.flatMap_eq_of_mem (Entries.pairwise_of_distinct hes) he fun g _ hg => storedAt_eq_nil fun r hr => ?_
    rw [(stored_entrySteps hr).1]
    exact hg.elim And.right And.left
  rw [steps, names_map, storedAt_append, storedAt_flatMap, storedAt_flatMap, hproperties, List.nil_append, hentries,
    entrySteps, if_neg (by simp [hd]), filter_parsers, takers_undeclared hd, List.flatMap_map]
  cases hc : is.filter fun i => i.claims e.1 with
  | nil => exact storedAt_eq_nil fun r hr => by cases hr
  | cons i claiming =>
    change storedAt e.1 (((i :: claiming).map (IndexSignature.parsers f)).flatMap fun j =>
      [.check (.key e.1) j.parameter e.1, .take (.key e.1) j.type e.2]) = _
    rw [storedAt_flatMap, List.flatMap_map]
    exact List.flatMap_congr fun j _ => storedAt_take hself (f j.type) e.2

theorem hashable_stored (hes : es.distinct) : ∀ r ∈ stored (steps (ps.map (Property.map f))
    (is.map (IndexSignature.parsers f)) es), r.1.hashable := by
  have hkeys := ((Entries.distinct_iff es).mp hes).1
  intro r hr
  obtain ⟨s, hs, hk, hm⟩ := mem_stored hr
  rw [hk]
  cases mem_steps_iff.mp hs with
  | property hp hv =>
    obtain ⟨k, he, hk⟩ := (Entries.lookup_eq_some_iff hes).mp hv
    exact (Value.hashable_congr hk).mp (hkeys _ he)
  | index he => exact hkeys _ he
  | missing | unexpected | parameter => exact absurd rfl hm

/-- Of the values that are stored under a key the last is there in the end. -/
theorem member?_rebuild (hes : es.distinct) (key : Value) :
    (rebuild ((steps (ps.map (Property.map f)) (is.map (IndexSignature.parsers f)) es).flatMap Step.members)).member?
        (.key key) =
      (storedAt key (steps (ps.map (Property.map f)) (is.map (IndexSignature.parsers f)) es)).getLast? := by
  rw [storedAt, ← Entries.lookup_ofList (hashable_stored hes)]
  rfl

/-- Under a key that nothing describes nothing is stored. -/
theorem storedAt_unexpected (hes : es.distinct) {e : Value × Value} (he : e ∈ es)
    (hd : e.1.occursIn (ps.map fun p => p.name) = false) (hc : ∀ i ∈ is, i.claims e.1 = false) :
    storedAt e.1 (steps (ps.map (Property.map f)) (is.map (IndexSignature.parsers f)) es) = [] := by
  have hkeys := ((Entries.distinct_iff es).mp hes).1
  refine storedAt_eq_nil fun r hr => ?_
  obtain ⟨s, hs, hk, hm⟩ := mem_stored hr
  rw [hk]
  by_contra hne
  cases mem_steps_iff.mp hs with
  | property hp => exact hne (Value.differs_of_not_occursIn hd (List.mem_map_of_mem hp))
  | @index g i hg _ hi hclaims =>
    have hge : g.1.equals e.1 := Bool.of_not_eq_false hne
    have hee : e.1.equals e.1 := Value.equals_trans (Value.equals_symm (hkeys g hg) hge) hge
    have hfirst := (Entries.find?_eq_some_iff hes).mpr ⟨hg, hge⟩
    obtain rfl := Option.some.inj (hfirst.symm.trans ((Entries.find?_eq_some_iff hes).mpr ⟨he, hee⟩))
    rw [hc i hi] at hclaims
    cases hclaims
  | missing | unexpected | parameter => exact hm rfl

end Struct

/-- What steps report as unexpected one of them reports. -/
theorem Step.exists_of_unexpected {steps : List (Step (Except Fault))} {path : Path}
    (h : path ∈ Problem.unexpectedPathsOfAll (steps.flatMap Step.warnings)) :
    ∃ s ∈ steps, ∃ after ∈ s.reported, path = s.segment :: after := by
  rw [Problem.unexpectedPathsOfAll_flatMap] at h
  obtain ⟨s, hs, h⟩ := List.mem_flatMap.mp h
  rw [unexpectedPathsOfAll_warnings] at h
  obtain ⟨after, hafter, rfl⟩ := List.mem_map.mp h
  exact ⟨s, hs, after, hafter, rfl⟩

theorem Tuple.unexpectedPathsOfAll_itemWarnings (outcomes : Nat → Outcome) (i : Nat) :
    Problem.unexpectedPathsOfAll (itemWarnings outcomes i) =
      (Problem.unexpectedPathsOfAll (outcomes i).warnings).map (.index i :: ·) := by
  rw [itemWarnings]
  cases outcomes i with
  | success | failure => rfl
  | warning w ps => simp [Problem.unexpectedPathsOfAll, Problem.unexpectedPaths, Outcome.warnings]

/-- A tuple reports what its items report, and the items that go nowhere. -/
theorem Tuple.unexpected_reports {σ : Type} {es : List (Element σ)} {rest : Option (Rest σ)} {count : Nat}
    {outcomes : Nat → Outcome} {path : Path}
    (h : path ∈ Problem.unexpectedPathsOfAll (reports es rest count outcomes)) :
    (∃ i < keptCount es rest count, ∃ after ∈ Problem.unexpectedPathsOfAll (outcomes i).warnings,
        path = .index i :: after) ∨
      ∃ i, keptCount es rest count ≤ i ∧ path = [.index i] := by
  rw [reports, Problem.unexpectedPathsOfAll_append, List.mem_append, Problem.unexpectedPathsOfAll_flatMap] at h
  rcases h with h | h
  · obtain ⟨i, hi, h⟩ := List.mem_flatMap.mp h
    rw [unexpectedPathsOfAll_itemWarnings] at h
    obtain ⟨after, hafter, rfl⟩ := List.mem_map.mp h
    exact .inl ⟨i, List.mem_range.mp hi, after, hafter, rfl⟩
  · obtain ⟨p, hp, h⟩ := Problem.mem_unexpectedPathsOfAll_iff.mp h
    obtain ⟨i, hi, rfl⟩ := List.mem_map.mp hp
    refine .inr ⟨i, (List.mem_range'_1.mp hi).1, ?_⟩
    simpa [Problem.unexpectedPaths, Problem.unexpectedPathsOfAll] using h

namespace Scope
variable {scope : Scope} {s t : Schema} {x v w : Value} {path : Path} {n : Nat}

/-- An unexpected member is reported where several schemas take the value of a key, by one of them that is not the
last. -/
inductive Overwritten (scope : Scope) (s : Schema) (x : Value) : Path → Prop
  | intro (route : Path) {after : Path} {key y w : Value} {a : Annotations} {ps : List (Property Schema)}
    {is : List (IndexSignature Schema)} {t : Schema} {o : Outcome}
    (hl : scope.Leads s x (route.map .within) (.struct a ps is) y) (hw : y.member? (.key key) = some w)
    (ht : t ∈ (Struct.takers ps is key).dropLast) (ho : scope.Yields .decode t w o)
    (hr : after ∈ Problem.unexpectedPathsOfAll o.warnings) : Overwritten scope s x (route ++ .key key :: after)

theorem Overwritten.through (h : scope.Overwritten t x path) (ht : t ∈ scope.exposed s) :
    scope.Overwritten s x path := by
  obtain ⟨route, hl, hw, htake, ho, hr⟩ := h
  exact .intro route (.through ht hl) hw htake ho hr

theorem Overwritten.below {segment : Segment} (h : scope.Overwritten t w path)
    (hb : ∀ path u v, scope.Leads t w path u v → scope.Leads s x (.within segment :: path) u v) :
    scope.Overwritten s x (segment :: path) := by
  obtain ⟨route, hl, hw, htake, ho, hr⟩ := h
  exact .intro (segment :: route) (hb _ _ _ hl) hw htake ho hr

/-- A member that is reported as unexpected is not there, or is reported by a schema whose result is stored over. -/
def Drops (scope : Scope) (n : Nat) (s : Schema) : Prop :=
  ∀ x v o, x.wellFormed → scope.run .decode n s x = .ok o → o.value? = some v →
    ∀ path ∈ Problem.unexpectedPathsOfAll o.warnings, v.at? path = none ∨ scope.Overwritten s x path

theorem at?_cons {segment : Segment} (hv : v.member? segment = some w) : v.at? (segment :: path) = w.at? path := by
  rw [Value.at?, hv, Option.bind_some]

/-- What is so below a member is so below the value. -/
theorem dropped_below {segment : Segment} {y : Value} (hv : v.member? segment = some w)
    (h : w.at? path = none ∨ scope.Overwritten t y path)
    (hb : ∀ path u z, scope.Leads t y path u z → scope.Leads s x (.within segment :: path) u z) :
    v.at? (segment :: path) = none ∨ scope.Overwritten s x (segment :: path) :=
  h.imp (fun h => (at?_cons hv).trans h) fun h => h.below hb

theorem drops_atom (hs : s.isAtom) : scope.Drops n s := by
  intro x v o _ hr _ path hpath
  cases o with
  | success | failure => cases hpath
  | warning w qs =>
    obtain ⟨q, hq, hpath⟩ := Problem.mem_unexpectedPathsOfAll_iff.mp hpath
    cases (warns_of_atom hs hr).2 q hq with
    | anomaly => cases hpath
    | _ => cases hs

theorem Drops.through (h : scope.Drops n t) (ht : t ∈ scope.exposed s)
    {x v : Value} {o : Outcome} (hx : x.wellFormed) (hr : scope.run .decode n t x = .ok o) (hv : o.value? = some v) :
    ∀ path ∈ Problem.unexpectedPathsOfAll o.warnings, v.at? path = none ∨ scope.Overwritten s x path :=
  fun path hpath => (h x v o hx hr hv path hpath).imp_right fun h => h.through ht

theorem drops_tuple {a : Annotations} {es : List (Element Schema)} {rest : Option (Rest Schema)} {readonly : Bool}
    (h : ∀ t ∈ (Schema.tuple a es rest readonly).children, scope.Drops n t) :
    scope.Drops n (.tuple a es rest readonly) := by
  intro x v o hx hr hv path hpath
  rw [run_tuple] at hr
  obtain ⟨items, hi, hpass, _⟩ := Tuple.parse_accepts_iff.mp ⟨hr, (Outcome.isFailure_iff o).mpr ⟨v, hv⟩⟩
  obtain ⟨outcomes, hgiven, hnone⟩ := Tuple.exists_given_of_passes hpass
  obtain ⟨outs, hl, hvalues, hparse⟩ := Tuple.parse_kept scope a hi hgiven hnone
  obtain rfl := Except.ok.inj (hr.symm.trans hparse)
  rw [Outcome.value?_warn] at hv
  rw [Outcome.warnings_warn] at hpath
  obtain rfl := Option.some.inj hv
  have houts (i : Nat) : (Tuple.rebuild x outs).member? (.index i) = outs[i]? := by
    cases x <;> rfl
  rcases Tuple.unexpected_reports hpath with ⟨i, hk, after, hafter, rfl⟩ | ⟨i, hk, rfl⟩
  · have hlt : i < items.length := Nat.lt_of_lt_of_le hk Tuple.keptCount_le
    have hy : items[i]? = some items[i] := List.getElem?_eq_getElem hlt
    obtain ⟨w, hw⟩ : ∃ w, outs[i]? = some w := ⟨_, List.getElem?_eq_getElem (hl ▸ hk)⟩
    obtain ⟨t, ht⟩ := Option.isSome_iff_exists.mp ((Tuple.part_isSome_iff_lt hlt).mpr hk)
    have hassigned : (Tuple.assigned es rest items.length)[i]? = some (some t) := ht ▸ Tuple.getElem?_assigned hlt
    have hchild : t ∈ (Schema.tuple a es rest readonly).children :=
      Tuple.mem_assigned (List.mem_of_getElem? hassigned)
    have hwf := Value.wellFormed_part hx (Value.mem_parts_of_items hi (List.mem_of_getElem? hy))
    refine dropped_below ((houts i).trans hw)
      (h t hchild _ _ _ hwf (hgiven i t ht _ hy) ((hvalues i hk).trans hw) after hafter) fun path u z hz => ?_
    exact .item a hi hassigned (member?_index hi hy) hz
  · refine .inl ?_
    rw [Value.at?, houts, List.getElem?_eq_none (hl ▸ hk), Option.bind_none]

/-- What the last schema to take the value of a key does not keep is not there. -/
theorem dropped_at {a : Annotations} {ps : List (Property Schema)} {is : List (IndexSignature Schema)} {key y u : Value}
    {o : Outcome} (hy : x.member? (.key key) = some y) (ht : t ∈ Struct.takers ps is key) (hd : scope.Drops n t)
    (hwf : y.wellFormed) (ho : scope.run .decode n t y = .ok o) (hu : o.value? = some u)
    (hv : v.member? (.key key) =
      ((Struct.takers ps is key).flatMap fun t => Struct.outputs (scope.run .decode n t) y).getLast?)
    (hb : ∀ path u z, scope.Leads t y path u z → scope.Leads (.struct a ps is) x (.within (.key key) :: path) u z)
    (hpath : path ∈ Problem.unexpectedPathsOfAll o.warnings) :
    v.at? (.key key :: path) = none ∨ scope.Overwritten (.struct a ps is) x (.key key :: path) := by
  rcases Lists.mem_dropLast_or_getLast? ht with hearlier | hlast
  · exact .inr (.intro [] (.here _ _) hy hearlier ⟨n, ho⟩ hpath)
  · have houtputs : Struct.outputs (scope.run .decode n t) y = [u] := by
      simp [Struct.outputs, ho, hu]
    rw [← List.dropLast_append_getLast? t hlast, List.flatMap_append, List.flatMap_singleton, houtputs,
      List.getLast?_concat] at hv
    exact dropped_below hv (hd y u o hwf ho hu path hpath) hb

theorem drops_struct {a : Annotations} {ps : List (Property Schema)} {is : List (IndexSignature Schema)}
    (h : ∀ t ∈ (Schema.struct a ps is).children, scope.Drops n t) : scope.Drops n (.struct a ps is) := by
  intro x v o hx hr hv path hpath
  rw [run_struct] at hr
  obtain ⟨es, he, hpass, rfl⟩ := Struct.parse_accepts_iff.mp ⟨hr, (Outcome.isFailure_iff o).mpr ⟨v, hv⟩⟩
  rw [Outcome.value?_warn] at hv
  rw [Outcome.warnings_warn] at hpath
  obtain rfl := Option.some.inj hv
  have hes := Value.distinct_of_wellFormed hx he
  obtain ⟨s, hs, after, hafter, rfl⟩ := Step.exists_of_unexpected hpath
  have hgood := hpass s hs
  cases Struct.mem_steps_iff.mp hs with
  | missing | parameter => cases hafter
  | @unexpected e hmem hd hc =>
    refine .inl ?_
    show Value.at? _ (.key e.1 :: after) = none
    rw [Value.at?, Struct.member?_rebuild hes, Struct.storedAt_unexpected hes hmem hd hc]
    rfl
  | @property p w hp hw =>
    obtain ⟨o, ho, hf⟩ := hgood
    obtain ⟨u, hu⟩ := (Outcome.isFailure_iff o).mp hf
    rw [Step.reported, ho] at hafter
    obtain ⟨hself, hdeclared⟩ := Struct.occursIn_names_of_lookup hes hp hw
    have htaker : p.type ∈ Struct.takers ps is p.name := by
      rw [Struct.takers, if_pos hdeclared]
      exact List.mem_map_of_mem (f := fun p : Property Schema => p.type) (List.mem_filter.mpr ⟨hp, hself⟩)
    have hwf := Value.wellFormed_part hx (Value.mem_parts_of_lookup he hw)
    refine dropped_at (member?_key he hw) htaker (h _ (Schema.mem_children_of_property hp)) hwf ho hu ?_
      (fun path u z hz => .property a hp (member?_key he hw) hz) hafter
    rw [Struct.member?_rebuild hes, Struct.storedAt_declared hes hp hw]
  | @index e i hmem hd hi hc =>
    obtain ⟨o, ho, hf⟩ := hgood
    obtain ⟨u, hu⟩ := (Outcome.isFailure_iff o).mp hf
    rw [Step.reported, ho] at hafter
    have htaker : i.type ∈ Struct.takers ps is e.1 := by
      rw [Struct.takers_undeclared hd]
      exact List.mem_map_of_mem (f := fun i : IndexSignature Schema => i.type) (List.mem_filter.mpr ⟨hi, hc⟩)
    have hwf := Value.wellFormed_part hx (Value.mem_parts_of_entries he hmem).2
    have hy := member?_claimed hx he hmem hc
    obtain ⟨q, hq, hqf⟩ := hpass _ (Struct.mem_steps_iff.mpr (.parameter hmem hd hi hc))
    refine dropped_at hy htaker (h _ (Schema.mem_children_of_index hi).2) hwf ho hu ?_
      (fun path u z hz => .index a hd hi hc ⟨q, ⟨n, hq⟩, hqf⟩ hy hz) hafter
    rw [Struct.member?_rebuild hes, Struct.storedAt_claimed hes hmem hd (Struct.selfClaims_index i e.1 hc)]

/-- Runs of schemas without transforms drop what they report as unexpected, or store over the result of who reported
it. -/
theorem run_drops (hs : scope.TransformFree s) : scope.Drops n s := by
  induction n, s using scope.runInduction with
  | spent a handle =>
    intro x v o _ hr
    rw [run_lazy_zero] at hr
    cases hr
  | unfolded n a handle ih =>
    intro x v o hx hr hv
    rw [run_lazy_succ] at hr
    obtain ⟨t, hf, hr⟩ := bind_eq_ok_iff.mp hr
    exact (ih t hf (hs.part (.force hf))).through (s := .lazy a handle) ((mem_next_lazy (a := a)).mpr hf) hx hr hv
  | node n s hl ih =>
    have hc : ∀ t ∈ s.children, scope.Drops n t := fun t ht => ih t ht (hs.part (.child ht))
    cases s with
    | lazy a handle => cases hl
    | transform a t u c => exact absurd (.refl scope _) (hs a t u c)
    | literal | uniqueSymbol | keyword | enums | template => exact drops_atom rfl
    | typeAlias a ps t =>
      intro x v o hx hr hv
      exact (hc t List.mem_cons_self).through List.mem_cons_self hx hr hv
    | refinement a t p =>
      intro x v o hx hr hv
      rw [run_refinement] at hr
      have hbase := Refinement.parse_accepts hr ((Outcome.isFailure_iff o).mpr ⟨v, hv⟩)
      exact (hc t List.mem_cons_self).through List.mem_cons_self hx hbase hv
    | union a ms =>
      intro x v o hx hr hv
      rw [run_union] at hr
      obtain ⟨p, hp, hpx⟩ := Union.parse_accepts hr ((Outcome.isFailure_iff o).mpr ⟨v, hv⟩)
      obtain ⟨m, hm, rfl⟩ := List.mem_map.mp hp
      exact (hc m hm).through (s := .union a ms) hm hx hpx hv
    | tuple a es rest readonly => exact drops_tuple hc
    | struct a ps is => exact drops_struct hc

/-- Every member that is reported as unexpected is absent from what decoding gives, unless it is reported where several
schemas take the value of a key, and by one of them that is not the last. -/
theorem unexpected_dropped {o : Outcome} (hs : scope.TransformFree s) (hx : x.wellFormed)
    (h : scope.Yields .decode s x o) (hv : o.value? = some v) :
    ∀ path ∈ Problem.unexpectedPathsOfAll o.warnings, v.at? path = none ∨ scope.Overwritten s x path := by
  obtain ⟨n, hn⟩ := h
  exact run_drops hs x v o hx hn hv

/-- Nothing is expected of a value by the first of two index signatures for the same keys, anything by the second. -/
def twofold : Schema := .struct .empty []
  [⟨.word .string, .struct .empty [] [], false⟩, ⟨.word .string, .word .unknown, false⟩]

theorem transformFree_twofold : (Stock.scope []).TransformFree twofold := by
  intro a t u c h
  have hmem : Schema.transform a t u c ∈ [twofold, .word .string, .struct .empty [] [], .word .unknown] := by
    refine Part.of_closed (by simp) (fun s hs u hu => ?_) h
    simp only [List.mem_cons, List.not_mem_nil, or_false] at hs
    rcases hs with rfl | rfl | rfl | rfl
    · have hu : u ∈ [.word .string, .struct .empty [] [], .word .string, .word .unknown] := hu
      simp only [List.mem_cons, List.not_mem_nil, or_false] at hu ⊢
      tauto
    · cases hu
    · cases hu
    · cases hu
  simp [twofold, Schema.word] at hmem

/-- The member that the first index signature reports is still there, for the second one keeps it; the key that none
describes is not. -/
theorem unexpected_dropped_twofold :
    let scope := Stock.scope []
    let inner : Value := .dict [(.text "x", .int 1)]
    let x : Value := .dict [(.text "k", inner), (.symbol "s", .null)]
    let ws : List Problem := [.within (.key (.text "k")) [.within (.key (.text "x")) [.unexpected (.key (.text "x"))]],
      .within (.key (.symbol "s")) [.unexpected (.key (.symbol "s"))]]
    let path : Path := [.key (.text "k"), .key (.text "x")]
    let v : Value := .dict [(.text "k", inner)]
    scope.TransformFree twofold ∧ x.wellFormed ∧ scope.Yields .decode twofold x (.warning v ws) ∧
      Problem.unexpectedPathsOfAll ws = [path, [.key (.symbol "s")]] ∧ v.at? [.key (.symbol "s")] = none ∧
      v.at? path = some (.int 1) ∧ scope.Overwritten twofold x path := by
  intro scope inner x ws path v
  have hx : x.wellFormed := by rfl
  have hy : scope.Yields .decode twofold x (.warning v ws) := ⟨0, rfl⟩
  refine ⟨transformFree_twofold, hx, hy, rfl, rfl, rfl, ?_⟩
  rcases unexpected_dropped transformFree_twofold hx hy rfl path (.head _) with h | h
  · cases h
  · exact h

/-- Two index signatures for one key, or two declarations of it, and a member that is both reported and kept. -/
theorem reported_not_dropped :
    let scope := Stock.scope []
    let declaredTwice : Schema := .struct .empty
      [⟨.text "k", .struct .empty [] [], false, false, .empty⟩, ⟨.text "k", .word .unknown, false, false, .empty⟩] []
    let x : Value := .dict [(.text "k", .dict [(.text "x", .int 1)])]
    let ws : List Problem := [.within (.key (.text "k")) [.within (.key (.text "x")) [.unexpected (.key (.text "x"))]]]
    let path : Path := [.key (.text "k"), .key (.text "x")]
    scope.TransformFree twofold ∧ scope.Yields .decode twofold x (.warning x ws) ∧
      scope.Yields .decode declaredTwice x (.warning x ws) ∧
      path ∈ Problem.unexpectedPathsOfAll ws ∧ x.at? path = some (.int 1) :=
  ⟨transformFree_twofold, ⟨0, rfl⟩, ⟨0, rfl⟩, .head _, rfl⟩

end Scope
end Schemata
