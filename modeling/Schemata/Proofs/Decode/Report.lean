import Schemata.Proofs.Decode.RoundTrip
import Schemata.Proofs.Decode.Failure

/-!
Where problems come from. `Refuses` says how a schema comes to fail on a value with a list of problems, `Warns` how it
comes to accept one with a warning; both follow the schema down to the node that found the problem. A failure is
reported by one node, or by every member of a union; warnings are collected. Transforms, whose problems are their own,
are left out.
-/
namespace Schemata

namespace Scope
variable {scope : Scope} {direction : Direction} {s t : Schema} {x v : Value} {n : Nat}

inductive Refuses (scope : Scope) (direction : Direction) : Schema → Value → List Problem → Prop
  | mismatch {s : Schema} {x : Value} {predicate : String} {override : Option String}
    (hy : scope.Yields direction s x (.failure [.mismatch predicate x override])) :
    Refuses scope direction s x [.mismatch predicate x override]
  | conversion {s : Schema} {x : Value} {source target : String} {override : Option String}
    (hy : scope.Yields direction s x (.failure [.conversion source target x override])) :
    Refuses scope direction s x [.conversion source target x override]
  | violation {a : Annotations} {t : Schema} {p : Predicate} {x v : Value} (override : Option String)
    (ht : scope.test p v = .ok false)
    (hv : match direction with
      | .decode => ∃ o, scope.Yields .decode t x o ∧ o.value? = some v
      | .encode => v = x) :
    Refuses scope direction (.refinement a t p) x [.violation a.displayLabel v override]
  | typeAlias {t : Schema} {x : Value} {qs : List Problem} (a : Annotations) (parameters : List Schema)
    (h : Refuses scope direction t x qs) : Refuses scope direction (.typeAlias a parameters t) x qs
  | base {t : Schema} {x : Value} {qs : List Problem} (a : Annotations) (p : Predicate)
    (h : Refuses scope direction t x qs) : Refuses scope direction (.refinement a t p) x qs
  | lazy {t : Schema} {x : Value} {qs : List Problem} {handle : Handle} (a : Annotations)
    (hf : scope.force handle = .ok t) (h : Refuses scope direction t x qs) :
    Refuses scope direction (.lazy a handle) x qs
  | union {ms : List Schema} {x : Value} {pss : List (List Problem)} (a : Annotations) (hne : ms ≠ [])
    (hy : List.Forall₂ (fun m rs => scope.Yields direction m x (.failure rs)) ms pss)
    (h : ∀ e ∈ ms.zip pss, Refuses scope direction e.1 x e.2) :
    Refuses scope direction (.union a ms) x (pss.map .ofMember)
  | item {es : List (Element Schema)} {rest : Option (Rest Schema)} {readonly : Bool} {x v : Value}
    {items : List Value} {i : Nat} {t : Schema} {qs : List Problem} (a : Annotations) (hx : x.items? = some items)
    (ht : (Tuple.assigned es rest items.length)[i]? = some (some t)) (hv : items[i]? = some v)
    (h : Refuses scope direction t v qs) :
    Refuses scope direction (.tuple a es rest readonly) x [.within (.index i) qs]
  | gap {es : List (Element Schema)} {rest : Option (Rest Schema)} {readonly : Bool} {x : Value}
    {items : List Value} {i : Nat} (a : Annotations) (hx : x.items? = some items)
    (hi : i ∈ Tuple.gaps es rest items.length) :
    Refuses scope direction (.tuple a es rest readonly) x [.within (.index i) [.missing]]
  | property {ps : List (Property Schema)} {is : List (IndexSignature Schema)} {x v : Value} {es : Entries}
    {p : Property Schema} {qs : List Problem} (a : Annotations) (hx : x.entries? = some es) (hp : p ∈ ps)
    (hv : es.lookup p.name = some v) (h : Refuses scope direction p.type v qs) :
    Refuses scope direction (.struct a ps is) x [.within (.key p.name) qs]
  | absent {ps : List (Property Schema)} {is : List (IndexSignature Schema)} {x : Value} {es : Entries}
    {p : Property Schema} (a : Annotations) (hx : x.entries? = some es) (hp : p ∈ ps)
    (hv : es.lookup p.name = none) :
    Refuses scope direction (.struct a ps is) x [.within (.key p.name) [.missing]]
  | parameter {ps : List (Property Schema)} {is : List (IndexSignature Schema)} {x : Value} {es : Entries}
    {e : Value × Value} {i : IndexSignature Schema} {qs : List Problem} (a : Annotations) (hx : x.entries? = some es)
    (he : e ∈ es) (hd : e.1.occursIn (ps.map fun p => p.name) = false) (hi : i ∈ is) (hc : i.claims e.1)
    (hy : scope.Yields direction i.parameter e.1 (.failure qs)) (h : Refuses scope direction i.parameter e.1 qs) :
    Refuses scope direction (.struct a ps is) x [.within (.key e.1) qs]
  | index {ps : List (Property Schema)} {is : List (IndexSignature Schema)} {x : Value} {es : Entries}
    {e : Value × Value} {i : IndexSignature Schema} {qs : List Problem} (a : Annotations) (hx : x.entries? = some es)
    (he : e ∈ es) (hd : e.1.occursIn (ps.map fun p => p.name) = false) (hi : i ∈ is) (hc : i.claims e.1)
    (hk : ∃ o, scope.Yields direction i.parameter e.1 o ∧ o.isFailure = false)
    (h : Refuses scope direction i.type e.2 qs) :
    Refuses scope direction (.struct a ps is) x [.within (.key e.1) qs]

/-- The schema accepts the value with the warning, among others. -/
inductive Warns (scope : Scope) (direction : Direction) : Schema → Value → Problem → Prop
  | anomaly {x : Value} {reason : Anomaly} (a : Annotations) (hr : anomaly? x = some (.anomaly x reason)) :
    Warns scope direction (.keyword a .number) x (.anomaly x reason)
  | typeAlias {t : Schema} {x : Value} {p : Problem} (a : Annotations) (parameters : List Schema)
    (h : Warns scope direction t x p) : Warns scope direction (.typeAlias a parameters t) x p
  | base {t : Schema} {x : Value} {p : Problem} (a : Annotations) (predicate : Predicate)
    (h : Warns scope direction t x p) : Warns scope direction (.refinement a t predicate) x p
  | lazy {t : Schema} {x : Value} {p : Problem} {handle : Handle} (a : Annotations)
    (hf : scope.force handle = .ok t) (h : Warns scope direction t x p) : Warns scope direction (.lazy a handle) x p
  | member {m : Schema} {ms : List Schema} {x : Value} {p : Problem} (a : Annotations) (hm : m ∈ ms)
    (h : Warns scope direction m x p) : Warns scope direction (.union a ms) x p
  | item {es : List (Element Schema)} {rest : Option (Rest Schema)} {readonly : Bool} {x v : Value}
    {items : List Value} {i : Nat} {t : Schema} {qs : List Problem} (a : Annotations) (hx : x.items? = some items)
    (ht : (Tuple.assigned es rest items.length)[i]? = some (some t)) (hv : items[i]? = some v) (hne : qs ≠ [])
    (h : ∀ q ∈ qs, Warns scope direction t v q) :
    Warns scope direction (.tuple a es rest readonly) x (.within (.index i) qs)
  | surplus {es : List (Element Schema)} {rest : Option (Rest Schema)} {readonly : Bool} {x v : Value}
    {items : List Value} {i : Nat} (a : Annotations) (hx : x.items? = some items) (hv : items[i]? = some v) :
    Warns scope direction (.tuple a es rest readonly) x (.within (.index i) [.unexpected (.index i)])
  | property {ps : List (Property Schema)} {is : List (IndexSignature Schema)} {x v : Value} {es : Entries}
    {p : Property Schema} {qs : List Problem} (a : Annotations) (hx : x.entries? = some es) (hp : p ∈ ps)
    (hv : es.lookup p.name = some v) (hne : qs ≠ []) (h : ∀ q ∈ qs, Warns scope direction p.type v q) :
    Warns scope direction (.struct a ps is) x (.within (.key p.name) qs)
  | index {ps : List (Property Schema)} {is : List (IndexSignature Schema)} {x : Value} {es : Entries}
    {e : Value × Value} {i : IndexSignature Schema} {qs : List Problem} (a : Annotations) (hx : x.entries? = some es)
    (he : e ∈ es) (hd : e.1.occursIn (ps.map fun p => p.name) = false) (hi : i ∈ is) (hc : i.claims e.1)
    (hk : ∃ o, scope.Yields direction i.parameter e.1 o ∧ o.isFailure = false) (hne : qs ≠ [])
    (h : ∀ q ∈ qs, Warns scope direction i.type e.2 q) :
    Warns scope direction (.struct a ps is) x (.within (.key e.1) qs)
  | undeclared {ps : List (Property Schema)} {is : List (IndexSignature Schema)} {x : Value} {es : Entries}
    {e : Value × Value} (a : Annotations) (hx : x.entries? = some es) (he : e ∈ es) :
    Warns scope direction (.struct a ps is) x (.within (.key e.1) [.unexpected (.key e.1)])

theorem TransformFree.part (hs : scope.TransformFree s) (h : scope.Part s t) : scope.TransformFree t :=
  fun a u v c ht => hs a u v c (h.trans ht)

/-- An atom refuses a value as a whole. -/
theorem refuses_of_atom (hs : s.isAtom) {qs : List Problem} (h : scope.run direction n s x = .ok (.failure qs)) :
    scope.Refuses direction s x qs := by
  have hy : scope.Yields direction s x (.failure qs) := ⟨n, h⟩
  have whole (hqs : ∃ predicate override, qs = [.mismatch predicate x override]) :
      scope.Refuses direction s x qs := by
    obtain ⟨predicate, override, rfl⟩ := hqs
    exact .mismatch hy
  cases s with
  | literal | uniqueSymbol | enums => exact whole ⟨_, eq_mismatch_of_refused (Except.ok.inj h)⟩
  | template a head t ts =>
    rw [run_template] at h
    cases x with
    | text y => exact whole ⟨_, eq_mismatch_of_refused (Except.ok.inj h)⟩
    | _ => exact whole ⟨_, _, (Outcome.failure.inj (Except.ok.inj h)).symm⟩
  | keyword a w =>
    rw [run_keyword] at h
    have h := Except.ok.inj h
    by_cases hw : w = .bigint
    · subst hw
      rcases bigint_fails h with hqs | ⟨source, target, override, rfl⟩
      · exact whole hqs
      · exact .conversion hy
    · rw [parseKeyword_of_ne_bigint hw] at h
      exact whole (plainKeyword_fails h)
  | _ => cases hs

/-- An atom warns of nothing but numbers that are not finite. -/
theorem warns_of_atom (hs : s.isAtom) {qs : List Problem} (h : scope.run direction n s x = .ok (.warning v qs)) :
    qs ≠ [] ∧ ∀ q ∈ qs, scope.Warns direction s x q := by
  have plain {c : Bool} {a : Annotations} {predicate : String}
      (h : (if c then .success x else scope.mismatch a predicate x : Outcome) = .warning v qs) : False := by
    cases c <;> cases h
  cases s with
  | literal | uniqueSymbol | enums => exact (plain (Except.ok.inj h)).elim
  | template a head t ts =>
    rw [run_template] at h
    cases x with
    | text y => exact (plain (Except.ok.inj h)).elim
    | _ => cases Except.ok.inj h
  | keyword a w =>
    rw [run_keyword] at h
    have h := Except.ok.inj h
    by_cases hw : w = .bigint
    · subst hw
      exact absurd h (bigint_ne_warning direction a x v qs)
    · rw [parseKeyword_of_ne_bigint hw] at h
      obtain ⟨rfl, hne, hqs⟩ := plainKeyword_warns h
      refine ⟨hne, fun q hq => ?_⟩
      obtain ⟨reason, rfl⟩ := eq_anomaly_of_anomaly? (hqs q hq)
      exact .anomaly a (hqs _ hq)
  | _ => cases hs

/-- Every failure is reported as `Refuses` says. -/
theorem refuses_of_run (hs : scope.TransformFree s) {qs : List Problem}
    (h : scope.run direction n s x = .ok (.failure qs)) : scope.Refuses direction s x qs := by
  induction n, s using scope.runInduction generalizing x qs with
  | spent a handle => cases h
  | unfolded n a handle ih =>
    rw [run_lazy_succ] at h
    obtain ⟨t, hf, h⟩ := bind_eq_ok_iff.mp h
    exact .lazy a hf (ih t hf (hs.part (.force hf)) h)
  | node n s hl ih =>
    have child {t : Schema} (ht : t ∈ s.children) {v : Value} {rs : List Problem}
        (h : scope.run direction n t v = .ok (.failure rs)) : scope.Refuses direction t v rs :=
      ih t ht (hs.part (.child ht)) h
    have hy : scope.Yields direction s x (.failure qs) := ⟨n, h⟩
    cases s with
    | lazy a handle => cases hl
    | transform a t u c => exact absurd (.refl scope _) (hs a t u c)
    | literal | uniqueSymbol | keyword | enums | template => exact refuses_of_atom rfl h
    | typeAlias a ps t => exact .typeAlias a ps (child List.mem_cons_self h)
    | refinement a t p =>
      rw [run_refinement] at h
      rcases Refinement.parse_fails h with hbase | ⟨v, override, rfl, ht, hv⟩
      · exact .base a p (child List.mem_cons_self hbase)
      · refine .violation override ht ?_
        cases direction with
        | encode => exact hv
        | decode =>
          obtain ⟨o, ho, hv⟩ := hv
          exact ⟨o, ⟨n, ho⟩, hv⟩
    | union a ms =>
      rw [run_union] at h
      obtain ⟨hne, pss, hall, rfl⟩ := Union.parse_fails (by simp) h
      rw [List.forall₂_map_left_iff] at hall
      refine .union a (fun hnil => hne (by rw [hnil]; rfl)) (hall.imp fun m rs hm => ⟨n, hm⟩) fun e he => ?_
      exact child (List.of_mem_zip he).1 (List.forall₂_iff_zip.mp hall |>.2 he)
    | tuple a es rest readonly =>
      rw [run_tuple] at h
      rcases Tuple.parse_fails h with ⟨predicate, override, rfl⟩ | ⟨items, hx, step, hstep, p, hp, rfl⟩
      · exact .mismatch hy
      · cases Tuple.mem_steps_iff.mp hstep with
        | unexpected => cases hp
        | missing hi =>
          cases hp
          exact .gap a hx hi
        | item ht hv =>
          cases hp with
          | take hfail => exact .item a hx ht hv (child (Tuple.mem_assigned (List.mem_of_getElem? ht)) hfail)
    | struct a ps is =>
      rw [run_struct] at h
      rcases Struct.parse_fails h with ⟨predicate, override, rfl⟩ | ⟨es, hx, _, hhalts, rfl⟩
      · exact .mismatch hy
      · cases Struct.fails_of_halts hhalts with
        | property hp hv hf => exact .property a hx hp hv (child (Schema.mem_children_of_property hp) hf)
        | absent hp hv => exact .absent a hx hp hv
        | parameter he hd hi hc hf =>
          exact .parameter a hx he hd hi hc ⟨n, hf⟩ (child (Schema.mem_children_of_index hi).1 hf)
        | index he hd hi hc hk hf =>
          obtain ⟨o, ho, hpass⟩ := hk
          exact .index a hx he hd hi hc ⟨o, ⟨n, ho⟩, hpass⟩ (child (Schema.mem_children_of_index hi).2 hf)

/-- Every warning is reported as `Warns` says. -/
theorem warns_of_run (hs : scope.TransformFree s) {qs : List Problem}
    (h : scope.run direction n s x = .ok (.warning v qs)) : qs ≠ [] ∧ ∀ q ∈ qs, scope.Warns direction s x q := by
  induction n, s using scope.runInduction generalizing x v qs with
  | spent a handle => cases h
  | unfolded n a handle ih =>
    rw [run_lazy_succ] at h
    obtain ⟨t, hf, h⟩ := bind_eq_ok_iff.mp h
    obtain ⟨hne, hqs⟩ := ih t hf (hs.part (.force hf)) h
    exact ⟨hne, fun q hq => .lazy a hf (hqs q hq)⟩
  | node n s hl ih =>
    have child {t : Schema} (ht : t ∈ s.children) {v w : Value} {rs : List Problem}
        (h : scope.run direction n t v = .ok (.warning w rs)) : rs ≠ [] ∧ ∀ q ∈ rs, scope.Warns direction t v q :=
      ih t ht (hs.part (.child ht)) h
    cases s with
    | lazy a handle => cases hl
    | transform a t u c => exact absurd (.refl scope _) (hs a t u c)
    | literal | uniqueSymbol | keyword | enums | template => exact warns_of_atom rfl h
    | typeAlias a ps t =>
      obtain ⟨hne, hqs⟩ := child List.mem_cons_self h
      exact ⟨hne, fun q hq => .typeAlias a ps (hqs q hq)⟩
    | refinement a t p =>
      rw [run_refinement] at h
      obtain ⟨hne, hqs⟩ := child List.mem_cons_self (Refinement.parse_accepts h rfl)
      exact ⟨hne, fun q hq => .base a p (hqs q hq)⟩
    | union a ms =>
      rw [run_union] at h
      obtain ⟨p, hp, hpx⟩ := Union.parse_accepts h rfl
      obtain ⟨m, hm, rfl⟩ := List.mem_map.mp hp
      obtain ⟨hne, hqs⟩ := child hm hpx
      exact ⟨hne, fun q hq => .member a hm (hqs q hq)⟩
    | tuple a es rest readonly =>
      rw [run_tuple] at h
      obtain ⟨hne, items, hx, hqs⟩ := Tuple.parse_warns h
      refine ⟨hne, fun q hq => ?_⟩
      obtain ⟨step, hstep, hp⟩ := hqs q hq
      cases Tuple.mem_steps_iff.mp hstep with
      | missing => cases hp
      | unexpected _ hv =>
        cases hp
        exact .surplus a hx hv
      | item ht hv =>
        cases hp with
        | take hwarn =>
          obtain ⟨hne, hrs⟩ := child (Tuple.mem_assigned (List.mem_of_getElem? ht)) hwarn
          exact .item a hx ht hv hne hrs
    | struct a ps is =>
      rw [run_struct] at h
      obtain ⟨hne, es, hx, hpass, hqs⟩ := Struct.parse_warns h
      refine ⟨hne, fun q hq => ?_⟩
      obtain ⟨step, hstep, hp⟩ := hqs q hq
      cases Struct.mem_steps_iff.mp hstep with
      | missing => cases hp
      | parameter => cases hp
      | unexpected he =>
        cases hp
        exact .undeclared a hx he
      | property hp' hv =>
        cases hp with
        | take hwarn =>
          obtain ⟨hne, hrs⟩ := child (Schema.mem_children_of_property hp') hwarn
          exact .property a hx hp' hv hne hrs
      | index he hd hi hc =>
        cases hp with
        | take hwarn =>
          obtain ⟨o, ho, hk⟩ := hpass _ (Struct.mem_steps_iff.mpr (.parameter he hd hi hc))
          obtain ⟨hne, hrs⟩ := child (Schema.mem_children_of_index hi).2 hwarn
          exact .index a hx he hd hi hc ⟨o, ⟨n, ho⟩, hk⟩ hne hrs

end Scope
end Schemata
