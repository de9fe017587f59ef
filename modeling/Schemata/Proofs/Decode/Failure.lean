import Schemata.Proofs.Decode.Accepted
import Schemata.Proofs.Schema.Spine

/-!
How keywords, containers, refinements and unions fail, and what they warn of, in terms of the parsers that they hand
values on to. The run through the members of a container is stopped by the first step that does not pass.
-/
namespace Schemata

namespace Step

inductive Stops : Step (Except Fault) → Problem → Prop
  | take {segment : Segment} {p : Parser (Except Fault)} {v : Value} {ps : List Problem}
    (h : p v = .ok (.failure ps)) : Stops (.take segment p v) (.within segment ps)
  | check {segment : Segment} {p : Parser (Except Fault)} {v : Value} {ps : List Problem}
    (h : p v = .ok (.failure ps)) : Stops (.check segment p v) (.within segment ps)
  | missing (segment : Segment) : Stops (.missing segment) (.within segment [.missing])

inductive Warns : Step (Except Fault) → Problem → Prop
  | take {segment : Segment} {p : Parser (Except Fault)} {v w : Value} {ps : List Problem}
    (h : p v = .ok (.warning w ps)) : Warns (.take segment p v) (.within segment ps)
  | unexpected (segment : Segment) : Warns (.unexpected segment) (.within segment [.unexpected segment])

theorem warns_of_mem_warnings {s : Step (Except Fault)} {p : Problem} (h : p ∈ s.warnings) : s.Warns p := by
  cases s with
  | missing | check => cases h
  | unexpected segment =>
    obtain rfl := List.mem_singleton.mp h
    exact .unexpected segment
  | take segment q v =>
    rw [warnings] at h
    split at h
    · rename_i w ps hq
      obtain rfl := List.mem_singleton.mp h
      exact .take hq
    · cases h

end Step

/-- One of the steps stops with the problem, and all before it pass. -/
inductive Halts : List (Step (Except Fault)) → Problem → Prop
  | here {s : Step (Except Fault)} {steps : List (Step (Except Fault))} {p : Problem} (h : s.Stops p) :
    Halts (s :: steps) p
  | later {s : Step (Except Fault)} {steps : List (Step (Except Fault))} {p : Problem} (hs : s.Passes)
    (h : Halts steps p) : Halts (s :: steps) p

namespace Halts
variable {steps l r : List (Step (Except Fault))} {p : Problem}

theorem exists_mem (h : Halts steps p) : ∃ s ∈ steps, s.Stops p := by
  induction h with
  | here h => exact ⟨_, List.mem_cons_self, h⟩
  | later _ _ ih =>
    obtain ⟨s, hs, hp⟩ := ih
    exact ⟨s, List.mem_cons_of_mem _ hs, hp⟩

theorem of_append (h : Halts (l ++ r) p) : Halts l p ∨ Halts r p := by
  induction l with
  | nil => exact .inr h
  | cons s l ih =>
    cases h with
    | here h => exact .inl (.here h)
    | later hs h => exact (ih h).imp_left (.later hs)

theorem of_flatMap {α : Type} {as : List α} {f : α → List (Step (Except Fault))} (h : Halts (as.flatMap f) p) :
    ∃ a ∈ as, Halts (f a) p := by
  induction as with
  | nil => cases h
  | cons a as ih =>
    rcases h.of_append with h | h
    · exact ⟨a, List.mem_cons_self, h⟩
    · obtain ⟨b, hb, h⟩ := ih h
      exact ⟨b, List.mem_cons_of_mem a hb, h⟩

end Halts

/-- A run is stopped by the first of its steps that does not pass. -/
theorem halts_of_gather {steps : List (Step (Except Fault))} {p : Problem} (h : gather steps = .ok (.stopped p)) :
    Halts steps p := by
  induction steps with
  | nil => cases h
  | cons s steps ih =>
    have kept {segment : Segment} {v : Value} {g : Gathered} (hg : g.keep segment v = .stopped p) :
        g = .stopped p := by
      cases g with
      | stopped q => exact hg
      | kept ms ws => cases hg
    have warned {q : Problem} {g : Gathered} (hg : g.warn q = .stopped p) : g = .stopped p := by
      cases g with
      | stopped q => exact hg
      | kept ms ws => cases hg
    cases s with
    | missing segment =>
      obtain rfl := Gathered.stopped.inj (Except.ok.inj h)
      exact .here (.missing segment)
    | unexpected segment =>
      obtain ⟨g, hg, h⟩ := bind_eq_ok_iff.mp h
      obtain rfl := warned (Except.ok.inj h)
      exact .later trivial (ih hg)
    | check segment q v =>
      obtain ⟨o, ho, h⟩ := bind_eq_ok_iff.mp h
      cases o with
      | failure ps =>
        obtain rfl := Gathered.stopped.inj (Except.ok.inj h)
        exact .here (.check ho)
      | success | warning => exact .later ⟨_, ho, rfl⟩ (ih h)
    | take segment q v =>
      obtain ⟨o, ho, h⟩ := bind_eq_ok_iff.mp h
      cases o with
      | failure ps =>
        obtain rfl := Gathered.stopped.inj (Except.ok.inj h)
        exact .here (.take ho)
      | success w =>
        obtain ⟨g, hg, h⟩ := bind_eq_ok_iff.mp h
        obtain rfl := kept (Except.ok.inj h)
        exact .later ⟨_, ho, rfl⟩ (ih hg)
      | warning w ps =>
        obtain ⟨g, hg, h⟩ := bind_eq_ok_iff.mp h
        obtain rfl := kept (warned (Except.ok.inj h))
        exact .later ⟨_, ho, rfl⟩ (ih hg)

section
variable {scope : Scope} {a : Annotations} {x v : Value} {qs : List Problem}

theorem Outcome.eq_of_warning_eq_warn {w : Value} {ps : List Problem} (h : Outcome.warning v qs = .warn w ps) :
    qs = ps ∧ qs ≠ [] := by
  cases ps with
  | nil => cases h
  | cons p ps =>
    obtain ⟨_, rfl⟩ := Outcome.warning.inj h
    exact ⟨rfl, List.cons_ne_nil _ _⟩

section
variable {es : List (Element (Parser (Except Fault)))} {rest : Option (Rest (Parser (Except Fault)))}

/-- A tuple fails on what is no sequence, and by one step. -/
theorem Tuple.parse_fails (h : parse scope a es rest x = .ok (.failure qs)) :
    (∃ predicate override, qs = [.mismatch predicate x override]) ∨
      ∃ items, x.items? = some items ∧ ∃ s ∈ steps es rest items, ∃ p, s.Stops p ∧ qs = [p] := by
  rw [parse] at h
  cases hx : x.items? with
  | none =>
    rw [hx] at h
    obtain rfl := Outcome.failure.inj (Except.ok.inj h)
    exact .inl ⟨_, _, rfl⟩
  | some items =>
    rw [hx] at h
    obtain ⟨g, hg, h⟩ := bind_eq_ok_iff.mp h
    cases g with
    | stopped p =>
      obtain rfl := Outcome.failure.inj (Except.ok.inj h)
      obtain ⟨s, hs, hp⟩ := (halts_of_gather hg).exists_mem
      exact .inr ⟨items, rfl, s, hs, p, hp, rfl⟩
    | kept ms ws => cases ws <;> cases h

/-- A tuple warns of what its steps warn of. -/
theorem Tuple.parse_warns (h : parse scope a es rest x = .ok (.warning v qs)) :
    qs ≠ [] ∧ ∃ items, x.items? = some items ∧ ∀ p ∈ qs, ∃ s ∈ steps es rest items, s.Warns p := by
  obtain ⟨items, hx, _, ho⟩ := parse_accepts_iff.mp ⟨h, rfl⟩
  obtain ⟨rfl, hne⟩ := Outcome.eq_of_warning_eq_warn ho
  refine ⟨hne, items, hx, fun p hp => ?_⟩
  obtain ⟨s, hs, hp⟩ := List.mem_flatMap.mp hp
  exact ⟨s, hs, Step.warns_of_mem_warnings hp⟩

end

section
variable {ps : List (Property (Parser (Except Fault)))} {is : List (Struct.Index (Except Fault))}

/-- A struct fails on what is no mapping, and by the first step that does not pass. -/
theorem Struct.parse_fails (h : parse scope a ps is x = .ok (.failure qs)) :
    (∃ predicate override, qs = [.mismatch predicate x override]) ∨
      ∃ es, x.entries? = some es ∧ ∃ p, Halts (steps ps is es) p ∧ qs = [p] := by
  rw [parse] at h
  cases hx : x.entries? with
  | none =>
    rw [hx] at h
    obtain rfl := Outcome.failure.inj (Except.ok.inj h)
    exact .inl ⟨_, _, rfl⟩
  | some es =>
    rw [hx] at h
    obtain ⟨g, hg, h⟩ := bind_eq_ok_iff.mp h
    cases g with
    | stopped p =>
      obtain rfl := Outcome.failure.inj (Except.ok.inj h)
      exact .inr ⟨es, rfl, p, halts_of_gather hg, rfl⟩
    | kept ms ws => cases ws <;> cases h

/-- A struct warns of what its steps warn of. -/
theorem Struct.parse_warns (h : parse scope a ps is x = .ok (.warning v qs)) :
    qs ≠ [] ∧ ∃ es, x.entries? = some es ∧ (∀ s ∈ steps ps is es, s.Passes) ∧
      ∀ p ∈ qs, ∃ s ∈ steps ps is es, s.Warns p := by
  obtain ⟨es, hx, hpass, ho⟩ := parse_accepts_iff.mp ⟨h, rfl⟩
  obtain ⟨rfl, hne⟩ := Outcome.eq_of_warning_eq_warn ho
  refine ⟨hne, es, hx, hpass, fun p hp => ?_⟩
  obtain ⟨s, hs, hp⟩ := List.mem_flatMap.mp hp
  exact ⟨s, hs, Step.warns_of_mem_warnings hp⟩

end

/-- The problem that a run through a table stops with: at a declared key, at a key that a parameter does not take, or at
the value of a key that the parameter takes. -/
inductive Struct.Fails (f : Schema → Parser (Except Fault)) (ps : List (Property Schema))
    (is : List (IndexSignature Schema)) (es : Entries) : Problem → Prop
  | property {p : Property Schema} {v : Value} {qs : List Problem} (hp : p ∈ ps) (hv : es.lookup p.name = some v)
    (hf : f p.type v = .ok (.failure qs)) : Fails f ps is es (.within (.key p.name) qs)
  | absent {p : Property Schema} (hp : p ∈ ps) (hv : es.lookup p.name = none) :
    Fails f ps is es (.within (.key p.name) [.missing])
  | parameter {e : Value × Value} {i : IndexSignature Schema} {qs : List Problem} (he : e ∈ es)
    (hd : e.1.occursIn (ps.map fun p => p.name) = false) (hi : i ∈ is) (hc : i.claims e.1)
    (hf : f i.parameter e.1 = .ok (.failure qs)) : Fails f ps is es (.within (.key e.1) qs)
  | index {e : Value × Value} {i : IndexSignature Schema} {qs : List Problem} (he : e ∈ es)
    (hd : e.1.occursIn (ps.map fun p => p.name) = false) (hi : i ∈ is) (hc : i.claims e.1)
    (hk : ∃ o, f i.parameter e.1 = .ok o ∧ o.isFailure = false) (hf : f i.type e.2 = .ok (.failure qs)) :
    Fails f ps is es (.within (.key e.1) qs)

theorem Struct.fails_of_halts {f : Schema → Parser (Except Fault)} {ps : List (Property Schema)}
    {is : List (IndexSignature Schema)} {es : Entries} {p : Problem}
    (h : Halts (steps (ps.map (Property.map f)) (is.map (IndexSignature.parsers f)) es) p) : Fails f ps is es p := by
  rw [steps, names_map, List.flatMap_map] at h
  rcases h.of_append with h | h
  · obtain ⟨q, hq, h⟩ := h.of_flatMap
    obtain ⟨s, hs, hp⟩ := h.exists_mem
    rcases mem_propertySteps_iff.mp hs with ⟨v, hv, rfl⟩ | ⟨hv, _, rfl⟩
    · cases hp with
      | take hf => exact .property hq hv hf
    · cases hp
      exact .absent hq hv
  · obtain ⟨e, he, h⟩ := h.of_flatMap
    rw [entrySteps, filter_parsers] at h
    split at h
    · cases h
    · rename_i hd
      split at h
      · obtain ⟨s, hs, hp⟩ := h.exists_mem
        obtain rfl := List.mem_singleton.mp hs
        cases hp
      · obtain ⟨q, hq, h⟩ := h.of_flatMap
        obtain ⟨i, hi, rfl⟩ := List.mem_map.mp hq
        obtain ⟨hi, hc⟩ := List.mem_filter.mp hi
        have hd : e.1.occursIn (ps.map fun p => p.name) = false := by simpa using hd
        cases h with
        | here h =>
          cases h with
          | check hf => exact .parameter he hd hi hc hf
        | later hk h =>
          obtain ⟨s, hs, hp⟩ := h.exists_mem
          obtain rfl := List.mem_singleton.mp hs
          cases hp with
          | take hf => exact .index he hd hi hc hk hf

/-- A refinement fails as its base does, or because the predicate says so: of what the base gives when decoding, of the
value itself when encoding. -/
theorem Refinement.parse_fails {direction : Direction} {p : Predicate} {base : Parser (Except Fault)}
    (h : parse scope direction a p base x = .ok (.failure qs)) :
    base x = .ok (.failure qs) ∨ ∃ v override, qs = [.violation a.displayLabel v override] ∧
      scope.test p v = .ok false ∧
      (match direction with
        | .decode => ∃ o, base x = .ok o ∧ o.value? = some v
        | .encode => v = x) := by
  cases direction with
  | decode =>
    obtain ⟨o, ho, h⟩ := bind_eq_ok_iff.mp h
    cases hv : o.value? with
    | none =>
      rw [hv] at h
      obtain rfl := Except.ok.inj h
      exact .inl ho
    | some v =>
      rw [hv] at h
      obtain ⟨b, hb, h⟩ := bind_eq_ok_iff.mp h
      cases b with
      | true =>
        obtain rfl := Except.ok.inj h
        cases hv
      | false =>
        obtain rfl := Outcome.failure.inj (Except.ok.inj h)
        exact .inr ⟨v, _, rfl, hb, o, ho, hv⟩
  | encode =>
    obtain ⟨b, hb, h⟩ := bind_eq_ok_iff.mp h
    cases b with
    | true => exact .inl h
    | false =>
      obtain rfl := Outcome.failure.inj (Except.ok.inj h)
      exact .inr ⟨x, _, rfl, hb, rfl⟩

/-- A union fails when all of its members fail, and reports them one by one. -/
theorem Union.parse_fails {weights : List Nat} {ps : List (Parser (Except Fault))} (hl : ps.length ≤ weights.length)
    (h : parse weights ps x = .ok (.failure qs)) : ps ≠ [] ∧
      ∃ pss, List.Forall₂ (fun p rs => p x = .ok (.failure rs)) ps pss ∧ qs = pss.map .ofMember := by
  obtain ⟨os, ht, hr⟩ := parse_eq_ok h
  obtain ⟨tried, htried, hall, hend⟩ := tryMembers_prefix ht
  have hlos : os.length ≤ weights.length := hall.length_eq ▸ Nat.le_trans htried.length_le hl
  -- Neither a clean success nor a warning is among the outcomes.
  have hfails : ∀ o ∈ os, o = .failure o.problems := by
    intro o ho
    have hpass : o.passes true = false := by
      by_contra hp
      have hgood := (resolve_passes_iff hlos hr).mpr ⟨o, ho, by simpa using hp⟩
      cases hgood
    cases o with
    | success | warning => cases hpass
    | failure ps => rfl
  obtain rfl : tried = ps := hend.resolve_right fun ⟨o, ho, hs⟩ => by
    rw [hfails o ho] at hs
    cases hs
  rw [resolve] at hr
  split at hr
  · rename_i o ho
    obtain rfl := Except.ok.inj hr
    cases List.find?_some ho
  · split at hr
    · cases hr
    · cases os with
      | nil => cases hr
      | cons o os =>
        obtain rfl := Outcome.failure.inj (Except.ok.inj hr)
        refine ⟨?_, (o :: os).map Outcome.problems, ?_, (List.map_map ..).symm⟩
        · rintro rfl
          cases hall
        · rw [← List.map_id tried]
          exact Lists.forall₂_map hall fun p _ o ho hp => hp.trans (congrArg Except.ok (hfails o ho))

end

namespace Scope
variable {scope : Scope} {direction : Direction} {a : Annotations} {x v : Value} {qs : List Problem}

theorem eq_mismatch_of_refused {c : Bool} {predicate : String}
    (h : (if c then .success x else scope.mismatch a predicate x : Outcome) = .failure qs) :
    ∃ override, qs = [.mismatch predicate x override] := by
  cases c with
  | true => cases h
  | false => exact ⟨_, (Outcome.failure.inj h).symm⟩

/-- Large integers are refused, or fail to convert. -/
theorem bigint_fails (h : scope.parseKeyword direction a .bigint x = .failure qs) :
    (∃ predicate override, qs = [.mismatch predicate x override]) ∨
      ∃ source target override, qs = [.conversion source target x override] := by
  cases direction with
  | decode =>
    rw [parseKeyword, decodeBigint] at h
    split at h
    · cases h
    · split at h
      · split at h
        · cases h
        · exact .inr ⟨_, _, _, (Outcome.failure.inj h).symm⟩
      · exact .inl ⟨_, _, (Outcome.failure.inj h).symm⟩
  | encode =>
    rw [parseKeyword, encodeBigint] at h
    split at h
    · cases h
    · exact .inl ⟨_, _, (Outcome.failure.inj h).symm⟩

theorem plainKeyword_fails {w : Keyword} (h : scope.parsePlainKeyword a w x = .failure qs) :
    ∃ predicate override, qs = [.mismatch predicate x override] := by
  rw [parsePlainKeyword] at h
  split at h
  · have hf : (.failure qs : Outcome).isFailure = false := by
      rw [← h]
      split
      · exact Outcome.isFailure_warn _ _
      · rfl
    cases hf
  · exact ⟨_, _, (Outcome.failure.inj h).symm⟩

/-- Of the plain keywords only the one of numbers warns, and of nothing but numbers that are not finite. -/
theorem plainKeyword_warns {w : Keyword} (h : scope.parsePlainKeyword a w x = .warning v qs) :
    w = .number ∧ qs ≠ [] ∧ ∀ q ∈ qs, anomaly? x = some q := by
  rw [parsePlainKeyword] at h
  split at h
  · split at h
    · rename_i hw
      obtain ⟨rfl, hne⟩ := Outcome.eq_of_warning_eq_warn h.symm
      exact ⟨hw, hne, fun q hq => Option.mem_toList.mp hq⟩
    · cases h
  · cases h

theorem eq_anomaly_of_anomaly? {p : Problem} (h : anomaly? x = some p) : ∃ reason, p = .anomaly x reason := by
  rw [anomaly?] at h
  split at h
  · exact ⟨_, (Option.some.inj h).symm⟩
  · split at h
    · exact ⟨_, (Option.some.inj h).symm⟩
    · cases h

end Scope
end Schemata
