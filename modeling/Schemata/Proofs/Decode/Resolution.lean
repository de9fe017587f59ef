import Schemata.Proofs.Decode.Canonical

/-!
Which outcome a union takes. Members are tried in order up to the first clean success; without one, the outcome is the
first of the best warnings, and the weights of canonical members never decide which one that is.
-/
namespace Schemata

namespace Outcome
variable {o p : Outcome} {os : List Outcome}

def retained (o : Outcome) : Nat :=
  (o.value?.map Union.retained).getD 0

/-- Fewer problems, or as many and more members retained. -/
def Outranks (o p : Outcome) : Prop :=
  o.problems.length < p.problems.length ∨ (o.problems.length = p.problems.length ∧ p.retained < o.retained)

/-- The outcome is one of the warnings. It outranks those before it, and none of those behind it outranks it. -/
def Foremost (o : Outcome) (os : List Outcome) : Prop :=
  ∃ before after, os.filter isWarning = before ++ o :: after ∧ (∀ p ∈ before, o.Outranks p) ∧
    ∀ p ∈ after, ¬p.Outranks o

theorem isFailure_of_isWarning (h : o.isWarning) : o.isFailure = false := by
  cases o with
  | warning => rfl
  | success | failure => cases h

theorem not_isSuccess_of_isFailure (h : o.isFailure) : o.isSuccess = false := by
  cases o with
  | failure => rfl
  | success | warning => cases h

theorem Outranks.asymm (h : o.Outranks p) : ¬p.Outranks o := by
  unfold Outranks at *
  omega

theorem Foremost.mem (h : o.Foremost os) : o ∈ os ∧ o.isWarning := by
  obtain ⟨before, after, hos, _⟩ := h
  exact List.mem_filter.mp (hos ▸ List.mem_append_right before List.mem_cons_self)

theorem Foremost.not_outranks (h : o.Foremost os) (hp : p ∈ os) (hw : p.isWarning) : ¬p.Outranks o := by
  obtain ⟨before, after, hos, hbefore, hafter⟩ := h
  have hmem : p ∈ before ++ o :: after := hos ▸ List.mem_filter.mpr ⟨hp, hw⟩
  rcases List.mem_append.mp hmem with hb | ha
  · exact (hbefore p hb).asymm
  · rcases List.mem_cons.mp ha with rfl | ha
    · exact fun h => h.asymm h
    · exact hafter p ha

/-- Of two places among the warnings one comes first, and there the other outcome would have to be outranked. -/
theorem Foremost.unique (ho : o.Foremost os) (hp : p.Foremost os) : o = p := by
  obtain ⟨before, after, hos, hbefore, hafter⟩ := ho
  obtain ⟨before', after', hos', hbefore', hafter'⟩ := hp
  rcases List.append_eq_append_iff.mp (hos.symm.trans hos') with ⟨as, hb, has⟩ | ⟨as, hb, has⟩
  · cases as with
    | nil => exact (List.cons.inj has).1
    | cons a as =>
      obtain ⟨rfl, rfl⟩ := List.cons.inj has
      exact absurd (hbefore' o (by simp [hb])) (hafter p (by simp))
  · cases as with
    | nil => exact (List.cons.inj has).1.symm
    | cons a as =>
      obtain ⟨rfl, rfl⟩ := List.cons.inj has
      exact absurd (hbefore p (by simp [hb])) (hafter' o (by simp))

end Outcome

namespace Union
variable {weights : List Nat} {os : List Outcome} {o : Outcome} {c d e : Candidate}

theorem Candidate.better_iff : c.better d ↔ c.outcome.Outranks d.outcome ∨
    (c.problems.length = d.problems.length ∧ retained c.value = retained d.value ∧ d.weight < c.weight) := by
  simp only [better, Outcome.Outranks, outcome, Outcome.problems, Outcome.retained, Outcome.value?, Option.map_some,
    Option.getD_some, Bool.or_eq_true, Bool.and_eq_true, decide_eq_true_eq, beq_iff_eq]
  omega

theorem Candidate.better_trans (h : c.better d) (k : d.better e) : c.better e := by
  simp only [better, Bool.or_eq_true, Bool.and_eq_true, decide_eq_true_eq, beq_iff_eq] at *
  omega

/-- Being no better passes on, too. -/
theorem Candidate.better_of_not_better (h : c.better d) (k : ¬e.better d) : c.better e := by
  simp only [better, Bool.or_eq_true, Bool.and_eq_true, decide_eq_true_eq, beq_iff_eq] at *
  omega

/-- The best is better than all before it, and none behind it is better. The induction takes the candidates from the
last one on, which is compared with the best of the others. -/
theorem best_eq_append (first : Candidate) (others : List Candidate) :
    ∃ before after, first :: others = before ++ best first others :: after ∧
      (∀ c ∈ before, (best first others).better c) ∧ ∀ c ∈ after, ¬c.better (best first others) := by
  induction others using List.reverseRecOn with
  | nil => exact ⟨[], [], rfl, by simp, by simp⟩
  | append_singleton others d ih =>
    obtain ⟨before, after, hall, hbefore, hafter⟩ := ih
    have hbest : best first (others ++ [d]) =
        if d.better (best first others) then d else best first others := by
      rw [best, List.foldl_append]
      rfl
    rw [hbest, ← List.cons_append]
    split
    · rename_i hd
      refine ⟨first :: others, [], rfl, fun c hc => ?_, by simp⟩
      rw [hall, List.mem_append, List.mem_cons] at hc
      rcases hc with hc | rfl | hc
      · exact Candidate.better_trans hd (hbefore c hc)
      · exact hd
      · exact Candidate.better_of_not_better hd (hafter c hc)
    · rename_i hd
      refine ⟨before, after ++ [d], by rw [hall]; simp, hbefore, fun c hc => ?_⟩
      rcases List.mem_append.mp hc with hc | hc
      · exact hafter c hc
      · rwa [List.mem_singleton.mp hc]

/-- The candidates are the warnings, in their order. -/
theorem candidates_outcomes (hl : os.length ≤ weights.length) :
    (candidates weights os).map Candidate.outcome = os.filter Outcome.isWarning := by
  induction os generalizing weights with
  | nil => rfl
  | cons o os ih =>
    cases weights with
    | nil => simp at hl
    | cons w weights =>
      have hos : (candidates weights os).map Candidate.outcome = os.filter Outcome.isWarning :=
        ih (by simpa using hl)
      cases o with
      | success | failure => exact hos
      | warning v ps => exact congrArg (Outcome.warning v ps :: ·) hos

theorem candidates_weights (weights : List Nat) (os : List Outcome) :
    ((candidates weights os).map Candidate.weight).Sublist weights := by
  induction os generalizing weights with
  | nil => exact List.nil_sublist weights
  | cons o os ih =>
    cases weights with
    | nil => exact List.Sublist.refl []
    | cons w weights =>
      cases o with
      | success | failure => exact (ih weights).cons w
      | warning v ps => exact (ih weights).cons_cons w

/-- When the weights do not ascend, a later candidate is never better for its weight. -/
theorem foremost_best (hw : weights.Pairwise fun v w => w ≤ v) (hl : os.length ≤ weights.length)
    {first : Candidate} {others : List Candidate} (h : candidates weights os = first :: others) :
    (best first others).outcome.Foremost os := by
  obtain ⟨before, after, hall, hbefore, hafter⟩ := best_eq_append first others
  have hweights : (before ++ best first others :: after).Pairwise fun c d => d.weight ≤ c.weight := by
    rw [← hall, ← h]
    exact List.pairwise_map.mp (hw.sublist (candidates_weights weights os))
  refine ⟨before.map Candidate.outcome, after.map Candidate.outcome, ?_, ?_, ?_⟩
  · rw [← candidates_outcomes hl, h, hall, List.map_append, List.map_cons]
  · intro p hp
    obtain ⟨c, hc, rfl⟩ := List.mem_map.mp hp
    have hle : (best first others).weight ≤ c.weight :=
      (List.pairwise_append.mp hweights).2.2 c hc _ List.mem_cons_self
    rcases Candidate.better_iff.mp (hbefore c hc) with hrank | ⟨_, _, hlt⟩
    · exact hrank
    · omega
  · intro p hp
    obtain ⟨c, hc, rfl⟩ := List.mem_map.mp hp
    exact fun hrank => hafter c hc (Candidate.better_iff.mpr (.inl hrank))

theorem find?_isSuccess (hn : ∀ p ∈ os, p.isSuccess = false) : os.find? Outcome.isSuccess = none :=
  List.find?_eq_none.mpr fun p hp => by simp [hn p hp]

theorem resolve_of_success {v : Value} (hn : ∀ p ∈ os, p.isSuccess = false) :
    resolve weights (os ++ [Outcome.success v]) = .ok (.success v) := by
  have hfind : (os ++ [Outcome.success v]).find? Outcome.isSuccess = some (.success v) := by
    rw [List.find?_append, find?_isSuccess hn]
    rfl
  rw [resolve, hfind]
  rfl

/-- Without a clean success the outcome is the foremost of the warnings. -/
theorem resolve_of_warning (hw : weights.Pairwise fun v w => w ≤ v) (hl : os.length ≤ weights.length)
    (hn : ∀ p ∈ os, p.isSuccess = false) (h : ∃ p ∈ os, p.isWarning) :
    ∃ o, resolve weights os = .ok o ∧ o.Foremost os := by
  cases hc : candidates weights os with
  | nil =>
    obtain ⟨p, hp, hpw⟩ := h
    have hnone : os.filter Outcome.isWarning = [] := by rw [← candidates_outcomes hl, hc, List.map_nil]
    exact absurd hpw (List.filter_eq_nil_iff.mp hnone p hp)
  | cons first others =>
    refine ⟨_, ?_, foremost_best hw hl hc⟩
    rw [resolve, find?_isSuccess hn, hc]
    rfl

theorem resolve_of_failures (hne : os ≠ []) (hl : os.length ≤ weights.length) (h : ∀ p ∈ os, p.isFailure) :
    resolve weights os = .ok (.failure (os.map fun p => .ofMember p.problems)) := by
  have hc : candidates weights os = [] := by
    rw [← List.map_eq_nil_iff, candidates_outcomes hl, List.filter_eq_nil_iff]
    exact fun p hp hw => by simpa [Outcome.isFailure_of_isWarning hw] using h p hp
  rw [resolve, find?_isSuccess fun p hp => Outcome.not_isSuccess_of_isFailure (h p hp), hc, Outcome.fail,
    List.isEmpty_map, List.isEmpty_eq_false_iff.mpr hne]
  rfl

/-- Weights that do not ascend might as well all be the same. -/
theorem resolve_zeros (hw : weights.Pairwise fun v w => w ≤ v) (hl : os.length ≤ weights.length) :
    resolve (weights.map fun _ => 0) os = resolve weights os := by
  have hz : (weights.map fun _ => 0).Pairwise fun v w => w ≤ v :=
    List.pairwise_map.mpr (hw.imp fun _ => Nat.le_refl 0)
  have hlz : os.length ≤ (weights.map fun _ => 0).length := by rwa [List.length_map]
  have hout : (candidates (weights.map fun _ => 0) os).map Candidate.outcome =
      (candidates weights os).map Candidate.outcome := by
    rw [candidates_outcomes hlz, candidates_outcomes hl]
  rw [resolve, resolve]
  cases os.find? Outcome.isSuccess with
  | some o => rfl
  | none =>
    cases hc : candidates weights os with
    | nil =>
      rw [hc] at hout
      rw [List.map_eq_nil_iff.mp hout]
    | cons first others =>
      cases hd : candidates (weights.map fun _ => 0) os with
      | nil =>
        rw [hc, hd] at hout
        cases hout
      | cons first' others' =>
        have hbest := (foremost_best hz hlz hd).unique (foremost_best hw hl hc)
        simp only [hbest]

variable {x : Value} {ps qs : List (Parser (Except Fault))}

/-- Members that do not succeed cleanly are followed by the next ones. -/
theorem tryMembers_append (h : List.Forall₂ (fun p o => p x = .ok o) ps os) (hn : ∀ o ∈ os, o.isSuccess = false) :
    tryMembers x (ps ++ qs) = tryMembers x qs >>= fun rest => .ok (os ++ rest) := by
  induction h with
  | nil =>
    rw [List.nil_append]
    cases tryMembers x qs <;> rfl
  | cons hp _ ih =>
    rw [List.forall_mem_cons] at hn
    simp only [List.cons_append, tryMembers, hp, hn.1, ih hn.2, bind, Except.bind, Bool.false_eq_true, if_false]
    cases tryMembers x qs <;> rfl

theorem tryMembers_all (h : List.Forall₂ (fun p o => p x = .ok o) ps os) (hn : ∀ o ∈ os, o.isSuccess = false) :
    tryMembers x ps = .ok os := by
  have hall : tryMembers x (ps ++ []) = _ := tryMembers_append h hn
  simpa [tryMembers, bind, Except.bind, pure, Except.pure] using hall

theorem parse_of_success {p : Parser (Except Fault)} {v : Value} (h : List.Forall₂ (fun p o => p x = .ok o) ps os)
    (hn : ∀ o ∈ os, o.isSuccess = false) (hp : p x = .ok (.success v)) :
    parse weights (ps ++ p :: qs) x = .ok (.success v) := by
  have ht : tryMembers x (p :: qs) = .ok [.success v] := by
    simp only [tryMembers, hp, bind, Except.bind]
    rfl
  have hall : tryMembers x (ps ++ p :: qs) = .ok (os ++ [.success v]) := by
    rw [tryMembers_append h hn, ht]
    rfl
  simp only [parse, hall, bind, Except.bind]
  exact resolve_of_success hn

theorem parse_eq_resolve (h : List.Forall₂ (fun p o => p x = .ok o) ps os) (hn : ∀ o ∈ os, o.isSuccess = false) :
    parse weights ps x = resolve weights os := by
  simp only [parse, tryMembers_all h hn, bind, Except.bind]
  rfl

/-- The members that are tried are no more than there are. -/
theorem parse_zeros (hw : weights.Pairwise fun v w => w ≤ v) (hl : ps.length ≤ weights.length) :
    parse (weights.map fun _ => 0) ps = parse weights ps := by
  funext x
  cases ht : tryMembers x ps with
  | error f => simp only [parse, ht, bind, Except.bind]
  | ok os =>
    obtain ⟨qs, hqs, hall, _⟩ := tryMembers_prefix ht
    have hos : os.length ≤ weights.length := hall.length_eq ▸ Nat.le_trans hqs.length_le hl
    simp only [parse, ht, bind, Except.bind, resolve_zeros hw hos]

/-- No member accepts with fewer problems than the union. -/
theorem parse_least (hw : weights.Pairwise fun v w => w ≤ v) (hl : ps.length ≤ weights.length)
    (h : parse weights ps x = .ok o) {p : Parser (Except Fault)} (hp : p ∈ ps) {r : Outcome} (hr : p x = .ok r)
    (hf : r.isFailure = false) : o.isFailure = false ∧ o.problems.length ≤ r.problems.length := by
  obtain ⟨os, ht, ho⟩ := parse_eq_ok h
  obtain ⟨qs, hqs, hall, hend⟩ := tryMembers_prefix ht
  have hos : os.length ≤ weights.length := hall.length_eq ▸ Nat.le_trans hqs.length_le hl
  by_cases hn : ∀ q ∈ os, q.isSuccess = false
  · obtain rfl : qs = ps := hend.resolve_right fun ⟨q, hq, hs⟩ => by simp [hn q hq] at hs
    obtain ⟨r', hr', hpr⟩ := Lists.exists_of_mem_left hall hp
    obtain rfl := Except.ok.inj (hr.symm.trans hpr)
    have hwarn : r.isWarning := by
      cases r with
      | warning => rfl
      | success v => cases hn _ hr'
      | failure ps => cases hf
    obtain ⟨o', ho', hfore⟩ := resolve_of_warning hw hos hn ⟨r, hr', hwarn⟩
    obtain rfl := Except.ok.inj (ho.symm.trans ho')
    have hrank := hfore.not_outranks hr' hwarn
    unfold Outcome.Outranks at hrank
    exact ⟨Outcome.isFailure_of_isWarning hfore.mem.2, by omega⟩
  · have hs : o.isSuccess := by
      push Not at hn
      obtain ⟨q, hq, hs⟩ := hn
      apply (Outcome.passes_false o).mp
      apply (resolve_passes_iff hos ho).mpr
      exact ⟨q, hq, (Outcome.passes_false q).mpr (by simpa using hs)⟩
    cases o with
    | success v => exact ⟨rfl, Nat.zero_le _⟩
    | warning | failure => cases hs

end Union

namespace Scope
variable {scope : Scope} {direction : Direction} {cs : List Schema} {a : Annotations} {x : Value} {o : Outcome}

theorem run_oneOf (h : 2 ≤ (Schema.unify cs).length) (n : Nat) :
    scope.run direction n (.oneOf cs a) = Union.parse ((Schema.ranked (Schema.unify cs)).map Schema.weight)
      ((Schema.ranked (Schema.unify cs)).map (scope.run direction n)) := by
  rcases Schema.oneOf_eq cs a with ⟨hu, _⟩ | ⟨s, hu, _⟩ | ⟨_, hc⟩
  · simp [hu] at h
  · simp [hu] at h
  · rw [hc, run_union]

/-- With enough fuel for all members the union has their outcomes. -/
theorem eventually_run_members {ss : List Schema} {os : List Outcome}
    (h : List.Forall₂ (fun s o => scope.Yields direction s x o) ss os) :
    ∀ᶠ n in Filter.atTop, List.Forall₂ (fun p o => p x = .ok o) (ss.map (scope.run direction n)) os :=
  (eventually_forall₂ (h.imp fun _ _ hs => hs.eventually)).mono fun _ hn => List.forall₂_map_left_iff.mpr hn

theorem oneOf_of_success {before after : List Schema} {s : Schema} {v : Value} (h : 2 ≤ (Schema.unify cs).length)
    (hm : Schema.ranked (Schema.unify cs) = before ++ s :: after)
    (hbefore : ∀ t ∈ before, ∃ o, scope.Yields direction t x o ∧ o.isSuccess = false)
    (hs : scope.Yields direction s x (.success v)) : scope.Yields direction (.oneOf cs a) x (.success v) := by
  obtain ⟨os, hos⟩ := Lists.exists_forall₂ hbefore
  have hn : ∀ o ∈ os, o.isSuccess = false := fun o ho =>
    let ⟨_, _, hr⟩ := Lists.exists_of_mem_right hos ho
    hr.2
  obtain ⟨n, hbefore, hs⟩ := ((eventually_run_members (hos.imp fun _ _ hr => hr.1)).and hs.eventually).exists
  refine ⟨n, ?_⟩
  rw [run_oneOf h, hm, List.map_append (f := scope.run direction n), List.map_cons (f := scope.run direction n)]
  exact Union.parse_of_success hbefore hn hs

section
variable {rs : List Outcome}
  (hrs : List.Forall₂ (fun s r => scope.Yields direction s x r) (Schema.ranked (Schema.unify cs)) rs)
include hrs

theorem oneOf_of_warning (h : 2 ≤ (Schema.unify cs).length) (hn : ∀ r ∈ rs, r.isSuccess = false)
    (hw : ∃ r ∈ rs, r.isWarning) : ∃ o, scope.Yields direction (.oneOf cs a) x o ∧ o.Foremost rs := by
  obtain ⟨n, hall⟩ := (eventually_run_members hrs).exists
  have hl : rs.length ≤ ((Schema.ranked (Schema.unify cs)).map Schema.weight).length := by
    rw [List.length_map, hrs.length_eq]
  obtain ⟨o, ho, hfore⟩ := Union.resolve_of_warning (Schema.ranked_weights _) hl hn hw
  exact ⟨o, ⟨n, by rw [run_oneOf h, Union.parse_eq_resolve hall hn, ho]⟩, hfore⟩

theorem oneOf_of_failures (h : 2 ≤ (Schema.unify cs).length) (hf : ∀ r ∈ rs, r.isFailure) :
    scope.Yields direction (.oneOf cs a) x (.failure (rs.map fun r => .ofMember r.problems)) := by
  obtain ⟨n, hall⟩ := (eventually_run_members hrs).exists
  have hl : rs.length = (Schema.unify cs).length := by
    rw [← hrs.length_eq, Schema.ranked, List.length_mergeSort]
  have hne : rs ≠ [] := List.ne_nil_of_length_pos (by omega)
  refine ⟨n, ?_⟩
  rw [run_oneOf h, Union.parse_eq_resolve hall fun r hr => Outcome.not_isSuccess_of_isFailure (hf r hr)]
  exact Union.resolve_of_failures hne (by rw [List.length_map, hrs.length_eq]) hf

end

theorem oneOf_least {s : Schema} {r : Outcome} (h : 2 ≤ (Schema.unify cs).length)
    (ho : scope.Yields direction (.oneOf cs a) x o) (hs : s ∈ Schema.unify cs) (hr : scope.Yields direction s x r)
    (hf : r.isFailure = false) : o.isFailure = false ∧ o.problems.length ≤ r.problems.length := by
  obtain ⟨n, ho, hr⟩ := (ho.eventually.and hr.eventually).exists
  rw [run_oneOf h] at ho
  exact Union.parse_least (Schema.ranked_weights _) (by simp) ho (List.mem_map_of_mem (Schema.mem_ranked.mpr hs)) hr hf

theorem run_oneOf_zeros (h : 2 ≤ (Schema.unify cs).length) (n : Nat) :
    scope.run direction n (.oneOf cs a) = Union.parse ((Schema.ranked (Schema.unify cs)).map fun _ => 0)
      ((Schema.ranked (Schema.unify cs)).map (scope.run direction n)) := by
  rw [run_oneOf h, ← Union.parse_zeros (Schema.ranked_weights _) (by simp), List.map_map]
  rfl

/-- The outcome of a canonical union. It is the first clean success of a member; without one, the foremost of the
warnings; without any of them, a failure with the problems of every member. No member accepts with fewer problems, and
the weights of the members do not matter. -/
theorem oneOf_resolution (h : 2 ≤ (Schema.unify cs).length) :
    (∀ before s after v, Schema.ranked (Schema.unify cs) = before ++ s :: after →
      (∀ t ∈ before, ∃ o, scope.Yields direction t x o ∧ o.isSuccess = false) →
      scope.Yields direction s x (.success v) → scope.Yields direction (.oneOf cs a) x (.success v)) ∧
    (∀ rs, List.Forall₂ (fun s r => scope.Yields direction s x r) (Schema.ranked (Schema.unify cs)) rs →
      (∀ r ∈ rs, r.isSuccess = false) → (∃ r ∈ rs, r.isWarning) →
      ∃ o, scope.Yields direction (.oneOf cs a) x o ∧ o.Foremost rs) ∧
    (∀ rs, List.Forall₂ (fun s r => scope.Yields direction s x r) (Schema.ranked (Schema.unify cs)) rs →
      (∀ r ∈ rs, r.isFailure) →
      scope.Yields direction (.oneOf cs a) x (.failure (rs.map fun r => .ofMember r.problems))) ∧
    (∀ o, scope.Yields direction (.oneOf cs a) x o → ∀ s ∈ Schema.unify cs, ∀ r, scope.Yields direction s x r →
      r.isFailure = false → o.isFailure = false ∧ o.problems.length ≤ r.problems.length) ∧
    ∀ n, scope.run direction n (.oneOf cs a) = Union.parse ((Schema.ranked (Schema.unify cs)).map fun _ => 0)
      ((Schema.ranked (Schema.unify cs)).map (scope.run direction n)) := by
  refine ⟨fun before s after v hm hbefore hs => ?_, fun rs hrs hn hw => ?_, fun rs hrs hf => ?_,
    fun o ho s hs r hr hf => ?_, run_oneOf_zeros h⟩
  · exact oneOf_of_success h hm hbefore hs
  · exact oneOf_of_warning hrs h hn hw
  · exact oneOf_of_failures hrs h hf
  · exact oneOf_least h ho hs hr hf

def sided (key : String) : Schema :=
  .struct .empty [⟨.text key, .word .number, true, true, .empty⟩] []

/-- Either side of the union loses one of the two entries, so that the first side is taken. -/
theorem oneOf_resolution_sided :
    let cs := [sided "left", sided "right"]
    let x : Value := .dict [(.text "left", .int 1), (.text "right", .int 2)]
    let lost (key : String) : List Problem := [.within (.key (.text key)) [.unexpected (.key (.text key))]]
    2 ≤ (Schema.unify cs).length ∧ ∃ o, (Stock.scope []).Yields .decode (.oneOf cs .empty) x o ∧
      o.Foremost [.warning (.dict [(.text "left", .int 1)]) (lost "right"),
        .warning (.dict [(.text "right", .int 2)]) (lost "left")] := by
  intro cs x lost
  have hu : Schema.unify cs = cs := rfl
  have hr : Schema.ranked cs = cs := by
    refine List.mergeSort_of_pairwise ?_
    simp [cs, sided, Schema.weight]
  have hlen : 2 ≤ (Schema.unify cs).length := by rw [hu]; exact Nat.le_refl 2
  obtain ⟨_, hwarning, _⟩ := @oneOf_resolution (Stock.scope []) .decode cs .empty x hlen
  refine ⟨hlen, hwarning _ ?_ ?_ ⟨_, List.mem_cons_self, rfl⟩⟩
  · rw [hu, hr]
    exact .cons ⟨0, rfl⟩ (.cons ⟨0, rfl⟩ .nil)
  · simp [Outcome.isSuccess]

end Scope
end Schemata
