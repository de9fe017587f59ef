import Schemata.Decode.Union
import Schemata.Proofs.Decode.Gather
import Schemata.Proofs.Lists

/-!
What a union takes. Its outcome is that of a member, unless all members fail, and it is as good as the best outcome of a
member.
-/
namespace Schemata

/-- Whether an outcome is good enough: a clean success always is, a warning for the lenient. -/
def Outcome.passes (lenient : Bool) : Outcome → Bool
  | success _ => true
  | warning .. => lenient
  | failure _ => false

namespace Outcome
variable {lenient : Bool} {o : Outcome}

theorem passes_true (o : Outcome) : o.passes true ↔ o.isFailure = false := by
  cases o <;> simp [passes, isFailure]

theorem passes_false (o : Outcome) : o.passes false ↔ o.isSuccess := by
  cases o <;> simp [passes, isSuccess]

theorem passes_of_isSuccess (h : o.isSuccess) : o.passes lenient := by
  cases o with
  | success v => rfl
  | warning | failure => cases h

theorem isFailure_of_passes (h : o.passes lenient) : o.isFailure = false := by
  cases o with
  | success | warning => rfl
  | failure => cases h

end Outcome

namespace Union
variable {lenient : Bool} {weights : List Nat} {o : Outcome}

theorem best_mem (first : Candidate) (others : List Candidate) : best first others ∈ first :: others := by
  induction others generalizing first with
  | nil => exact List.mem_cons_self
  | cons c others ih =>
    rw [best, List.foldl_cons]
    split
    · exact List.mem_cons_of_mem _ (ih c)
    · rcases List.mem_cons.mp (ih first) with h | h
      · exact List.mem_cons.mpr (.inl h)
      · exact List.mem_cons_of_mem _ (List.mem_cons_of_mem _ h)

theorem outcome_mem_of_mem_candidates {weights : List Nat} {os : List Outcome} {c : Candidate}
    (h : c ∈ candidates weights os) : c.outcome ∈ os := by
  obtain ⟨⟨o, w⟩, ho, hc⟩ := List.mem_filterMap.mp h
  cases o <;> simp at hc
  subst hc
  exact (List.of_mem_zip ho).1

/-- The outcome of a union, unless it is a failure, is that of a member that was tried. -/
theorem mem_of_resolve {weights : List Nat} {os : List Outcome} {o : Outcome}
    (h : resolve weights os = .ok o) (ho : o.isFailure = false) : o ∈ os := by
  rw [resolve] at h
  split at h
  · rename_i p hp
    cases h
    exact List.mem_of_find?_eq_some hp
  · split at h
    · rename_i first others hc
      cases h
      exact outcome_mem_of_mem_candidates (hc ▸ best_mem first others)
    · rename_i hc
      cases os with
      | nil => cases h
      | cons p os =>
        cases h
        cases ho

theorem candidates_ne_nil {os : List Outcome} {v : Value} {ps : List Problem} (hl : os.length ≤ weights.length)
    (h : .warning v ps ∈ os) : candidates weights os ≠ [] := by
  induction os generalizing weights with
  | nil => cases h
  | cons o os ih =>
    cases weights with
    | nil => simp at hl
    | cons w weights =>
      rcases List.mem_cons.mp h with rfl | h
      · exact List.cons_ne_nil _ _
      · have hos : candidates weights os ≠ [] := ih (by simpa using hl) h
        cases o with
        | warning v ps => exact List.cons_ne_nil _ _
        | success | failure => exact hos

/-- The rule of unions: the outcome is as good as the best of those that were tried. -/
theorem resolve_passes_iff {os : List Outcome} (hl : os.length ≤ weights.length) (h : resolve weights os = .ok o) :
    o.passes lenient ↔ ∃ p ∈ os, p.passes lenient := by
  constructor
  · exact fun ho => ⟨o, mem_of_resolve h (Outcome.isFailure_of_passes ho), ho⟩
  · rintro ⟨p, hp, hpass⟩
    rw [resolve] at h
    split at h
    · rename_i q hq
      cases h
      exact Outcome.passes_of_isSuccess (by simpa using List.find?_some hq)
    · rename_i hnone
      cases p with
      | failure ps => cases hpass
      | success v => exact absurd rfl (List.find?_eq_none.mp hnone _ hp)
      | warning v ps =>
        split at h
        · cases h
          exact hpass
        · rename_i hc
          exact absurd hc (candidates_ne_nil hl hp)

/-- Members are tried in order, all of them or up to a clean success. -/
theorem tryMembers_prefix {v : Value} {ps : List (Parser (Except Fault))} {os : List Outcome}
    (h : tryMembers v ps = .ok os) :
    ∃ qs, qs <+: ps ∧ List.Forall₂ (fun p o => p v = .ok o) qs os ∧ (qs = ps ∨ ∃ o ∈ os, o.isSuccess) := by
  induction ps generalizing os with
  | nil =>
    cases h
    exact ⟨[], List.nil_prefix, .nil, .inl rfl⟩
  | cons p ps ih =>
    simp only [tryMembers, bind, Except.bind] at h
    cases hp : p v with
    | error f => simp [hp] at h
    | ok o =>
      cases hs : o.isSuccess with
      | true =>
        simp only [hp, hs, if_true, pure, Except.pure, Except.ok.injEq] at h
        subst h
        exact ⟨[p], List.prefix_append [p] ps, .cons hp .nil, .inr ⟨o, List.mem_singleton_self o, hs⟩⟩
      | false =>
        cases ht : tryMembers v ps with
        | error f => simp [hp, hs, ht] at h
        | ok os' =>
          simp only [hp, hs, ht, Bool.false_eq_true, if_false, pure, Except.pure, Except.ok.injEq] at h
          subst h
          obtain ⟨qs, hqs, hall, hend⟩ := ih ht
          refine ⟨p :: qs, (List.prefix_cons_inj p).mpr hqs, .cons hp hall, ?_⟩
          rcases hend with rfl | ⟨q, hq, hqs⟩
          · exact .inl rfl
          · exact .inr ⟨q, List.mem_cons_of_mem _ hq, hqs⟩

theorem parse_eq_ok {v : Value} {ps : List (Parser (Except Fault))} (h : parse weights ps v = .ok o) :
    ∃ os, tryMembers v ps = .ok os ∧ resolve weights os = .ok o := by
  cases ht : tryMembers v ps with
  | error f => simp [parse, ht, bind, Except.bind] at h
  | ok os => exact ⟨os, rfl, by simpa [parse, ht, bind, Except.bind] using h⟩

/-- A union accepts only what a member gives. -/
theorem parse_accepts {v : Value} {ps : List (Parser (Except Fault))} (h : parse weights ps v = .ok o)
    (ho : o.isFailure = false) : ∃ p ∈ ps, p v = .ok o := by
  obtain ⟨os, ht, hr⟩ := parse_eq_ok h
  obtain ⟨qs, hqs, hall, _⟩ := tryMembers_prefix ht
  obtain ⟨p, hp, hpv⟩ := Lists.exists_of_mem_right hall (mem_of_resolve hr ho)
  exact ⟨p, hqs.subset hp, hpv⟩

/-- A union that comes to an outcome does as well as its best member. -/
theorem parse_passes_iff {v : Value} {ps : List (Parser (Except Fault))} (hl : ps.length ≤ weights.length)
    (h : parse weights ps v = .ok o) : o.passes lenient ↔ ∃ p ∈ ps, ∃ q, p v = .ok q ∧ q.passes lenient := by
  constructor
  · intro ho
    obtain ⟨p, hp, hpv⟩ := parse_accepts h (Outcome.isFailure_of_passes ho)
    exact ⟨p, hp, o, hpv, ho⟩
  · rintro ⟨p, hp, q, hpv, hq⟩
    obtain ⟨os, ht, hr⟩ := parse_eq_ok h
    obtain ⟨qs, hqs, hall, hend⟩ := tryMembers_prefix ht
    have hos : os.length ≤ weights.length := by
      rw [← hall.length_eq]
      exact Nat.le_trans hqs.length_le hl
    apply (resolve_passes_iff hos hr).mpr
    rcases hend with rfl | ⟨q, hq, hs⟩
    · obtain ⟨q', hq', hpq⟩ := Lists.exists_of_mem_left hall hp
      obtain rfl := Except.ok.inj (hpv.symm.trans hpq)
      exact ⟨q, hq', hq⟩
    · exact ⟨q, hq, Outcome.passes_of_isSuccess hs⟩

section
variable {v : Value} {ps : List (Parser (Except Fault))} {f : Fault}

/-- The members of a union are tried as long as none has succeeded cleanly. -/
theorem tryMembers_eq_error_iff : tryMembers v ps = .error f ↔
    ∃ p, Lists.Reached (fun p => ∃ o, p v = .ok o ∧ o.isSuccess = false) ps p ∧ p v = .error f := by
  induction ps with
  | nil => exact iff_of_false (fun h => nomatch h) fun ⟨_, h, _⟩ => nomatch h
  | cons p ps ih =>
    rw [Lists.exists_reached_cons (q := fun p : Parser (Except Fault) => p v = .error f), ← ih, tryMembers,
      bind_eq_error_iff]
    cases hp : p v with
    | error g => simp
    | ok o =>
      cases hs : o.isSuccess with
      | true => simp [hs, pure, Except.pure]
      | false => simp [hs, map_eq_error_iff]

theorem tryMembers_ne_nil {os : List Outcome} (hne : ps ≠ []) (h : tryMembers v ps = .ok os) : os ≠ [] := by
  rintro rfl
  obtain ⟨qs, _, hall, hend⟩ := tryMembers_prefix h
  cases hall
  rcases hend with rfl | ⟨o, ho, _⟩
  · exact hne rfl
  · cases ho

theorem fail_eq_error_iff {problems : List Problem} :
    Outcome.fail problems = .error f ↔ problems = [] ∧ f = .emptyFailure := by
  cases problems <;> simp [Outcome.fail, pure, Except.pure, throw, throwThe, MonadExceptOf.throw, eq_comm]

theorem resolve_eq_error_iff {os : List Outcome} : resolve weights os = .error f ↔ os = [] ∧ f = .emptyFailure := by
  cases os with
  | nil => exact fail_eq_error_iff.trans (and_congr_left' (iff_of_true rfl rfl))
  | cons o os =>
    refine iff_of_false ?_ fun h => nomatch h.1
    rw [resolve]
    split
    · nofun
    · split
      · nofun
      · exact fun h => nomatch (fail_eq_error_iff.mp h).1

/-- A union faults as a member that it tries, and by failing without a member. -/
theorem parse_eq_error_iff : parse weights ps v = .error f ↔ (ps = [] ∧ f = .emptyFailure) ∨
    ∃ p, Lists.Reached (fun p => ∃ o, p v = .ok o ∧ o.isSuccess = false) ps p ∧ p v = .error f := by
  rw [parse, bind_eq_error_iff, tryMembers_eq_error_iff, or_comm]
  refine or_congr_left ?_
  constructor
  · rintro ⟨os, hos, hf⟩
    obtain ⟨rfl, rfl⟩ := resolve_eq_error_iff.mp hf
    exact ⟨not_not.mp fun hne => tryMembers_ne_nil hne hos rfl, rfl⟩
  · rintro ⟨rfl, hf⟩
    exact ⟨[], rfl, resolve_eq_error_iff.mpr ⟨rfl, hf⟩⟩

theorem parse_ok (hne : ps ≠ []) (h : ∀ p ∈ ps, ∃ o, p v = .ok o) : ∃ o, parse weights ps v = .ok o := by
  refine exists_ok_iff.mpr fun f hf => ?_
  rcases parse_eq_error_iff.mp hf with ⟨hnil, _⟩ | ⟨p, hp, hf⟩
  · exact hne hnil
  · exact exists_ok_iff.mp (h p hp.mem) f hf

end

end Union
end Schemata
