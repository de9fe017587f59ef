import Schemata.Proofs.Decode.Congruence
import Schemata.Proofs.Decode.Taken
import Schemata.Proofs.Schema.Erasure
import Schemata.Proofs.Schema.Spine
import Schemata.Stock

/-!
Annotations and aliases are never interpreted. A schema and its erased form come to the same outcome but for the texts
that annotations put into problems, and so do any two schemas with one erased form.
-/
namespace Schemata

namespace Problem

mutual

/-- The problem without the texts that annotations put into it. -/
def unlabelled : Problem → Problem
  | mismatch predicate actual _ => mismatch predicate actual none
  | violation _ actual _ => violation "" actual none
  | conversion source target actual _ => conversion source target actual none
  | within segment ps => within segment (unlabelledAll ps)
  | ofMember ps => ofMember (unlabelledAll ps)
  | missing => missing
  | unexpected member => unexpected member
  | anomaly actual reason => anomaly actual reason

def unlabelledAll : List Problem → List Problem
  | [] => []
  | p :: ps => p.unlabelled :: unlabelledAll ps

end

theorem unlabelledAll_eq_map (ps : List Problem) : unlabelledAll ps = ps.map unlabelled := by
  induction ps with
  | nil => rfl
  | cons p ps ih => rw [unlabelledAll, ih, List.map_cons]

/-- Lists of problems agree one by one when they are the same without labels. -/
theorem forall₂_unlabelled_iff {ps qs : List Problem} :
    List.Forall₂ (fun p q => p.unlabelled = q.unlabelled) ps qs ↔ unlabelledAll ps = unlabelledAll qs := by
  rw [unlabelledAll_eq_map, unlabelledAll_eq_map, ← List.forall₂_eq_eq_eq, List.forall₂_map_left_iff,
    List.forall₂_map_right_iff]

end Problem

def ProblemRelation.wording : ProblemRelation where
  rel p q := p.unlabelled = q.unlabelled
  refl _ := rfl
  within h := by rw [Problem.unlabelled, Problem.unlabelled, Problem.forall₂_unlabelled_iff.mp h]
  ofMember h := by rw [Problem.unlabelled, Problem.unlabelled, Problem.forall₂_unlabelled_iff.mp h]

theorem ProblemRelation.ignoresMessages_wording : wording.IgnoresMessages where
  mismatch _ _ _ _ := rfl
  conversion _ _ _ _ _ := rfl

namespace Outcome

def unlabelled : Outcome → Outcome
  | success v => success v
  | warning v ps => warning v (Problem.unlabelledAll ps)
  | failure ps => failure (Problem.unlabelledAll ps)

theorem rel_wording_iff {o p : Outcome} : o.Rel .wording p ↔ o.unlabelled = p.unlabelled := by
  constructor
  · intro h
    cases h with
    | success v => rfl
    | warning v h | failure h => rw [unlabelled, unlabelled, Problem.forall₂_unlabelled_iff.mp h]
  · intro h
    cases o <;> cases p <;> simp only [unlabelled, success.injEq, warning.injEq, failure.injEq, reduceCtorEq] at h
    · subst h
      exact .success _
    · obtain ⟨rfl, h⟩ := h
      exact .warning _ (Problem.forall₂_unlabelled_iff.mpr h)
    · exact .failure (Problem.forall₂_unlabelled_iff.mpr h)

end Outcome

theorem Except.rel_wording_iff {x y : Except Fault Outcome} :
    Except.Rel (Outcome.Rel .wording) x y ↔ x.map Outcome.unlabelled = y.map Outcome.unlabelled := by
  constructor
  · intro h
    cases h with
    | ok h => exact congrArg Except.ok (Outcome.rel_wording_iff.mp h)
    | error f => rfl
  · intro h
    cases x <;> cases y <;> simp only [Except.map, Except.ok.injEq, Except.error.injEq, reduceCtorEq] at h
    · subst h
      exact .error _
    · exact .ok (Outcome.rel_wording_iff.mpr h)

namespace Scope
variable {scope scope' : Scope} (a b : Annotations) (v : Value)

/-- Neither what a template accepts nor how it is shown depends on the annotations of its placeholders. -/
theorem parseTemplate_wording (head : String) (spans : List Span) :
    (scope.parseTemplate a head spans v).Rel .wording (scope'.parseTemplate b head (spans.map Span.erased) v) := by
  have hshown : Template.shown head (spans.map Span.erased) = Template.shown head spans := by
    rw [Template.shown, Template.shown, List.map_map]
    rfl
  have hagree : List.Forall₂ Span.Agree (spans.map Span.erased) spans := by
    rw [List.forall₂_map_left_iff, List.forall₂_same]
    exact fun s _ => ⟨rfl, rfl⟩
  have hrefused := mismatch_rel ProblemRelation.ignoresMessages_wording scope scope' a b
    (Problem.isPredicate (Template.shown head spans)) v
  unfold parseTemplate
  rw [hshown]
  cases v with
  | text s => exact .ite (Template.accepts_agree hagree head s).symm hrefused _
  | _ => exact hrefused

end Scope

section
variable {m n : Type → Type} [Monad m] [Monad n] [MonadLiftT (Except Fault) m] [MonadLiftT (Except Fault) n]

/-- The parser of a schema agrees with that of its erased form when the parsers of lazy schemas do. -/
theorem Schema.parser_erased (r : Relator m n) {scope scope' : Scope} (direction : Direction)
    (hpred : scope.predicate = scope'.predicate) (hconv : scope.convert = scope'.convert)
    {unfold : Handle → Parser m} {unfold' : Handle → Parser n}
    (hu : ∀ handle, r.Agree .wording (unfold handle) (unfold' handle)) {s : Schema} (hs : s.Keyed) :
    r.Agree .wording (s.parser scope direction unfold) (s.erased.parser scope' direction unfold') := by
  induction s using Schema.childrenInduction with
  | step s ih =>
    have child {t : Schema} (ht : t ∈ s.children) :
        r.Agree .wording (t.parser scope direction unfold) (t.erased.parser scope' direction unfold') :=
      ih t ht (hs.child ht)
    have refused (a b : Annotations) (predicate : String) (v : Value) :
        (scope.mismatch a predicate v).Rel .wording (scope'.mismatch b predicate v) :=
      Scope.mismatch_rel ProblemRelation.ignoresMessages_wording scope scope' a b predicate v
    cases s with
    | typeAlias a ps t => simpa only [Schema.parser, Schema.erased] using child List.mem_cons_self
    | literal | uniqueSymbol | enums => exact fun v => r.pure (.ite rfl (refused _ _ _ v) v)
    | keyword a word => exact fun v => r.pure (Scope.parseKeyword_rel ProblemRelation.ignoresMessages_wording ..)
    | template a head first more => exact fun v => r.pure (Scope.parseTemplate_wording _ _ v head (first :: more))
    | lazy a handle => exact hu handle
    | refinement a base p =>
      have htest : scope.test p = scope'.test p := by
        funext v
        cases p with
        | constraint => rfl
        | named name => exact congrFun (congrFun hpred name) v
      simp only [Schema.parser, Schema.erased]
      exact Refinement.parse_agree htest (fun _ => .failure (.cons rfl .nil)) (child List.mem_cons_self)
    | transform a source target c =>
      simp only [Schema.parser, Schema.erased]
      exact Transform.parse_agree (congrFun hconv c) (child List.mem_cons_self)
    | union a ss =>
      rw [Schema.erased_union, Schema.parser_union, Schema.parser_union, Schema.weights_erased, List.map_map]
      exact Union.parse_agree (Lists.forall₂_map_same fun t ht => child ht) _
    | tuple a es rest o =>
      rw [Schema.erased_tuple, Schema.parser_tuple, Schema.parser_tuple, List.map_map]
      refine Tuple.parse_agree (refused _ _ _) ?_ ?_
      · exact Lists.forall₂_map_same fun e he => ⟨rfl, child (Schema.mem_children_of_element he)⟩
      · cases rest with
        | none => exact .none
        | some rest =>
          refine .some ⟨child (Schema.mem_children_of_rest List.mem_cons_self), ?_⟩
          simp only [Rest.map, List.map_map]
          exact Lists.forall₂_map_same fun t ht => child (Schema.mem_children_of_rest (List.mem_cons_of_mem _ ht))
    | struct a ps is =>
      rw [Schema.erased_struct, Schema.parser_struct, Schema.parser_struct, List.map_map, List.map_map]
      refine Struct.parse_agree (refused _ _ _) ?_ ?_
      · exact Lists.forall₂_map_same fun p hp => ⟨rfl, rfl, child (Schema.mem_children_of_property hp)⟩
      · refine Lists.forall₂_map_same fun i hi => ⟨(Schema.isKeyword_erased (hs.node i hi) .symbol).symm, ?_, ?_⟩
        · exact child (Schema.mem_children_of_index hi).1
        · exact child (Schema.mem_children_of_index hi).2

end

namespace Scope
variable {scope scope' : Scope} {direction : Direction}

/-- Two scopes with the same functions, in which each handle leads to schemas with one erased form. Messages are made
in ways of their own. -/
structure Retitled (scope scope' : Scope) : Prop where
  predicate : scope.predicate = scope'.predicate
  convert : scope.convert = scope'.convert
  force : ∀ h, Except.Rel (fun s t => s.erased = t.erased ∧ s.Keyed ∧ t.Keyed) (scope.force h) (scope'.force h)

theorem Retitled.run_of_unfold (h : scope.Retitled scope') {n : Nat}
    (hu : ∀ handle, Relator.exact.Agree .wording (scope.unfold direction n handle) (scope'.unfold direction n handle))
    {s t : Schema} (hs : s.Keyed) (ht : t.Keyed) (he : s.erased = t.erased) :
    Relator.exact.Agree .wording (scope.run direction n s) (scope'.run direction n t) := by
  have hself (handle : Handle) :
      Relator.exact.Agree .wording (scope'.unfold direction n handle) (scope'.unfold direction n handle) :=
    fun v => .refl (Outcome.Rel.refl _) (scope'.unfold direction n handle v)
  intro v
  have hleft := Schema.parser_erased Relator.exact direction h.predicate h.convert hu hs v
  have hright := Schema.parser_erased Relator.exact direction (rfl : scope'.predicate = _) rfl hself ht v
  refine Except.rel_wording_iff.mpr ?_
  calc (scope.run direction n s v).map Outcome.unlabelled
    _ = (s.erased.parser scope' direction (scope'.unfold direction n) v).map Outcome.unlabelled :=
      Except.rel_wording_iff.mp hleft
    _ = (t.erased.parser scope' direction (scope'.unfold direction n) v).map Outcome.unlabelled := by rw [he]
    _ = (scope'.run direction n t v).map Outcome.unlabelled := (Except.rel_wording_iff.mp hright).symm

/-- Induction on the fuel: a handle leads to schemas with one erased form, which are run with less. -/
theorem Retitled.unfold_agree (h : scope.Retitled scope') (n : Nat) (handle : Handle) :
    Relator.exact.Agree .wording (scope.unfold direction n handle) (scope'.unfold direction n handle) := by
  induction n generalizing handle with
  | zero => exact fun v => .error _
  | succ n ih =>
    intro v
    refine Relator.exact.bind (h.force handle) fun s t hst => ?_
    obtain ⟨he, hs, ht⟩ := hst
    exact h.run_of_unfold ih hs ht he v

/-- The position of the member that a union of the schemas takes over. -/
def taken (scope : Scope) (direction : Direction) (n : Nat) (ss : List Schema) (x : Value) :
    Except Fault (Option Nat) := do
  return Union.taken (ss.map Schema.weight) (← Union.tryMembers x (ss.map (scope.run direction n)))

/-- The outcome of a union is that of the member it takes over. -/
theorem run_union_of_taken {n i : Nat} {ss : List Schema} {x : Value} (a : Annotations)
    (h : scope.taken direction n ss x = .ok (some i)) :
    ∃ s, ss[i]? = some s ∧ scope.run direction n (.union a ss) x = scope.run direction n s x := by
  obtain ⟨os, hos, htaken⟩ := bind_eq_ok_iff.mp h
  obtain ⟨o, ho, hresolve⟩ := Union.resolve_of_taken (Except.ok.inj htaken)
  obtain ⟨qs, ⟨rest, hqs⟩, hall, _⟩ := Union.tryMembers_prefix hos
  rw [List.forall₂_iff_get] at hall
  obtain ⟨hlt, rfl⟩ := List.getElem?_eq_some_iff.mp ho
  have hi : i < qs.length := hall.1 ▸ hlt
  have hq : (ss.map (scope.run direction n))[i]? = some qs[i] := by
    rw [← hqs, List.getElem?_append_left hi, List.getElem?_eq_getElem hi]
  rw [List.getElem?_map, Option.map_eq_some_iff] at hq
  obtain ⟨s, hs, hrun⟩ := hq
  refine ⟨s, hs, ?_⟩
  have hmember : qs[i] x = .ok os[i] := hall.2 i hi hlt
  rw [hrun, hmember, run_union]
  exact bind_eq_ok_iff.mpr ⟨os, hos, hresolve⟩

end Scope
end Schemata
