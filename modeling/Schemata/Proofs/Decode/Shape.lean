import Schemata.Proofs.Decode.Report
import Schemata.Proofs.Decode.Signatures

/-!
The shape of outcomes. Warnings and failures say why, every branch of a report leads to something, and what a failure
reports in one place is one problem, or one for each member of a union.
-/
namespace Schemata

namespace Problem

mutual

def nodes : Problem → List Problem
  | within segment ps => within segment ps :: nodesOfAll ps
  | ofMember ps => ofMember ps :: nodesOfAll ps
  | p => [p]

def nodesOfAll : List Problem → List Problem
  | [] => []
  | p :: ps => p.nodes ++ nodesOfAll ps

end

def isSoft : Problem → Bool
  | unexpected _ | anomaly .. => true
  | _ => false

def isHard : Problem → Bool
  | mismatch .. | missing | violation .. | conversion .. => true
  | _ => false

/-- Whether a problem says only that the member its branch leads to is missing or unexpected. -/
def isBare : Problem → Bool
  | missing | unexpected _ => true
  | _ => false

theorem mem_nodesOfAll_iff {ps : List Problem} {q : Problem} : q ∈ nodesOfAll ps ↔ ∃ p ∈ ps, q ∈ p.nodes := by
  induction ps with
  | nil => simp [nodesOfAll]
  | cons p ps ih => simp [nodesOfAll, ih]

theorem nodesOfAll_singleton (p : Problem) : nodesOfAll [p] = p.nodes := by
  simp [nodesOfAll]

theorem nodes_of_leaf {p : Problem} (h : p.isBranch = false) : p.nodes = [p] := by
  cases p with
  | within | ofMember => cases h
  | _ => simp [nodes]

variable {lists : List Problem → Prop} {leaves : Problem → Prop} {p q : Problem} {ps qs : List Problem}

/-- A branch leads to something, a leaf is of the right sort, and a bare leaf stands alone below its segment. -/
structure Tidy (lists : List Problem → Prop) (leaves : Problem → Prop) (q : Problem) : Prop where
  branch : q.isBranch → q.children ≠ [] ∧ lists q.children
  leaf : q.isBranch = false → leaves q
  missing : .missing ∈ q.children → ∃ segment, q = .within segment [.missing]
  unexpected : ∀ m, .unexpected m ∈ q.children → q = .within m [.unexpected m]

structure Neat (lists : List Problem → Prop) (leaves : Problem → Prop) (ps : List Problem) : Prop where
  nonempty : ps ≠ []
  bare : ∀ q ∈ ps, q.isBare = false
  list : lists ps
  nodes : ∀ q ∈ nodesOfAll ps, Tidy lists leaves q

theorem Neat.tidy_branch (h : Neat lists leaves ps) (hb : q.isBranch) (hq : q.children = ps) :
    Tidy lists leaves q := by
  subst hq
  refine ⟨fun _ => ⟨h.nonempty, h.list⟩, fun hn => absurd hb (by simp [hn]), fun hm => ?_, fun m hm => ?_⟩
  · exact absurd (h.bare _ hm) (by simp [isBare])
  · exact absurd (h.bare _ hm) (by simp [isBare])

theorem tidy_leaf (hb : p.isBranch = false) (hp : leaves p) : Tidy lists leaves p := by
  have hchildren : p.children = [] := by
    cases p with
    | within | ofMember => cases hb
    | _ => rfl
  refine ⟨fun h => absurd h (by simp [hb]), fun _ => hp, ?_, ?_⟩ <;> simp [hchildren]

theorem neat_leaf (hb : p.isBranch = false) (hn : p.isBare = false) (hp : leaves p) (hl : lists [p]) :
    Neat lists leaves [p] where
  nonempty := List.cons_ne_nil _ _
  bare := List.forall_mem_singleton.mpr hn
  list := hl
  nodes := by
    rw [nodesOfAll_singleton, nodes_of_leaf hb, List.forall_mem_singleton]
    exact tidy_leaf hb hp

theorem Neat.within (h : Neat lists leaves ps) (segment : Segment) (hl : lists [.within segment ps]) :
    Neat lists leaves [.within segment ps] where
  nonempty := List.cons_ne_nil _ _
  bare := List.forall_mem_singleton.mpr rfl
  list := hl
  nodes := by
    rw [nodesOfAll_singleton, Problem.nodes, List.forall_mem_cons]
    exact ⟨h.tidy_branch rfl rfl, h.nodes⟩

theorem neat_missing (segment : Segment) (hp : leaves .missing) (hc : lists [.missing])
    (hl : lists [.within segment [.missing]]) : Neat lists leaves [.within segment [.missing]] where
  nonempty := List.cons_ne_nil _ _
  bare := List.forall_mem_singleton.mpr rfl
  list := hl
  nodes := by
    rw [nodesOfAll_singleton, Problem.nodes, nodesOfAll_singleton, nodes_of_leaf rfl, List.forall_mem_cons,
      List.forall_mem_singleton]
    refine ⟨⟨fun _ => ⟨List.cons_ne_nil _ _, hc⟩, (fun h => nomatch h), fun _ => ⟨segment, rfl⟩, fun m hm => ?_⟩,
      tidy_leaf rfl hp⟩
    cases List.mem_singleton.mp hm

theorem neat_unexpected (segment : Segment) (hp : leaves (.unexpected segment)) (hc : lists [.unexpected segment])
    (hl : lists [.within segment [.unexpected segment]]) :
    Neat lists leaves [.within segment [.unexpected segment]] where
  nonempty := List.cons_ne_nil _ _
  bare := List.forall_mem_singleton.mpr rfl
  list := hl
  nodes := by
    rw [nodesOfAll_singleton, Problem.nodes, nodesOfAll_singleton, nodes_of_leaf rfl, List.forall_mem_cons,
      List.forall_mem_singleton]
    refine ⟨⟨fun _ => ⟨List.cons_ne_nil _ _, hc⟩, (fun h => nomatch h), fun hm => ?_, fun m hm => ?_⟩,
      tidy_leaf rfl hp⟩
    · cases List.mem_singleton.mp hm
    · obtain rfl := Problem.unexpected.inj (List.mem_singleton.mp hm)
      rfl

/-- The reports of members, one after another. -/
theorem neat_members {pss : List (List Problem)} (hne : pss ≠ []) (h : ∀ ps ∈ pss, Neat lists leaves ps)
    (hl : lists (pss.map .ofMember)) : Neat lists leaves (pss.map .ofMember) where
  nonempty := fun hn => hne (List.map_eq_nil_iff.mp hn)
  bare := by
    intro q hq
    obtain ⟨ps, _, rfl⟩ := List.mem_map.mp hq
    rfl
  list := hl
  nodes := by
    intro q hq
    obtain ⟨p, hp, hq⟩ := mem_nodesOfAll_iff.mp hq
    obtain ⟨ps, hps, rfl⟩ := List.mem_map.mp hp
    rw [Problem.nodes] at hq
    rcases List.mem_cons.mp hq with rfl | hq
    · exact (h ps hps).tidy_branch rfl rfl
    · exact (h ps hps).nodes q hq

/-- Where lists are free, neat problems make a neat list. -/
theorem neat_of_forall (hne : ps ≠ []) (h : ∀ p ∈ ps, Neat (fun _ => True) leaves [p]) :
    Neat (fun _ => True) leaves ps where
  nonempty := hne
  bare q hq := (h q hq).bare q (List.mem_singleton_self q)
  list := trivial
  nodes := by
    intro q hq
    obtain ⟨p, hp, hq⟩ := mem_nodesOfAll_iff.mp hq
    exact (h p hp).nodes q (by rwa [nodesOfAll_singleton])

end Problem

namespace Scope
variable {scope : Scope} {direction : Direction} {s t : Schema} {x : Value}

/-- One problem, or one of each member of a union of the schema, in their order, all of which fail on one value. -/
def Unanimous (scope : Scope) (direction : Direction) (s : Schema) (ps : List Problem) : Prop :=
  (∃ p, ps = [p]) ∨ ∃ a ms w pss, scope.Part s (.union a ms) ∧
    List.Forall₂ (fun m rs => scope.Yields direction m w (.failure rs)) ms pss ∧ ps = pss.map .ofMember

structure WellFormed (scope : Scope) (direction : Direction) (s : Schema) (o : Outcome) : Prop where
  success : o.isSuccess → o.problems = []
  warning : o.isWarning → o.problems ≠ [] ∧ ∃ v, o.value? = some v
  failure : o.isFailure → o.problems ≠ []
  /-- Every branch has a child. -/
  branches : ∀ q ∈ Problem.nodesOfAll o.problems, q.isBranch → q.children ≠ []
  /-- The leaves of a warning are unexpected members and numbers that are not finite. -/
  soft : o.isWarning → ∀ q ∈ Problem.nodesOfAll o.problems, q.isBranch = false → q.isSoft
  /-- The leaves of a failure are mismatches, missing members, violations and conversions that failed. -/
  hard : o.isFailure → ∀ q ∈ Problem.nodesOfAll o.problems, q.isBranch = false → q.isHard
  /-- That a member is missing or unexpected is never said at the top. -/
  bare : ∀ q ∈ o.problems, q.isBare = false
  /-- That a member is missing is all that is said below its segment. -/
  missing : ∀ q ∈ Problem.nodesOfAll o.problems, .missing ∈ q.children → ∃ segment, q = .within segment [.missing]
  /-- That a member is unexpected is all that is said below its segment. -/
  unexpected : ∀ q ∈ Problem.nodesOfAll o.problems, ∀ m, .unexpected m ∈ q.children → q = .within m [.unexpected m]
  /-- The lists of a failure are unanimous, at the top and below each branch. -/
  lists : o.isFailure → scope.Unanimous direction s o.problems ∧
    ∀ q ∈ Problem.nodesOfAll o.problems, q.isBranch → scope.Unanimous direction s q.children

theorem neat_of_refuses {ps : List Problem} (h : scope.Refuses direction t x ps) (ht : scope.Part s t) :
    Problem.Neat (scope.Unanimous direction s) (fun q => q.isHard) ps := by
  have one (p : Problem) : scope.Unanimous direction s [p] := .inl ⟨p, rfl⟩
  induction h with
  | mismatch | conversion | violation => exact Problem.neat_leaf rfl rfl rfl (one _)
  | typeAlias a ps _ ih => exact ih (ht.trans (.child List.mem_cons_self))
  | base a p _ ih => exact ih (ht.trans (.child List.mem_cons_self))
  | lazy a hf _ ih => exact ih (ht.trans (.force hf))
  | @union ms w pss a hne hy _ ih =>
    refine Problem.neat_members ?_ (fun ps hps => ?_) (.inr ⟨a, ms, w, pss, ht, hy, rfl⟩)
    · rintro rfl
      cases hy
      exact hne rfl
    · obtain ⟨m, hm⟩ := Lists.exists_mem_zip hy.length_eq hps
      exact ih _ hm (ht.trans (.child (List.of_mem_zip hm).1))
  | item a _ hi _ _ ih =>
    have hchild := Tuple.mem_assigned (List.mem_of_getElem? hi)
    exact (ih (ht.trans (.child hchild))).within _ (one _)
  | gap | absent => exact Problem.neat_missing _ rfl (one _) (one _)
  | property a _ hp _ _ ih => exact (ih (ht.trans (.child (Schema.mem_children_of_property hp)))).within _ (one _)
  | parameter a _ _ _ hi _ _ _ ih =>
    exact (ih (ht.trans (.child (Schema.mem_children_of_index hi).1))).within _ (one _)
  | index a _ _ _ hi _ _ _ ih =>
    exact (ih (ht.trans (.child (Schema.mem_children_of_index hi).2))).within _ (one _)

theorem neat_of_warns {p : Problem} (h : scope.Warns direction s x p) :
    Problem.Neat (fun _ => True) (fun q => q.isSoft) [p] := by
  induction h with
  | anomaly => exact Problem.neat_leaf rfl rfl rfl trivial
  | typeAlias _ _ _ ih | base _ _ _ ih | lazy _ _ _ ih | member _ _ _ ih => exact ih
  | item _ _ _ _ hne _ ih => exact (Problem.neat_of_forall hne ih).within _ trivial
  | property _ _ _ _ hne _ ih => exact (Problem.neat_of_forall hne ih).within _ trivial
  | index _ _ _ _ _ _ _ hne _ ih => exact (Problem.neat_of_forall hne ih).within _ trivial
  | surplus | undeclared => exact Problem.neat_unexpected _ rfl trivial trivial

/-- The run unfolds a lazy schema whose thunk gives the fault, or puts a predicate to a value about which it does. -/
def Raises (scope : Scope) (direction : Direction) (n : Nat) (s : Schema) (x : Value) (f : Fault) : Prop :=
  (∃ m a h y, Relation.ReflTransGen (scope.Calls direction) ⟨n, s, x⟩ ⟨m + 1, .lazy a h, y⟩ ∧
    scope.force h = .error f) ∨
  ∃ p v, scope.Tests direction n s x p v ∧ scope.test p v = .error f

/-- A run of a schema without transforms and empty unions comes to no fault of its own. -/
theorem fault_of_run (ht : scope.TransformFree s) (hm : ∀ a, ¬scope.Part s (.union a [])) {n : Nat} {f : Fault}
    (h : scope.run direction n s x = .error f) : f = .endlessUnfolding ∨ scope.Raises direction n s x f := by
  obtain ⟨c, hreached, hc⟩ := run_eq_error_iff.mp h
  have hpart : scope.Part s c.schema := part_of_calls hreached
  cases hc with
  | spent => exact .inl rfl
  | thunk hf => exact .inr (.inl ⟨_, _, _, _, hreached, hf⟩)
  | predicate hv hf => exact .inr (.inr ⟨_, _, ⟨_, _, _, _, hreached, hv⟩, hf⟩)
  | conversion => exact absurd hpart (ht _ _ _ _)
  | memberless => exact absurd hpart (hm _)

theorem wellFormed_warning (ht : scope.TransformFree s) {n : Nat} {v : Value} {ps : List Problem}
    (h : scope.run direction n s x = .ok (.warning v ps)) : scope.WellFormed direction s (.warning v ps) := by
  obtain ⟨hne, hps⟩ := warns_of_run ht h
  have hneat := Problem.neat_of_forall hne fun p hp => neat_of_warns (hps p hp)
  exact {
    success := by simp [Outcome.isSuccess]
    warning := fun _ => ⟨hne, v, rfl⟩
    failure := by simp [Outcome.isFailure]
    branches := fun q hq hb => ((hneat.nodes q hq).branch hb).1
    soft := fun _ q hq => (hneat.nodes q hq).leaf
    hard := by simp [Outcome.isFailure]
    bare := hneat.bare
    missing := fun q hq => (hneat.nodes q hq).missing
    unexpected := fun q hq => (hneat.nodes q hq).unexpected
    lists := by simp [Outcome.isFailure] }

theorem wellFormed_failure (ht : scope.TransformFree s) {n : Nat} {ps : List Problem}
    (h : scope.run direction n s x = .ok (.failure ps)) : scope.WellFormed direction s (.failure ps) := by
  have hneat := neat_of_refuses (refuses_of_run ht h) (.refl scope s)
  exact {
    success := by simp [Outcome.isSuccess]
    warning := by simp [Outcome.isWarning]
    failure := fun _ => hneat.nonempty
    branches := fun q hq hb => ((hneat.nodes q hq).branch hb).1
    soft := by simp [Outcome.isWarning]
    hard := fun _ q hq => (hneat.nodes q hq).leaf
    bare := hneat.bare
    missing := fun q hq => (hneat.nodes q hq).missing
    unexpected := fun q hq => (hneat.nodes q hq).unexpected
    lists := fun _ => ⟨hneat.list, fun q hq hb => ((hneat.nodes q hq).branch hb).2⟩ }

/-- Outcomes are well formed. Where no part of a schema is a transform and no union is empty, as none is that can be
built, every run in either direction comes to a well-formed outcome, unless it spends its fuel or gets to a thunk or a
predicate that faults: there is no failure without a problem. -/
theorem outcome_wellFormed (ht : scope.TransformFree s) (hm : ∀ a, ¬scope.Part s (.union a []))
    (direction : Direction) (n : Nat) (x : Value) :
    (∃ o, scope.run direction n s x = .ok o ∧ scope.WellFormed direction s o) ∨
      ∃ f, scope.run direction n s x = .error f ∧ (f = .endlessUnfolding ∨ scope.Raises direction n s x f) := by
  cases h : scope.run direction n s x with
  | error f => exact .inr ⟨f, rfl, fault_of_run ht hm h⟩
  | ok o =>
    refine .inl ⟨o, rfl, ?_⟩
    cases o with
    | success v => constructor <;> simp [Outcome.problems, Problem.nodesOfAll, Outcome.isWarning, Outcome.isFailure]
    | warning v ps => exact wellFormed_warning ht h
    | failure ps => exact wellFormed_failure ht h

/-- An item that neither member of the union accepts. -/
theorem outcome_wellFormed_item :
    let scope := Stock.scope [(0, .ok numbered)]
    let x : Value := .dict [(.text "id", .bool true)]
    ∃ o, scope.run .decode 1 item x = .ok o ∧ o.isFailure ∧ scope.WellFormed .decode item o := by
  intro scope x
  rcases outcome_wellFormed not_part_transform_item productive_item.members .decode 1 x with ⟨o, ho, hwf⟩ | ⟨f, hf, _⟩
  · obtain ⟨qs, hqs⟩ : ∃ qs, scope.run .decode 1 item x = .ok (.failure qs) := ⟨_, rfl⟩
    obtain rfl := Except.ok.inj (hqs.symm.trans ho)
    exact ⟨_, ho, rfl, hwf⟩
  · cases hf

end Scope
end Schemata
