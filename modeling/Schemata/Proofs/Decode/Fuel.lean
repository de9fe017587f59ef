import Schemata.Proofs.Decode.Combinators
import Schemata.Proofs.Lists
import Mathlib.Order.Filter.AtTopBot.Basic

/-!
Fuel only decides whether a run ends. Once a schema yields an outcome on a value, it yields the same outcome with any
more fuel, so that "with enough fuel" names one outcome at most.
-/
namespace Schemata

section
variable {m n : Type → Type} [Monad m] [Monad n] [MonadLiftT (Except Fault) m]
  [MonadLiftT (Except Fault) n]

/-- Parsers of one schema agree when the parsers of its lazy schemas do. -/
theorem Schema.parser_agree (r : Relator m n) (q : ProblemRelation) (scope : Scope) (direction : Direction)
    {unfold : Handle → Parser m} {unfold' : Handle → Parser n}
    (h : ∀ handle, r.Agree q (unfold handle) (unfold' handle)) (s : Schema) :
    r.Agree q (s.parser scope direction unfold) (s.parser scope direction unfold') := by
  induction s using Schema.childrenInduction with
  | step s ih =>
    have maps (ss : List Schema) (hs : ∀ t ∈ ss, t ∈ s.children) :
        List.Forall₂ (r.Agree q) (ss.map (Schema.parser scope direction unfold))
          (ss.map (Schema.parser scope direction unfold')) :=
      Lists.forall₂_map_same fun t ht => ih t (hs t ht)
    cases s with
    | typeAlias a ps t => simpa only [Schema.parser] using ih t List.mem_cons_self
    | literal | uniqueSymbol | keyword | enums | template =>
      intro v
      simp only [Schema.parser]
      exact r.pure (.refl q _)
    | lazy a handle => simpa only [Schema.parser] using h handle
    | refinement a base p =>
      simp only [Schema.parser]
      exact Refinement.parse_agree rfl (fun _ => .refl q _) (ih base List.mem_cons_self)
    | transform a source target c =>
      simp only [Schema.parser]
      exact Transform.parse_agree rfl (ih source List.mem_cons_self)
    | union a ss =>
      rw [Schema.parser_union, Schema.parser_union]
      exact Union.parse_agree (maps ss fun _ ht => ht) _
    | tuple a es rest o =>
      rw [Schema.parser_tuple, Schema.parser_tuple]
      refine Tuple.parse_agree (fun _ => .refl q _) ?_ ?_
      · exact Lists.forall₂_map_same fun e he => ⟨rfl, ih _ (Schema.mem_children_of_element he)⟩
      · cases rest with
        | none => exact .none
        | some rest =>
          refine .some ⟨ih _ (Schema.mem_children_of_rest List.mem_cons_self), maps _ fun t ht => ?_⟩
          exact Schema.mem_children_of_rest (List.mem_cons_of_mem _ ht)
    | struct a ps is =>
      rw [Schema.parser_struct, Schema.parser_struct]
      refine Struct.parse_agree (fun _ => .refl q _) ?_ ?_
      · exact Lists.forall₂_map_same fun p hp => ⟨rfl, rfl, ih _ (Schema.mem_children_of_property hp)⟩
      · refine Lists.forall₂_map_same fun i hi => ⟨rfl, ?_, ?_⟩
        · exact ih _ (Schema.mem_children_of_index hi).1
        · exact ih _ (Schema.mem_children_of_index hi).2

end

namespace Relator

/-- Faults and results of the left side are kept, unless its fuel was spent. -/
def moreFuel : Relator (Except Fault) (Except Fault) where
  rel V x y := x = .error .endlessUnfolding ∨ Except.Rel V x y
  pure h := .inr (.ok h)
  bind hx hf := by
    rcases hx with rfl | hx
    · exact .inl rfl
    · cases hx with
      | ok h => exact hf _ _ h
      | error f => exact .inr (.error f)
  lift h := .inr h

end Relator

namespace Scope
variable (scope : Scope) (direction : Direction)

/-- One more unit of fuel changes nothing but a run that had spent its fuel. -/
theorem unfold_succ_agree (n : Nat) (h : Handle) :
    Relator.moreFuel.Agree .equality (scope.unfold direction n h) (scope.unfold direction (n + 1) h) := by
  induction n generalizing h with
  | zero => exact fun v => .inl rfl
  | succ n ih =>
    intro v
    refine Relator.moreFuel.bind (V := (· = ·)) ?_ fun s t hst => ?_
    · exact Relator.moreFuel.lift_self _
    · subst hst
      exact Schema.parser_agree _ _ scope direction ih s v

theorem run_succ {n : Nat} {s : Schema} {v : Value}
    (h : scope.run direction n s v ≠ .error .endlessUnfolding) :
    scope.run direction (n + 1) s v = scope.run direction n s v := by
  have ha := Schema.parser_agree Relator.moreFuel .equality scope direction
    (scope.unfold_succ_agree direction n) s v
  rcases ha with ha | ha
  · exact absurd ha h
  · exact (Except.rel_eq (ha.imp fun _ _ => Outcome.rel_equality)).symm

variable {scope direction}

theorem run_mono {n m : Nat} {s : Schema} {v : Value} (hnm : n ≤ m)
    (h : scope.run direction n s v ≠ .error .endlessUnfolding) :
    scope.run direction m s v = scope.run direction n s v := by
  induction m, hnm using Nat.le_induction with
  | base => rfl
  | succ m _ ih => rw [scope.run_succ direction (by rwa [ih]), ih]

theorem run_mono_ok {n m : Nat} {s : Schema} {v : Value} {o : Outcome} (hnm : n ≤ m)
    (h : scope.run direction n s v = .ok o) : scope.run direction m s v = .ok o := by
  rw [run_mono hnm (by simp [h]), h]

/-- With enough fuel the schema has the outcome on the value. -/
def Yields (scope : Scope) (direction : Direction) (s : Schema) (v : Value) (o : Outcome) : Prop :=
  ∃ fuel, scope.run direction fuel s v = .ok o

variable {s : Schema} {v : Value} {o p : Outcome}

theorem Yields.eventually (h : scope.Yields direction s v o) :
    ∀ᶠ n in Filter.atTop, scope.run direction n s v = .ok o := by
  obtain ⟨n, hn⟩ := h
  exact Filter.eventually_atTop.mpr ⟨n, fun m hm => run_mono_ok hm hn⟩

/-- Of finitely many things each of which holds in the end, all hold in the end. -/
theorem eventually_forall₂ {α β : Type} {r : α → β → Nat → Prop} {as : List α} {bs : List β}
    (h : List.Forall₂ (fun a b => ∀ᶠ n in Filter.atTop, r a b n) as bs) :
    ∀ᶠ n in Filter.atTop, List.Forall₂ (fun a b => r a b n) as bs := by
  induction h with
  | nil => exact .of_forall fun _ => .nil
  | cons hab _ ih => exact (hab.and ih).mono fun _ hn => .cons hn.1 hn.2

theorem Yields.unique (h : scope.Yields direction s v o) (k : scope.Yields direction s v p) : o = p := by
  obtain ⟨n, hn, hm⟩ := (h.eventually.and k.eventually).exists
  exact Except.ok.inj (hn.symm.trans hm)

/-- Two runs that do equally well with every amount of fuel do equally well. -/
theorem exists_yields_congr {t : Schema} {w : Value} {P Q : Outcome → Prop}
    (h : ∀ n, (∃ o, scope.run direction n s v = .ok o ∧ P o) ↔ ∃ p, scope.run direction n t w = .ok p ∧ Q p) :
    (∃ o, scope.Yields direction s v o ∧ P o) ↔ ∃ p, scope.Yields direction t w p ∧ Q p := by
  constructor
  · rintro ⟨o, ⟨n, hn⟩, ho⟩
    obtain ⟨p, hp, hpass⟩ := (h n).mp ⟨o, hn, ho⟩
    exact ⟨p, ⟨n, hp⟩, hpass⟩
  · rintro ⟨p, ⟨n, hn⟩, hp⟩
    obtain ⟨o, ho, hpass⟩ := (h n).mpr ⟨p, hn, hp⟩
    exact ⟨o, ⟨n, ho⟩, hpass⟩

end Scope
end Schemata
