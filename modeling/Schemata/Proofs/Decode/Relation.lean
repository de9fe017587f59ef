import Schemata.Decode.Run
import Schemata.Proofs.Decode.Run
import Mathlib.Data.List.Forall2

/-!
Parsers that agree. Two parsers may run in different monads and may word their problems differently. The ways to put
parsers together respect any such agreement, so that a fact about two runs of one schema needs only the two monads,
and a fact about two schemas needs only their leaves.
-/
namespace Schemata

structure ProblemRelation where
  rel : Problem → Problem → Prop
  refl : ∀ p, rel p p
  within : ∀ {segment ps qs}, List.Forall₂ rel ps qs → rel (.within segment ps) (.within segment qs)
  ofMember : ∀ {ps qs}, List.Forall₂ rel ps qs → rel (.ofMember ps) (.ofMember qs)

namespace ProblemRelation

theorem eq_of_forall₂ {ps qs : List Problem} (h : List.Forall₂ (· = ·) ps qs) : ps = qs := by
  rwa [List.forall₂_eq_eq_eq] at h

def equality : ProblemRelation where
  rel := (· = ·)
  refl _ := rfl
  within h := congrArg _ (eq_of_forall₂ h)
  ofMember h := congrArg _ (eq_of_forall₂ h)

def indifference : ProblemRelation where
  rel _ _ := True
  refl _ := trivial
  within _ := trivial
  ofMember _ := trivial

/-- A relation that does not see the messages that annotations put into problems. -/
structure IgnoresMessages (q : ProblemRelation) : Prop where
  mismatch : ∀ predicate v message other, q.rel (.mismatch predicate v message) (.mismatch predicate v other)
  conversion : ∀ source target v message other,
    q.rel (.conversion source target v message) (.conversion source target v other)

theorem ignoresMessages_indifference : indifference.IgnoresMessages where
  mismatch _ _ _ _ := trivial
  conversion _ _ _ _ _ := trivial

theorem refl_list (q : ProblemRelation) (ps : List Problem) : List.Forall₂ q.rel ps ps :=
  List.forall₂_same.mpr fun p _ => q.refl p

end ProblemRelation

inductive Outcome.Rel (q : ProblemRelation) : Outcome → Outcome → Prop
  | success (v : Value) : Rel q (.success v) (.success v)
  | warning (v : Value) {ps qs : List Problem} (h : List.Forall₂ q.rel ps qs) :
      Rel q (.warning v ps) (.warning v qs)
  | failure {ps qs : List Problem} (h : List.Forall₂ q.rel ps qs) : Rel q (.failure ps) (.failure qs)

inductive Except.Rel {α β : Type} (V : α → β → Prop) : Except Fault α → Except Fault β → Prop
  | ok {a : α} {b : β} (h : V a b) : Rel V (.ok a) (.ok b)
  | error (f : Fault) : Rel V (.error f) (.error f)

/-- A relation between computations of two monads that respects how computations are put together. -/
structure Relator (m n : Type → Type) [Monad m] [Monad n] [MonadLiftT (Except Fault) m]
    [MonadLiftT (Except Fault) n] where
  rel : {α β : Type} → (α → β → Prop) → m α → n β → Prop
  pure : ∀ {α β : Type} {V : α → β → Prop} {a : α} {b : β}, V a b → rel V (pure a) (pure b)
  bind : ∀ {α β γ δ : Type} {V : α → β → Prop} {W : γ → δ → Prop} {x : m α} {y : n β}
    {f : α → m γ} {g : β → n δ}, rel V x y → (∀ a b, V a b → rel W (f a) (g b)) → rel W (x >>= f) (y >>= g)
  lift : ∀ {α β : Type} {V : α → β → Prop} {x : Except Fault α} {y : Except Fault β},
    Except.Rel V x y → rel V (liftM x : m α) (liftM y : n β)

namespace Outcome

theorem Rel.refl (q : ProblemRelation) (o : Outcome) : o.Rel q o := by
  cases o with
  | success v => exact .success v
  | warning v ps => exact .warning v (q.refl_list ps)
  | failure ps => exact .failure (q.refl_list ps)

theorem rel_equality {o p : Outcome} (h : o.Rel .equality p) : o = p := by
  cases h with
  | success v => rfl
  | warning v h | failure h => rw [ProblemRelation.eq_of_forall₂ h]

theorem Rel.warn {q : ProblemRelation} (v : Value) {ps qs : List Problem}
    (h : List.Forall₂ q.rel ps qs) : (Outcome.warn v ps).Rel q (Outcome.warn v qs) := by
  cases h with
  | nil => exact .success v
  | cons h hs => exact .warning v (.cons h hs)

/-- Where both sides accept the same values, only their refusals are left to compare. -/
theorem Rel.ite {q : ProblemRelation} {c d : Bool} {o p : Outcome} (hcd : c = d) (h : o.Rel q p) (v : Value) :
    (if c then .success v else o).Rel q (if d then .success v else p) := by
  subst hcd
  split
  · exact .success v
  · exact h

theorem Rel.isSuccess {q : ProblemRelation} {o p : Outcome} (h : o.Rel q p) :
    o.isSuccess = p.isSuccess := by
  cases h <;> rfl

theorem Rel.isFailure {q : ProblemRelation} {o p : Outcome} (h : o.Rel q p) :
    o.isFailure = p.isFailure := by
  cases h <;> rfl

theorem Rel.value? {q : ProblemRelation} {o p : Outcome} (h : o.Rel q p) : o.value? = p.value? := by
  cases h <;> rfl

theorem Rel.after {q : ProblemRelation} {o p : Outcome} (h : o.Rel q p) {ps qs : List Problem}
    (hp : List.Forall₂ q.rel ps qs) : (o.after ps).Rel q (p.after qs) := by
  cases h with
  | success v => exact .warn v hp
  | warning v h => exact .warn v (List.rel_append hp h)
  | failure h => exact .failure h

end Outcome

theorem Except.Rel.refl {α : Type} {V : α → α → Prop} (hV : ∀ a, V a a) (x : Except Fault α) : Except.Rel V x x := by
  cases x with
  | ok a => exact .ok (hV a)
  | error f => exact .error f

theorem Except.rel_eq {α : Type} {x y : Except Fault α} (h : Except.Rel (· = ·) x y) : x = y := by
  cases h with
  | ok h => rw [h]
  | error f => rfl

/-- What depends on related results alike holds of both or of neither. -/
theorem Except.Rel.exists_ok_iff {α β : Type} {V : α → β → Prop} {P : α → Prop} {Q : β → Prop} {x : Except Fault α}
    {y : Except Fault β} (h : Except.Rel V x y) (hPQ : ∀ a b, V a b → (P a ↔ Q b)) :
    (∃ a, x = .ok a ∧ P a) ↔ ∃ b, y = .ok b ∧ Q b := by
  cases h with
  | @ok a b h => simpa using hPQ a b h
  | error f => simp

theorem Except.Rel.imp {α β : Type} {V W : α → β → Prop} {x : Except Fault α} {y : Except Fault β}
    (h : Except.Rel V x y) (hVW : ∀ a b, V a b → W a b) : Except.Rel W x y := by
  cases h with
  | ok h => exact .ok (hVW _ _ h)
  | error f => exact .error f

variable {m n : Type → Type} [Monad m] [Monad n] [MonadLiftT (Except Fault) m]
  [MonadLiftT (Except Fault) n]

def Relator.Agree (r : Relator m n) (q : ProblemRelation) (p : Parser m) (p' : Parser n) : Prop :=
  ∀ v, r.rel (Outcome.Rel q) (p v) (p' v)

end Schemata
