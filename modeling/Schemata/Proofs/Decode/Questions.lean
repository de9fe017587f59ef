import Schemata.Proofs.Decode.Termination
import Schemata.Schema.Build
import Schemata.Stock

/-!
The questions that a run puts to constraints. A schema without functions of its own comes to an outcome exactly when
every question that the run gets to has an answer. Decoding asks about what the base has accepted; encoding asks about
the value as it was given, before the base has seen it, and in a union also about values of other members.
-/
namespace Schemata

namespace Constraint

/-- Whether the constraint has an answer for every value. The others apply to values of certain kinds only. -/
def handlesAll : Constraint → Bool
  | int | nonNaN | finite | instanceOf _ => true
  | _ => false

/-- A constraint that does not apply to all values does not apply to null. -/
theorem check_null_of_not_handlesAll {c : Constraint} (h : c.handlesAll = false) : ∃ f, c.check .null = .error f := by
  cases c with
  | int | nonNaN | finite | instanceOf => cases h
  | bound relation limit =>
    refine ⟨.incomparable, ?_⟩
    simp [check, orderOf, Value.numeral?, bind, Except.bind, throw, throwThe, MonadExceptOf.throw]
  | _ => exact ⟨_, rfl⟩

theorem handlesAll_iff (c : Constraint) : c.handlesAll ↔ ∀ v, ∃ b, c.check v = .ok b := by
  constructor
  · intro h v
    cases c with
    | int | nonNaN | finite | instanceOf => exact ⟨_, rfl⟩
    | _ => cases h
  · intro h
    by_contra hc
    obtain ⟨f, hf⟩ := check_null_of_not_handlesAll (by simpa using hc)
    obtain ⟨b, hb⟩ := h .null
    rw [hf] at hb
    cases hb

end Constraint

theorem exists_error_iff {α : Type} {x : Except Fault α} : (∃ f, x = .error f) ↔ ¬∃ a, x = .ok a := by
  cases x <;> simp

namespace Schema

/-- A node that calls on no function but constraints. -/
def ConstrainedNode : Schema → Prop
  | lazy .. | transform .. => False
  | refinement _ _ (.named _) => False
  | union _ members => members ≠ []
  | _ => True

theorem ConstrainedNode.handle?_eq_none {s : Schema} (hs : s.ConstrainedNode) : s.handle? = none := by
  cases s with
  | lazy => cases hs
  | _ => rfl

end Schema

namespace Scope
variable {scope : Scope} {direction : Direction} {n : Nat} {s : Schema} {x : Value}

/-- The run puts the question of the constraint to the value. -/
def Asks (scope : Scope) (direction : Direction) (n : Nat) (s : Schema) (x : Value) (c : Constraint) (w : Value) :
    Prop :=
  ∃ stamp, scope.Tests direction n s x (.constraint stamp c) w

def Answered (scope : Scope) (direction : Direction) (n : Nat) (s : Schema) (x : Value) : Prop :=
  ∀ c w, scope.Asks direction n s x c w → ∃ b, c.check w = .ok b

/-- A run comes to an outcome exactly when every question that it gets to has an answer. -/
theorem returns_iff_answered (hs : s.Throughout Schema.ConstrainedNode) (direction : Direction) (n : Nat) (x : Value) :
    (∃ o, scope.run direction n s x = .ok o) ↔ scope.Answered direction n s x := by
  constructor
  · rintro ⟨o, ho⟩ c w ⟨stamp, m, a, t, y, hreached, hw⟩
    refine exists_ok_iff.mpr fun f hf => ?_
    have hrun : scope.run direction n s x = .error f := run_eq_error_iff.mpr ⟨_, hreached, .predicate hw hf⟩
    cases ho.symm.trans hrun
  · refine fun h => exists_ok_iff.mpr fun f hf => ?_
    obtain ⟨c, hreached, hc⟩ := run_eq_error_iff.mp hf
    -- The run stays among nodes that call on constraints only, so it is one of these that faults.
    have hnode : c.schema.ConstrainedNode :=
      (throughout_of_calls (fun _ => Schema.ConstrainedNode.handle?_eq_none) hs hreached).node
    cases hc with
    | spent | thunk | conversion => exact hnode
    | memberless => exact hnode rfl
    | @predicate m a t p y w _ hw hc =>
      cases p with
      | named name => exact hnode
      | constraint stamp c =>
        exact exists_ok_iff.mp (h c w ⟨stamp, m, a, t, y, hreached, hw⟩) f hc

/-- A string schema lets only texts through, and a text has a length. -/
theorem answerable_minLength (scope : Scope) (stamp : Nat) (limit : Int) :
    scope.Answerable .decode (.word .string) (.constraint stamp (.minLength limit)) := by
  rintro n x v ⟨o, ho, hv⟩
  obtain rfl := Except.ok.inj ho
  cases x with
  | text s =>
    obtain rfl := Option.some.inj hv
    exact ⟨_, rfl⟩
  | _ => cases hv

/-- Encoding faults exactly when it gets to a question that has no answer. It gets to that of a refinement first of
all, whatever the base accepts, so that all constraints but those with an answer for every value fault on null. -/
theorem encode_faults_iff {s : Schema} (hs : s.Throughout Schema.ConstrainedNode) (x : Value) :
    ((∃ f, scope.encode s x = .error f) ↔
      ∃ c w f, scope.Asks .encode (scope.fuelFor x) s x c w ∧ c.check w = .error f) ∧
    ∀ base stamp c a, c.handlesAll = false → ∃ f, scope.encode (.constrain base stamp c a) .null = .error f := by
  refine ⟨?_, ?_⟩
  · rw [exists_error_iff, encode, returns_iff_answered hs]
    simp only [Answered, not_forall, exists_prop, ← exists_error_iff, exists_and_left]
  · intro base stamp c a hc
    obtain ⟨f, hf⟩ := Constraint.check_null_of_not_handlesAll hc
    refine ⟨f, ?_⟩
    rw [encode, Schema.constrain, run_refinement, Refinement.parse, Refinement.encode, test, hf]
    rfl

def filled : Schema :=
  .union .empty [.constrain (.word .string) 0 (.minLength 1) .empty, .word .number]

theorem constrained_filled : filled.Throughout Schema.ConstrainedNode := by
  have word (k : Keyword) : (Schema.word k).Throughout Schema.ConstrainedNode := Schema.throughout_leaf trivial rfl
  refine Schema.throughout_of_children (List.cons_ne_nil _ _) (List.forall_mem_cons.mpr ⟨?_, ?_⟩)
  · exact Schema.throughout_of_children trivial (List.forall_mem_singleton.mpr (word .string))
  · exact List.forall_mem_singleton.mpr (word .number)

/-- The question whether a number is long enough. -/
theorem encode_faults_iff_filled :
    let scope := Stock.scope []
    (∃ c w f, scope.Asks .encode (scope.fuelFor (.int 5)) filled (.int 5) c w ∧ c.check w = .error f) ∧
      ∃ f, scope.encode (.constrain (.word .string) 0 (.startsWith "a") .empty) .null = .error f := by
  intro scope
  obtain ⟨hiff, hnull⟩ : (_ ↔ ∃ c w f, scope.Asks .encode _ _ _ c w ∧ _) ∧ _ :=
    encode_faults_iff constrained_filled (.int 5)
  exact ⟨hiff.mp ⟨.noLength, rfl⟩, hnull _ _ _ _ rfl⟩

/-- Decoding has an outcome for every value, and takes a number for a number; encoding that number faults. -/
theorem filled_not_encodable :
    (∀ x, ∃ o, (Stock.scope []).decode filled x = .ok o) ∧
      (Stock.scope []).decode filled (.int 5) = .ok (.success (.int 5)) ∧
      (Stock.scope []).encode filled (.int 5) = .error .noLength := by
  have word (k : Keyword) : (Schema.word k).Throughout fun t => t.handle? = none ∧ (Stock.scope []).Steady .decode t :=
    Schema.throughout_leaf ⟨rfl, trivial⟩ rfl
  have hunion : (Stock.scope []).Steady .decode filled := List.cons_ne_nil _ _
  refine ⟨fun x => exists_run_of_steady (Schema.throughout_of_children ⟨rfl, hunion⟩ ?_), rfl, rfl⟩
  refine List.forall_mem_cons.mpr ⟨?_, List.forall_mem_singleton.mpr (word .number)⟩
  exact Schema.throughout_of_children ⟨rfl, answerable_minLength _ 0 1⟩ (List.forall_mem_singleton.mpr (word .string))

end Scope
end Schemata
