import Schemata.Decode.Members

/-!
Unions. The members are tried in order until one succeeds cleanly. If none does, the best of those that succeed with
warnings is taken; if all fail, their problems are reported member by member.
-/
namespace Schemata.Union

variable {m : Type → Type}

/-- The outcomes of the members up to the first clean success. -/
def tryMembers [Monad m] (v : Value) : List (Parser m) → m (List Outcome)
  | [] => return []
  | p :: ps => do
    let o ← p v
    if o.isSuccess then return [o] else return o :: (← tryMembers v ps)

def retained : Value → Nat
  | .dict entries => entries.length
  | .view entries => entries.length
  | .list items => items.length
  | .tuple items => items.length
  | _ => 0

structure Candidate where
  value : Value
  problems : List Problem
  weight : Nat

def Candidate.outcome (c : Candidate) : Outcome :=
  .warning c.value c.problems

/-- Whether a candidate is better than another: fewer problems, then more retained members, then a greater
weight. -/
def Candidate.better (c d : Candidate) : Bool :=
  c.problems.length < d.problems.length ||
    (c.problems.length == d.problems.length &&
      (retained d.value < retained c.value ||
        (retained c.value == retained d.value && d.weight < c.weight)))

def best (first : Candidate) (others : List Candidate) : Candidate :=
  others.foldl (fun c d => if d.better c then d else c) first

def candidates (weights : List Nat) (outcomes : List Outcome) : List Candidate :=
  (outcomes.zip weights).filterMap fun
    | (.warning v ps, weight) => some ⟨v, ps, weight⟩
    | _ => none

/-- The outcome of a union, given the weights of its members and the outcomes of those that were tried. -/
def resolve (weights : List Nat) (outcomes : List Outcome) : Except Fault Outcome :=
  match outcomes.find? Outcome.isSuccess with
  | some o => return o
  | none =>
    match candidates weights outcomes with
    | first :: others => return (best first others).outcome
    | [] => Outcome.fail (outcomes.map fun o => .ofMember o.problems)

def parse [Monad m] [MonadLiftT (Except Fault) m] (weights : List Nat) (members : List (Parser m)) :
    Parser m := fun v => do
  resolve weights (← tryMembers v members)

end Schemata.Union
