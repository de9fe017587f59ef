import Schemata.Problem.Tree
import Schemata.Fault

/-!
Outcomes of decoding and encoding: a clean success, a success after a lossy correction, or a failure. Only a failure
has no value.
-/
namespace Schemata

inductive Outcome where
  | success (v : Value)
  | warning (v : Value) (problems : List Problem)
  | failure (problems : List Problem)

namespace Outcome

/-- A value with problems that did not stop it; without problems it is a success. -/
def warn (v : Value) (problems : List Problem) : Outcome :=
  if problems.isEmpty then success v else warning v problems

def fail (problems : List Problem) : Except Fault Outcome :=
  if problems.isEmpty then throw .emptyFailure else return failure problems

def isSuccess : Outcome → Bool
  | success _ => true
  | _ => false

def isWarning : Outcome → Bool
  | warning .. => true
  | _ => false

def isFailure : Outcome → Bool
  | failure _ => true
  | _ => false

def value? : Outcome → Option Value
  | success v => some v
  | warning v _ => some v
  | failure _ => none

def problems : Outcome → List Problem
  | success _ => []
  | warning _ ps => ps
  | failure ps => ps

def warnings : Outcome → List Problem
  | warning _ ps => ps
  | _ => []

def map (f : Value → Value) : Outcome → Outcome
  | success v => success (f v)
  | warning v ps => warning (f v) ps
  | failure ps => failure ps

/-- Puts earlier warnings in front of an outcome. A failure drops them. -/
def after (earlier : List Problem) : Outcome → Outcome
  | success v => warn v earlier
  | warning v ps => warn v (earlier ++ ps)
  | failure ps => failure ps

/-- Goes on with the value of an outcome; the warnings of both steps are kept. -/
def andThen {m : Type → Type} [Monad m] (o : Outcome) (f : Value → m Outcome) : m Outcome :=
  match o with
  | success v => f v
  | warning v ps => return (← f v).after ps
  | failure ps => return failure ps

def unwrap : Outcome → Except (List Problem) Value
  | success v => .ok v
  | warning v _ => .ok v
  | failure ps => .error ps

def messages (o : Outcome) : List String :=
  Problem.messages o.problems

def text : Outcome → String
  | success v => "Success(" ++ v.inspect ++ ")"
  | warning v ps =>
    "Warning(" ++ v.inspect ++ ", " ++ (Value.list ((Problem.messages ps).map .text)).inspect ++ ")"
  | failure ps => "Failure(" ++ Problem.tree false ps ++ ")"

end Outcome

end Schemata
