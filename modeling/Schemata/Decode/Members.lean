import Schemata.Scope

/-!
Working through the members of a container. A container is a list of steps, each about one member; the steps run in
order, and the first hard failure ends the run.
-/
namespace Schemata

abbrev Parser (m : Type → Type) := Value → m Outcome

/-- One step through the members of a container. -/
inductive Step (m : Type → Type) where
  /-- Parse the item and keep what comes out. -/
  | take (segment : Segment) (parser : Parser m) (item : Value)
  /-- Parse the item only to see that it does not fail. -/
  | check (segment : Segment) (parser : Parser m) (item : Value)
  /-- A required member is not there. -/
  | missing (segment : Segment)
  /-- A member is there that nothing describes. -/
  | unexpected (segment : Segment)

inductive Gathered where
  | stopped (problem : Problem)
  | kept (members : List (Segment × Value)) (warnings : List Problem)

namespace Gathered

def keep (segment : Segment) (v : Value) : Gathered → Gathered
  | stopped p => stopped p
  | kept members warnings => kept ((segment, v) :: members) warnings

def warn (p : Problem) : Gathered → Gathered
  | stopped q => stopped q
  | kept members warnings => kept members (p :: warnings)

end Gathered

/-- The steps in order. Problems of a member are reported below its segment. -/
def gather {m : Type → Type} [Monad m] : List (Step m) → m Gathered
  | [] => return .kept [] []
  | .missing segment :: _ => return .stopped (.within segment [.missing])
  | .unexpected segment :: rest => do
    return (← gather rest).warn (.within segment [.unexpected segment])
  | .check segment parser item :: rest => do
    -- What comes out is dropped, and so is what it warns of.
    match ← parser item with
    | .failure ps => return .stopped (.within segment ps)
    | _ => gather rest
  | .take segment parser item :: rest => do
    match ← parser item with
    | .failure ps => return .stopped (.within segment ps)
    | .success v => return (← gather rest).keep segment v
    | .warning v ps => return ((← gather rest).keep segment v).warn (.within segment ps)

namespace Scope

def mismatch (scope : Scope) (a : Annotations) (predicate : String) (v : Value) : Outcome :=
  .failure [.mismatch predicate v (a.renderMessage scope.message v)]

end Scope

end Schemata
