import Schemata.Schema.Union
import Schemata.Outcome

/-!
What schemas refer to: the schemas behind handles, and the functions known by name. The spine of a schema is what is
left of it when wrappers are looked through and only unions branch: aliases, refinements and lazy schemas stand for what
they wrap, transforms for their target.
-/
namespace Schemata

/-- The meaning of references. `deferred` holds what each root handle leads to; building that schema may have
failed. -/
structure Scope where
  deferred : List (Nat × Except Fault Schema)
  predicate : String → Value → Except Fault Bool
  message : String → Value → String
  convert : Conversion → Direction → Value → Except Fault Outcome

namespace Scope

def force (scope : Scope) : Handle → Except Fault Schema
  | .root i =>
    match scope.deferred.lookup i with
    | some result => result
    | none => throw (.dangling (.root i))
  | .partialOf h path => do return (← scope.force h).partialForm path

def test (scope : Scope) (p : Predicate) (v : Value) : Except Fault Bool :=
  match p with
  | .constraint _ rule => rule.check v
  | .named name => scope.predicate name v

end Scope

/-- A schema seen through its wrappers. A part that cannot be reached is marked by the fault that was met. -/
inductive Spine where
  | node (s : Schema)
  | fork (members : List Spine)
  | broken (fault : Fault)

namespace Schema

mutual

def spine (unfold : Handle → Spine) : Schema → Spine
  | typeAlias _ _ type => type.spine unfold
  | lazy _ handle => unfold handle
  | refinement _ base _ => base.spine unfold
  | transform _ _ target _ => target.spine unfold
  | union _ members => .fork (spines unfold members)
  | s => .node s

def spines (unfold : Handle → Spine) : List Schema → List Spine
  | [] => []
  | s :: ss => s.spine unfold :: spines unfold ss

end

end Schema

namespace Scope

def unfoldSpine (scope : Scope) : Nat → Handle → Spine
  | 0, _ => .broken .endlessUnfolding
  | fuel + 1, h =>
    match scope.force h with
    | .ok s => s.spine (scope.unfoldSpine fuel)
    | .error fault => .broken fault

/-- The spine of a schema. A chain of lazy schemas longer than the table of them repeats one. -/
def spine (scope : Scope) (s : Schema) : Spine :=
  s.spine (scope.unfoldSpine (scope.deferred.length + 1))

end Scope

end Schemata
