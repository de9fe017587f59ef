import Schemata.Decode.Members

/-!
Tuples. Every item is assigned to at most one part of the tuple: the first ones to the positions, the last ones to the
trailing items, and what is between to the repeated item.
-/
namespace Schemata.Tuple

variable {m : Type → Type}

/-- The steps for the positions, the first of them being position `i`. Positions beyond the items are skipped if they
are optional. -/
def positionSteps (i : Nat) : List (Element (Parser m)) → List Value → List (Step m)
  | [], _ => []
  | e :: es, [] => if e.optional then positionSteps (i + 1) es [] else [.missing (.index i)]
  | e :: es, v :: vs => .take (.index i) e.type v :: positionSteps (i + 1) es vs

def runSteps (i : Nat) (parser : Parser m) : List Value → List (Step m)
  | [] => []
  | v :: vs => .take (.index i) parser v :: runSteps (i + 1) parser vs

def trailingSteps (i : Nat) : List (Parser m) → List Value → List (Step m)
  | [], _ => []
  | _ :: _, [] => [.missing (.index i)]
  | p :: ps, v :: vs => .take (.index i) p v :: trailingSteps (i + 1) ps vs

def unexpectedSteps (i : Nat) : List Value → List (Step m)
  | [] => []
  | _ :: vs => .unexpected (.index i) :: unexpectedSteps (i + 1) vs

def restSteps (i : Nat) (rest : Option (Rest (Parser m))) (items : List Value) : List (Step m) :=
  match rest with
  | none => unexpectedSteps i items
  | some r =>
    -- Where there are too few items for the trailing ones, nothing is repeated.
    let repeated := items.length - r.trailing.length
    runSteps i r.head (items.take repeated) ++ trailingSteps (i + repeated) r.trailing (items.drop repeated)

def steps (elements : List (Element (Parser m))) (rest : Option (Rest (Parser m))) (items : List Value) :
    List (Step m) :=
  positionSteps 0 elements items ++ restSteps elements.length rest (items.drop elements.length)

/-- The kept items in the container that the input came in; arrays come out as lists. -/
def rebuild (input : Value) (items : List Value) : Value :=
  match input with
  | .tuple _ => .tuple items
  | _ => .list items

def finish (input : Value) : Gathered → Outcome
  | .stopped p => .failure [p]
  | .kept members warnings => .warn (rebuild input (members.map Prod.snd)) warnings

def parse [Monad m] (scope : Scope) (a : Annotations) (elements : List (Element (Parser m)))
    (rest : Option (Rest (Parser m))) : Parser m := fun v =>
  match v.items? with
  | none => return scope.mismatch a (Problem.isPredicate "Sequence") v
  | some items => do return finish v (← gather (steps elements rest items))

end Schemata.Tuple
