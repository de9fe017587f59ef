import Schemata.Decode.Members
import Schemata.Value.Equality

/-!
Structs. The declared keys come first, in the order of their declaration; then the remaining keys in the order of the
input, each of which must satisfy every index signature that claims it.
-/
namespace Schemata.Struct

variable {m : Type → Type}

structure Index (m : Type → Type) where
  symbols : Bool
  parameter : Parser m
  type : Parser m

def Index.claims (i : Index m) (key : Value) : Bool :=
  if i.symbols then key.isSymbol else key.isText

def propertySteps (entries : Entries) (p : Property (Parser m)) : List (Step m) :=
  match entries.lookup p.name with
  | some v => [.take (.key p.name) p.type v]
  | none => if p.optional then [] else [.missing (.key p.name)]

def entrySteps (declared : List Value) (indexes : List (Index m)) (entry : Value × Value) : List (Step m) :=
  if entry.1.occursIn declared then []
  else
    match indexes.filter fun i => i.claims entry.1 with
    | [] => [.unexpected (.key entry.1)]
    -- Every signature that claims the key takes it, and each stores its own result.
    | claiming => claiming.flatMap fun i =>
      [.check (.key entry.1) i.parameter entry.1, .take (.key entry.1) i.type entry.2]

def steps (properties : List (Property (Parser m))) (indexes : List (Index m)) (entries : Entries) :
    List (Step m) :=
  properties.flatMap (propertySteps entries) ++
    entries.flatMap (entrySteps (properties.map fun p => p.name) indexes)

def segmentKey : Segment → Value
  | .key k => k
  | .index i => .int i

/-- The kept members as a mapping; of two with one key the later counts. -/
def rebuild (members : List (Segment × Value)) : Value :=
  .dict (Entries.ofList (members.map fun e => (segmentKey e.1, e.2)))

def finish : Gathered → Outcome
  | .stopped p => .failure [p]
  | .kept members warnings => .warn (rebuild members) warnings

def parse [Monad m] (scope : Scope) (a : Annotations) (properties : List (Property (Parser m)))
    (indexes : List (Index m)) : Parser m := fun v =>
  match v.entries? with
  | none => return scope.mismatch a (Problem.isPredicate "Mapping") v
  | some entries => do return finish (← gather (steps properties indexes entries))

end Schemata.Struct
