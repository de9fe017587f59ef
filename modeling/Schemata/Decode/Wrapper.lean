import Schemata.Decode.Members

/-!
Refinements and transforms. Decoding looks at the base first and then applies the predicate or the conversion;
encoding goes the other way round.
-/
namespace Schemata

variable {m : Type → Type}

namespace Refinement

def violation (scope : Scope) (a : Annotations) (v : Value) : Outcome :=
  .failure [.violation a.displayLabel v (a.renderMessage scope.message v)]

def decode [Monad m] [MonadLiftT (Except Fault) m] (scope : Scope) (a : Annotations) (p : Predicate)
    (base : Parser m) : Parser m := fun v => do
  let o ← base v
  match o.value? with
  | none => return o
  | some w => if ← scope.test p w then return o else return violation scope a w

def encode [Monad m] [MonadLiftT (Except Fault) m] (scope : Scope) (a : Annotations) (p : Predicate)
    (base : Parser m) : Parser m := fun v => do
  -- The predicate is asked about the value as it comes, whatever the base makes of it.
  if ← scope.test p v then base v else return violation scope a v

def parse [Monad m] [MonadLiftT (Except Fault) m] (scope : Scope) (direction : Direction) (a : Annotations)
    (p : Predicate) (base : Parser m) : Parser m :=
  match direction with
  | .decode => decode scope a p base
  | .encode => encode scope a p base

end Refinement

namespace Transform

/-- A parser for transforms. The target describes the result and is not consulted. -/
def parse [Monad m] [MonadLiftT (Except Fault) m] (scope : Scope) (direction : Direction) (c : Conversion)
    (source : Parser m) : Parser m := fun v =>
  match direction with
  | .decode => do (← source v).andThen fun w => scope.convert c .decode w
  | .encode => do (← scope.convert c .encode v : Outcome).andThen source

end Transform

end Schemata
