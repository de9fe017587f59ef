import Schemata.Decode.Leaf
import Schemata.Decode.Tuple
import Schemata.Decode.Struct
import Schemata.Decode.Union
import Schemata.Decode.Wrapper
import Schemata.Schema.Rank

/-!
Decoding and encoding. The parser of a schema, for either direction, is given the parsers of the lazy schemas in it. A
lazy schema is unfolded anew wherever it is met; fuel bounds how many are unfolded one inside the other.
-/
namespace Schemata

namespace Schema

variable {m : Type → Type} [Monad m] [MonadLiftT (Except Fault) m]

mutual

def parser (scope : Scope) (direction : Direction) (unfold : Handle → Parser m) : Schema → Parser m
  | typeAlias _ _ type => type.parser scope direction unfold
  | literal a x => fun v => return scope.parseLiteral a x v
  | uniqueSymbol a key => fun v => return scope.parseUniqueSymbol a key v
  | keyword a word => fun v => return scope.parseKeyword direction a word v
  | enums a pairs => fun v => return scope.parseEnums a pairs v
  | template a head first more => fun v => return scope.parseTemplate a head (first :: more) v
  | tuple a elements rest _ =>
    Tuple.parse scope a (elementParsers scope direction unfold elements)
      (restParsers scope direction unfold rest)
  | struct a properties indexes =>
    Struct.parse scope a (propertyParsers scope direction unfold properties)
      (indexParsers scope direction unfold indexes)
  | union _ members => Union.parse (members.map weight) (parsers scope direction unfold members)
  | lazy _ handle => unfold handle
  | refinement a base predicate =>
    Refinement.parse scope direction a predicate (base.parser scope direction unfold)
  | transform _ source _ conversion =>
    Transform.parse scope direction conversion (source.parser scope direction unfold)

def parsers (scope : Scope) (direction : Direction) (unfold : Handle → Parser m) :
    List Schema → List (Parser m)
  | [] => []
  | s :: ss => s.parser scope direction unfold :: parsers scope direction unfold ss

def elementParsers (scope : Scope) (direction : Direction) (unfold : Handle → Parser m) :
    List (Element Schema) → List (Element (Parser m))
  | [] => []
  | ⟨type, optional⟩ :: es =>
    ⟨type.parser scope direction unfold, optional⟩ :: elementParsers scope direction unfold es

def restParsers (scope : Scope) (direction : Direction) (unfold : Handle → Parser m) :
    Option (Rest Schema) → Option (Rest (Parser m))
  | none => none
  | some ⟨head, trailing⟩ =>
    some ⟨head.parser scope direction unfold, parsers scope direction unfold trailing⟩

def propertyParsers (scope : Scope) (direction : Direction) (unfold : Handle → Parser m) :
    List (Property Schema) → List (Property (Parser m))
  | [] => []
  | ⟨name, type, optional, readonly, annotations⟩ :: ps =>
    ⟨name, type.parser scope direction unfold, optional, readonly, annotations⟩ ::
      propertyParsers scope direction unfold ps

def indexParsers (scope : Scope) (direction : Direction) (unfold : Handle → Parser m) :
    List (IndexSignature Schema) → List (Struct.Index m)
  | [] => []
  | ⟨parameter, type, _⟩ :: is =>
    ⟨parameter.isKeyword .symbol, parameter.parser scope direction unfold,
      type.parser scope direction unfold⟩ :: indexParsers scope direction unfold is

end

end Schema

namespace Scope

/-- The parser behind a handle, unfolding at most `fuel` lazy schemas one inside the other. -/
def unfold (scope : Scope) (direction : Direction) : Nat → Handle → Parser (Except Fault)
  | 0, _ => fun _ => throw .endlessUnfolding
  | fuel + 1, h => fun v => do
    let s ← scope.force h
    s.parser scope direction (scope.unfold direction fuel) v

def run (scope : Scope) (direction : Direction) (fuel : Nat) (s : Schema) : Parser (Except Fault) :=
  s.parser scope direction (scope.unfold direction fuel)

/-- Enough fuel for a value when every cycle of lazy schemas passes through a container: each level of the value can
take one turn through the table, and another one through the partial forms of its entries. -/
def fuelFor (scope : Scope) (v : Value) : Nat :=
  (v.depth + 1) * (2 * scope.deferred.length + 1)

def decode (scope : Scope) (s : Schema) (v : Value) : Except Fault Outcome :=
  scope.run .decode (scope.fuelFor v) s v

def encode (scope : Scope) (s : Schema) (v : Value) : Except Fault Outcome :=
  scope.run .encode (scope.fuelFor v) s v

def apply (scope : Scope) (direction : Direction) (s : Schema) (v : Value) : Except Fault Outcome :=
  match direction with
  | .decode => scope.decode s v
  | .encode => scope.encode s v

def isValid (scope : Scope) (s : Schema) (v : Value) : Except Fault Bool := do
  return !(← scope.decode s v).isFailure

end Scope

end Schemata
