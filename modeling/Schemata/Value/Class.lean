import Schemata.Value.Equality

/-!
Classes of values, and the equality that literals use: booleans and numbers are told apart, numbers are equal by
value, and everything else must have the same type.
-/
namespace Schemata

def Cell.boolean? : Cell → Option Bool
  | bool b => some b
  | _ => none

def Cell.number? : Cell → Option Numeral
  | bool _ => none
  | c => some c.numeral

namespace Value

def boolean? : Value → Option Bool
  | bool b => some b
  | cell c => c.boolean?
  | _ => none

def number? : Value → Option Numeral
  | int n => some (.int n)
  | float x => some (.float x)
  | cell c => c.number?
  | _ => none

/-- The integer a value is. Floating-point numbers are not integers, whatever their value. -/
def integer? : Value → Option Int
  | int n => some n
  | cell (.int32 n) => some n
  | cell (.int64 n) => some n
  | _ => none

def float? : Value → Option Double
  | float x => some x
  | cell (.float32 x) => some x
  | cell (.float64 x) => some x
  | _ => none

def isBoolean (v : Value) : Bool := v.boolean?.isSome

def isNumber (v : Value) : Bool := v.number?.isSome

def isInteger (v : Value) : Bool := v.integer?.isSome

def isNaN (v : Value) : Bool := v.float?.any Double.isNaN

def isInfinite (v : Value) : Bool := v.float?.any Double.isInfinite

def isSequence (v : Value) : Bool := v.items?.isSome

def isMapping (v : Value) : Bool := v.entries?.isSome

def isText : Value → Bool
  | text _ => true
  | _ => false

def isSymbol : Value → Bool
  | symbol _ => true
  | _ => false

def isUndefined : Value → Bool
  | undefined => true
  | _ => false

/-- Objects are the containers and arrays; scalars, texts, byte strings and cells are not. -/
def isObject : Value → Bool
  | list _ | tuple _ | dict _ | view _ | set _ | array _ _ => true
  | _ => false

def isIntegral (v : Value) : Bool :=
  v.isInteger || (v.float?.bind Double.integer?).isSome

/-- Equality of a value with a literal, which never takes a boolean for a number. -/
def literalEquals (a b : Value) : Bool :=
  match a.boolean?, b.boolean? with
  | some x, some y => x == y
  | some _, none => false
  | none, some _ => false
  | none, none =>
    match a.number?, b.number? with
    | some x, some y => x.equals y
    | some _, none => false
    | none, some _ => false
    -- Without the types, a dictionary would equal a read-only view of it.
    | none, none => a.typeName == b.typeName && a.equals b

def length? : Value → Option Nat
  | text s => some s.length
  | bytes d => some d.length
  | list items => some items.length
  | tuple items => some items.length
  | set items => some items.length
  | array _ items => some items.length
  | dict entries => some entries.length
  | view entries => some entries.length
  | _ => none

end Value

end Schemata
