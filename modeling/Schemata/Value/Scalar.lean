import Schemata.Value.Class

/-!
Scalars: the values that a literal can hold. Unlike values in general they are decidably identical.
-/
namespace Schemata

inductive Scalar where
  | null
  | bool (b : Bool)
  | int (n : Int)
  | float (x : Double)
  | text (s : String)
  | cell (c : Cell)
  deriving DecidableEq

namespace Scalar

def value : Scalar → Value
  | null => .null
  | bool b => .bool b
  | int n => .int n
  | float x => .float x
  | text s => .text s
  | cell c => .cell c

def ofValue? : Value → Option Scalar
  | .null => some null
  | .bool b => some (bool b)
  | .int n => some (int n)
  | .float x => some (float x)
  | .text s => some (text s)
  | .cell c => some (cell c)
  | _ => none

/-- The four groups of scalars that are never equal to one another as literals. -/
inductive Tag where
  | null | boolean | number | text
  deriving DecidableEq, Repr

def tag : Scalar → Tag
  | null => .null
  | bool _ => .boolean
  | int _ => .number
  | float _ => .number
  | text _ => .text
  | cell (.bool _) => .boolean
  | cell _ => .number

/-- Literal equality of scalars: the same group, and equal values. -/
def equals (a b : Scalar) : Bool :=
  a.tag == b.tag && a.value.equals b.value

def isText : Scalar → Bool
  | text _ => true
  | _ => false

def isNumber (s : Scalar) : Bool := s.tag == .number

end Scalar

end Schemata
