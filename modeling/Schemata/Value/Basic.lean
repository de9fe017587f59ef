import Schemata.Number.Double

/-!
The dynamic values that schemas describe: scalars, ordered containers, and arrays of fixed-width cells.
-/
namespace Schemata

inductive CellKind where
  | int32 | int64 | float32 | float64 | bool
  deriving DecidableEq, Repr

namespace CellKind

def name : CellKind → String
  | int32 => "int32"
  | int64 => "int64"
  | float32 => "float32"
  | float64 => "float64"
  | bool => "bool_"

end CellKind

/-- A single element taken out of a typed array. It keeps its fixed width. -/
inductive Cell where
  | int32 (n : Int)
  | int64 (n : Int)
  | float32 (x : Double)
  | float64 (x : Double)
  | bool (b : Bool)
  deriving DecidableEq

def Cell.kind : Cell → CellKind
  | int32 _ => .int32
  | int64 _ => .int64
  | float32 _ => .float32
  | float64 _ => .float64
  | bool _ => .bool

/-- A dynamic value. `undefined` stands for an explicitly missing value and differs from `null`. A `view` is a
read-only mapping; an `array` holds the plain values of its cells, or rows of them. -/
inductive Value where
  | null
  | bool (b : Bool)
  | int (n : Int)
  | float (x : Double)
  | text (s : String)
  | undefined
  | symbol (key : String)
  | cell (c : Cell)
  | list (items : List Value)
  | tuple (items : List Value)
  | dict (entries : List (Value × Value))
  | view (entries : List (Value × Value))
  | set (items : List Value)
  | bytes (data : List UInt8)
  | array (kind : CellKind) (items : List Value)

instance : Inhabited Value := ⟨.null⟩

def Cell.value : Cell → Value
  | int32 n => .int n
  | int64 n => .int n
  | float32 x => .float x
  | float64 x => .float x
  | bool b => .bool b

namespace Value

mutual

/-- How deeply containers are nested; keys count as much as the values they lead to. -/
def depth : Value → Nat
  | list items => 1 + depthOfItems items
  | tuple items => 1 + depthOfItems items
  | dict entries => 1 + depthOfEntries entries
  | view entries => 1 + depthOfEntries entries
  | set items => 1 + depthOfItems items
  | array _ items => 1 + depthOfItems items
  | _ => 0

def depthOfItems : List Value → Nat
  | [] => 0
  | v :: rest => max v.depth (depthOfItems rest)

def depthOfEntries : List (Value × Value) → Nat
  | [] => 0
  | (k, v) :: rest => max (max k.depth v.depth) (depthOfEntries rest)

end

def entries? : Value → Option (List (Value × Value))
  | dict entries => some entries
  | view entries => some entries
  | _ => none

def items? : Value → Option (List Value)
  | list items => some items
  | tuple items => some items
  | array _ items => some items
  | _ => none

def typeName : Value → String
  | null => "NoneType"
  | bool _ => "bool"
  | int _ => "int"
  | float _ => "float"
  | text _ => "str"
  | undefined => "_Undefined"
  | symbol _ => "Symbol"
  | cell c => c.kind.name
  | list _ => "list"
  | tuple _ => "tuple"
  | dict _ => "dict"
  | view _ => "mappingproxy"
  | set _ => "set"
  | bytes _ => "bytes"
  | array _ _ => "ndarray"

end Value

end Schemata
