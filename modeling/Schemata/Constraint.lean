import Schemata.Value.Scalar
import Schemata.Value.Equality
import Schemata.Value.Render
import Schemata.Pattern.Search
import Schemata.Pattern.Parser
import Schemata.Fault

/-!
Ready-made constraints on values. Checking one stops with a fault when it meets a value of a kind that it does not
apply to; the base schema of a refinement is there to keep such values away.
-/
namespace Schemata

inductive ValueClass where
  | text | int | float | bool | list | tuple | dict | set | bytes | symbol | object
  deriving DecidableEq, Repr

namespace ValueClass

def name : ValueClass → String
  | text => "str"
  | int => "int"
  | float => "float"
  | bool => "bool"
  | list => "list"
  | tuple => "tuple"
  | dict => "dict"
  | set => "set"
  | bytes => "bytes"
  | symbol => "Symbol"
  | object => "object"

def all : List ValueClass :=
  [text, int, float, bool, list, tuple, dict, set, bytes, symbol, object]

def ofName? (name : String) : Option ValueClass :=
  all.find? fun c => c.name == name

/-- Whether a value belongs to the class. A boolean is also an integer, and a 64-bit float cell is also a float. -/
def contains : ValueClass → Value → Bool
  | text, .text _ => true
  | int, .int _ => true
  | int, .bool _ => true
  | float, .float _ => true
  | float, .cell (.float64 _) => true
  | bool, .bool _ => true
  | list, .list _ => true
  | tuple, .tuple _ => true
  | dict, .dict _ => true
  | set, .set _ => true
  | bytes, .bytes _ => true
  | symbol, .symbol _ => true
  | object, _ => true
  | _, _ => false

end ValueClass

inductive Relation where
  | less | atMost | greater | atLeast
  deriving DecidableEq, Repr

namespace Relation

def name : Relation → String
  | less => "LessThan"
  | atMost => "LessThanOrEqualTo"
  | greater => "GreaterThan"
  | atLeast => "GreaterThanOrEqualTo"

def covers : Relation → Ordering → Bool
  | less, o => o == .lt
  | atMost, o => o != .gt
  | greater, o => o == .gt
  | atLeast, o => o != .lt

end Relation

inductive Constraint where
  | minLength (n : Int)
  | maxLength (n : Int)
  | startsWith (head : String)
  | endsWith (tail : String)
  | includes (needle : Scalar)
  | pattern (source : String) (pattern : Pattern)
  | bound (relation : Relation) (limit : Scalar)
  | int
  | nonNaN
  | finite
  | instanceOf (cls : ValueClass)
  deriving DecidableEq

namespace Constraint

def matching (source : String) : Except Fault Constraint :=
  match Pattern.parse? source with
  | some p => return pattern source p
  | none => throw .badPattern

def label : Constraint → String
  | minLength n => "MinLength(" ++ toString n ++ ")"
  | maxLength n => "MaxLength(" ++ toString n ++ ")"
  | startsWith head => "StartsWith(" ++ head ++ ")"
  | endsWith tail => "EndsWith(" ++ tail ++ ")"
  | includes needle => "Includes(" ++ needle.value.plain ++ ")"
  | pattern source _ => "Regex(" ++ source ++ ")"
  | bound relation limit => relation.name ++ "(" ++ limit.value.plain ++ ")"
  | int => "Int"
  | nonNaN => "NonNaN"
  | finite => "Finite"
  | instanceOf cls => "InstanceOf(" ++ cls.name ++ ")"

def lengthOf (v : Value) : Except Fault Nat :=
  match v.length? with
  | some n => return n
  | none => throw .noLength

def occursWithin (needle : List Char) : List Char → Bool
  | [] => needle.isEmpty
  | c :: rest => needle.isPrefixOf (c :: rest) || occursWithin needle rest

def cellEquals (needle : Value) : Value → Bool
  | .list row => needle.occursIn row
  | v => v.equals needle

def holds (needle v : Value) : Except Fault Bool :=
  match v with
  | .text s =>
    match needle with
    | .text part => return occursWithin part.toList s.toList
    | _ => throw .notContainer
  | .list items => return needle.occursIn items
  | .tuple items => return needle.occursIn items
  | .set items => return needle.occursIn items
  | .dict entries => return (Entries.lookup entries needle).isSome
  | .view entries => return (Entries.lookup entries needle).isSome
  -- The cells of a row are asked one by one.
  | .array _ items => return items.any (cellEquals needle)
  | .bytes data =>
    match needle with
    | .int n => return data.any fun b => n == b.toNat
    | _ => throw .notContainer
  | _ => throw .notContainer

/-- The order of two values: numbers by value and texts by code points. Not-a-number has an order with no number. -/
def orderOf (a b : Value) : Except Fault (Option Ordering) :=
  match a, b with
  | .text s, .text t => return some (compare s t)
  | a, b =>
    match a.numeral?, b.numeral? with
    | some x, some y => return x.order? y
    | _, _ => throw .incomparable

def check (c : Constraint) (v : Value) : Except Fault Bool :=
  match c with
  | minLength n => return decide (n ≤ (← lengthOf v))
  | maxLength n => return decide ((← lengthOf v) ≤ n)
  | startsWith head =>
    match v with
    | .text s => return head.toList.isPrefixOf s.toList
    | .bytes _ => throw .affixOfBytes
    | _ => throw .noAffix
  | endsWith tail =>
    match v with
    | .text s => return tail.toList.isSuffixOf s.toList
    | .bytes _ => throw .affixOfBytes
    | _ => throw .noAffix
  | includes needle => holds needle.value v
  | pattern _ p =>
    match v with
    | .text s => return p.occursIn s
    | _ => throw .notSearchable
  | bound relation limit => return (← orderOf v limit.value).any relation.covers
  | int => return v.isIntegral
  | nonNaN => return !v.isNaN
  | finite => return !v.isNaN && !v.isInfinite
  | instanceOf cls => return cls.contains v

end Constraint

end Schemata
