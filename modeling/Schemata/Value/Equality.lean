import Schemata.Value.Basic
import Schemata.Number.Numeral

/-!
Equality of values, and tables keyed by values up to equality. Numbers are equal by value, whatever their kind and
width, and a boolean counts as zero or one; mappings and sets are compared without order; lists and tuples stay apart;
not-a-number differs from everything.
-/
namespace Schemata

/-- The number a cell holds; booleans count as zero and one. -/
def Cell.numeral : Cell → Numeral
  | int32 n => .int n
  | int64 n => .int n
  | float32 x => .float x
  | float64 x => .float x
  | bool b => .int (if b then 1 else 0)

namespace Value

def numeral? : Value → Option Numeral
  | bool b => some (.int (if b then 1 else 0))
  | int n => some (.int n)
  | float x => some (.float x)
  | cell c => some c.numeral
  | _ => none

mutual

def equalsUpTo (number : Numeral → Numeral → Bool) : Value → Value → Bool
  | null, other => match other with | null => true | _ => false
  | undefined, other => match other with | undefined => true | _ => false
  | text s, other => match other with | text t => s == t | _ => false
  | symbol k, other => match other with | symbol l => k == l | _ => false
  | bytes d, other => match other with | bytes e => d == e | _ => false
  | bool b, other => match other.numeral? with
    | some n => number (.int (if b then 1 else 0)) n
    | none => false
  | int i, other => match other.numeral? with | some n => number (.int i) n | none => false
  | float x, other => match other.numeral? with | some n => number (.float x) n | none => false
  | cell c, other => match other.numeral? with | some n => number c.numeral n | none => false
  | list xs, other => match other with | list ys => equalItems number xs ys | _ => false
  | tuple xs, other => match other with | tuple ys => equalItems number xs ys | _ => false
  | array _ xs, other => match other with | array _ ys => equalItems number xs ys | _ => false
  | set xs, other => match other with
    | set ys => xs.length == ys.length && eachFound number xs ys
    | _ => false
  | dict es, other => match other.entries? with
    | some fs => es.length == fs.length && eachEntryFound number es fs
    | none => false
  | view es, other => match other.entries? with
    | some fs => es.length == fs.length && eachEntryFound number es fs
    | none => false
termination_by structural v => v

def equalItems (number : Numeral → Numeral → Bool) : List Value → List Value → Bool
  | [], other => other.isEmpty
  | x :: xs, other => match other with
    | [] => false
    | y :: ys => x.equalsUpTo number y && equalItems number xs ys

def eachFound (number : Numeral → Numeral → Bool) : List Value → List Value → Bool
  | [], _ => true
  | x :: xs, ys => ys.any (fun y => x.equalsUpTo number y) && eachFound number xs ys

def eachEntryFound (number : Numeral → Numeral → Bool) :
    List (Value × Value) → List (Value × Value) → Bool
  | [], _ => true
  | (k, v) :: rest, fs =>
    fs.any (fun f => k.equalsUpTo number f.1 && v.equalsUpTo number f.2) && eachEntryFound number rest fs

end

def equals (v w : Value) : Bool := v.equalsUpTo Numeral.equals w

/-- Equality of values that counts not-a-number as equal to itself. -/
def same (v w : Value) : Bool := v.equalsUpTo Numeral.same w

def occursIn (v : Value) (vs : List Value) : Bool :=
  -- What is in the list stands on the left, as it does when keys are looked up.
  vs.any (fun w => w.equals v)

end Value

/-! ### Tables of entries -/

abbrev Entries := List (Value × Value)

namespace Entries

def lookup (es : Entries) (key : Value) : Option Value :=
  (es.find? fun e => e.1.equals key).map Prod.snd

/-- Stores a value. A key that is already there keeps its place and its own spelling. -/
def insert (es : Entries) (key value : Value) : Entries :=
  match es with
  | [] => [(key, value)]
  | (k, v) :: rest => if k.equals key then (k, value) :: rest else (k, v) :: insert rest key value

def ofList (es : List (Value × Value)) : Entries :=
  es.foldl (fun table e => insert table e.1 e.2) []

def keys (es : Entries) : List Value :=
  es.map Prod.fst

end Entries

namespace Value

def distinct (vs : List Value) : List Value :=
  vs.foldl (fun kept v => if v.occursIn kept then kept else kept ++ [v]) []

end Value

end Schemata
