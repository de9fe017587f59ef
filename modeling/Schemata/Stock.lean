import Schemata.Decode.Run

/-!
Ready-made predicates and conversions, known by name.
-/
namespace Schemata.Stock

/-- Whether a value is an even integer, booleans and cells excluded. -/
def isEven : Value → Bool
  | .int n => n % 2 == 0
  | _ => false

def hasItems : Value → Bool
  | .list items => !items.isEmpty
  | .tuple items => !items.isEmpty
  | .dict entries => !entries.isEmpty
  | _ => false

/-- The predicates known by name; any other name is of a predicate that nothing passes. -/
def predicate (name : String) (v : Value) : Except Fault Bool :=
  match name with
  | "always" => return true
  | "is_string" => return v.isText
  | "even" => return isEven v
  | "has_items" => return hasItems v
  | _ => return false

def total (name : String) (direction : Direction) (v : Value) : Value :=
  match name, direction with
  | "wrap", .decode => .list [v]
  | "wrap", .encode =>
    match v with
    | .list (first :: _) => first
    | _ => .undefined
  | "to_null", _ => .null
  | _, _ => v

def negate? : Value → Option Value
  | .int n => some (.int (-n))
  | .float x => some (.float x.neg)
  | .cell (.float64 x) => some (.cell (.float64 x.neg))
  | _ => none

def readInt? (s : String) : Option Value :=
  let digits (ds : List Char) : Option Nat :=
    if ds.length ≤ 30 && !ds.isEmpty && ds.all Char.isDigit then (String.ofList ds).toNat? else none
  match s.toList with
  | '-' :: rest => (digits rest).map fun n => .int (-(n : Int))
  | rest => (digits rest).map fun n => .int n

def isShortRun (ds : List Char) : Bool :=
  !ds.isEmpty && ds.length ≤ 15 && ds.all Char.isDigit

def readFloat? (s : String) : Option Value :=
  let unsigned := match s.toList with
    | '-' :: rest => rest
    | rest => rest
  let whole := unsigned.takeWhile (· ≠ '.')
  let wellFormed := match unsigned.dropWhile (· ≠ '.') with
    | [] => isShortRun whole
    | _ :: fraction => isShortRun whole && isShortRun fraction
  if wellFormed then (Double.ofText? s).map .float else none

def writeFloat? : Value → Option Value
  | .int n => some (.text ((Double.ofInt n).text .plain))
  | .float x => some (.text (x.text .plain))
  | .cell (.float64 x) => some (.text (x.text .plain))
  | _ => none

def texts? : List Value → Option (List String)
  | [] => some []
  | .text s :: rest => (texts? rest).map (s :: ·)
  | _ => none

def fallible? (name : String) (direction : Direction) (v : Value) : Option Value :=
  match name, direction, v with
  | "int_string", .decode, .text s => readInt? s
  | "int_string", .encode, .int n => some (.text (toString n))
  | "float_string", .decode, .text s => readFloat? s
  | "float_string", .encode, v => writeFloat? v
  | "bool_string", .decode, .text "true" => some (.bool true)
  | "bool_string", .decode, .text "false" => some (.bool false)
  | "bool_string", .encode, .bool b => some (.text (if b then "true" else "false"))
  | "negate", _, v => negate? v
  | "comma_list", .decode, .text s => some (.list ((s.splitOn ",").map .text))
  | "comma_list", .encode, .list items => (texts? items).map fun ss => .text (",".intercalate ss)
  | _, _, _ => none

def rejection (c : Conversion) (direction : Direction) (v : Value) : Outcome :=
  match direction with
  | .decode => .failure [.conversion c.source c.target v none]
  | .encode => .failure [.conversion c.target c.source v none]

def isTotal (name : String) : Bool :=
  ["identity", "wrap", "to_null"].contains name

def convert (c : Conversion) (direction : Direction) (v : Value) : Except Fault Outcome :=
  if isTotal c.name then return .success (total c.name direction v)
  else if c.name = "warn" then return .warning v [.mismatch "is(warned)" v none]
  else if c.name = "fail" then return .failure [.mismatch "is(nothing)" v none]
  else
    match fallible? c.name direction v with
    | some w => return .success w
    | none => return rejection c direction v

def scope (deferred : List (Nat × Except Fault Schema)) : Scope :=
  ⟨deferred, predicate, fun _ v => v.render, convert⟩

end Schemata.Stock
