import Schemata.Value.Inspect
import Schemata.Value.Class

/-!
Values as they appear in messages: compact object notation. Whole floating-point numbers below `1e21` are written as
integers. A mapping whose keys have no object notation makes the whole value fall back to its inspected form.
-/
namespace Schemata

namespace Double

def wholeLimit : Nat := Nat.pow 10 21

def render (x : Double) : String :=
  match x.integer? with
  | some n => if n.natAbs < wholeLimit then toString n else x.text .rendered
  | none => x.text .rendered

end Double

namespace Value

/-- The rendered form of a key, which only texts, numbers, booleans and null have. -/
def renderKey : Value → Option String
  | text s => some (Text.quoteRendered s)
  | int n => some ("\"" ++ toString n ++ "\"")
  | float x => some ("\"" ++ x.text .rendered ++ "\"")
  | cell (.float64 x) => some ("\"" ++ x.text .rendered ++ "\"")
  | bool b => some (if b then "\"true\"" else "\"false\"")
  | null => some "\"null\""
  | _ => none

def renderCell : Cell → String
  | .int32 n => toString n
  | .int64 n => toString n
  | .float32 x => x.render
  | .float64 x => x.render
  | .bool b => if b then "true" else "false"

mutual

/-- The object notation of a value, where it has one. Inside sets and arrays (`exact`) floating-point numbers keep
their fractional part. -/
def notate (exact : Bool) : Value → Option String
  | null => some "null"
  | bool b => some (if b then "true" else "false")
  | int n => some (toString n)
  | float x => some (if exact then x.text .rendered else x.render)
  | text s => some (Text.quoteRendered s)
  | undefined => some "\"undefined\""
  | symbol key => some (Text.quoteRendered ("Symbol(" ++ key ++ ")"))
  | cell c => some (match exact, c with
    | true, .float32 x => x.text .rendered
    | true, .float64 x => x.text .rendered
    | _, c => renderCell c)
  | list items => do return "[" ++ ",".intercalate (← notateItems exact items) ++ "]"
  | tuple items => do return "[" ++ ",".intercalate (← notateItems exact items) ++ "]"
  | dict entries => do return "\x7b" ++ ",".intercalate (← notateEntries exact entries) ++ "\x7d"
  | view entries => some (Text.quoteRendered (plain (view entries)))
  | set items => do
    let texts ← notateItems true items
    -- In order of the inspected forms, which need not be the order of the values.
    let sorted := ((inspectItems items).zip texts).mergeSort fun a b => decide (a.1 ≤ b.1)
    return "[" ++ ",".intercalate (sorted.map Prod.snd) ++ "]"
  | bytes data => some (Text.quoteRendered (plain (bytes data)))
  | array _ items => do return "[" ++ ",".intercalate (← notateItems true items) ++ "]"

def notateItems (exact : Bool) : List Value → Option (List String)
  | [] => some []
  | v :: rest => do return (← v.notate exact) :: (← notateItems exact rest)

def notateEntries (exact : Bool) : List (Value × Value) → Option (List String)
  | [] => some []
  | (k, v) :: rest => do
    return ((← k.renderKey) ++ ":" ++ (← v.notate exact)) :: (← notateEntries exact rest)

end

def render (v : Value) : String :=
  match v with
  | undefined => "undefined"
  | symbol key => "Symbol(" ++ key ++ ")"
  | v => (v.notate false).getD v.inspect

def literalText (v : Value) : String :=
  match v with
  | null => "null"
  | v =>
    match v.boolean? with
    | some b => if b then "true" else "false"
    | none => v.plain

end Value

end Schemata
