import Schemata.Value.Equality
import Schemata.Number.FloatText
import Schemata.Text.Quoted

/-!
Values as text. The inspected form shows what kind of value stands there: texts are quoted and a tuple of one item
keeps its comma. The plain form differs only at the top, where texts and symbols stand for themselves. How an array lays
out its cells is left to the library that it comes from; here it is written as its items.
-/
namespace Schemata

def Cell.plain : Cell → String
  | int32 n => toString n
  | int64 n => toString n
  | float32 x => x.textAs .single .plain
  | float64 x => x.text .plain
  | bool b => if b then "True" else "False"

def Cell.inspect : Cell → String
  | bool b => if b then "np.True_" else "np.False_"
  | c => "np." ++ c.kind.name ++ "(" ++ c.plain ++ ")"

namespace Value

def ascends (a b : Value) : Bool :=
  match a.numeral?, b.numeral? with
  | some x, some y => (x.order? y).any (· != .gt)
  | _, _ => true

/-- The texts of set items: numbers ascending, other items as they are stored. -/
def orderTexts (items : List Value) (texts : List String) : List String :=
  if items.all fun v => v.numeral?.isSome then
    ((items.zip texts).mergeSort fun a b => ascends a.1 b.1).map Prod.snd
  else texts

/-- The inspected items of a tuple; a single one keeps its comma. -/
def tupleText : List String → String
  | [item] => "(" ++ item ++ ",)"
  | items => "(" ++ ", ".intercalate items ++ ")"

mutual

def inspect : Value → String
  | null => "None"
  | bool b => if b then "True" else "False"
  | int n => toString n
  | float x => x.text .plain
  | text s => Text.quoteInspected s
  | undefined => "UNDEFINED"
  | symbol key => "Symbol(" ++ Text.quoteInspected key ++ ")"
  | cell c => c.inspect
  | list items => "[" ++ ", ".intercalate (inspectItems items) ++ "]"
  | tuple items => tupleText (inspectItems items)
  | dict entries => "\x7b" ++ ", ".intercalate (inspectEntries entries) ++ "\x7d"
  | view entries => "mappingproxy(\x7b" ++ ", ".intercalate (inspectEntries entries) ++ "\x7d)"
  | set items =>
    if items.isEmpty then "set()"
    else "\x7b" ++ ", ".intercalate (orderTexts items (inspectItems items)) ++ "\x7d"
  | bytes data => Text.quoteBytes data
  | array _ items => "array([" ++ ", ".intercalate (inspectItems items) ++ "])"

def inspectItems : List Value → List String
  | [] => []
  | v :: rest => v.inspect :: inspectItems rest

def inspectEntries : List (Value × Value) → List String
  | [] => []
  | (k, v) :: rest => (k.inspect ++ ": " ++ v.inspect) :: inspectEntries rest

end

def plain : Value → String
  | text s => s
  | symbol key => "Symbol(" ++ key ++ ")"
  | cell c => c.plain
  | view entries => inspect (dict entries)
  | v => v.inspect

end Value

end Schemata
