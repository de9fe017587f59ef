import Schemata.Schema.Union

/-!
Templates put together from parts. A part that is a union stands for each of its members, so the combination of parts
is the union of all combinations of their members.
-/
namespace Schemata

def appendToLast (text : String) : List Span → List Span
  | [] => []
  | [s] => [{ s with literal := s.literal ++ text }]
  | s :: ss => s :: appendToLast text ss

namespace Schema

mutual

/-- The literals and templates that a part stands for. -/
def templateParts : Schema → Except Fault (List Schema)
  | literal a x => return [literal a x]
  | keyword a .string => return [template .empty "" ⟨.string, a, ""⟩ []]
  | keyword a .number => return [template .empty "" ⟨.number, a, ""⟩ []]
  | union _ members => templatePartsOfAll members
  | s => throw (.schema (.templateSpan s.kind))

def templatePartsOfAll : List Schema → Except Fault (List Schema)
  | [] => return []
  | s :: ss => do
    let first ← s.templateParts
    return first ++ (← templatePartsOfAll ss)

end

def combine (s t : Schema) : Except Fault Schema :=
  match s, t with
  -- Beside anything else a literal is only the text that it is written as.
  | literal _ x, literal _ y => return literal .empty (.text (x.value.literalText ++ y.value.literalText))
  | literal _ x, template _ head first more =>
    return templateOf (x.value.literalText ++ head) (first :: more)
  | template _ head first more, literal _ y =>
    return templateOf head (appendToLast y.value.literalText (first :: more))
  | template _ head first more, template _ otherHead otherFirst otherMore =>
    return templateOf head (appendToLast otherHead (first :: more) ++ otherFirst :: otherMore)
  | _, _ => throw .notTemplate

/-- Every combination of a part from the first list and one from the second, the second varying faster. -/
def combineAll (ss ts : List Schema) : Except Fault (List Schema) := do
  let rows ← ss.mapM fun s => ts.mapM fun t => s.combine t
  return rows.flatten

def extendParts (sofar : List Schema) : List Schema → Except Fault (List Schema)
  | [] => return sofar
  | s :: ss => do
    let parts ← s.templateParts
    extendParts (← combineAll sofar parts) ss

def templateUnion : List Schema → Except Fault Schema
  | [] => throw (.schema .emptyTemplate)
  | s :: ss => do
    let first ← s.templateParts
    return oneOf (← extendParts first ss) .empty

end Schema

end Schemata
