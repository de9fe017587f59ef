import Schemata.Decode.Members
import Schemata.Template.Match
import Schemata.Text.CharClass

/-!
Decoding and encoding against schemas without parts.
-/
namespace Schemata

namespace Text

def readInteger? (s : List Char) : Option Int :=
  let digits (ds : List Char) : Option Nat :=
    if !ds.isEmpty && ds.all Char.isDigit then
      some (ds.foldl (fun n c => 10 * n + (c.toNat - '0'.toNat)) 0)
    else none
  match s with
  | '+' :: rest => (digits rest).map fun n => (n : Int)
  | '-' :: rest => (digits rest).map fun n => -(n : Int)
  | s => (digits s).map fun n => (n : Int)

/-- The integer in a text between blanks; nothing but blanks is zero. -/
def readBigint? (s : String) : Option Int :=
  match trim s.toList with
  | [] => some 0
  | trimmed => readInteger? trimmed

end Text

namespace Value

def bigint? (v : Value) : Option Int :=
  match v.boolean? with
  | some b => some (if b then 1 else 0)
  | none =>
    match v.integer?, v.float?, v with
    | some n, _, _ => some n
    | none, some x, _ => x.integer?
    | none, none, text s => Text.readBigint? s
    | _, _, _ => none

end Value

namespace Keyword

/-- Whether a value is of a keyword's type. Large integers are decoded by a rule of their own. -/
def admits : Keyword → Value → Bool
  | undefined, v => v.isUndefined
  | void, v => v.isUndefined
  | never, _ => false
  | unknown, _ => true
  | any, _ => true
  | string, v => v.isText
  | number, v => v.isNumber
  | boolean, v => v.isBoolean
  | bigint, v => v.isInteger
  | symbol, v => v.isSymbol
  | object, v => v.isObject

end Keyword

namespace Scope

def bigintSource : String := "string | number | boolean"

def decodeBigint (scope : Scope) (a : Annotations) (v : Value) : Outcome :=
  match v.integer? with
  | some n => .success (.int n)
  | none =>
    if v.isText || v.isNumber || v.isBoolean then
      -- The sort is right, so that a value without an integer is a failed conversion and no mismatch.
      match v.bigint? with
      | some n => .success (.int n)
      | none =>
        .failure [.conversion bigintSource Keyword.bigint.word v (a.renderMessage scope.message v)]
    else scope.mismatch a (Problem.isPredicate bigintSource) v

def encodeBigint (scope : Scope) (a : Annotations) (v : Value) : Outcome :=
  match v.integer? with
  | some n => .success (.int n)
  | none => scope.mismatch a (Problem.isPredicate Keyword.bigint.word) v

def anomaly? (v : Value) : Option Problem :=
  if v.isNaN then some (.anomaly v .notANumber)
  else if v.isInfinite then some (.anomaly v .notFinite)
  else none

/-- A value of a plain keyword. Numbers that are not finite are accepted with a warning. -/
def parsePlainKeyword (scope : Scope) (a : Annotations) (word : Keyword) (v : Value) : Outcome :=
  if word.admits v then
    if word = .number then .warn v (anomaly? v).toList else .success v
  else scope.mismatch a (Problem.isPredicate word.word) v

def parseKeyword (scope : Scope) (direction : Direction) (a : Annotations) (word : Keyword) (v : Value) :
    Outcome :=
  match word, direction with
  | .bigint, .decode => scope.decodeBigint a v
  | .bigint, .encode => scope.encodeBigint a v
  | word, _ => scope.parsePlainKeyword a word v

def equalPredicate (expected : Value) : String :=
  "isEqual(" ++ expected.render ++ ")"

def parseLiteral (scope : Scope) (a : Annotations) (x : Scalar) (v : Value) : Outcome :=
  if v.literalEquals x.value then .success v else scope.mismatch a (equalPredicate x.value) v

def parseUniqueSymbol (scope : Scope) (a : Annotations) (key : String) (v : Value) : Outcome :=
  if v.equals (.symbol key) then .success v else scope.mismatch a (equalPredicate (.symbol key)) v

def enumPredicate (pairs : List (String × Value)) : String :=
  let shown := pairs.map fun p => "[" ++ (Value.text p.1).render ++ "," ++ p.2.render ++ "]"
  "isEnum([" ++ ",".intercalate shown ++ "])"

def parseEnums (scope : Scope) (a : Annotations) (pairs : List (String × Value)) (v : Value) : Outcome :=
  if pairs.any fun p => v.literalEquals p.2 then .success v
  else scope.mismatch a (enumPredicate pairs) v

def parseTemplate (scope : Scope) (a : Annotations) (head : String) (spans : List Span) (v : Value) :
    Outcome :=
  let refused := scope.mismatch a (Problem.isPredicate (Template.shown head spans)) v
  match v with
  | .text s => if Template.accepts head spans s then .success v else refused
  | _ => refused

end Scope

end Schemata
