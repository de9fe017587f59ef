import Schemata.Schema.Basic

/-!
Matching texts against templates. A text matches when it can be cut into the head and, for each span, a part that
the slot accepts and the span's literal. A number is an optional sign, digits with at most one point among them and at
least one digit at the end, and an optional exponent; the digits may be of any script. The same texts are those of the
written pattern of the template.
-/
namespace Schemata

namespace Text

def dropSign : List Char → List Char
  | '+' :: rest => rest
  | '-' :: rest => rest
  | s => s

def isDigits (s : List Char) : Bool :=
  !s.isEmpty && s.all isDecimalDigit

def isExponentTail : List Char → Bool
  | [] => true
  | c :: rest => (c = 'e' || c = 'E') && isDigits (dropSign rest)

def isDigitsThenExponent (s : List Char) : Bool :=
  !(s.takeWhile isDecimalDigit).isEmpty && isExponentTail (s.dropWhile isDecimalDigit)

def isNumberForm (s : List Char) : Bool :=
  let unsigned := dropSign s
  -- There may be no digit before a point, but there is one behind it.
  match unsigned.dropWhile isDecimalDigit with
  | '.' :: rest => isDigitsThenExponent rest
  | _ => isDigitsThenExponent unsigned

end Text

def Slot.accepts : Slot → List Char → Bool
  | string, _ => true
  | number, s => Text.isNumberForm s

namespace Template

def stripLiteral? : List Char → List Char → Option (List Char)
  | [], s => some s
  | _ :: _, [] => none
  | c :: cs, d :: ds => if c = d then stripLiteral? cs ds else none

def cuts : List Char → List (List Char × List Char)
  | [] => [([], [])]
  | c :: rest => ([], c :: rest) :: (cuts rest).map fun p => (c :: p.1, p.2)

def remainders (span : Span) (s : List Char) : List (List Char) :=
  ((cuts s).filter fun p => span.slot.accepts p.1).filterMap fun p => stripLiteral? span.literal.toList p.2

/-- What may remain behind spans when each of the texts may stand before them. -/
def remaindersOfAll : List Span → List (List Char) → List (List Char)
  | [], ss => ss
  | span :: spans, ss => remaindersOfAll spans (ss.flatMap (remainders span)).eraseDups

def accepts (head : String) (spans : List Span) (s : String) : Bool :=
  match stripLiteral? head.toList s.toList with
  | some rest => (remaindersOfAll spans [rest]).contains []
  | none => false

/-- The template as it is shown in messages, its placeholders between braces. -/
def shown (head : String) (spans : List Span) : String :=
  head ++ String.join (spans.map fun s => "$\x7b" ++ s.slot.keyword.word ++ "\x7d" ++ s.literal)

end Template

/-! ### The written pattern -/

namespace Pattern

def digits (least : Nat) : Pattern :=
  copies (oneOf [.of .digit]) least none

def sign : Pattern :=
  copies (oneOf [.range '+' '+', .range '-' '-']) 0 (some 1)

def exponent : Pattern :=
  copies (sequence empty (sequence (oneOf [.range 'E' 'E', .range 'e' 'e']) (sequence sign (sequence (digits 1) empty))))
    0 (some 1)

def number : Pattern :=
  sequence sign (sequence (digits 0) (sequence (copies (char '.') 0 (some 1))
    (sequence (digits 1) (sequence exponent empty))))

end Pattern

def Slot.written : Slot → String
  | string => ".*?"
  | number => "[+-]?\\d*\\.?\\d+(?:[Ee][+-]?\\d+)?"

def Slot.pattern : Slot → Pattern
  | string => .sequence (.copies (.noneOf []) 0 none) .empty
  | number => .number

def Span.written (s : Span) : String :=
  "(?:" ++ s.slot.written ++ ")" ++ Pattern.escape s.literal

namespace Template

/-- The written pattern of a template. A point in it stands for all characters, line feeds among them. -/
def written (head : String) (spans : List Span) : String :=
  Pattern.escape head ++ String.join (spans.map Span.written)

def spansPattern : List Span → Pattern
  | [] => .empty
  | span :: spans =>
    .sequence (.sequence .empty span.slot.pattern) (.literally span.literal.toList (spansPattern spans))

def pattern (head : String) (spans : List Span) : Pattern :=
  .literally head.toList (spansPattern spans)

end Template

end Schemata
