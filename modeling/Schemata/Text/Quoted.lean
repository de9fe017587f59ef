import Schemata.Text.Printable

/-!
Quoted text. A rendered text stands in double quotes and escapes only the quote, the backslash and the characters
below the space. An inspected text chooses its quote and also escapes what is not printable.
-/
namespace Schemata.Text

def hexDigits (width n : Nat) : List Char :=
  let ds := Nat.toDigits 16 n
  List.replicate (width - ds.length) '0' ++ ds

def escapeRendered (c : Char) : List Char :=
  if c = '"' then ['\\', '"']
  else if c = '\\' then ['\\', '\\']
  else if c = '\n' then ['\\', 'n']
  else if c = '\r' then ['\\', 'r']
  else if c = '\t' then ['\\', 't']
  else if c = '\x08' then ['\\', 'b']
  else if c = '\x0c' then ['\\', 'f']
  else if c.toNat < 0x20 then '\\' :: 'u' :: hexDigits 4 c.toNat
  else [c]

def quoteRendered (s : String) : String :=
  String.ofList ('"' :: (s.toList.flatMap escapeRendered ++ ['"']))

def escapeNumeric (n : Nat) : List Char :=
  if n < 0x100 then '\\' :: 'x' :: hexDigits 2 n
  else if n < 0x10000 then '\\' :: 'u' :: hexDigits 4 n
  else '\\' :: 'U' :: hexDigits 8 n

def escapeInspected (quote c : Char) : List Char :=
  if c = quote ∨ c = '\\' then ['\\', c]
  else if c = '\n' then ['\\', 'n']
  else if c = '\r' then ['\\', 'r']
  else if c = '\t' then ['\\', 't']
  else if isPrintable c then [c]
  else escapeNumeric c.toNat

/-- A text that holds an apostrophe and no double quote stands in double quotes, any other in apostrophes. -/
def inspectedQuote (s : List Char) : Char :=
  if s.contains '\'' && !s.contains '"' then '"' else '\''

def quoteInspected (s : String) : String :=
  let quote := inspectedQuote s.toList
  String.ofList (quote :: (s.toList.flatMap (escapeInspected quote) ++ [quote]))

def escapeByte (quote : Char) (b : UInt8) : List Char :=
  let c := Char.ofNat b.toNat
  if c = quote ∨ c = '\\' then ['\\', c]
  else if c = '\n' then ['\\', 'n']
  else if c = '\r' then ['\\', 'r']
  else if c = '\t' then ['\\', 't']
  else if 0x20 ≤ b.toNat ∧ b.toNat < 0x7f then [c]
  else '\\' :: 'x' :: hexDigits 2 b.toNat

def quoteBytes (data : List UInt8) : String :=
  let quote := inspectedQuote (data.map fun b => Char.ofNat b.toNat)
  String.ofList ('b' :: quote :: (data.flatMap (escapeByte quote) ++ [quote]))

end Schemata.Text
