import Schemata.Number.Decimal

/-!
Floating-point numbers as text. A number is written with the fewest digits that read back, positionally while its
decimal exponent is moderate and with an exponent otherwise.
-/
namespace Schemata

/-- The decisions of one written form of floating-point numbers. Exponents from `positionalFrom` up to but not
including `positionalBelow` are written positionally. -/
structure FloatLayout where
  positionalFrom : Int
  positionalBelow : Int
  exponentDigits : Nat
  nan : String
  infinity : String
  deriving DecidableEq, Repr

namespace FloatLayout

/-- Numbers from `1e-04` to below `1e+16` are positional, and an exponent has at least two digits. -/
def plain : FloatLayout := ⟨-4, 16, 2, "nan", "inf"⟩

def rendered : FloatLayout := { plain with nan := "NaN", infinity := "Infinity" }

end FloatLayout

namespace Decimal

/-- Digits without the zeros that end them; zero itself has no digits left. -/
def significant (ds : List Char) : List Char :=
  (ds.reverse.dropWhile (· = '0')).reverse

def positional (ds : List Char) (point : Int) : List Char :=
  -- The point stands before the digits, behind them or among them.
  if point ≤ 0 then '0' :: '.' :: (List.replicate (-point).toNat '0' ++ ds)
  else if ds.length ≤ point.toNat then
    ds ++ List.replicate (point.toNat - ds.length) '0' ++ ['.', '0']
  else ds.take point.toNat ++ '.' :: ds.drop point.toNat

def exponentText (width : Nat) (e : Int) : List Char :=
  let ds := Nat.toDigits 10 e.natAbs
  'e' :: (if e < 0 then '-' else '+') :: (List.replicate (width - ds.length) '0' ++ ds)

def scientific (width : Nat) (ds : List Char) (e : Int) : List Char :=
  match ds with
  | [] => exponentText width e
  | [d] => d :: exponentText width e
  | d :: rest => d :: '.' :: (rest ++ exponentText width e)

def text (layout : FloatLayout) (d : Decimal) : List Char :=
  let all := Nat.toDigits 10 d.digits
  let point := (all.length : Int) + d.scale
  let ds := significant all
  if layout.positionalFrom ≤ point - 1 ∧ point - 1 < layout.positionalBelow then
    positional ds point
  else scientific layout.exponentDigits ds (point - 1)

end Decimal

namespace Double

def magnitudeText (f : BinaryFormat) (layout : FloatLayout) (units : Nat) : List Char :=
  if units = 0 then ['0', '.', '0'] else (Decimal.shortest f units).text layout

def textAs (f : BinaryFormat) (layout : FloatLayout) : Double → String
  | nan => layout.nan
  | infinite negative => (if negative then "-" else "") ++ layout.infinity
  | finite negative units _ =>
    String.ofList ((if negative then ['-'] else []) ++ magnitudeText f layout units)

def text (layout : FloatLayout) (x : Double) : String :=
  x.textAs .double layout

def readMagnitude? (negative : Bool) (s : List Char) : Option Double := do
  let whole := s.takeWhile Char.isDigit
  let rest := s.dropWhile Char.isDigit
  let (fraction, rest) := match rest with
    | '.' :: r => (r.takeWhile Char.isDigit, r.dropWhile Char.isDigit)
    | r => ([], r)
  let digits ← (String.ofList (whole ++ fraction)).toNat?
  let exponent : Int ← match rest with
    | [] => some 0
    | 'e' :: '+' :: r => (String.ofList r).toNat?.map (fun n => (n : Int))
    | 'e' :: '-' :: r => (String.ofList r).toNat?.map (fun n => -(n : Int))
    | 'e' :: r => (String.ofList r).toNat?.map (fun n => (n : Int))
    | _ => none
  let d : Decimal := ⟨digits, exponent - fraction.length⟩
  return ofUnits negative (d.round .double)

def ofText? (s : String) : Option Double :=
  match s.toList with
  | '-' :: rest => readMagnitude? true rest
  | rest => readMagnitude? false rest

end Double

end Schemata
