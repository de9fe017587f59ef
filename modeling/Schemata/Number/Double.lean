/-!
Binary floating-point numbers as data. A finite number is a sign and a magnitude counted in units of
`2 ^ -1074`, the finest step of the 64-bit format, so comparison and rounding are exact arithmetic on
natural numbers.
-/
namespace Schemata

/-- A binary floating-point width. `precision` is the number of significant bits, every magnitude is a
multiple of `2 ^ finest` units, and magnitudes stay below `2 ^ ceiling` units. -/
structure BinaryFormat where
  precision : Nat
  finest : Nat
  ceiling : Nat
  deriving DecidableEq, Repr

namespace BinaryFormat

def double : BinaryFormat := ⟨53, 0, 2098⟩

def single : BinaryFormat := ⟨24, 925, 1202⟩

/-- The quotient's nearest integer; a half goes to the even neighbour. -/
def nearest (num den : Nat) : Nat :=
  let q := num / den
  let twice := 2 * (num % den)
  if twice < den then q
  else if den < twice then q + 1
  else if q % 2 = 0 then q else q + 1

def grid (f : BinaryFormat) (whole : Nat) : Nat :=
  Nat.pow 2 (max (whole.log2 + 1 - f.precision) f.finest)

/-- `num / den` units rounded to the width's own grid, before the ceiling is looked at. -/
def round (f : BinaryFormat) (num den : Nat) : Nat :=
  let step := f.grid (num / den)
  nearest num (den * step) * step

end BinaryFormat

def unitsPerOne : Nat := Nat.pow 2 1074

/-- The magnitudes of finite 64-bit numbers: below the ceiling, and at most 53 significant bits. -/
def FitsDouble (units : Nat) : Prop :=
  units < Nat.pow 2 2098 ∧ Nat.pow 2 (units.log2 - 52) ∣ units

instance (units : Nat) : Decidable (FitsDouble units) :=
  inferInstanceAs (Decidable (_ ∧ _))

/-- A 64-bit binary floating-point number. There is one not-a-number. -/
inductive Double where
  | nan
  | infinite (negative : Bool)
  | finite (negative : Bool) (units : Nat) (fits : FitsDouble units)
  deriving DecidableEq

namespace Double

def ofUnits (negative : Bool) (units : Nat) : Double :=
  if fits : FitsDouble units then .finite negative units fits else .infinite negative

def ofRatio (negative : Bool) (num den : Nat) : Double :=
  ofUnits negative (BinaryFormat.double.round (num * unitsPerOne) den)

def ofInt (n : Int) : Double :=
  ofRatio (decide (n < 0)) n.natAbs 1

instance : Inhabited Double := ⟨ofInt 0⟩

def isNaN : Double → Bool
  | nan => true
  | _ => false

def isInfinite : Double → Bool
  | infinite _ => true
  | _ => false

def isFinite : Double → Bool
  | finite .. => true
  | _ => false

def isNegative : Double → Bool
  | nan => false
  | infinite negative => negative
  | finite negative _ _ => negative

def integer? : Double → Option Int
  | finite negative units _ =>
    if units % unitsPerOne = 0 then
      let magnitude : Int := (units / unitsPerOne : Nat)
      some (if negative then -magnitude else magnitude)
    else none
  | _ => none

def neg : Double → Double
  | nan => nan
  | infinite negative => infinite !negative
  | finite negative units fits => finite (!negative) units fits

def signedUnits (negative : Bool) (units : Nat) : Int :=
  if negative then -(units : Int) else units

def toSingle : Double → Double
  | finite negative units _ =>
    let rounded := BinaryFormat.single.round units 1
    if rounded < Nat.pow 2 BinaryFormat.single.ceiling then ofUnits negative rounded
    else infinite negative
  | x => x

end Double

end Schemata
