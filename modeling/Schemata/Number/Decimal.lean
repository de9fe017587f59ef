import Schemata.Number.Double

/-!
The fewest decimal digits that read back. A decimal reads back as a binary number when rounding it gives that
number again; `Decimal.shortest` takes the coarsest power of ten on whose grid a neighbour of the number
does, and of two such neighbours the nearer one.
-/
namespace Schemata

/-- The number `digits * 10 ^ scale`. -/
structure Decimal where
  digits : Nat
  scale : Int
  deriving DecidableEq, Repr

namespace Decimal

def round (f : BinaryFormat) (d : Decimal) : Nat :=
  if 0 ≤ d.scale then f.round (d.digits * Nat.pow 10 d.scale.toNat * unitsPerOne) 1
  else f.round (d.digits * unitsPerOne) (Nat.pow 10 (-d.scale).toNat)

def readsBack (f : BinaryFormat) (units : Nat) (d : Decimal) : Bool :=
  d.digits != 0 && d.round f == units

def below (units : Nat) (scale : Int) : Nat :=
  if 0 ≤ scale then units / (unitsPerOne * Nat.pow 10 scale.toNat)
  else units * Nat.pow 10 (-scale).toNat / unitsPerOne

def compareMiddle (units low : Nat) (scale : Int) : Ordering :=
  if 0 ≤ scale then compare (2 * units) ((2 * low + 1) * Nat.pow 10 scale.toNat * unitsPerOne)
  else compare (2 * units * Nat.pow 10 (-scale).toNat) ((2 * low + 1) * unitsPerOne)

/-- The neighbour on one grid that reads back: the nearer of two, and the even one of two equally near. -/
def onGrid (f : BinaryFormat) (units : Nat) (scale : Int) : Option Decimal :=
  let low := below units scale
  let down : Decimal := ⟨low, scale⟩
  let up : Decimal := ⟨low + 1, scale⟩
  match down.readsBack f units, up.readsBack f units with
  | false, false => none
  | true, false => some down
  | false, true => some up
  | true, true =>
    match compareMiddle units low scale with
    | .lt => some down
    | .gt => some up
    | .eq => some (if low % 2 = 0 then down else up)

def exact (units : Nat) : Decimal :=
  ⟨units * Nat.pow 5 1074, -1074⟩

def search (f : BinaryFormat) (units : Nat) (scale : Int) : Nat → Decimal
  | 0 => exact units
  | tries + 1 =>
    match onGrid f units scale with
    | some d => d
    | none => search f units (scale - 1) tries

/-- A power of ten above the units: `0.30103` exceeds the decimal logarithm of two. -/
def startScale (units : Nat) : Int :=
  Int.fdiv (((units.log2 : Int) + 1 - 1074) * 30103) 100000 + 2

/-- The shortest decimal that reads back as the units. Twenty-four grids reach the seventeenth digit. -/
def shortest (f : BinaryFormat) (units : Nat) : Decimal :=
  search f units (startScale units) 24

end Decimal

end Schemata
