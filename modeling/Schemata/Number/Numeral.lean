import Schemata.Number.Double

/-!
Numbers of either kind and their exact order. An integer and a floating-point number are compared by value,
without rounding the integer first.
-/
namespace Schemata

inductive Numeral where
  | int (n : Int)
  | float (x : Double)
  deriving DecidableEq

namespace Numeral

/-- Where a number lies on the extended line, in units; not-a-number lies nowhere. -/
inductive Place where
  | below
  | at (units : Int)
  | above
  deriving DecidableEq, Repr

def place? : Numeral → Option Place
  | int n => some (.at (n * unitsPerOne))
  | float .nan => none
  | float (.infinite negative) => some (if negative then .below else .above)
  | float (.finite negative units _) => some (.at (Double.signedUnits negative units))

def Place.order : Place → Place → Ordering
  | .below, .below => .eq
  | .below, _ => .lt
  | _, .below => .gt
  | .above, .above => .eq
  | .above, _ => .gt
  | _, .above => .lt
  | .at a, .at b => compare a b

def order? : Numeral → Numeral → Option Ordering
  | int a, int b => some (compare a b)
  | a, b => do return (← a.place?).order (← b.place?)

def equals (a b : Numeral) : Bool :=
  a.order? b == some .eq

/-- Equality by value in which not-a-number equals itself: both lie at one place, or nowhere. -/
def same (a b : Numeral) : Bool :=
  a.place? == b.place?

end Numeral

end Schemata
