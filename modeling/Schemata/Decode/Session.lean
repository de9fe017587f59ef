import Schemata.Decode.Run

/-!
Sessions. A session remembers what each lazy schema stands for and which direction its parser was made for, so that
every thunk is forced at most once. Decoding in a session goes on with what earlier calls have remembered.
-/
namespace Schemata

/-- What has been remembered. A parser is determined by its schema and direction. -/
structure Session where
  forced : List (Handle × Schema)
  parsers : List (Handle × (Direction × Schema))

namespace Session

def empty : Session := ⟨[], []⟩

def forcedCount (s : Session) : Nat := s.forced.length

def contains (s : Session) (h : Handle) : Bool :=
  (s.forced.lookup h).isSome

/-- Forces a lazy schema. The attempt counts only if nothing is remembered, and is remembered only if it
succeeds. -/
def force (s : Session) (h : Handle) (attempt : Except Fault Schema) : Except Fault Schema × Session :=
  match s.forced.lookup h with
  | some schema => (.ok schema, s)
  | none =>
    match attempt with
    | .ok schema => (.ok schema, { s with forced := s.forced ++ [(h, schema)] })
    | .error fault => (.error fault, s)

end Session

abbrev SessionM := ExceptT Fault (StateM Session)

namespace SessionM

def force (scope : Scope) (h : Handle) : SessionM Schema :=
  ExceptT.mk fun session => session.force h (scope.force h)

def parserFor (scope : Scope) (direction : Direction) (h : Handle) : SessionM (Direction × Schema) := do
  match (← get).parsers.lookup h with
  | some made => return made
  | none =>
    -- The direction in which it is asked for first is the one it is made for.
    let s ← force scope h
    modify fun session => { session with parsers := session.parsers ++ [(h, (direction, s))] }
    return (direction, s)

/-- The remembered parser behind a handle. It keeps to the direction it was made for, in its own lazy schemas
too. -/
def unfold (scope : Scope) : Nat → Direction → Handle → Parser SessionM
  | 0, _, _ => fun _ => throw .endlessUnfolding
  | fuel + 1, direction, h => fun v => do
    let made ← parserFor scope direction h
    made.2.parser scope made.1 (unfold scope fuel made.1) v

def parse (scope : Scope) (direction : Direction) (fuel : Nat) (s : Schema) : Parser SessionM :=
  s.parser scope direction (unfold scope fuel direction)

def apply (scope : Scope) (direction : Direction) (s : Schema) (v : Value) : SessionM Outcome :=
  parse scope direction (scope.fuelFor v) s v

end SessionM

end Schemata
