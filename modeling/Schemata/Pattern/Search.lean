import Schemata.Pattern.Basic

/-!
Searching a text for a pattern. A pattern relates a start position to the positions where a match may end; a text
holds the pattern when some start has an end.
-/
namespace Schemata

def wordAt (text : Array Char) (i : Nat) : Bool :=
  (text[i]?).any Text.isWordChar

def wordEdgeAt (text : Array Char) (i : Nat) : Bool :=
  (0 < i && wordAt text (i - 1)) != wordAt text i

def Anchor.holdsAt (text : Array Char) (i : Nat) : Anchor → Bool
  | start => i == 0
  -- A line feed that ends the text may still follow.
  | finish => i == text.size || (i + 1 == text.size && text[i]? == some '\n')
  | finishExact => i == text.size
  | wordEdge => wordEdgeAt text i
  | notWordEdge => !wordEdgeAt text i

namespace Pattern

def repeated (step : Nat → List Nat) : Nat → List Nat → List Nat
  | 0, at_ => at_
  | n + 1, at_ => repeated step n ((at_.flatMap step).eraseDups)

def reachable (step : Nat → List Nat) : Nat → List Nat → List Nat
  | 0, at_ => at_
  | n + 1, at_ => reachable step n ((at_ ++ at_.flatMap step).eraseDups)

/-- Where a match that starts at a position may end. -/
def ends (text : Array Char) : Pattern → Nat → List Nat
  | empty, i => [i]
  | oneOf items, i =>
    match text[i]? with
    | some c => if items.any (·.contains c) then [i + 1] else []
    | none => []
  | noneOf items, i =>
    match text[i]? with
    | some c => if items.any (·.contains c) then [] else [i + 1]
    | none => []
  | anchor place, i => if place.holdsAt text i then [i] else []
  | sequence first second, i => ((ends text first i).flatMap (ends text second)).eraseDups
  | choice first second, i => (ends text first i ++ ends text second i).eraseDups
  | copies body least most, i =>
    let required := repeated (ends text body) least [i]
    let spare := match most with
      | some n => n - least
      -- There are no more positions to reach.
      | none => text.size + 1
    reachable (ends text body) spare required
  | ahead wanted body, i => if (ends text body i).isEmpty != wanted then [i] else []

def occursIn (p : Pattern) (s : String) : Bool :=
  let text := s.toList.toArray
  (List.range (text.size + 1)).any fun i => !(p.ends text i).isEmpty

end Pattern

end Schemata
