import Schemata.Text.CharClass

/-!
Regular patterns over text: characters, sets of characters, anchors, sequence, choice, repetition and lookahead.
-/
namespace Schemata

inductive CharClass where
  | digit | blank | word
  deriving DecidableEq, Repr

def CharClass.contains : CharClass → Char → Bool
  | digit, c => Text.isDecimalDigit c
  | blank, c => Text.isBlank c
  | word, c => Text.isWordChar c

/-- One member of a bracketed set: a range of characters, a class, or all that is not in a class. -/
inductive CharItem where
  | range (first last : Char)
  | of (cls : CharClass)
  | notOf (cls : CharClass)
  deriving DecidableEq, Repr

def CharItem.contains : CharItem → Char → Bool
  | range first last, c => first ≤ c && c ≤ last
  | of cls, c => cls.contains c
  | notOf cls, c => !cls.contains c

inductive Anchor where
  /-- Before the first character. -/
  | start
  /-- After the last character, or before a line feed that is the last one. -/
  | finish
  /-- After the last character. -/
  | finishExact
  /-- Between a word character and something else. -/
  | wordEdge
  /-- Anywhere but at a word edge. -/
  | notWordEdge
  deriving DecidableEq, Repr

inductive Pattern where
  | empty
  | oneOf (items : List CharItem)
  | noneOf (items : List CharItem)
  | anchor (place : Anchor)
  | sequence (first second : Pattern)
  | choice (first second : Pattern)
  /-- From `least` to `most` copies, without an upper limit for `none`. -/
  | copies (body : Pattern) (least : Nat) (most : Option Nat)
  /-- Asks whether the body matches here, and stays here. -/
  | ahead (wanted : Bool) (body : Pattern)
  deriving DecidableEq, Repr

end Schemata
