import Schemata.Schema.Basic

/-!
Equality of schemas: the same kind, equal annotations and equal content. Literals also keep their groups apart, lazy
schemas compare by handle, and functions by reference. A literal that is not a number differs from every literal.
-/
namespace Schemata

def Span.equals (s t : Span) : Bool :=
  s.slot == t.slot && s.annotations.equals t.annotations && s.literal == t.literal

def equalSpans : List Span → List Span → Bool
  | [], other => other.isEmpty
  | s :: ss, other => match other with
    | [] => false
    | t :: ts => s.equals t && equalSpans ss ts

def equalPairs : List (String × Value) → List (String × Value) → Bool
  | [], other => other.isEmpty
  | p :: ps, other => match other with
    | [] => false
    | q :: qs => p.1 == q.1 && p.2.equals q.2 && equalPairs ps qs

namespace Schema

mutual

def equals : Schema → Schema → Bool
  | typeAlias a ps t, other => match other with
    | typeAlias b qs u => a.equals b && equalLists ps qs && t.equals u
    | _ => false
  | literal a x, other => match other with
    | literal b y => x.equals y && a.equals b
    | _ => false
  | uniqueSymbol a k, other => match other with
    | uniqueSymbol b l => a.equals b && k == l
    | _ => false
  | keyword a w, other => match other with
    | keyword b x => w == x && a.equals b
    | _ => false
  | enums a ps, other => match other with
    | enums b qs => a.equals b && equalPairs ps qs
    | _ => false
  | template a h s ss, other => match other with
    | template b i t ts => a.equals b && h == i && s.equals t && equalSpans ss ts
    | _ => false
  | tuple a es r o, other => match other with
    | tuple b fs q p => a.equals b && equalElements es fs && equalRests r q && o == p
    | _ => false
  | struct a ps is, other => match other with
    | struct b qs js => a.equals b && equalProperties ps qs && equalIndexes is js
    | _ => false
  | union a ss, other => match other with
    | union b ts => a.equals b && equalLists ss ts
    | _ => false
  | lazy a h, other => match other with
    | lazy b i => a.equals b && h == i
    | _ => false
  | refinement a s p, other => match other with
    | refinement b t q => a.equals b && s.equals t && p == q
    | _ => false
  | transform a s t c, other => match other with
    | transform b u v d => a.equals b && s.equals u && t.equals v && c == d
    | _ => false
termination_by structural s => s

def equalLists : List Schema → List Schema → Bool
  | [], other => other.isEmpty
  | s :: ss, other => match other with
    | [] => false
    | t :: ts => s.equals t && equalLists ss ts
termination_by structural s => s

def equalElements : List (Element Schema) → List (Element Schema) → Bool
  | [], other => other.isEmpty
  | e :: es, other => match other with
    | [] => false
    | f :: fs => e.type.equals f.type && e.optional == f.optional && equalElements es fs
termination_by structural s => s

def equalRests : Option (Rest Schema) → Option (Rest Schema) → Bool
  | none, other => other.isNone
  | some r, other => match other with
    | none => false
    | some q => r.head.equals q.head && equalLists r.trailing q.trailing
termination_by structural s => s

def equalProperties : List (Property Schema) → List (Property Schema) → Bool
  | [], other => other.isEmpty
  | p :: ps, other => match other with
    | [] => false
    | q :: qs => p.name.equals q.name && p.type.equals q.type && p.optional == q.optional &&
        p.readonly == q.readonly && p.annotations.equals q.annotations && equalProperties ps qs
termination_by structural s => s

def equalIndexes : List (IndexSignature Schema) → List (IndexSignature Schema) → Bool
  | [], other => other.isEmpty
  | i :: is, other => match other with
    | [] => false
    | j :: js => i.parameter.equals j.parameter && i.type.equals j.type && i.readonly == j.readonly &&
        equalIndexes is js
termination_by structural s => s

end

def occursIn (s : Schema) (ss : List Schema) : Bool :=
  ss.any fun t => t.equals s

mutual

/-- Whether a copy of the schema compares equal to it. Only literals that are not numbers stand in the way: the
values of enumerations and examples are shared by the copy. -/
def equalsCopy : Schema → Bool
  | typeAlias _ ps t => copyLists ps && t.equalsCopy
  | literal _ x => x.equals x
  | tuple _ es r _ => copyElements es && copyRest r
  | struct _ ps is => copyProperties ps && copyIndexes is
  | union _ ss => copyLists ss
  | refinement _ s _ => s.equalsCopy
  | transform _ s t _ => s.equalsCopy && t.equalsCopy
  | _ => true

def copyLists : List Schema → Bool
  | [] => true
  | s :: ss => s.equalsCopy && copyLists ss

def copyElements : List (Element Schema) → Bool
  | [] => true
  | e :: es => e.type.equalsCopy && copyElements es

def copyRest : Option (Rest Schema) → Bool
  | none => true
  | some r => r.head.equalsCopy && copyLists r.trailing

def copyProperties : List (Property Schema) → Bool
  | [] => true
  | p :: ps => p.type.equalsCopy && copyProperties ps

def copyIndexes : List (IndexSignature Schema) → Bool
  | [] => true
  | i :: is => i.parameter.equalsCopy && i.type.equalsCopy && copyIndexes is

end

end Schema

end Schemata
