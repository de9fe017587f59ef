import Schemata.Value.Equality

/-!
Problems found while decoding. A problem is a leaf that says which expectation failed, or a branch that says where,
or in which member of a union, the problems below it were found.
-/
namespace Schemata

inductive Segment where
  | key (k : Value)
  | index (i : Nat)

inductive Anomaly where
  | notANumber | notFinite
  deriving DecidableEq, Repr

/-- A tree of problems. The optional text of a leaf replaces its own wording. -/
inductive Problem where
  | mismatch (predicate : String) (actual : Value) (override : Option String)
  | missing
  | unexpected (member : Segment)
  | violation (label : String) (actual : Value) (override : Option String)
  | conversion (source target : String) (actual : Value) (override : Option String)
  | anomaly (actual : Value) (reason : Anomaly)
  | within (segment : Segment) (children : List Problem)
  | ofMember (children : List Problem)

instance : Inhabited Problem := ⟨.missing⟩

def Segment.equals : Segment → Segment → Bool
  | key k, other => match other with | key l => k.equals l | _ => false
  | index i, other => match other with | index j => i == j | _ => false

namespace Problem

def isBranch : Problem → Bool
  | within .. | ofMember .. => true
  | _ => false

def children : Problem → List Problem
  | within _ ps => ps
  | ofMember ps => ps
  | _ => []

mutual

def equals : Problem → Problem → Bool
  | mismatch p v o, other => match other with
    | mismatch q w r => p == q && v.equals w && o == r
    | _ => false
  | missing, other => match other with | missing => true | _ => false
  | unexpected s, other => match other with | unexpected t => s.equals t | _ => false
  | violation l v o, other => match other with
    | violation m w r => l == m && v.equals w && o == r
    | _ => false
  | conversion a b v o, other => match other with
    | conversion c d w r => a == c && b == d && v.equals w && o == r
    | _ => false
  | anomaly v a, other => match other with | anomaly w b => v.equals w && a == b | _ => false
  | within s ps, other => match other with
    | within t qs => s.equals t && equalForests ps qs
    | _ => false
  | ofMember ps, other => match other with | ofMember qs => equalForests ps qs | _ => false

def equalForests : List Problem → List Problem → Bool
  | [], other => other.isEmpty
  | p :: ps, other => match other with
    | [] => false
    | q :: qs => p.equals q && equalForests ps qs

end

end Problem

end Schemata
