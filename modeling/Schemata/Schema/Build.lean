import Schemata.Schema.Basic

/-!
Constructors of single nodes, with the checks that each of them makes.
-/
namespace Schemata

/-- A placeholder for what a string or number keyword accepts; no other schema can stand in a template. -/
def Span.ofSchema (type : Schema) (literal : String) : Except Fault Span :=
  match type with
  | .keyword a .string => return ⟨.string, a, literal⟩
  | .keyword a .number => return ⟨.number, a, literal⟩
  | s => throw (.schema (.templateSpan s.kind))

def Span.type (s : Span) : Schema :=
  .keyword s.annotations s.slot.keyword

def Schema.describesKeys : Schema → Bool
  | .keyword _ .string => true
  | .keyword _ .symbol => true
  | .template .. => true
  | .refinement .. => true
  | _ => false

def IndexSignature.ofSchema (parameter type : Schema) (readonly : Bool) :
    Except Fault (IndexSignature Schema) :=
  if parameter.describesKeys then return ⟨parameter, type, readonly⟩
  else throw (.schema (.indexParameter parameter.kind))

namespace Schema

def word (k : Keyword) : Schema :=
  keyword (.titled k.word) k

def ofKind : Kind → Except Fault Schema
  | .keyword k => return keyword .empty k
  | k => throw (.schema (.notKeyword k))

def literalOf (v : Value) (a : Annotations) : Except Fault Schema :=
  match Scalar.ofValue? v with
  | some s => return literal a s
  | none => throw (.schema (.notScalar v.typeName))

def uniqueSymbolOf (v : Value) (a : Annotations) : Except Fault Schema :=
  match v with
  | .symbol key => return uniqueSymbol a key
  | v => throw (.schema (.notSymbol v.typeName))

/-- An enumeration of labelled values, in which a value equal to an earlier one is only another label. -/
def enumsDistinct (pairs : List (String × Value)) : Schema :=
  enums .empty (pairs.foldl (fun kept p =>
    if p.2.occursIn (kept.map Prod.snd) then kept else kept ++ [p]) [])

def templateNode (head : String) (spans : List Span) : Except Fault Schema :=
  match spans with
  | [] => throw (.invariant .noSpans)
  | first :: more => return template .empty head first more

/-- A template; without placeholders it is a literal text. -/
def templateOf (head : String) (spans : List Span) : Schema :=
  match spans with
  | [] => literal .empty (.text head)
  | first :: more => template .empty head first more

def unionNode (members : List Schema) (a : Annotations) : Except Fault Schema :=
  if members.length < 2 then throw (.invariant (.tooFewMembers members.length))
  else return union a members

/-- A constraint on a schema. Its label names the constraint unless the annotations say otherwise. -/
def constrain (base : Schema) (stamp : Nat) (rule : Constraint) (a : Annotations) : Schema :=
  refinement ((Annotations.labelled rule.label).merge a) base (.constraint stamp rule)

end Schema

end Schemata
