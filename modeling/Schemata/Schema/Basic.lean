import Schemata.Schema.Kind
import Schemata.Schema.Annotations
import Schemata.Value.Scalar
import Schemata.Constraint

/-!
Schemas: descriptions of the values a program accepts. A schema is a finite tree. Recursion goes through lazy
schemas, which hold a handle in place of a subtree, and functions are held by reference, so that schemas can be
compared.
-/
namespace Schemata

/-- A test on values. Constraints written separately differ by their stamps; named tests are the same when their
names are. -/
inductive Predicate where
  | constraint (stamp : Nat) (rule : Constraint)
  | named (name : String)
  deriving DecidableEq

/-- A change of representation, known by name. The labels describe both sides in messages. -/
structure Conversion where
  name : String
  stamp : Nat
  source : String
  target : String
  deriving DecidableEq, Repr

inductive Direction where
  | decode | encode
  deriving DecidableEq, Repr

inductive Slot where
  | string | number
  deriving DecidableEq, Repr

def Slot.keyword : Slot → Keyword
  | string => .string
  | number => .number

structure Span where
  slot : Slot
  annotations : Annotations
  literal : String

structure Element (σ : Type) where
  type : σ
  optional : Bool

/-- The items of a tuple beyond its positions: any number of `head`, then one for each of `trailing`. -/
structure Rest (σ : Type) where
  head : σ
  trailing : List σ

structure Property (σ : Type) where
  name : Value
  type : σ
  optional : Bool
  readonly : Bool
  annotations : Annotations

structure IndexSignature (σ : Type) where
  parameter : σ
  type : σ
  readonly : Bool

inductive Schema where
  | typeAlias (annotations : Annotations) (parameters : List Schema) (type : Schema)
  | literal (annotations : Annotations) (value : Scalar)
  | uniqueSymbol (annotations : Annotations) (key : String)
  | keyword (annotations : Annotations) (word : Keyword)
  | enums (annotations : Annotations) (pairs : List (String × Value))
  | template (annotations : Annotations) (head : String) (first : Span) (more : List Span)
  | tuple (annotations : Annotations) (elements : List (Element Schema)) (rest : Option (Rest Schema))
      (readonly : Bool)
  | struct (annotations : Annotations) (properties : List (Property Schema))
      (indexes : List (IndexSignature Schema))
  | union (annotations : Annotations) (members : List Schema)
  | lazy (annotations : Annotations) (handle : Handle)
  | refinement (annotations : Annotations) (base : Schema) (predicate : Predicate)
  | transform (annotations : Annotations) (source target : Schema) (conversion : Conversion)

namespace Schema

def kind : Schema → Kind
  | typeAlias .. => .typeAlias
  | literal .. => .literal
  | uniqueSymbol .. => .uniqueSymbol
  | keyword _ word => .keyword word
  | enums .. => .enums
  | template .. => .template
  | tuple .. => .tuple
  | struct .. => .struct
  | union .. => .union
  | lazy .. => .lazy
  | refinement .. => .refinement
  | transform .. => .transform

def annotations : Schema → Annotations
  | typeAlias a .. => a
  | literal a _ => a
  | uniqueSymbol a _ => a
  | keyword a _ => a
  | enums a _ => a
  | template a .. => a
  | tuple a .. => a
  | struct a .. => a
  | union a _ => a
  | lazy a _ => a
  | refinement a .. => a
  | transform a .. => a

def withAnnotations (a : Annotations) : Schema → Schema
  | typeAlias _ parameters type => typeAlias a parameters type
  | literal _ value => literal a value
  | uniqueSymbol _ key => uniqueSymbol a key
  | keyword _ word => keyword a word
  | enums _ pairs => enums a pairs
  | template _ head first more => template a head first more
  | tuple _ elements rest readonly => tuple a elements rest readonly
  | struct _ properties indexes => struct a properties indexes
  | union _ members => union a members
  | lazy _ handle => lazy a handle
  | refinement _ base predicate => refinement a base predicate
  | transform _ source target conversion => transform a source target conversion

def annotate (s : Schema) (overlay : Annotations) : Schema :=
  s.withAnnotations (s.annotations.merge overlay)

def alternatives : Schema → List Schema
  | union _ members => members
  | s => [s]

def handle? : Schema → Option Handle
  | lazy _ handle => some handle
  | _ => none

def isKeyword (word : Keyword) : Schema → Bool
  | keyword _ w => w == word
  | _ => false

def describe (s : Schema) : String :=
  match s with
  | keyword a word => a.labelOr word.word
  | s => s.annotations.labelOr s.kind.name

end Schema

end Schemata
