import Schemata.Schema.Kind

/-!
What can go wrong other than a value not fitting its schema: schemas that cannot be built, predicates that meet a
value they cannot handle, and lazy schemas that lead nowhere.
-/
namespace Schemata

inductive SchemaError where
  | restAfterRest
  | requiredAfterOptional
  | optionalAfterRest
  | indexParameter (kind : Kind)
  | notScalar (typeName : String)
  | notSymbol (typeName : String)
  | notKeyword (kind : Kind)
  | emptyRest
  | noKeys (kind : Kind)
  | noRecord (kind : Kind)
  | notStructs (left right : Kind)
  | templateSpan (kind : Kind)
  | emptyTemplate
  deriving DecidableEq, Repr

namespace SchemaError

def code : SchemaError → String
  | restAfterRest => "E0101"
  | requiredAfterOptional => "E0102"
  | optionalAfterRest => "E0103"
  | indexParameter _ => "E0104"
  | notScalar _ => "E0105"
  | notSymbol _ => "E0105"
  | notKeyword _ => "E0105"
  | emptyRest => "E0106"
  | noKeys _ => "E0201"
  | noRecord _ => "E0202"
  | notStructs _ _ => "E0203"
  | templateSpan _ => "E0301"
  | emptyTemplate => "E0301"

def message : SchemaError → String
  | restAfterRest => "A rest element cannot follow another rest element."
  | requiredAfterOptional => "A required element cannot follow an optional element."
  | optionalAfterRest => "An optional element cannot follow a rest element."
  | indexParameter kind =>
    "An index signature parameter type must be string, symbol, a template literal or a refinement, got "
      ++ kind.name
  | notScalar typeName => "literal must be a string, number, boolean or None, got " ++ typeName
  | notSymbol typeName => "unique symbol must be a Symbol, got " ++ typeName
  | notKeyword kind => kind.name ++ " is not a keyword"
  | emptyRest => "a rest run needs at least one element"
  | noKeys kind => "cannot compute `keyof` of " ++ kind.name
  | noRecord kind => "cannot compute `record` for a " ++ kind.name ++ " key"
  | notStructs left right =>
    "cannot extend " ++ left.name ++ " with " ++ right.name ++ "; both must be structs"
  | templateSpan kind => "Unsupported template literal span " ++ kind.name
  | emptyTemplate => "a template literal needs at least one component"

def text (e : SchemaError) : String :=
  "error[" ++ e.code ++ "]: " ++ e.message

end SchemaError

/-- A node that its constructor refuses because no schema should ever ask for it. -/
inductive InvariantError where
  | tooFewMembers (count : Nat)
  | noSpans
  deriving DecidableEq, Repr

namespace InvariantError

def code : String := "E9999"

def message : InvariantError → String
  | tooFewMembers count => "Union needs at least 2 members, got " ++ toString count
  | noSpans => "template literal needs at least one span; use template_literal()"

def text (e : InvariantError) : String :=
  "[" ++ code ++ "] " ++ e.message

end InvariantError

inductive Fault where
  | schema (e : SchemaError)
  | invariant (e : InvariantError)
  /-- A failure without any problem. -/
  | emptyFailure
  /-- The text of a pattern is not a pattern. -/
  | badPattern
  /-- The length of a value that has none. -/
  | noLength
  /-- The start or the end of a value that is neither a text nor a byte string. -/
  | noAffix
  /-- A text as the start or the end of a byte string. -/
  | affixOfBytes
  /-- The members of a value that is no container, or of one that cannot hold what is looked for. -/
  | notContainer
  /-- A pattern searched in a value that is no text. -/
  | notSearchable
  /-- Two values without an order. -/
  | incomparable
  /-- A field that annotations do not have. -/
  | unknownField
  /-- The handle of a schema that is not lazy. -/
  | notLazy
  /-- The elements of a schema that is no tuple. -/
  | notTuple
  /-- The spans of a schema that is no template. -/
  | notTemplate
  /-- A handle that leads to no schema. -/
  | dangling (handle : Handle)
  /-- Lazy schemas unfolded without end. -/
  | endlessUnfolding
  deriving DecidableEq, Repr

end Schemata
