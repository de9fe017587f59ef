import Schemata.Value.Inspect

/-!
The kinds of schemas and the keywords among them, with the names they are shown by, and the handles of lazy schemas. A
lazy schema is known by its handle alone: two of them are the same exactly when their handles are.
-/
namespace Schemata

inductive Keyword where
  | undefined | void | never | unknown | any | string | number | boolean | bigint | symbol | object
  deriving DecidableEq, Repr

namespace Keyword

def word : Keyword → String
  | undefined => "undefined"
  | void => "void"
  | never => "never"
  | unknown => "unknown"
  | any => "any"
  | string => "string"
  | number => "number"
  | boolean => "boolean"
  | bigint => "bigint"
  | symbol => "symbol"
  | object => "object"

def kindName : Keyword → String
  | undefined => "UndefinedKeyword"
  | void => "VoidKeyword"
  | never => "NeverKeyword"
  | unknown => "UnknownKeyword"
  | any => "AnyKeyword"
  | string => "StringKeyword"
  | number => "NumberKeyword"
  | boolean => "BooleanKeyword"
  | bigint => "BigIntKeyword"
  | symbol => "SymbolKeyword"
  | object => "ObjectKeyword"

def all : List Keyword :=
  [undefined, void, never, unknown, any, string, number, boolean, bigint, symbol, object]

end Keyword

inductive Kind where
  | typeAlias | literal | uniqueSymbol
  | keyword (k : Keyword)
  | enums | template | tuple | struct | union | lazy | refinement | transform
  deriving DecidableEq, Repr

namespace Kind

def name : Kind → String
  | typeAlias => "TypeAlias"
  | literal => "Literal"
  | uniqueSymbol => "UniqueSymbol"
  | keyword k => k.kindName
  | enums => "Enums"
  | template => "TemplateLiteral"
  | tuple => "Tuple"
  | struct => "TypeLiteral"
  | union => "Union"
  | lazy => "Lazy"
  | refinement => "Refinement"
  | transform => "Transform"

def all : List Kind :=
  [typeAlias, literal, uniqueSymbol] ++ Keyword.all.map keyword ++
    [enums, template, tuple, struct, union, lazy, refinement, transform]

def ofName? (name : String) : Option Kind :=
  all.find? fun k => k.name == name

end Kind

/-- The identity of a lazy schema. A `root` handle names an entry of a table of deferred schemas. The handle
`partialOf h path` stands for the partial form of what `h` stands for; the path tells one such form from another. -/
inductive Handle where
  | root (index : Nat)
  | partialOf (handle : Handle) (path : List Nat)
  deriving DecidableEq, Repr

namespace Handle

/-- The entry of the table that the handle leads to in the end. -/
def index : Handle → Nat
  | root i => i
  | partialOf h _ => h.index

def label (index : Nat) : String :=
  "lazy:" ++ toString index

def labels (start count : Nat) : List String :=
  (List.range count).map fun i => label (start + i)

def mismatchText (v : Value) : String :=
  "handle must be LazyId, got " ++ v.typeName ++ ": " ++ v.plain

end Handle

end Schemata
