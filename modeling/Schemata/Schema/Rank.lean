import Schemata.Schema.Basic

/-!
Two ranks of schemas. The cardinality orders the members of a struct, narrow types first; the weight orders the
members of a union, rich types first.
-/
namespace Schemata

def Keyword.cardinality : Keyword → Nat
  | never => 0
  | undefined => 1
  | void => 1
  | boolean => 2
  | string => 3
  | number => 3
  | bigint => 3
  | symbol => 3
  | object => 4
  | unknown => 6
  | any => 6

namespace Schema

def compoundCardinality : Nat := 5

/-- How many values a type admits, as a rank. Wrappers have the rank of what they wrap. -/
def cardinality : Schema → Nat
  | typeAlias _ _ type => type.cardinality
  | refinement _ base _ => base.cardinality
  | transform _ _ target _ => target.cardinality
  | keyword _ word => word.cardinality
  | literal .. => 1
  | uniqueSymbol .. => 1
  | _ => compoundCardinality

def lazyWeight : Nat := 10

mutual

def weight : Schema → Nat
  | typeAlias _ _ type => type.weight
  | tuple _ elements rest _ => elements.length + (if rest.isSome then 1 else 0)
  | struct _ properties indexes => properties.length + indexes.length
  | union _ members => totalWeight members
  -- It is never looked into.
  | lazy .. => lazyWeight
  | _ => 0

def totalWeight : List Schema → Nat
  | [] => 0
  | s :: ss => s.weight + totalWeight ss

end

end Schema

end Schemata
