import Schemata.Schema.Keys

/-!
Schemas derived from others: the type of the keys, structs with some of the keys, records, and structs put together.
-/
namespace Schemata

namespace Schema

mutual

/-- What a key type contributes to a record: declared keys for literals, index signatures for open sorts of keys. -/
def recordMembers (value : Schema) (readonly : Bool) :
    Schema → Except Fault (List (Property Schema) × List (IndexSignature Schema))
  | typeAlias _ _ type => recordMembers value readonly type
  | keyword _ .never => return ([], [])
  | keyword a .string => return ([], [⟨keyword a .string, value, readonly⟩])
  | keyword a .symbol => return ([], [⟨keyword a .symbol, value, readonly⟩])
  | template a head first more => return ([], [⟨template a head first more, value, readonly⟩])
  | refinement a base predicate => return ([], [⟨refinement a base predicate, value, readonly⟩])
  -- A truth value or null is no key, and contributes nothing.
  | literal _ x =>
    return (if x.isText || x.isNumber then [⟨x.value, value, false, readonly, .empty⟩] else [], [])
  | uniqueSymbol _ key => return ([⟨.symbol key, value, false, readonly, .empty⟩], [])
  | union _ members => recordMembersOfAll value readonly members
  | s => throw (.schema (.noRecord s.kind))

def recordMembersOfAll (value : Schema) (readonly : Bool) :
    List Schema → Except Fault (List (Property Schema) × List (IndexSignature Schema))
  | [] => return ([], [])
  | s :: ss => do
    let first ← recordMembers value readonly s
    let others ← recordMembersOfAll value readonly ss
    return (first.1 ++ others.1, first.2 ++ others.2)

end

def record (key value : Schema) (readonly : Bool) : Except Fault Schema := do
  let members ← recordMembers value readonly key
  return structOf members.1 members.2 .empty

end Schema

def Spine.kind : Spine → Except Fault Kind
  | node s => return s.kind
  | fork _ => return .union
  | broken fault => throw fault

def Spine.struct? : Spine → Option (List (Property Schema) × List (IndexSignature Schema))
  | node (.struct _ properties indexes) => some (properties, indexes)
  | _ => none

namespace Scope

def keyof (scope : Scope) (s : Schema) : Except Fault Schema := do
  return .oneOf (← (scope.spine s).keyTypes) .empty

def propertyKeys (scope : Scope) (s : Schema) : Except Fault (List Value) :=
  (scope.spine s).keys

def propertySignatures (scope : Scope) (s : Schema) : Except Fault (List (Property Schema)) :=
  (scope.spine s).properties

def pick (scope : Scope) (s : Schema) (keys : List Value) : Except Fault Schema := do
  let all ← scope.propertySignatures s
  return .structOf (all.filter fun p => p.name.occursIn keys) [] .empty

def without (scope : Scope) (s : Schema) (keys : List Value) : Except Fault Schema := do
  let all ← scope.propertySignatures s
  return .structOf (all.filter fun p => !p.name.occursIn keys) [] .empty

def extend (scope : Scope) (s t : Schema) : Except Fault Schema := do
  let left := scope.spine s
  let right := scope.spine t
  -- What cannot be reached is reported before what is no struct.
  let leftKind ← left.kind
  let rightKind ← right.kind
  match left.struct?, right.struct? with
  | some (ps, is), some (qs, js) => return .structOf (ps ++ qs) (is ++ js) .empty
  | _, _ => throw (.schema (.notStructs leftKind rightKind))

end Scope

end Schemata
