import Schemata.Scope

/-!
The keys of a schema. A union has the keys that all its members have, and a key shared by all members is typed by the
union of its types.
-/
namespace Schemata.Spine

def intersect {α : Type} (same : α → α → Bool) : List (List α) → List α
  | [] => []
  | first :: others =>
    others.foldl (fun kept other => kept.filter fun item => other.any fun x => same x item) first

def keyType : Value → Except Fault Schema
  | .symbol key => return .uniqueSymbol .empty key
  | name => Schema.literalOf name .empty

def nodeKeyTypes (s : Schema) : Except Fault (List Schema) :=
  match s with
  | .keyword _ .never => return [.word .string, .word .number, .word .symbol]
  | .keyword _ .any => return [.word .string, .word .number, .word .symbol]
  | .keyword _ .string => return [.literal .empty (.text "length")]
  | .struct _ properties indexes => do
    let names ← properties.mapM fun p => keyType p.name
    return names ++ indexes.map fun i => i.parameter
  | .literal .. => throw (.schema (.noKeys s.kind))
  | .template .. => throw (.schema (.noKeys s.kind))
  | .tuple .. => throw (.schema (.noKeys s.kind))
  | _ => return [.word .never]

def nodeKeys : Schema → List Value
  | .tuple _ elements _ _ => (List.range elements.length).map fun i => .text (toString i)
  | .struct _ properties _ => properties.map fun p => p.name
  | _ => []

/-- The declared keys with their types, if the schema is not a union. A tuple declares its positions. -/
def nodeProperties : Schema → List (Property Schema)
  | .tuple _ elements _ readonly =>
    elements.zipIdx.map fun (e, i) => ⟨.text (toString i), e.type, e.optional, readonly, .empty⟩
  | .struct _ properties _ => properties
  | _ => []

mutual

def keyTypes : Spine → Except Fault (List Schema)
  | node s => nodeKeyTypes s
  | fork members => do return intersect Schema.equals (← keyTypesOfAll members)
  | broken fault => throw fault

def keyTypesOfAll : List Spine → Except Fault (List (List Schema))
  | [] => return []
  | s :: ss => do
    let first ← s.keyTypes
    return first :: (← keyTypesOfAll ss)

end

mutual

def keys : Spine → Except Fault (List Value)
  | node s => return nodeKeys s
  | fork members => do return intersect Value.equals (← keysOfAll members)
  | broken fault => throw fault

def keysOfAll : List Spine → Except Fault (List (List Value))
  | [] => return []
  | s :: ss => do
    let first ← s.keys
    return first :: (← keysOfAll ss)

end

/-- The declaration of a key shared by all members of a union: optional or read-only if any member says so. -/
def mergedProperty (all : List (Property Schema)) (key : Value) : Property Schema :=
  let matching := all.filter fun p => p.name.equals key
  ⟨key, .oneOf (matching.map fun p => p.type) .empty, matching.any fun p => p.optional,
    matching.any fun p => p.readonly, .empty⟩

mutual

def properties : Spine → Except Fault (List (Property Schema))
  | node s => return nodeProperties s
  | fork members => do
    let all ← propertiesOfAll members
    let keys ← (fork members).keys
    return keys.map (mergedProperty all)
  | broken fault => throw fault

def propertiesOfAll : List Spine → Except Fault (List (Property Schema))
  | [] => return []
  | s :: ss => do
    let first ← s.properties
    return first ++ (← propertiesOfAll ss)

end

end Schemata.Spine
