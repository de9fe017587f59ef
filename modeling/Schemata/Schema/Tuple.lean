import Schemata.Schema.Build

/-!
Rest runs, and tuples grown item by item. Required positions come before optional ones, at most one rest run follows,
and only required items follow the run.
-/
namespace Schemata

def Rest.ofList {σ : Type} : List σ → Except Fault (Rest σ)
  | [] => throw (.schema .emptyRest)
  | head :: trailing => return ⟨head, trailing⟩

def Rest.toList {σ : Type} (r : Rest σ) : List σ :=
  r.head :: r.trailing

namespace Schema

def array (item : Schema) (readonly : Bool) : Schema :=
  tuple .empty [] (some ⟨item, []⟩) readonly

def nonEmptyArray (item : Schema) (readonly : Bool) : Schema :=
  tuple .empty [⟨item, false⟩] (some ⟨item, []⟩) readonly

def appendRest (s item : Schema) : Except Fault Schema :=
  match s with
  | tuple _ elements none readonly => return tuple .empty elements (some ⟨item, []⟩) readonly
  | tuple _ _ (some _) _ => throw (.schema .restAfterRest)
  | _ => throw .notTuple

/-- Adds a position to a tuple. Behind a rest run it becomes one of the trailing items. -/
def appendElement (s : Schema) (e : Element Schema) : Except Fault Schema :=
  match s with
  | tuple _ elements rest readonly =>
    if (elements.any fun f => f.optional) && !e.optional then throw (.schema .requiredAfterOptional)
    else
      match rest with
      | none => return tuple .empty (elements ++ [e]) none readonly
      | some r =>
        if e.optional then throw (.schema .optionalAfterRest)
        else return tuple .empty elements (some ⟨r.head, r.trailing ++ [e.type]⟩) readonly
  | _ => throw .notTuple

end Schema

end Schemata
