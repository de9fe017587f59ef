import Schemata.Schema.Equality
import Schemata.Schema.Rank
import Schemata.Schema.Tuple

/-!
Canonical unions and structs, and partial forms built from them. A union has no union among its members, no two equal
members, and no literal beside a keyword that already accepts it; its members stand by descending weight. The members of
a struct stand by ascending cardinality. In a partial form every position and every declared key is optional.
Refinements and transforms give way to the representation under or behind them, and a lazy schema becomes another lazy
schema.
-/
namespace Schemata.Schema

def distinct (ss : List Schema) : List Schema :=
  ss.foldl (fun kept s => if s.occursIn kept then kept else kept ++ [s]) []

/-- Whether a schema makes a literal beside it superfluous. -/
def absorbs (keeper s : Schema) : Bool :=
  match keeper, s with
  | keyword _ .string, literal _ x => x.isText
  | keyword _ .number, literal _ x => x.isNumber
  | keyword _ .symbol, uniqueSymbol .. => true
  | _, _ => false

def unabsorbed (ss : List Schema) : List Schema :=
  ss.filter fun s => !ss.any fun keeper => keeper.absorbs s

def unify (candidates : List Schema) : List Schema :=
  unabsorbed (distinct (candidates.flatMap alternatives))

/-- Members by descending weight; members of equal weight keep their order. -/
def ranked (ss : List Schema) : List Schema :=
  ss.mergeSort fun s t => decide (t.weight ≤ s.weight)

/-- The canonical union of the candidates: nothing at all, the only member, or a union of the ranked members. -/
def oneOf (candidates : List Schema) (a : Annotations) : Schema :=
  match unify candidates with
  | [] => word .never
  | [s] => s
  | members => union a (ranked members)

def nullable (s : Schema) : Schema :=
  oneOf [s, literal .empty .null] .empty

def rankedProperties (ps : List (Property Schema)) : List (Property Schema) :=
  ps.mergeSort fun p q => decide (p.type.cardinality ≤ q.type.cardinality)

def rankedIndexes (is : List (IndexSignature Schema)) : List (IndexSignature Schema) :=
  is.mergeSort fun i j => decide (i.type.cardinality ≤ j.type.cardinality)

def structOf (ps : List (Property Schema)) (is : List (IndexSignature Schema)) (a : Annotations) : Schema :=
  struct a (rankedProperties ps) (rankedIndexes is)

/-! ### Partial forms -/

/-- The rest run of a partial tuple: any of its items, or undefined, any number of times. -/
def partialRest (r : Rest Schema) : Rest Schema :=
  ⟨oneOf (r.toList ++ [word .undefined]) .empty, []⟩

mutual

/-- The partial form. The path leads from the whole form to this part of it, innermost step first, and keeps the
lazy schemas of different parts apart. -/
def partialForm (path : List Nat) : Schema → Schema
  | typeAlias _ _ type => type.partialForm path
  | tuple _ elements rest readonly =>
    tuple .empty (elements.map fun e => ⟨e.type, true⟩) (rest.map partialRest) readonly
  | struct _ properties indexes =>
    structOf (properties.map fun p => { p with optional := true }) indexes .empty
  | union _ members => oneOf (partialForms path 0 members) .empty
  | lazy _ handle => lazy .empty (.partialOf handle path)
  | refinement _ base _ => base.partialForm path
  -- What a conversion makes of a value is described by its target.
  | transform _ _ target _ => target.partialForm path
  | s => s

def partialForms (path : List Nat) (i : Nat) : List Schema → List Schema
  | [] => []
  | s :: ss => s.partialForm (i :: path) :: partialForms path (i + 1) ss

end

end Schemata.Schema
