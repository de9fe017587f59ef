import Schemata.Proofs.Schema.Equality

/-!
Schemas without annotations and aliases. Erasing both keeps the kind of every node that is no alias, and with it the
weight by which unions rank their members and the sort of keys that an index signature claims.
-/
namespace Schemata

def Span.erased (s : Span) : Span :=
  { s with annotations := .empty }

namespace Schema

mutual

/-- The schema without annotations, each alias replaced by the type it stands for. -/
def erased : Schema → Schema
  | typeAlias _ _ type => type.erased
  | literal _ value => literal .empty value
  | uniqueSymbol _ key => uniqueSymbol .empty key
  | keyword _ word => keyword .empty word
  | enums _ pairs => enums .empty pairs
  | template _ head first more => template .empty head first.erased (more.map Span.erased)
  | tuple _ elements rest readonly => tuple .empty (erasedElements elements) (erasedRest rest) readonly
  | struct _ properties indexes => struct .empty (erasedProperties properties) (erasedIndexes indexes)
  | union _ members => union .empty (erasedAll members)
  | lazy _ handle => lazy .empty handle
  | refinement _ base predicate => refinement .empty base.erased predicate
  | transform _ source target conversion => transform .empty source.erased target.erased conversion

def erasedAll : List Schema → List Schema
  | [] => []
  | s :: ss => s.erased :: erasedAll ss

def erasedElements : List (Element Schema) → List (Element Schema)
  | [] => []
  | ⟨type, optional⟩ :: es => ⟨type.erased, optional⟩ :: erasedElements es

def erasedRest : Option (Rest Schema) → Option (Rest Schema)
  | none => none
  | some ⟨head, trailing⟩ => some ⟨head.erased, erasedAll trailing⟩

def erasedProperties : List (Property Schema) → List (Property Schema)
  | [] => []
  | ⟨name, type, optional, readonly, _⟩ :: ps =>
    ⟨name, type.erased, optional, readonly, .empty⟩ :: erasedProperties ps

def erasedIndexes : List (IndexSignature Schema) → List (IndexSignature Schema)
  | [] => []
  | ⟨parameter, type, readonly⟩ :: is => ⟨parameter.erased, type.erased, readonly⟩ :: erasedIndexes is

end

end Schema

def Property.erased (p : Property Schema) : Property Schema :=
  ⟨p.name, p.type.erased, p.optional, p.readonly, .empty⟩

def IndexSignature.erased (i : IndexSignature Schema) : IndexSignature Schema :=
  ⟨i.parameter.erased, i.type.erased, i.readonly⟩

namespace Schema

theorem erasedAll_eq_map (ss : List Schema) : erasedAll ss = ss.map erased := by
  induction ss with
  | nil => rfl
  | cons s ss ih => rw [erasedAll, ih, List.map_cons]

theorem erased_tuple (a : Annotations) (es : List (Element Schema)) (r : Option (Rest Schema)) (o : Bool) :
    (tuple a es r o).erased = tuple .empty (es.map (Element.map erased)) (r.map (Rest.map erased)) o := by
  have helements : erasedElements es = es.map (Element.map erased) := by
    induction es with
    | nil => rfl
    | cons e es ih =>
      rw [List.map_cons, ← ih]
      rfl
  have hrest : erasedRest r = r.map (Rest.map erased) := by
    cases r with
    | none => rfl
    | some r =>
      rw [Option.map_some, Rest.map, ← erasedAll_eq_map]
      rfl
  rw [erased, helements, hrest]

theorem erased_struct (a : Annotations) (ps : List (Property Schema)) (is : List (IndexSignature Schema)) :
    (struct a ps is).erased = struct .empty (ps.map Property.erased) (is.map IndexSignature.erased) := by
  have hproperties : erasedProperties ps = ps.map Property.erased := by
    induction ps with
    | nil => rfl
    | cons p ps ih =>
      rw [List.map_cons, ← ih]
      rfl
  have hindexes : erasedIndexes is = is.map IndexSignature.erased := by
    induction is with
    | nil => rfl
    | cons i is ih =>
      rw [List.map_cons, ← ih]
      rfl
  rw [erased, hproperties, hindexes]

theorem erased_union (a : Annotations) (ss : List Schema) : (union a ss).erased = union .empty (ss.map erased) := by
  rw [erased, erasedAll_eq_map]

/-- Erased schemas are ranked as they were. -/
theorem weight_erased (s : Schema) : s.erased.weight = s.weight := by
  induction s using childrenInduction with
  | step s ih =>
    cases s with
    | typeAlias a parameters type =>
      rw [erased, weight]
      exact ih type List.mem_cons_self
    | tuple a es r o => simp [erased_tuple, weight]
    | struct a ps is => simp [erased_struct, weight]
    | union a ss =>
      rw [erased_union, weight, weight]
      apply totalWeight_congr
      rw [List.map_map]
      exact List.map_congr_left ih
    | _ => rfl

theorem weights_erased (ss : List Schema) : (ss.map erased).map weight = ss.map weight := by
  rw [List.map_map]
  exact List.map_congr_left fun s _ => weight_erased s

/-- What describes keys is no alias, and goes on to claim the same sort of keys. -/
theorem isKeyword_erased {s : Schema} (h : s.describesKeys) (k : Keyword) : s.erased.isKeyword k = s.isKeyword k := by
  cases s with
  | typeAlias => cases h
  | _ => rfl

def KeyedNode : Schema → Prop
  | struct _ _ indexes => ∀ i ∈ indexes, i.parameter.describesKeys
  | _ => True

/-- Every index signature in a schema is over keys of a suitable sort. -/
def Keyed (s : Schema) : Prop :=
  s.Throughout KeyedNode

theorem describesKeys_erased {s : Schema} (h : s.describesKeys) : s.erased.describesKeys := by
  cases s with
  | keyword a k => cases k <;> first | rfl | cases h
  | template | refinement => rfl
  | _ => cases h

/-- Index signatures stay over keys of suitable sorts. -/
theorem Keyed.erased {s : Schema} (hs : s.Keyed) : s.erased.Keyed := by
  induction s using childrenInduction with
  | step s ih =>
    have child {t : Schema} (ht : t ∈ s.children) : t.erased.Keyed := ih t ht (hs.child ht)
    cases s with
    | typeAlias a parameters type =>
      rw [Schema.erased]
      exact child List.mem_cons_self
    | literal | uniqueSymbol | keyword | enums | template | lazy => exact throughout_leaf trivial rfl
    | refinement | transform =>
      exact throughout_of_children trivial (List.forall_mem_singleton.mpr (child List.mem_cons_self))
    | union a ss =>
      rw [erased_union]
      exact throughout_of_children trivial (List.forall_mem_map.mpr fun t ht => child ht)
    | tuple a es r o =>
      rw [erased_tuple]
      refine throughout_of_children trivial fun t ht => ?_
      rcases List.mem_append.mp ht with ht | ht
      · obtain ⟨f, hf, rfl⟩ := List.mem_map.mp ht
        obtain ⟨e, he, rfl⟩ := List.mem_map.mp hf
        exact child (mem_children_of_element he)
      · cases r with
        | none => cases ht
        | some r =>
          rcases List.mem_cons.mp ht with rfl | ht
          · exact child (mem_children_of_rest List.mem_cons_self)
          · obtain ⟨u, hu, rfl⟩ := List.mem_map.mp ht
            exact child (mem_children_of_rest (List.mem_cons_of_mem _ hu))
    | struct a ps is =>
      rw [erased_struct]
      refine throughout_of_children ?_ fun t ht => ?_
      · exact List.forall_mem_map.mpr fun i hi => describesKeys_erased (hs.node i hi)
      · rcases List.mem_append.mp ht with ht | ht
        · obtain ⟨q, hq, rfl⟩ := List.mem_map.mp ht
          obtain ⟨p, hp, rfl⟩ := List.mem_map.mp hq
          exact child (mem_children_of_property hp)
        · obtain ⟨j, hj, ht⟩ := List.mem_flatMap.mp ht
          obtain ⟨i, hi, rfl⟩ := List.mem_map.mp hj
          simp only [List.mem_cons, List.not_mem_nil, or_false] at ht
          rcases ht with rfl | rfl
          · exact child (mem_children_of_index hi).1
          · exact child (mem_children_of_index hi).2

end Schema
end Schemata
