import Schemata.Proofs.Lists
import Schemata.Schema.Tuple
import Schemata.Scope
import Mathlib.Logic.Relation

/-!
The parts of a schema that decoding looks at: its children, and behind a lazy schema the schema of its handle. The
parameters of an alias and the target of a transform only describe, and are no parts.
-/
namespace Schemata

namespace Schema

/-- The schemas that a schema hands members of a value to. -/
def children : Schema → List Schema
  | typeAlias _ _ type => [type]
  | tuple _ elements rest _ => elements.map (fun e => e.type) ++ (rest.map Rest.toList).getD []
  | struct _ properties indexes =>
    properties.map (fun p => p.type) ++ indexes.flatMap fun i => [i.parameter, i.type]
  | union _ members => members
  | refinement _ base _ => [base]
  | transform _ source _ _ => [source]
  | _ => []

section
variable {a : Annotations} {es : List (Element Schema)} {rest : Option (Rest Schema)} {readonly : Bool}
  {ps : List (Property Schema)} {is : List (IndexSignature Schema)}

theorem mem_children_of_element {e : Element Schema} (h : e ∈ es) : e.type ∈ (tuple a es rest readonly).children :=
  List.mem_append_left _ (List.mem_map_of_mem h)

theorem mem_children_of_rest {r : Rest Schema} {t : Schema} (h : t ∈ r.toList) :
    t ∈ (tuple a es (some r) readonly).children :=
  List.mem_append_right _ h

theorem mem_children_of_property {p : Property Schema} (h : p ∈ ps) : p.type ∈ (struct a ps is).children :=
  List.mem_append_left _ (List.mem_map_of_mem h)

theorem mem_children_of_index {i : IndexSignature Schema} (h : i ∈ is) :
    i.parameter ∈ (struct a ps is).children ∧ i.type ∈ (struct a ps is).children := by
  constructor <;> exact List.mem_append_right _ (List.mem_flatMap.mpr ⟨i, h, by simp⟩)

end

theorem sizeOf_child_lt {s t : Schema} (h : t ∈ s.children) : sizeOf t < sizeOf s := by
  cases s with
  | typeAlias | refinement | transform =>
    simp only [children, List.mem_singleton] at h
    subst h
    simp only [typeAlias.sizeOf_spec, refinement.sizeOf_spec, transform.sizeOf_spec]
    omega
  | union a members =>
    have hm : sizeOf t < sizeOf members := List.sizeOf_lt_of_mem h
    rw [union.sizeOf_spec]
    omega
  | tuple a elements rest readonly =>
    rcases List.mem_append.mp h with h | h
    · obtain ⟨e, he, rfl⟩ := List.mem_map.mp h
      have hm := List.sizeOf_lt_of_mem he
      cases e
      simp only [Element.mk.sizeOf_spec] at hm
      simp
      omega
    · cases rest with
      | none => cases h
      | some r =>
        obtain ⟨head, trailing⟩ := r
        rcases List.mem_cons.mp h with rfl | h
        · simp
          omega
        · have hm : sizeOf t < sizeOf trailing := List.sizeOf_lt_of_mem h
          simp
          omega
  | struct a properties indexes =>
    rcases List.mem_append.mp h with h | h
    · obtain ⟨p, hp, rfl⟩ := List.mem_map.mp h
      have hm := List.sizeOf_lt_of_mem hp
      cases p
      simp only [Property.mk.sizeOf_spec] at hm
      simp
      omega
    · obtain ⟨i, hi, ht⟩ := List.mem_flatMap.mp h
      have hm := List.sizeOf_lt_of_mem hi
      cases i
      simp only [IndexSignature.mk.sizeOf_spec] at hm
      simp only [List.mem_cons, List.not_mem_nil, or_false] at ht
      rcases ht with rfl | rfl <;> simp <;> omega
  | _ => cases h

/-- Induction on the children of a schema. -/
theorem childrenInduction {motive : Schema → Prop}
    (step : ∀ s, (∀ t ∈ s.children, motive t) → motive s) (s : Schema) : motive s :=
  step s fun t ht => have := sizeOf_child_lt ht; childrenInduction step t
termination_by sizeOf s

inductive Facing : Schema → Schema → Schema → Schema → Prop
  | here (s t : Schema) : Facing s t s t
  | inside {s t s' t' u v : Schema} (h : (s', t') ∈ s.children.zip t.children) (hf : Facing s' t' u v) :
      Facing s t u v

section
variable {a b : Annotations} {es fs : List (Element Schema)} {rest rest' : Option (Rest Schema)}
  {readonly readonly' : Bool} {ps qs : List (Property Schema)} {is js : List (IndexSignature Schema)}

theorem zip_children_of_element {e f : Element Schema} (h : (e, f) ∈ es.zip fs) :
    (e.type, f.type) ∈ (tuple a es rest readonly).children.zip (tuple b fs rest' readonly').children :=
  Lists.mem_zip_append_left (Lists.mem_zip_map (fun e => e.type) (fun f => f.type) h)

theorem zip_children_of_rest (hl : es.length = fs.length) {r q : Rest Schema} {s t : Schema}
    (h : (s, t) ∈ r.toList.zip q.toList) :
    (s, t) ∈ (tuple a es (some r) readonly).children.zip (tuple b fs (some q) readonly').children :=
  Lists.mem_zip_append_right (by simpa using hl) h

theorem zip_children_of_property {p q : Property Schema} (h : (p, q) ∈ ps.zip qs) :
    (p.type, q.type) ∈ (struct a ps is).children.zip (struct b qs js).children :=
  Lists.mem_zip_append_left (Lists.mem_zip_map (fun p => p.type) (fun q => q.type) h)

theorem zip_children_of_index (hl : ps.length = qs.length) {i j : IndexSignature Schema} (h : (i, j) ∈ is.zip js) :
    (i.parameter, j.parameter) ∈ (struct a ps is).children.zip (struct b qs js).children ∧
      (i.type, j.type) ∈ (struct a ps is).children.zip (struct b qs js).children := by
  have hflat : (i.parameter, j.parameter) ∈
        (is.flatMap fun i => [i.parameter, i.type]).zip (js.flatMap fun j => [j.parameter, j.type]) ∧
      (i.type, j.type) ∈
        (is.flatMap fun i => [i.parameter, i.type]).zip (js.flatMap fun j => [j.parameter, j.type]) := by
    induction is generalizing js with
    | nil => cases h
    | cons i' is ih =>
      cases js with
      | nil => cases h
      | cons j' js =>
        simp only [List.zip_cons_cons, List.mem_cons, Prod.mk.injEq] at h
        rcases h with ⟨rfl, rfl⟩ | h
        · simp
        · simp [ih h]
  have hnames : (ps.map fun p => p.type).length = (qs.map fun q => q.type).length := by simpa using hl
  exact ⟨Lists.mem_zip_append_right hnames hflat.1, Lists.mem_zip_append_right hnames hflat.2⟩

end

/-- Every node of a schema has a property, lazy schemas being left closed. -/
def Throughout (p : Schema → Prop) (s : Schema) : Prop :=
  ∀ t, Relation.ReflTransGen (fun s t => t ∈ s.children) s t → p t

section
variable {p : Schema → Prop} {s t : Schema}

theorem Throughout.node (hs : s.Throughout p) : p s :=
  hs s .refl

theorem Throughout.child (hs : s.Throughout p) (ht : t ∈ s.children) : t.Throughout p :=
  fun u hu => hs u (.head ht hu)

theorem throughout_of_children (hs : p s) (h : ∀ t ∈ s.children, t.Throughout p) : s.Throughout p := by
  intro u hu
  rcases Relation.ReflTransGen.cases_head hu with rfl | ⟨t, ht, hu⟩
  · exact hs
  · exact h t ht u hu

theorem throughout_leaf (hs : p s) (h : s.children = []) : s.Throughout p :=
  throughout_of_children hs (by simp [h])

end

/-- The schemas that a node holds, whether decoding looks at them or they only describe. -/
def held : Schema → List Schema
  | typeAlias _ parameters type => parameters ++ [type]
  | transform _ source target _ => [source, target]
  | s => s.children

theorem sizeOf_held_lt {s t : Schema} (h : t ∈ s.held) : sizeOf t < sizeOf s := by
  cases s with
  | typeAlias a parameters type =>
    rcases List.mem_append.mp h with h | h
    · have hm : sizeOf t < sizeOf parameters := List.sizeOf_lt_of_mem h
      rw [typeAlias.sizeOf_spec]
      omega
    · exact sizeOf_child_lt h
  | transform a source target c =>
    simp only [held, List.mem_cons, List.not_mem_nil, or_false] at h
    rcases h with rfl | rfl <;> rw [transform.sizeOf_spec] <;> omega
  | _ => exact sizeOf_child_lt h

/-- Induction on everything that a schema holds. -/
theorem heldInduction {motive : Schema → Prop} (step : ∀ s, (∀ t ∈ s.held, motive t) → motive s) (s : Schema) :
    motive s :=
  step s fun t ht => have := sizeOf_held_lt ht; heldInduction step t
termination_by sizeOf s

end Schema

namespace Scope

def next (scope : Scope) : Schema → List Schema
  | .lazy _ handle => ((scope.force handle).toOption).toList
  | s => s.children

/-- The schemas that a schema leads to, itself included. -/
def Part (scope : Scope) : Schema → Schema → Prop :=
  Relation.ReflTransGen fun s t => t ∈ scope.next s

variable {scope : Scope} {s t u : Schema}

theorem Part.refl (scope : Scope) (s : Schema) : scope.Part s s :=
  Relation.ReflTransGen.refl

theorem Part.trans (h : scope.Part s t) (k : scope.Part t u) : scope.Part s u :=
  Relation.ReflTransGen.trans h k

theorem mem_next_of_child (h : t ∈ s.children) : t ∈ scope.next s := by
  cases s with
  | lazy => cases h
  | _ => exact h

theorem mem_next_lazy {a : Annotations} {h : Handle} :
    t ∈ scope.next (.lazy a h) ↔ scope.force h = .ok t := by
  simp only [next, Option.mem_toList]
  cases scope.force h <;> simp [Except.toOption]

theorem Part.child (h : t ∈ s.children) : scope.Part s t :=
  Relation.ReflTransGen.single (mem_next_of_child h)

theorem Part.force {a : Annotations} {h : Handle} (hf : scope.force h = .ok t) :
    scope.Part (.lazy a h) t :=
  Relation.ReflTransGen.single (mem_next_lazy.mpr hf)

/-- What is handed on from a schema to those it leads to holds of all its parts. -/
theorem Part.of_closed {p : Schema → Prop} (hs : p s) (hp : ∀ s, p s → ∀ t ∈ scope.next s, p t)
    (h : scope.Part s t) : p t := by
  induction h with
  | refl => exact hs
  | tail _ ht ih => exact hp _ ih _ ht

theorem Part.eq_of_next_eq_nil (hs : scope.next s = []) (h : scope.Part s t) : t = s := by
  induction h with
  | refl => rfl
  | tail _ ht ih =>
    subst ih
    simp [hs] at ht

end Scope
end Schemata
