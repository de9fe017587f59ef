import Schemata.Proofs.Decode.Report
import Schemata.Proofs.Decode.Signatures

/-!
Where problems point. The branches above a leaf lead from the value, and from the schema, to the place that the leaf
speaks of.
-/
namespace Schemata

inductive Branch where
  | within (segment : Segment)
  | ofMember

namespace Problem

mutual

/-- The leaves of a problem, each with the branches that lead to it. -/
def leaves : Problem → List (List Branch × Problem)
  | within segment ps => (leavesOfAll ps).map fun e => (.within segment :: e.1, e.2)
  | ofMember ps => (leavesOfAll ps).map fun e => (.ofMember :: e.1, e.2)
  | p => [([], p)]

def leavesOfAll : List Problem → List (List Branch × Problem)
  | [] => []
  | p :: ps => p.leaves ++ leavesOfAll ps

end

theorem mem_leavesOfAll_iff {ps : List Problem} {e : List Branch × Problem} :
    e ∈ leavesOfAll ps ↔ ∃ p ∈ ps, e ∈ p.leaves := by
  induction ps with
  | nil => simp [leavesOfAll]
  | cons p ps ih => simp [leavesOfAll, ih]

theorem leavesOfAll_singleton (p : Problem) : leavesOfAll [p] = p.leaves := by
  simp [leavesOfAll]

theorem leaves_of_leaf {p : Problem} (h : p.isBranch = false) : p.leaves = [([], p)] := by
  cases p with
  | within | ofMember => cases h
  | _ => simp [leaves]

end Problem

namespace Value

def member? (v : Value) : Segment → Option Value
  | .key k => v.entries?.bind fun es => Entries.lookup es k
  | .index i => v.items?.bind fun items => items[i]?

/-- A segment names a key or an index that is present in a container. -/
inductive Has : Value → Segment → Prop
  | key {v : Value} {es : Entries} {e : Value × Value} (hv : v.entries? = some es) (he : e ∈ es) : Has v (.key e.1)
  | index {v : Value} {items : List Value} {i : Nat} (hv : v.items? = some items) (hi : i < items.length) :
    Has v (.index i)

inductive Lacks : Value → Segment → Prop
  | key {v k : Value} {es : Entries} (hv : v.entries? = some es) (hk : es.lookup k = none) : Lacks v (.key k)
  | index {v : Value} {items : List Value} {i : Nat} (hv : v.items? = some items) (hi : items.length ≤ i) :
    Lacks v (.index i)

end Value

namespace Scope
variable {scope : Scope} {s t : Schema} {x v w : Value} {path : List Branch} {ps : List Problem}

/-- Branches lead from a schema and a value to a schema below it and to the value that is decoded there. A segment
leads to the member that it names, but to the key itself where the parameter of an index signature rejects the key. The
members of a union, and the schemas that aliases, refinements and lazy schemas stand for, are handed the value as it
is. -/
inductive Leads (scope : Scope) : Schema → Value → List Branch → Schema → Value → Prop
  | here (s : Schema) (x : Value) : Leads scope s x [] s x
  | through {s t u : Schema} {x v : Value} {path : List Branch} (ht : t ∈ scope.exposed s)
    (h : Leads scope t x path u v) : Leads scope s x path u v
  | member {ms : List Schema} {t u : Schema} {x v : Value} {path : List Branch} (a : Annotations) (ht : t ∈ ms)
    (h : Leads scope t x path u v) : Leads scope (.union a ms) x (.ofMember :: path) u v
  | item {es : List (Element Schema)} {rest : Option (Rest Schema)} {readonly : Bool} {t u : Schema} {x v w : Value}
    {items : List Value} {i : Nat} {path : List Branch} (a : Annotations) (hx : x.items? = some items)
    (ht : (Tuple.assigned es rest items.length)[i]? = some (some t)) (hw : x.member? (.index i) = some w)
    (h : Leads scope t w path u v) : Leads scope (.tuple a es rest readonly) x (.within (.index i) :: path) u v
  | property {ps : List (Property Schema)} {is : List (IndexSignature Schema)} {p : Property Schema} {u : Schema}
    {x v w : Value} {path : List Branch} (a : Annotations) (hp : p ∈ ps) (hw : x.member? (.key p.name) = some w)
    (h : Leads scope p.type w path u v) : Leads scope (.struct a ps is) x (.within (.key p.name) :: path) u v
  | parameter {ps : List (Property Schema)} {is : List (IndexSignature Schema)} {i : IndexSignature Schema}
    {u : Schema} {x v k : Value} {path : List Branch} {qs : List Problem} (a : Annotations) (hk : x.Has (.key k))
    (hd : k.occursIn (ps.map fun p => p.name) = false) (hi : i ∈ is) (hc : i.claims k)
    (hy : scope.Yields .decode i.parameter k (.failure qs)) (h : Leads scope i.parameter k path u v) :
    Leads scope (.struct a ps is) x (.within (.key k) :: path) u v
  | index {ps : List (Property Schema)} {is : List (IndexSignature Schema)} {i : IndexSignature Schema} {u : Schema}
    {x v w k : Value} {path : List Branch} (a : Annotations) (hd : k.occursIn (ps.map fun p => p.name) = false)
    (hi : i ∈ is) (hc : i.claims k) (hk : ∃ o, scope.Yields .decode i.parameter k o ∧ o.isFailure = false)
    (hw : x.member? (.key k) = some w) (h : Leads scope i.type w path u v) :
    Leads scope (.struct a ps is) x (.within (.key k) :: path) u v

/-- What a leaf says is so of a schema and a value, or of the member of the value that the branch above it names. -/
inductive Reports (scope : Scope) : Schema → Value → List Branch → Problem → Prop
  | mismatch {s : Schema} {x : Value} {predicate : String} {override : Option String}
    (hy : scope.Yields .decode s x (.failure [.mismatch predicate x override])) :
    Reports scope s x [] (.mismatch predicate x override)
  | conversion {s : Schema} {x : Value} {source target : String} {override : Option String}
    (hy : scope.Yields .decode s x (.failure [.conversion source target x override])) :
    Reports scope s x [] (.conversion source target x override)
  | violation {a : Annotations} {t : Schema} {p : Predicate} {x v : Value} {o : Outcome} (override : Option String)
    (ho : scope.Yields .decode t x o) (hv : o.value? = some v) (ht : scope.test p v = .ok false) :
    Reports scope (.refinement a t p) x [] (.violation a.displayLabel v override)
  | anomaly {x : Value} {reason : Anomaly} (a : Annotations) (hr : anomaly? x = some (.anomaly x reason)) :
    Reports scope (.keyword a .number) x [] (.anomaly x reason)
  | missing {x : Value} {segment : Segment} (s : Schema) (h : x.Lacks segment) :
    Reports scope s x [.within segment] .missing
  | unexpected {x : Value} {segment : Segment} (s : Schema) (h : x.Has segment) :
    Reports scope s x [.within segment] (.unexpected segment)

/-- The branches above a leaf lead to where it reports something. -/
def Located (scope : Scope) (s : Schema) (x : Value) (e : List Branch × Problem) : Prop :=
  ∃ path last t v, e.1 = path ++ last ∧ scope.Leads s x path t v ∧ scope.Reports t v last e.2

theorem Reports.located {last : List Branch} {p : Problem} (h : scope.Reports s x last p) :
    scope.Located s x (last, p) :=
  ⟨[], last, s, x, rfl, .here s x, h⟩

theorem Located.through {e : List Branch × Problem} (h : scope.Located t x e) (ht : t ∈ scope.exposed s) :
    scope.Located s x e := by
  obtain ⟨path, last, u, v, he, hl, hr⟩ := h
  exact ⟨path, last, u, v, he, .through ht hl, hr⟩

/-- Leaves stay located below a branch that leads to the schema and the value they are about. -/
theorem Located.below {b : Branch} {e : List Branch × Problem} (h : scope.Located t w e)
    (hb : ∀ path u v, scope.Leads t w path u v → scope.Leads s x (b :: path) u v) :
    scope.Located s x (b :: e.1, e.2) := by
  obtain ⟨path, last, u, v, he, hl, hr⟩ := h
  exact ⟨b :: path, last, u, v, congrArg (b :: ·) he, hb path u v hl, hr⟩

theorem located_within {segment : Segment} (h : ∀ e ∈ Problem.leavesOfAll ps, scope.Located t w e)
    (hb : ∀ path u v, scope.Leads t w path u v → scope.Leads s x (.within segment :: path) u v) :
    ∀ e ∈ (Problem.within segment ps).leaves, scope.Located s x e := by
  intro e he
  rw [Problem.leaves] at he
  obtain ⟨d, hd, rfl⟩ := List.mem_map.mp he
  exact (h d hd).below hb

/-- A leaf that names the member it is about stands alone below that member's segment. -/
theorem located_member {segment : Segment} {p : Problem} (hp : p.isBranch = false)
    (h : scope.Reports s x [.within segment] p) : ∀ e ∈ (Problem.within segment [p]).leaves, scope.Located s x e := by
  rw [Problem.leaves, Problem.leavesOfAll_singleton, Problem.leaves_of_leaf hp, List.map_singleton,
    List.forall_mem_singleton]
  exact h.located

theorem located_leaf {p : Problem} (hp : p.isBranch = false) (h : scope.Reports s x [] p) :
    ∀ e ∈ p.leaves, scope.Located s x e := by
  rw [Problem.leaves_of_leaf hp, List.forall_mem_singleton]
  exact h.located

theorem located_all (h : ∀ p ∈ ps, ∀ e ∈ p.leaves, scope.Located s x e) :
    ∀ e ∈ Problem.leavesOfAll ps, scope.Located s x e := by
  intro e he
  obtain ⟨p, hp, he⟩ := Problem.mem_leavesOfAll_iff.mp he
  exact h p hp e he

theorem member?_index {items : List Value} {i : Nat} (hx : x.items? = some items) (hv : items[i]? = some v) :
    x.member? (.index i) = some v := by
  rw [Value.member?, hx]
  exact hv

theorem member?_key {es : Entries} {k : Value} (hx : x.entries? = some es) (hv : es.lookup k = some v) :
    x.member? (.key k) = some v := by
  rw [Value.member?, hx]
  exact hv

/-- A claimed key of a well-formed mapping leads to the value that is stored under it. -/
theorem member?_claimed {es : Entries} {e : Value × Value} {i : IndexSignature Schema} (hwf : x.wellFormed)
    (hx : x.entries? = some es) (he : e ∈ es) (hc : i.claims e.1) : x.member? (.key e.1) = some e.2 := by
  have hself : e.1.equals e.1 := Struct.selfClaims_index i e.1 hc
  exact member?_key hx ((Entries.lookup_eq_some_iff (Value.distinct_of_wellFormed hwf hx)).mpr ⟨e.1, he, hself⟩)

theorem located_of_refuses (h : scope.Refuses .decode s x ps) (hwf : x.wellFormed) :
    ∀ e ∈ Problem.leavesOfAll ps, scope.Located s x e := by
  induction h with
  | mismatch hy =>
    rw [Problem.leavesOfAll_singleton]
    exact located_leaf rfl (.mismatch hy)
  | conversion hy =>
    rw [Problem.leavesOfAll_singleton]
    exact located_leaf rfl (.conversion hy)
  | violation override ht hv =>
    obtain ⟨o, ho, hv⟩ := hv
    rw [Problem.leavesOfAll_singleton]
    exact located_leaf rfl (.violation override ho hv ht)
  | typeAlias a ps h ih => exact fun e he => (ih hwf e he).through List.mem_cons_self
  | base a p h ih => exact fun e he => (ih hwf e he).through List.mem_cons_self
  | lazy a hf h ih => exact fun e he => (ih hwf e he).through (mem_next_lazy (a := a).mpr hf)
  | union a hne hy h ih =>
    refine located_all fun p hp e he => ?_
    obtain ⟨rs, hrs, rfl⟩ := List.mem_map.mp hp
    obtain ⟨m, hm⟩ := Lists.exists_mem_zip hy.length_eq hrs
    rw [Problem.leaves] at he
    obtain ⟨d, hd, rfl⟩ := List.mem_map.mp he
    exact (ih _ hm hwf d hd).below fun path u v hl => .member a (List.of_mem_zip hm).1 hl
  | item a hx ht hv h ih =>
    have hpart := Value.wellFormed_part hwf (Value.mem_parts_of_items hx (List.mem_of_getElem? hv))
    rw [Problem.leavesOfAll_singleton]
    exact located_within (ih hpart) fun path u v hl => .item a hx ht (member?_index hx hv) hl
  | gap a hx hi =>
    rw [Problem.leavesOfAll_singleton]
    exact located_member rfl (.missing _ (.index hx (Tuple.le_of_mem_gaps hi)))
  | property a hx hp hv h ih =>
    have hpart := Value.wellFormed_part hwf (Value.mem_parts_of_lookup hx hv)
    rw [Problem.leavesOfAll_singleton]
    exact located_within (ih hpart) fun path u v hl => .property a hp (member?_key hx hv) hl
  | absent a hx hp hv =>
    rw [Problem.leavesOfAll_singleton]
    exact located_member rfl (.missing _ (.key hx hv))
  | parameter a hx he hd hi hc hy h ih =>
    have hpart := Value.wellFormed_part hwf (Value.mem_parts_of_entries hx he).1
    rw [Problem.leavesOfAll_singleton]
    exact located_within (ih hpart) fun path u v hl => .parameter a (.key hx he) hd hi hc hy hl
  | index a hx he hd hi hc hk h ih =>
    have hpart := Value.wellFormed_part hwf (Value.mem_parts_of_entries hx he).2
    rw [Problem.leavesOfAll_singleton]
    exact located_within (ih hpart) fun path u v hl => .index a hd hi hc hk (member?_claimed hwf hx he hc) hl

theorem located_of_warns {p : Problem} (h : scope.Warns .decode s x p) (hwf : x.wellFormed) :
    ∀ e ∈ p.leaves, scope.Located s x e := by
  induction h with
  | anomaly a hr => exact located_leaf rfl (.anomaly a hr)
  | typeAlias a ps h ih => exact fun e he => (ih hwf e he).through List.mem_cons_self
  | base a p h ih => exact fun e he => (ih hwf e he).through List.mem_cons_self
  | lazy a hf h ih => exact fun e he => (ih hwf e he).through (mem_next_lazy (a := a).mpr hf)
  | member a hm h ih => exact fun e he => (ih hwf e he).through hm
  | item a hx ht hv hne h ih =>
    have hpart := Value.wellFormed_part hwf (Value.mem_parts_of_items hx (List.mem_of_getElem? hv))
    exact located_within (located_all fun q hq => ih q hq hpart) fun path u v hl =>
      .item a hx ht (member?_index hx hv) hl
  | surplus a hx hv =>
    exact located_member rfl (.unexpected _ (.index hx (List.getElem?_eq_some_iff.mp hv).1))
  | property a hx hp hv hne h ih =>
    have hpart := Value.wellFormed_part hwf (Value.mem_parts_of_lookup hx hv)
    exact located_within (located_all fun q hq => ih q hq hpart) fun path u v hl =>
      .property a hp (member?_key hx hv) hl
  | index a hx he hd hi hc hk hne h ih =>
    have hpart := Value.wellFormed_part hwf (Value.mem_parts_of_entries hx he).2
    exact located_within (located_all fun q hq => ih q hq hpart) fun path u v hl =>
      .index a hd hi hc hk (member?_claimed hwf hx he hc) hl
  | undeclared a hx he => exact located_member rfl (.unexpected _ (.key hx he))

/-- Problems point at what they talk about. For every leaf of the outcome of a schema without transforms on a
well-formed value, the branches above it lead to a schema and a value there. A leaf of a mismatch, an anomaly or a
conversion has that value; one of a violation has what the base of the refinement there decodes it to; and the last
segment above a leaf of a missing or an unexpected member names what the value lacks or has. -/
theorem problems_located (ht : scope.TransformFree s) (hwf : x.wellFormed) {o : Outcome}
    (ho : scope.Yields .decode s x o) : ∀ e ∈ Problem.leavesOfAll o.problems,
      ∃ path last t v, e.1 = path ++ last ∧ scope.Leads s x path t v ∧ scope.Reports t v last e.2 := by
  obtain ⟨n, hn⟩ := ho
  cases o with
  | success v =>
    intro e he
    cases he
  | warning v ps => exact located_all fun p hp => located_of_warns ((warns_of_run ht hn).2 p hp) hwf
  | failure ps => exact located_of_refuses (refuses_of_run ht hn) hwf

/-- An item with another one behind it, whose number is none. -/
theorem problems_located_item :
    let scope := Stock.scope [(0, .ok numbered)]
    let x : Value := .dict [(.text "id", .int 1), (.text "next", .dict [(.text "id", .bool true)])]
    let path : List Branch := [.ofMember, .within (.key (.text "next")), .within (.key (.text "id"))]
    let leaf : Problem := .mismatch "is(number)" (.bool true) none
    ∃ o, scope.Yields .decode item x o ∧ (path, leaf) ∈ Problem.leavesOfAll o.problems ∧
      ∃ t, scope.Leads item x path t (.bool true) ∧ scope.Yields .decode t (.bool true) (.failure [leaf]) := by
  intro scope x path leaf
  obtain ⟨o, ho, hleaf⟩ : ∃ o, scope.Yields .decode item x o ∧ (path, leaf) ∈ Problem.leavesOfAll o.problems :=
    ⟨_, ⟨2, rfl⟩, .head _⟩
  obtain ⟨front, last, t, v, hpath, hl, hr⟩ := problems_located not_part_transform_item (by rfl) ho _ hleaf
  refine ⟨o, ho, hleaf, t, ?_⟩
  cases hr with
  | mismatch hy =>
    obtain rfl : path = front := hpath.trans (List.append_nil front)
    exact ⟨hl, hy⟩

end Scope
end Schemata
