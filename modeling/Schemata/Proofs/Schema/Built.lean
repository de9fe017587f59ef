import Schemata.Proofs.Schema.Canonical
import Schemata.Stock

/-!
The schemas that can be built. Unions and structs are never put together by hand, but come out of builders that
canonicalize; so everything inside a built schema is canonical, behind lazy schemas too.
-/
namespace Schemata.Scope
variable {scope : Scope} {s t u : Schema}

def Forces (scope : Scope) (s u : Schema) : Prop :=
  ∃ a h, scope.Behind s (.lazy a h) ∧ scope.force h = .ok u

theorem canonical_behind (hs : s.Canonical) (hf : ∀ u, scope.Forces s u → u.Canonical) (h : scope.Behind s u) :
    u.Canonical := by
  induction h with
  | refl => exact hs
  | @tail v w hv hw ih =>
    cases v with
    | lazy a handle => exact hf w ⟨a, handle, hv, mem_unfolding_lazy.mp hw⟩
    | _ => exact ih.held (Schema.mem_held_of_behind hw)

/-! ### What is derived from keys -/

section
variable (hs : ∀ u, scope.Behind s u → u.Canonical)
include hs

theorem canonical_keyof (h : scope.keyof s = .ok t) : t.Canonical := by
  obtain ⟨ts, hts, h⟩ := bind_eq_ok_iff.mp h
  obtain rfl := Except.ok.inj h
  exact .oneOf (Spine.canonical_keyTypes (fun u hu => hs u (behind_of_leads_spine hu)) hts) _

/-- The struct of some of the keys. -/
theorem canonical_selection {all : List (Property Schema)} (h : scope.propertySignatures s = .ok all)
    (keep : Property Schema → Bool) : (Schema.structOf (all.filter keep) [] .empty).Canonical := by
  have hp := Spine.canonical_properties (fun u hu => hs u (behind_of_leads_spine hu)) h
  exact .structOf (fun p hpm => hp p (List.mem_of_mem_filter hpm)) (fun _ hi => absurd hi List.not_mem_nil) _

theorem canonical_pick {keys : List Value} (h : scope.pick s keys = .ok t) : t.Canonical := by
  obtain ⟨_, hall, h⟩ := bind_eq_ok_iff.mp h
  obtain rfl := Except.ok.inj h
  exact canonical_selection hs hall _

theorem canonical_without {keys : List Value} (h : scope.without s keys = .ok t) : t.Canonical := by
  obtain ⟨_, hall, h⟩ := bind_eq_ok_iff.mp h
  obtain rfl := Except.ok.inj h
  exact canonical_selection hs hall _

theorem canonical_struct? {ps : List (Property Schema)} {is : List (IndexSignature Schema)}
    (h : (scope.spine s).struct? = some (ps, is)) :
    (∀ p ∈ ps, p.type.Canonical) ∧ ∀ i ∈ is, i.parameter.Canonical ∧ i.type.Canonical := by
  rw [Spine.struct?.eq_def] at h
  split at h
  · rename_i a qs js hn
    obtain ⟨rfl, rfl⟩ := Prod.mk.inj (Option.some.inj h)
    have hc : (Schema.struct a qs js).Canonical := hs _ (behind_of_leads_spine (hn ▸ .node _))
    exact ⟨fun p hp => hc.property hp, fun i hi => hc.index hi⟩
  · cases h

end

theorem canonical_extend (hs : ∀ u, scope.Behind s u → u.Canonical) (ht : ∀ u, scope.Behind t u → u.Canonical)
    (h : scope.extend s t = .ok u) : u.Canonical := by
  obtain ⟨_, _, h⟩ := bind_eq_ok_iff.mp h
  obtain ⟨_, _, h⟩ := bind_eq_ok_iff.mp h
  split at h
  · rename_i ps is qs js hl hr
    obtain rfl := Except.ok.inj h
    have hleft := canonical_struct? hs hl
    have hright := canonical_struct? ht hr
    exact .structOf (List.forall_mem_append.mpr ⟨hleft.1, hright.1⟩)
      (List.forall_mem_append.mpr ⟨hleft.2, hright.2⟩) _
  · cases h

/-! ### Built schemas -/

/-- A schema that comes out of builders. Every node but unions and structs may be put together freely; deriving from
the keys of a schema looks through its wrappers, and what lazy schemas are unfolded to there has been built before. -/
inductive Built (scope : Scope) : Schema → Prop
  | typeAlias (a : Annotations) {parameters : List Schema} {type : Schema} (hp : ∀ p ∈ parameters, Built scope p)
      (ht : Built scope type) : Built scope (.typeAlias a parameters type)
  | literal (a : Annotations) (x : Scalar) : Built scope (.literal a x)
  | uniqueSymbol (a : Annotations) (key : String) : Built scope (.uniqueSymbol a key)
  | keyword (a : Annotations) (word : Keyword) : Built scope (.keyword a word)
  | enums (a : Annotations) (pairs : List (String × Value)) : Built scope (.enums a pairs)
  | template (a : Annotations) (head : String) (first : Span) (more : List Span) :
      Built scope (.template a head first more)
  | tuple (a : Annotations) {es : List (Element Schema)} {rest : Option (Rest Schema)} (readonly : Bool)
      (he : ∀ e ∈ es, Built scope e.type) (hr : ∀ r ∈ rest, ∀ t ∈ r.toList, Built scope t) :
      Built scope (.tuple a es rest readonly)
  | lazy (a : Annotations) (handle : Handle) : Built scope (.lazy a handle)
  | refinement (a : Annotations) {base : Schema} (p : Predicate) (h : Built scope base) :
      Built scope (.refinement a base p)
  | transform (a : Annotations) {source target : Schema} (c : Conversion) (hs : Built scope source)
      (ht : Built scope target) : Built scope (.transform a source target c)
  | structOf {ps : List (Property Schema)} {is : List (IndexSignature Schema)} (hp : ∀ p ∈ ps, Built scope p.type)
      (hk : ∀ i ∈ is, Built scope i.parameter) (hi : ∀ i ∈ is, Built scope i.type) (a : Annotations) :
      Built scope (.structOf ps is a)
  | oneOf {cs : List Schema} (h : ∀ c ∈ cs, Built scope c) (a : Annotations) : Built scope (.oneOf cs a)
  | nullable {s : Schema} (h : Built scope s) : Built scope s.nullable
  | annotate {s : Schema} (h : Built scope s) (overlay : Annotations) : Built scope (s.annotate overlay)
  | templateUnion {ss : List Schema} {t : Schema} (hs : ∀ s ∈ ss, Built scope s)
      (h : Schema.templateUnion ss = .ok t) : Built scope t
  | appendElement {s t : Schema} {e : Element Schema} (hs : Built scope s) (he : Built scope e.type)
      (h : s.appendElement e = .ok t) : Built scope t
  | appendRest {s t item : Schema} (hs : Built scope s) (hi : Built scope item) (h : s.appendRest item = .ok t) :
      Built scope t
  | partialForm {s : Schema} (h : Built scope s) (path : List Nat) : Built scope (s.partialForm path)
  | record {key value t : Schema} {readonly : Bool} (hk : Built scope key) (hv : Built scope value)
      (h : Schema.record key value readonly = .ok t) : Built scope t
  | keyof {s t : Schema} (hs : Built scope s) (hf : ∀ u, scope.Forces s u → Built scope u)
      (h : scope.keyof s = .ok t) : Built scope t
  | pick {s t : Schema} {keys : List Value} (hs : Built scope s) (hf : ∀ u, scope.Forces s u → Built scope u)
      (h : scope.pick s keys = .ok t) : Built scope t
  | without {s t : Schema} {keys : List Value} (hs : Built scope s) (hf : ∀ u, scope.Forces s u → Built scope u)
      (h : scope.without s keys = .ok t) : Built scope t
  | extend {s t u : Schema} (hs : Built scope s) (hfs : ∀ v, scope.Forces s v → Built scope v) (ht : Built scope t)
      (hft : ∀ v, scope.Forces t v → Built scope v) (h : scope.extend s t = .ok u) : Built scope u

theorem Built.canonical (h : scope.Built s) : s.Canonical := by
  induction h with
  | typeAlias a _ _ hp ht =>
    refine .intro trivial fun t htm => ?_
    rcases List.mem_append.mp htm with h | h
    · exact hp t h
    · rwa [List.mem_singleton.mp h]
  | literal | uniqueSymbol | keyword | enums | template | lazy => exact .leaf trivial rfl
  | tuple a readonly _ _ he hr => exact .tuple he hr a readonly
  | refinement a p _ h => exact .intro trivial fun t ht => by rwa [List.mem_singleton.mp ht]
  | transform a c _ _ hs ht =>
    refine .intro trivial fun t htm => ?_
    rcases List.mem_cons.mp htm with rfl | h
    · exact hs
    · rwa [List.mem_singleton.mp h]
  | structOf _ _ _ a hp hk hi => exact .structOf hp (fun i him => ⟨hk i him, hi i him⟩) a
  | oneOf _ a h => exact .oneOf h a
  | nullable _ h =>
    refine .oneOf (fun c hc => ?_) _
    rcases List.mem_cons.mp hc with rfl | hc
    · exact h
    · rw [List.mem_singleton.mp hc]
      exact .leaf trivial rfl
  | annotate _ overlay h => exact h.annotate overlay
  | templateUnion _ h _ => exact Schema.canonical_templateUnion h
  | appendElement _ _ h hs he => exact hs.appendElement he h
  | appendRest _ _ h hs hi => exact hs.appendRest hi h
  | partialForm _ path h => exact h.partialForm path
  | record _ _ h hk hv => exact Schema.canonical_record hk hv h
  | keyof _ _ h hs hf => exact canonical_keyof (fun _ => canonical_behind hs hf) h
  | pick _ _ h hs hf => exact canonical_pick (fun _ => canonical_behind hs hf) h
  | without _ _ h hs hf => exact canonical_without (fun _ => canonical_behind hs hf) h
  | extend _ _ _ _ h hs hfs ht hft =>
    exact canonical_extend (fun _ => canonical_behind hs hfs) (fun _ => canonical_behind ht hft) h

/-! ### Inside a schema -/

/-- The schemas that are anywhere inside a schema or behind its lazy schemas, itself included. -/
def Inside (scope : Scope) : Schema → Schema → Prop :=
  Relation.ReflTransGen fun s t => t ∈ scope.unfolding Schema.held s

/-- The partial forms behind handles are canonical when the schemas of the table are. -/
theorem canonical_force (h : ∀ i t, scope.deferred.lookup i = some (.ok t) → t.Canonical) {handle : Handle}
    (hf : scope.force handle = .ok t) : t.Canonical := by
  induction handle generalizing t with
  | root i =>
    rw [force] at hf
    split at hf
    · rename_i hl
      exact h i t (hf ▸ hl)
    · cases hf
  | partialOf handle path ih =>
    obtain ⟨u, hu, hf⟩ := bind_eq_ok_iff.mp hf
    obtain rfl := Except.ok.inj hf
    exact (ih hu).partialForm path

/-- Whatever is inside a built schema is canonical, if the deferred schemas are built as well. -/
theorem canonical_of_inside (hd : ∀ i t, scope.deferred.lookup i = some (.ok t) → scope.Built t)
    (hs : scope.Built s) (h : scope.Inside s t) : t.CanonicalNode := by
  have hc : t.Canonical := by
    induction h with
    | refl => exact hs.canonical
    | @tail u v _ hv ih =>
      cases u with
      | lazy a handle => exact canonical_force (fun i t hl => (hd i t hl).canonical) (mem_unfolding_lazy.mp hv)
      | _ => exact ih.held hv
  exact hc.node

def link : Schema :=
  .structOf [⟨.text "value", .nullable (.word .number), false, true, .empty⟩,
    ⟨.text "next", .lazy .empty (.root 0), true, true, .empty⟩] [] .empty

/-- The first value of a chain, picked through a lazy schema, and the whole chain behind it. -/
theorem canonical_of_inside_link :
    let scope := Stock.scope [(0, .ok link)]
    let chain := Schema.lazy .empty (.root 0)
    ∃ first, scope.pick chain [.text "value"] = .ok first ∧
      scope.Inside (.tuple .empty [⟨first, false⟩, ⟨chain, false⟩] none true) link ∧
      ∀ t, scope.Inside (.tuple .empty [⟨first, false⟩, ⟨chain, false⟩] none true) t → t.CanonicalNode := by
  intro scope chain
  have hlink : scope.Built link := by
    refine .structOf ?_ (by simp) (by simp) _
    simp only [List.forall_mem_cons]
    exact ⟨.nullable (.keyword _ _), .lazy _ _, by simp⟩
  have hforce : link ∈ scope.unfolding Schema.held chain := mem_unfolding_lazy.mpr rfl
  have hforces : ∀ u, scope.Forces chain u → scope.Built u := by
    rintro u ⟨a, h, hb, hf⟩
    rcases Relation.ReflTransGen.cases_head hb with heq | ⟨t, ht, hb⟩
    · obtain ⟨_, rfl⟩ := Schema.lazy.inj heq
      obtain rfl := Except.ok.inj hf
      exact hlink
    · obtain rfl : link = t := Except.ok.inj (mem_unfolding_lazy.mp ht)
      rcases Relation.ReflTransGen.cases_head hb with heq | ⟨_, ht, _⟩
      · cases heq
      · cases ht
  have hdeferred : ∀ i t, scope.deferred.lookup i = some (.ok t) → scope.Built t := by
    intro i t h
    have hl : List.lookup i [(0, Except.ok link)] = some (.ok t) := h
    rw [List.lookup_cons] at hl
    split at hl
    · obtain rfl := Except.ok.inj (Option.some.inj hl)
      exact hlink
    · cases hl
  refine ⟨_, rfl, ?_, fun t ht => canonical_of_inside hdeferred ?_ ht⟩
  · exact .head (List.mem_cons_of_mem _ List.mem_cons_self) (.single hforce)
  · refine .tuple _ _ ?_ (fun _ hr => absurd hr (Option.not_mem_none _))
    simp only [List.forall_mem_cons]
    exact ⟨.pick (.lazy _ _) hforces rfl, .lazy _ _, by simp⟩

end Schemata.Scope
