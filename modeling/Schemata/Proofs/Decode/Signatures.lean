import Schemata.Proofs.Decode.Accepted
import Schemata.Proofs.Decode.Canonical
import Schemata.Proofs.Schema.Unfolding

/-!
What a schema declares of its keys holds of every mapping that it accepts. A union accepts what some member accepts, and
what the member declares of a key is among what has been merged for it.
-/
namespace Schemata

namespace Scope
variable {scope : Scope} {direction : Direction} {lenient : Bool} {s t : Schema} {x : Value}

/-! ### Canonical unions of well-behaved schemas -/

theorem Productive.alternative (h : scope.Productive direction s) (ht : t ∈ s.alternatives) :
    scope.Productive direction t := by
  cases s with
  | union a ss => exact h.part (.child ht)
  | _ =>
    obtain rfl := List.mem_singleton.mp ht
    exact h

/-- A schema is productive when nothing faults at the node itself and what it leads to is productive. -/
theorem Productive.of_next (hs : scope.Steady direction s)
    (hn : ∀ t ∈ scope.next s, scope.Productive direction t) : scope.Productive direction s := by
  have parts {t : Schema} (ht : scope.Part s t) : t = s ∨ ∃ u ∈ scope.next s, scope.Part u t := by
    rcases Relation.ReflTransGen.cases_head ht with rfl | ⟨u, hu, hut⟩
    · exact .inl rfl
    · exact .inr ⟨u, hu, hut⟩
  refine ⟨fun t ht => ?_, fun a h ht => ?_, fun a t p ht => ?_, fun a ht => ?_, fun a t u c ht => ?_⟩
  · rcases parts ht with rfl | ⟨u, hu, hut⟩
    · exact .intro _ fun u hu => (hn u (mem_next_of_exposed hu)).guarded u (.refl scope u)
    · exact (hn u hu).guarded t hut
  · rcases parts ht with rfl | ⟨u, hu, hut⟩
    · exact hs
    · exact (hn u hu).forced a h hut
  · rcases parts ht with rfl | ⟨u, hu, hut⟩
    · exact hs
    · exact (hn u hu).tested a t p hut
  · rcases parts ht with rfl | ⟨u, hu, hut⟩
    · exact hs rfl
    · exact (hn u hu).members a hut
  · rcases parts ht with rfl | ⟨u', hu, hut⟩
    · exact hs
    · exact (hn u' hu).converted a t u c hut

theorem productive_keyword (a : Annotations) (word : Keyword) : scope.Productive direction (.keyword a word) :=
  .of_next trivial fun _ ht => absurd ht List.not_mem_nil

theorem Productive.oneOf {cs : List Schema} (h : ∀ c ∈ cs, scope.Productive direction c) (a : Annotations) :
    scope.Productive direction (.oneOf cs a) := by
  have hu : ∀ s ∈ Schema.unify cs, scope.Productive direction s :=
    Schema.forall_unify fun c hc _ hs => (h c hc).alternative hs
  rcases Schema.oneOf_eq cs a with ⟨_, hc⟩ | ⟨s, hs, hc⟩ | ⟨hne, hc⟩
  · rw [hc]
    exact productive_keyword _ _
  · rw [hc]
    exact hu s (by simp [hs])
  · rw [hc]
    refine .of_next (fun hr => hne ?_) fun s hs => hu s (Schema.mem_ranked.mp hs)
    rw [← List.length_eq_zero_iff, ← List.length_mergeSort, List.length_eq_zero_iff]
    exact hr

theorem Conventional.oneOf {cs : List Schema} (h : ∀ c ∈ cs, scope.Conventional c) (a : Annotations) :
    scope.Conventional (.oneOf cs a) := by
  have hu : ∀ s ∈ Schema.unify cs, scope.Conventional s :=
    Schema.forall_unify fun c hc _ hs => (h c hc).alternative hs
  rcases Schema.oneOf_eq cs a with ⟨_, hc⟩ | ⟨s, hs, hc⟩ | ⟨_, hc⟩
  · rw [hc]
    exact conventional_of_next trivial fun _ ht => absurd ht List.not_mem_nil
  · rw [hc]
    exact hu s (by simp [hs])
  · rw [hc]
    exact conventional_of_next trivial fun s hs => hu s (Schema.mem_ranked.mp hs)

/-- A schema on which nothing faults, of names and values that equality can tell apart. -/
structure WellBehaved (scope : Scope) (direction : Direction) (s : Schema) : Prop where
  productive : scope.Productive direction s
  conventional : scope.Conventional s

namespace WellBehaved

theorem part (h : scope.WellBehaved direction s) (ht : scope.Part s t) : scope.WellBehaved direction t :=
  ⟨h.productive.part ht, fun u hu => h.conventional u (ht.trans hu)⟩

theorem of_next (hs : scope.Steady direction s) (hc : s.Conventional)
    (hn : ∀ t ∈ scope.next s, scope.WellBehaved direction t) : scope.WellBehaved direction s :=
  ⟨.of_next hs fun t ht => (hn t ht).productive, conventional_of_next hc fun t ht => (hn t ht).conventional⟩

theorem alternative (h : scope.WellBehaved direction s) (ht : t ∈ s.alternatives) : scope.WellBehaved direction t :=
  ⟨h.productive.alternative ht, h.conventional.alternative ht⟩

theorem oneOf {cs : List Schema} (h : ∀ c ∈ cs, scope.WellBehaved direction c) (a : Annotations) :
    scope.WellBehaved direction (.oneOf cs a) :=
  ⟨.oneOf (fun c hc => (h c hc).productive) a, .oneOf (fun c hc => (h c hc).conventional) a⟩

theorem yields (h : scope.WellBehaved direction s) (x : Value) : ∃ o, scope.Yields direction s x o :=
  answers_iff.mp (h.productive.answers x)

/-- What a candidate accepts, the canonical union accepts. -/
theorem passes_oneOf {cs : List Schema} (h : ∀ c ∈ cs, scope.WellBehaved direction c) {c : Schema} (hc : c ∈ cs)
    (hx : scope.Passes direction true c x) (a : Annotations) : scope.Passes direction true (.oneOf cs a) x := by
  obtain ⟨o, ho, hpass⟩ := exists_yields_oneOf (fun c hc => (h c hc).conventional)
    (fun c hc s hs => ((h c hc).alternative hs).yields x) a
  exact ⟨o, ho, hpass.mpr ⟨c, hc, hx⟩⟩

end WellBehaved

/-! ### Looking through wrappers -/

/-- No transform is met when wrappers are looked through. -/
def Untransformed (scope : Scope) (s : Schema) : Prop :=
  ∀ a u v c, ¬scope.Behind s (.transform a u v c)

theorem Untransformed.behind (hs : scope.Untransformed s) (h : scope.Behind s t) : scope.Untransformed t :=
  fun a u v c ht => hs a u v c (h.trans ht)

theorem mem_exposed_of_unfolding (ht : ∀ a u v c, s ≠ .transform a u v c)
    (h : t ∈ scope.unfolding Schema.behind s) : t ∈ scope.exposed s := by
  cases s with
  | transform a u v c => exact absurd rfl (ht a u v c)
  | typeAlias | refinement | union | lazy => exact h
  | _ => cases h

theorem Untransformed.part (hs : scope.Untransformed s) (h : scope.Behind s t) : scope.Part s t := by
  induction h with
  | refl => exact .refl scope s
  | tail hu ht ih =>
    refine ih.tail (mem_next_of_exposed (mem_exposed_of_unfolding ?_ ht))
    rintro a u v c rfl
    exact hs a u v c hu

/-- Where no part is a transform, none is met. -/
theorem untransformed_of_parts (h : ∀ a u v c, ¬scope.Part s (.transform a u v c)) : scope.Untransformed s := by
  have hpart {t : Schema} (ht : scope.Behind s t) : scope.Part s t := by
    induction ht with
    | refl => exact .refl scope s
    | tail _ hu ih =>
      refine ih.tail (mem_next_of_exposed (mem_exposed_of_unfolding ?_ hu))
      rintro a u v c rfl
      exact h a u v c ih
  exact fun a u v c ht => h a u v c (hpart ht)

theorem Productive.unfolds (h : scope.Productive direction s) (hs : scope.Untransformed s) : scope.Unfolds s where
  forced a handle hb := h.forced a handle (hs.part hb)
  guarded := by
    have hacc := h.guarded s (.refl scope s)
    clear h
    induction hacc with
    | intro s _ ih =>
      refine .intro _ fun t ht => ih t (mem_exposed_of_unfolding ?_ ht) (hs.behind (.single ht))
      rintro a u v c rfl
      exact hs a u v c .refl

theorem Passes.force {a : Annotations} {h : Handle} (hx : scope.Passes direction lenient (.lazy a h) x) :
    ∃ t, scope.force h = .ok t ∧ scope.Passes direction lenient t x := by
  obtain ⟨o, ⟨n, hn⟩, ho⟩ := hx
  cases n with
  | zero => cases hn
  | succ n =>
    rw [run_lazy_succ] at hn
    obtain ⟨t, ht, hn⟩ := bind_eq_ok_iff.mp hn
    exact ⟨t, ht, o, ⟨n, hn⟩, ho⟩

/-- What a schema accepts is accepted at an end of its spine, if it is so for lazy schemas. -/
theorem Passes.exists_leads {unfold : Handle → Spine}
    (hu : ∀ a h, scope.Passes direction lenient (.lazy a h) x → scope.Untransformed (.lazy a h) → (unfold h).Whole →
      ∃ t, (unfold h).Leads t ∧ scope.Passes direction lenient t x)
    (h : scope.Passes direction lenient s x) (hs : scope.Untransformed s) (hw : (s.spine unfold).Whole) :
    ∃ t, (s.spine unfold).Leads t ∧ scope.Passes direction lenient t x := by
  induction s using Schema.heldInduction with
  | step s ih =>
    have wrapped {t : Schema} (ht : t ∈ s.behind) (h : scope.Passes direction lenient t x)
        (hw : (t.spine unfold).Whole) : ∃ u, (t.spine unfold).Leads u ∧ scope.Passes direction lenient u x :=
      ih t (Schema.mem_held_of_behind ht) h (hs.behind (.single (mem_unfolding_behind ht))) hw
    cases s with
    | typeAlias a ps t =>
      simp only [Passes, Yields, run_alias] at h
      exact wrapped (t := t) List.mem_cons_self h hw
    | lazy a handle => exact hu a handle h hs hw
    | transform a u v c => exact absurd .refl (hs a u v c)
    | refinement a t p =>
      obtain ⟨o, ⟨n, hn⟩, ho⟩ := h
      rw [run_refinement] at hn
      have ht := Refinement.parse_accepts hn (Outcome.isFailure_of_passes ho)
      exact wrapped (t := t) List.mem_cons_self ⟨o, ⟨n, ht⟩, ho⟩ hw
    | union a ss =>
      obtain ⟨o, ⟨n, hn⟩, ho⟩ := h
      rw [run_union] at hn
      obtain ⟨p, hp, hpx⟩ := Union.parse_accepts hn (Outcome.isFailure_of_passes ho)
      obtain ⟨t, ht, rfl⟩ := List.mem_map.mp hp
      rw [Schema.spine_union] at hw ⊢
      cases hw with
      | fork hw =>
        have hm := List.mem_map_of_mem (f := Schema.spine unfold) ht
        obtain ⟨u, hl, hu⟩ := wrapped ht ⟨o, ⟨n, hpx⟩, ho⟩ (hw _ hm)
        exact ⟨u, .fork hm hl, hu⟩
    | _ => exact ⟨_, .node _, h⟩

theorem Passes.exists_leads_unfoldSpine {n : Nat} {a : Annotations} {h : Handle}
    (hx : scope.Passes direction lenient (.lazy a h) x) (hs : scope.Untransformed (.lazy a h))
    (hw : (scope.unfoldSpine n h).Whole) :
    ∃ t, (scope.unfoldSpine n h).Leads t ∧ scope.Passes direction lenient t x := by
  induction n generalizing a h with
  | zero => cases hw
  | succ n ih =>
    obtain ⟨t, ht, htx⟩ := hx.force
    rw [unfoldSpine, ht] at hw ⊢
    exact htx.exists_leads (fun _ _ => ih) (hs.behind (.single (mem_unfolding_lazy.mpr ht))) hw

theorem Passes.exists_leads_spine (h : scope.Passes direction lenient s x) (hs : scope.Untransformed s)
    (hw : (scope.spine s).Whole) : ∃ t, (scope.spine s).Leads t ∧ scope.Passes direction lenient t x :=
  h.exists_leads (fun _ _ => Passes.exists_leads_unfoldSpine) hs hw

/-! ### What containers accept -/

variable {a : Annotations}

theorem passes_iff_exists_run : scope.Passes direction true t x ↔
    ∃ n, ∃ o, scope.run direction n t x = .ok o ∧ o.isFailure = false := by
  simp only [Passes, Outcome.passes_true, Yields]
  constructor
  · rintro ⟨o, ⟨n, hn⟩, ho⟩
    exact ⟨n, o, hn, ho⟩
  · rintro ⟨n, o, hn, ho⟩
    exact ⟨o, ⟨n, hn⟩, ho⟩

theorem Passes.eventually (h : scope.Passes direction true t x) :
    ∀ᶠ n in Filter.atTop, ∃ o, scope.run direction n t x = .ok o ∧ o.isFailure = false := by
  obtain ⟨o, ho, hpass⟩ := h
  exact ho.eventually.mono fun n hn => ⟨o, hn, (Outcome.passes_true o).mp hpass⟩

section
variable {ps : List (Property Schema)} {is : List (IndexSignature Schema)} {es : Entries}

theorem run_struct_passes_iff {n : Nat} (hx : x.entries? = some es) :
    (∃ o, scope.run direction n (.struct a ps is) x = .ok o ∧ o.isFailure = false) ↔
      Struct.Suits (fun t v => ∃ o, scope.run direction n t v = .ok o ∧ o.isFailure = false) ps is es := by
  rw [run_struct, ← Struct.passes_steps_iff]
  simp only [Struct.parse_accepts_iff, hx, Option.some.injEq, exists_eq_left']
  exact ⟨fun ⟨_, hs, _⟩ => hs, fun hs => ⟨_, hs, rfl⟩⟩

/-- A struct accepts the tables that suit it. -/
theorem passes_struct_iff (hx : x.entries? = some es) :
    scope.Passes direction true (.struct a ps is) x ↔ Struct.Suits (scope.Passes direction true) ps is es := by
  constructor
  · intro h
    obtain ⟨n, hn⟩ := passes_iff_exists_run.mp h
    have hsuits := (run_struct_passes_iff hx).mp hn
    refine ⟨fun p hp v hv => ?_, hsuits.missing, fun e he hd i hi hc => ?_⟩
    · exact passes_iff_exists_run.mpr ⟨n, hsuits.property p hp v hv⟩
    · have hindex := hsuits.index e he hd i hi hc
      exact ⟨passes_iff_exists_run.mpr ⟨n, hindex.1⟩, passes_iff_exists_run.mpr ⟨n, hindex.2⟩⟩
  · intro h
    let Good (n : Nat) (t : Schema) (v : Value) : Prop := ∃ o, scope.run direction n t v = .ok o ∧ o.isFailure = false
    -- The members need not all take the same fuel.
    have hproperty : ∀ᶠ n in Filter.atTop, ∀ p ∈ ps, ∀ v ∈ (es.lookup p.name).toList, Good n p.type v :=
      eventually_forall_mem fun p hp => eventually_forall_mem fun v hv =>
        (h.property p hp v (Option.mem_toList.mp hv)).eventually
    have hindex : ∀ᶠ n in Filter.atTop, ∀ e ∈ es, ∀ i ∈ is.filter fun i => i.claims e.1,
        e.1.occursIn (ps.map fun p => p.name) = false → Good n i.parameter e.1 ∧ Good n i.type e.2 := by
      refine eventually_forall_mem fun e he => eventually_forall_mem fun i hi => ?_
      obtain ⟨hi, hc⟩ := List.mem_filter.mp hi
      by_cases hd : e.1.occursIn (ps.map fun p => p.name) = false
      · obtain ⟨hk, hv⟩ := h.index e he hd i hi hc
        exact (hk.eventually.and hv.eventually).mono fun n hn _ => hn
      · exact .of_forall fun n hd' => absurd hd' hd
    obtain ⟨n, hp, hi⟩ := (hproperty.and hindex).exists
    refine passes_iff_exists_run.mpr ⟨n, (run_struct_passes_iff hx).mpr ⟨fun p hmem v hv => ?_, h.missing, ?_⟩⟩
    · exact hp p hmem v (Option.mem_toList.mpr hv)
    · exact fun e he hd i hmem hc => hi e he i (List.mem_filter.mpr ⟨hmem, hc⟩) hd

end

section
variable {es : List (Element Schema)} {rest : Option (Rest Schema)} {readonly : Bool} {items : List Value}

theorem run_tuple_passes_iff {n : Nat} (hx : x.items? = some items) :
    (∃ o, scope.run direction n (.tuple a es rest readonly) x = .ok o ∧ o.isFailure = false) ↔
      Tuple.Suits (fun t v => ∃ o, scope.run direction n t v = .ok o ∧ o.isFailure = false) es rest items := by
  rw [run_tuple, ← Tuple.passes_steps_iff]
  simp only [Tuple.parse_accepts_iff, hx, Option.some.injEq, exists_eq_left']
  exact ⟨fun ⟨_, hs, _⟩ => hs, fun hs => ⟨_, hs, rfl⟩⟩

/-- A tuple accepts the items that suit it. -/
theorem passes_tuple_iff (hx : x.items? = some items) :
    scope.Passes direction true (.tuple a es rest readonly) x ↔
      Tuple.Suits (scope.Passes direction true) es rest items := by
  constructor
  · intro h
    obtain ⟨n, hn⟩ := passes_iff_exists_run.mp h
    have hsuits := (run_tuple_passes_iff hx).mp hn
    exact ⟨hsuits.gaps, fun i t v ht hv => passes_iff_exists_run.mpr ⟨n, hsuits.item i t v ht hv⟩⟩
  · intro h
    have hitems : ∀ᶠ n in Filter.atTop, ∀ i ∈ List.range items.length, ∀ t v,
        (Tuple.assigned es rest items.length)[i]? = some (some t) → items[i]? = some v →
          ∃ o, scope.run direction n t v = .ok o ∧ o.isFailure = false := by
      refine eventually_forall_mem fun i _ => ?_
      by_cases hi : ∃ t v, (Tuple.assigned es rest items.length)[i]? = some (some t) ∧ items[i]? = some v
      · obtain ⟨t, v, ht, hv⟩ := hi
        refine (h.item i t v ht hv).eventually.mono fun n hn t' v' ht' hv' => ?_
        obtain rfl := Option.some.inj (Option.some.inj (ht.symm.trans ht'))
        obtain rfl := Option.some.inj (hv.symm.trans hv')
        exact hn
      · exact .of_forall fun n t v ht hv => absurd ⟨t, v, ht, hv⟩ hi
    obtain ⟨n, hn⟩ := hitems.exists
    refine passes_iff_exists_run.mpr ⟨n, (run_tuple_passes_iff hx).mpr ⟨h.gaps, fun i t v ht hv => ?_⟩⟩
    obtain ⟨hi, _⟩ := List.getElem?_eq_some_iff.mp hv
    exact hn i (List.mem_range.mpr hi) t v ht hv

end

/-! ### Declared keys -/

/-- What is declared of a key is true of the entries: its value is accepted, or it may be missing. -/
def Satisfies (scope : Scope) (es : Entries) (p : Property Schema) : Prop :=
  match es.lookup p.name with
  | some v => scope.Passes .decode true p.type v
  | none => p.optional

variable {es : Entries}

theorem satisfies_iff {p : Property Schema} : scope.Satisfies es p ↔
    (∀ v, es.lookup p.name = some v → scope.Passes .decode true p.type v) ∧
      (es.lookup p.name = none → p.optional) := by
  rw [Satisfies]
  cases es.lookup p.name <;> simp

/-- The keys that a struct declares are true of what it accepts. -/
theorem Passes.satisfies {ps : List (Property Schema)} {is : List (IndexSignature Schema)}
    (h : scope.Passes .decode true (.struct a ps is) x) (hx : x.entries? = some es) :
    ∀ p ∈ ps, scope.Satisfies es p := by
  intro p hp
  have hsuits := (passes_struct_iff hx).mp h
  exact satisfies_iff.mpr ⟨hsuits.property p hp, hsuits.missing p hp⟩

/-- A struct of keys that are true of a mapping accepts it; other keys are only unexpected. -/
theorem passes_structOf {ps : List (Property Schema)} (h : ∀ p ∈ ps, scope.Satisfies es p)
    (hx : x.entries? = some es) (a : Annotations) : scope.Passes .decode true (.structOf ps [] a) x := by
  have hsat : ∀ p ∈ Schema.rankedProperties ps, scope.Satisfies es p := fun p hp => h p (List.mem_mergeSort.mp hp)
  rw [Schema.structOf, passes_struct_iff hx]
  refine ⟨fun p hp => (satisfies_iff.mp (hsat p hp)).1, fun p hp => (satisfies_iff.mp (hsat p hp)).2, ?_⟩
  simp [Schema.rankedIndexes]

/-! ### Declared keys of a spine -/

theorem isName_of_conventional (h : s.Conventional) : ∀ k ∈ Spine.nodeKeys s, k.isName := by
  intro k hk
  cases s with
  | struct a ps is =>
    obtain ⟨p, hp, rfl⟩ := List.mem_map.mp hk
    exact h p hp
  | tuple a es r readonly =>
    obtain ⟨i, _, rfl⟩ := List.mem_map.mp hk
    rfl
  | _ => cases hk

/-- A node that accepts a mapping and declares keys is a struct. -/
theorem Passes.satisfies_node (h : scope.Passes .decode true s x) (hx : x.entries? = some es) :
    ∀ q ∈ Spine.nodeProperties s, scope.Satisfies es q := by
  intro q hq
  cases s with
  | struct a ps is => exact h.satisfies hx q hq
  | tuple a fs r readonly =>
    obtain ⟨o, ⟨n, hn⟩, ho⟩ := h
    rw [run_tuple] at hn
    obtain ⟨items, hi, _⟩ := Tuple.parse_accepts_iff.mp ⟨hn, (Outcome.passes_true o).mp ho⟩
    cases x <;> simp [Value.entries?, Value.items?] at hx hi
  | _ => cases hq

variable {p : Spine}

/-- The types of keys are well-behaved when the ends of the spine are. -/
theorem wellBehaved_properties (hp : ∀ s, p.Leads s → scope.WellBehaved .decode s) {qs : List (Property Schema)}
    (h : p.properties = .ok qs) : ∀ q ∈ qs, scope.WellBehaved .decode q.type := by
  refine Spine.forall_properties (fun s hs q hq => ?_) (fun _ hts => .oneOf hts _) h
  cases s with
  | struct a ps is => exact (hp _ hs).part (.child (Schema.mem_children_of_property hq))
  | tuple a es r readonly =>
    obtain ⟨⟨e, i⟩, he, rfl⟩ := List.mem_map.mp hq
    exact (hp _ hs).part (.child (Schema.mem_children_of_element (List.fst_mem_of_mem_zipIdx he)))
  | _ => cases hq

theorem isName_keys (hp : ∀ s, p.Leads s → scope.WellBehaved .decode s) {ks : List Value} (h : p.keys = .ok ks) :
    ∀ k ∈ ks, k.isName :=
  Spine.forall_keys (fun s hs => isName_of_conventional ((hp s hs).conventional s (.refl scope s))) h

/-- A key of a union is declared by every member. -/
theorem exists_declared {ms : List Spine} (hms : ∀ s, (Spine.fork ms).Leads s → scope.WellBehaved .decode s)
    {keys : List Value} (hk : (Spine.fork ms).keys = .ok keys) {key : Value} (hkey : key ∈ keys) {m : Spine}
    (hm : m ∈ ms) {ps : List (Property Schema)} (hps : m.properties = .ok ps) : ∃ r ∈ ps, r.name = key := by
  have hname := isName_keys hms hk key hkey
  obtain ⟨kss, hkss, rfl⟩ := Spine.keys_fork_eq_ok_iff.mp hk
  obtain ⟨ks, hmem, hmk⟩ := Lists.exists_of_mem_left hkss hm
  obtain rfl : ps.map (fun q => q.name) = ks := Except.ok.inj ((Spine.keys_of_properties hps).symm.trans hmk)
  -- The first member has the key itself, any other one an equal key.
  obtain ⟨y, hy, hyk⟩ : ∃ y ∈ ps.map (fun q => q.name), y = key ∨ y.equals key := by
    cases kss with
    | nil => cases hmem
    | cons first others =>
      obtain ⟨hfirst, hothers⟩ := Spine.mem_intersect.mp hkey
      rcases List.mem_cons.mp hmem with rfl | hmem
      · exact ⟨key, hfirst, .inl rfl⟩
      · obtain ⟨y, hy, hyk⟩ := hothers _ hmem
        exact ⟨y, hy, .inr hyk⟩
  have hyname := isName_keys (fun s hs => hms s (.fork hm hs)) hmk y hy
  have heq : y = key := hyk.elim id (Value.eq_of_isName hyname hname)
  obtain ⟨r, hr, rfl⟩ := List.mem_map.mp hy
  exact ⟨r, hr, heq⟩

/-- What is true of a key by one declaration is true of it when declarations are merged. -/
theorem Satisfies.merged {all : List (Property Schema)} (hw : ∀ r ∈ all, scope.WellBehaved .decode r.type)
    {r : Property Schema} (hr : r ∈ all) (hn : r.name.isName) (h : scope.Satisfies es r) :
    scope.Satisfies es (Spine.mergedProperty all r.name) := by
  have hmatch : r ∈ all.filter fun p => p.name.equals r.name :=
    List.mem_filter.mpr ⟨hr, Value.equals_self_of_isName hn⟩
  simp only [Satisfies, Spine.mergedProperty] at h ⊢
  split
  · rename_i v hv
    simp only [hv] at h
    refine WellBehaved.passes_oneOf (fun t ht => ?_) (List.mem_map_of_mem hmatch) h _
    obtain ⟨q, hq, rfl⟩ := List.mem_map.mp ht
    exact hw q (List.mem_of_mem_filter hq)
  · rename_i hv
    simp only [hv] at h
    exact List.any_eq_true.mpr ⟨r, hmatch, h⟩

/-- The keys that a spine declares are true of what is accepted at one of its ends. -/
theorem satisfies_properties (hp : ∀ s, p.Leads s → scope.WellBehaved .decode s) {qs : List (Property Schema)}
    (h : p.properties = .ok qs) (ht : p.Leads t) (hx : scope.Passes .decode true t x)
    (hes : x.entries? = some es) : ∀ q ∈ qs, scope.Satisfies es q := by
  induction p using Spine.membersInduction generalizing qs with
  | node s =>
    obtain rfl := Except.ok.inj h
    cases ht
    exact hx.satisfies_node hes
  | broken f => cases h
  | fork ms ih =>
    obtain ⟨pss, keys, hpss, hk, rfl⟩ := Spine.properties_fork_eq_ok_iff.mp h
    intro q hq
    obtain ⟨key, hkey, rfl⟩ := List.mem_map.mp hq
    cases ht with
    | @fork _ m _ hm ht =>
      obtain ⟨ps, hps, hmp⟩ := Lists.exists_of_mem_left hpss hm
      obtain ⟨r, hr, rfl⟩ := exists_declared hp hk hkey hm hmp
      have hsat := ih m hm (fun s hs => hp s (.fork hm hs)) hmp ht r hr
      refine hsat.merged (fun q hq => ?_) (List.mem_flatten.mpr ⟨ps, hps, hr⟩) (isName_keys hp hk _ hkey)
      obtain ⟨ps', hps', hq⟩ := List.mem_flatten.mp hq
      obtain ⟨m', hm', hmp'⟩ := Lists.exists_of_mem_right hpss hps'
      exact wellBehaved_properties (fun s hs => hp s (.fork hm' hs)) hmp' q hq

/-- The keys that a schema declares are true of every mapping that it decodes, and so are the structs that keep some of
them. -/
theorem propertySignatures_sound (hs : scope.Productive .decode s) (hc : scope.Conventional s)
    (ht : scope.Untransformed s) (hx : x.entries? = some es) {o : Outcome} (ho : scope.Yields .decode s x o)
    (hf : o.isFailure = false) :
    ∃ all, scope.propertySignatures s = .ok all ∧ (∀ p ∈ all, scope.Satisfies es p) ∧
      ∀ keys, (∃ t q, scope.pick s keys = .ok t ∧ scope.Yields .decode t x q ∧ q.isFailure = false) ∧
        ∃ t q, scope.without s keys = .ok t ∧ scope.Yields .decode t x q ∧ q.isFailure = false := by
  have hw := (hs.unfolds ht).whole
  obtain ⟨all, hall⟩ := hw.exists_properties
  have hpass : scope.Passes .decode true s x := ⟨o, ho, (Outcome.passes_true o).mpr hf⟩
  obtain ⟨t, hl, htx⟩ := hpass.exists_leads_spine ht hw
  have hends : ∀ u, (scope.spine s).Leads u → scope.WellBehaved .decode u := fun u hu =>
    WellBehaved.part ⟨hs, hc⟩ (ht.part (behind_of_leads_spine hu))
  have hsat := satisfies_properties hends hall hl htx hx
  have kept (keep : Property Schema → Bool) :
      ∃ q, scope.Yields .decode (.structOf (all.filter keep) [] .empty) x q ∧ q.isFailure = false := by
    obtain ⟨q, hq, hpass⟩ := passes_structOf (fun p hp => hsat p (List.mem_of_mem_filter hp)) hx .empty
    exact ⟨q, hq, (Outcome.passes_true q).mp hpass⟩
  refine ⟨all, hall, hsat, fun keys => ⟨?_, ?_⟩⟩
  · obtain ⟨q, hq⟩ := kept fun p => p.name.occursIn keys
    exact ⟨_, q, bind_eq_ok_iff.mpr ⟨all, hall, rfl⟩, hq⟩
  · obtain ⟨q, hq⟩ := kept fun p => !p.name.occursIn keys
    exact ⟨_, q, bind_eq_ok_iff.mpr ⟨all, hall, rfl⟩, hq⟩

def numbered : Schema := .struct .empty
  [⟨.text "id", .keyword .empty .number, false, true, .empty⟩,
    ⟨.text "next", .lazy .empty (.root 0), true, true, .empty⟩] []

def named : Schema := .struct .empty
  [⟨.text "id", .keyword .empty .string, false, true, .empty⟩] []

def item : Schema :=
  .refinement .empty (.union .empty [.lazy .empty (.root 0), named]) (.named "always")

def itemParts : List Schema :=
  [item, .union .empty [.lazy .empty (.root 0), named], .lazy .empty (.root 0), numbered, named,
    .keyword .empty .number, .keyword .empty .string]

theorem mem_itemParts {t : Schema} (h : (Stock.scope [(0, .ok numbered)]).Part item t) : t ∈ itemParts := by
  refine Part.of_closed (by simp [itemParts]) (fun s hs t ht => ?_) h
  simp only [itemParts, List.mem_cons, List.not_mem_nil, or_false] at hs
  rcases hs with rfl | rfl | rfl | rfl | rfl | rfl | rfl
  · obtain rfl := List.mem_singleton.mp ht
    simp [itemParts]
  · simp only [next, Schema.children, List.mem_cons, List.not_mem_nil, or_false] at ht
    rcases ht with rfl | rfl <;> simp [itemParts]
  · obtain rfl := Except.ok.inj ((mem_next_lazy.mp ht).symm.trans (by rfl : _ = Except.ok numbered))
    simp [itemParts]
  · simp only [next, Schema.children, numbered, List.map_cons, List.map_nil, List.flatMap_nil, List.append_nil,
      List.mem_cons, List.not_mem_nil, or_false] at ht
    rcases ht with rfl | rfl <;> simp [itemParts]
  · obtain rfl := List.mem_singleton.mp ht
    simp [itemParts]
  · cases ht
  · cases ht

theorem productive_item : (Stock.scope [(0, .ok numbered)]).Productive .decode item where
  guarded := by
    let Ends (t : Schema) : Prop := Acc (fun u v => u ∈ (Stock.scope [(0, .ok numbered)]).exposed v) t
    have closed {t : Schema} (ht : (Stock.scope [(0, .ok numbered)]).exposed t = []) : Ends t :=
      .intro _ fun u hu => absurd hu (by simp [ht])
    have link : Ends (.lazy .empty (.root 0)) := .intro _ fun u hu => by
      obtain rfl := List.mem_singleton.mp hu
      exact closed rfl
    have either : Ends (.union .empty [.lazy .empty (.root 0), named]) := .intro _ fun u hu => by
      simp only [exposed, next, Schema.children, List.mem_cons, List.not_mem_nil, or_false] at hu
      rcases hu with rfl | rfl
      · exact link
      · exact closed rfl
    intro t ht
    have hmem := mem_itemParts ht
    simp only [itemParts, List.mem_cons, List.not_mem_nil, or_false] at hmem
    rcases hmem with rfl | rfl | rfl | rfl | rfl | rfl | rfl
    · refine .intro _ fun u hu => ?_
      obtain rfl := List.mem_singleton.mp hu
      exact either
    · exact either
    · exact link
    all_goals exact closed rfl
  forced a h ht := by
    have hmem := mem_itemParts ht
    simp [itemParts, item, numbered, named] at hmem
    obtain ⟨_, rfl⟩ := hmem
    exact ⟨numbered, rfl⟩
  tested a t p ht := by
    have hmem := mem_itemParts ht
    simp [itemParts, item, numbered, named] at hmem
    obtain ⟨_, _, rfl⟩ := hmem
    exact fun _ _ _ _ => ⟨true, rfl⟩
  members a ht := by
    have hmem := mem_itemParts ht
    simp [itemParts, item, numbered, named] at hmem
  converted a t u c ht := by
    have hmem := mem_itemParts ht
    simp [itemParts, item, numbered, named] at hmem

theorem conventional_item : (Stock.scope [(0, .ok numbered)]).Conventional item := by
  intro t ht
  have hmem := mem_itemParts ht
  simp only [itemParts, List.mem_cons, List.not_mem_nil, or_false] at hmem
  rcases hmem with rfl | rfl | rfl | rfl | rfl | rfl | rfl
  · trivial
  · trivial
  · trivial
  · simp [numbered, Schema.Conventional, Value.isName]
  · simp [named, Schema.Conventional, Value.isName]
  all_goals trivial

theorem not_part_transform_item (a : Annotations) (u v : Schema) (c : Conversion) :
    ¬(Stock.scope [(0, .ok numbered)]).Part item (.transform a u v c) := fun h => by
  have hmem := mem_itemParts h
  simp [itemParts, item, numbered, named] at hmem

/-- What is picked of an item accepts a numbered item that has a surplus entry. -/
theorem propertySignatures_sound_item :
    let scope := Stock.scope [(0, .ok numbered)]
    let x : Value := .dict [(.text "id", .int 1), (.text "surplus", .null)]
    (∃ o, scope.Yields .decode item x o ∧ o.isFailure = false) ∧
      ∃ t q, scope.pick item [.text "id"] = .ok t ∧ scope.Yields .decode t x q ∧ q.isFailure = false := by
  intro scope x
  have huntransformed : scope.Untransformed item := untransformed_of_parts not_part_transform_item
  have hx : scope.Yields .decode item x (.warning (.dict [(.text "id", .int 1)])
      [.within (.key (.text "surplus")) [.unexpected (.key (.text "surplus"))]]) := ⟨1, rfl⟩
  obtain ⟨all, _, _, hkeys⟩ := propertySignatures_sound productive_item conventional_item huntransformed rfl hx rfl
  exact ⟨⟨_, hx, rfl⟩, (hkeys [.text "id"]).1⟩

end Scope
end Schemata
