import Schemata.Proofs.Decode.Loss
import Schemata.Proofs.Decode.Termination
import Schemata.Proofs.Value.Order

/-!
A struct and its input in another order. The steps of a struct fall into groups, one for each declared key and one for
each entry, and what a group consists of does not depend on where it stands. Whether all steps pass does not depend on
the order of the groups, and no two groups keep members under one key.
-/
namespace Schemata

/-- Two outcomes that fail together, and otherwise hold the same mapping and the same warnings, each in an order of its
own. -/
structure Outcome.Reordered (o p : Outcome) : Prop where
  isFailure : o.isFailure = p.isFailure
  value : ∀ v w, o.value? = some v → p.value? = some w →
    v.same w ∧ ∃ es fs, v = .dict es ∧ w = .dict fs ∧ es.Perm fs
  warnings : o.isFailure = false → o.warnings.Perm p.warnings

theorem Outcome.reordered_of_failures {o p : Outcome} (ho : o.isFailure) (hp : p.isFailure) : o.Reordered p := by
  refine ⟨ho.trans hp.symm, fun v _ hv => ?_, fun h => ?_⟩
  · have := (Outcome.isFailure_iff o).mpr ⟨v, hv⟩
    simp [ho] at this
  · simp [ho] at h

theorem Outcome.reordered_warn {es fs : Entries} {ps qs : List Problem} (h : es.Perm fs) (hp : ps.Perm qs) :
    (Outcome.warn (.dict es) ps).Reordered (.warn (.dict fs) qs) := by
  refine ⟨by simp [Outcome.isFailure_warn], fun v w hv hw => ?_, fun _ => by simpa using hp⟩
  rw [Outcome.value?_warn, Option.some.injEq] at hv hw
  subst hv hw
  exact ⟨Entries.same_dict_of_perm h, es, fs, rfl, rfl, h⟩

theorem Step.segment_of_mem_members {s : Step (Except Fault)} {r : Segment × Value} (h : r ∈ s.members) :
    r.1 = s.segment := by
  cases s with
  | take segment p v =>
    rw [members] at h
    split at h
    · obtain ⟨w, _, rfl⟩ := List.mem_map.mp h
      rfl
    · cases h
  | check | missing | unexpected => cases h

namespace Struct

section
variable {m : Type → Type} {ps qs : List (Property (Parser m))} {is : List (Index m)} {es fs : Entries}

def groups (ps : List (Property (Parser m))) (is : List (Index m)) (es : Entries) : List (List (Step m)) :=
  ps.map (propertySteps es) ++ es.map (entrySteps (ps.map fun p => p.name) is)

theorem flatten_groups : (groups ps is es).flatten = steps ps is es := by
  rw [groups, steps, List.flatten_append, ← List.flatMap_def, ← List.flatMap_def]

/-- Neither order has a part in what the groups are. -/
theorem groups_perm (hps : ps.Perm qs) (hes : es.Perm fs) (hd : es.distinct) :
    (groups ps is es).Perm (groups qs is fs) := by
  have hlookup : propertySteps (m := m) fs = propertySteps es := by
    funext p
    rw [propertySteps, propertySteps, Entries.lookup_perm hes hd]
  have hnames : (ps.map fun p => p.name).Perm (qs.map fun p => p.name) := hps.map _
  have hoccurs (key : Value) : key.occursIn (qs.map fun p => p.name) = key.occursIn (ps.map fun p => p.name) := by
    rw [Bool.eq_iff_iff, Value.occursIn_iff, Value.occursIn_iff]
    simp only [hnames.mem_iff]
  have hentries : entrySteps (qs.map fun p => p.name) is = entrySteps (ps.map fun p => p.name) is := by
    funext e
    rw [entrySteps, entrySteps, hoccurs]
  rw [groups, groups, hlookup, hentries]
  exact (hps.map _).append (hes.map _)

theorem steps_perm (hps : ps.Perm qs) (hes : es.Perm fs) (hd : es.distinct) :
    (steps ps is es).Perm (steps qs is fs) := by
  rw [← flatten_groups, ← flatten_groups]
  exact (groups_perm hps hes hd).flatten

end

section
variable {ps qs : List (Property (Parser (Except Fault)))} {is : List (Index (Except Fault))} {es fs : Entries}

def stored (group : List (Step (Except Fault))) : Entries :=
  (group.flatMap Step.members).map fun e => (segmentKey e.1, e.2)

theorem rebuild_flatten (gs : List (List (Step (Except Fault)))) :
    rebuild (gs.flatten.flatMap Step.members) = .dict (Entries.ofList (gs.map stored).flatten) := by
  rw [rebuild]
  congr 2
  induction gs with
  | nil => rfl
  | cons g gs ih =>
    rw [List.flatten_cons, List.flatMap_append, List.map_append, ih]
    rfl

theorem mem_stored {group : List (Step (Except Fault))} {e : Value × Value} (h : e ∈ stored group) :
    ∃ s ∈ group, e.1 = segmentKey s.segment ∧ s.members ≠ [] := by
  obtain ⟨r, hr, rfl⟩ := List.mem_map.mp h
  obtain ⟨s, hs, hr⟩ := List.mem_flatMap.mp hr
  exact ⟨s, hs, congrArg segmentKey (Step.segment_of_mem_members hr), List.ne_nil_of_mem hr⟩

/-- A declared key that something is kept under is one of the keys of the input. -/
theorem stored_propertySteps (hd : es.distinct) {p : Property (Parser (Except Fault))} {e : Value × Value}
    (h : e ∈ stored (propertySteps es p)) : e.1 = p.name ∧ p.name.hashable := by
  obtain ⟨s, hs, hk, hm⟩ := mem_stored h
  rw [segment_propertySteps hs] at hk
  refine ⟨hk, ?_⟩
  rw [propertySteps] at hs
  split at hs
  · rename_i v hv
    obtain ⟨k, hkv, hkp⟩ := (Entries.lookup_eq_some_iff hd).mp hv
    exact (Value.hashable_congr hkp).mp (((Entries.distinct_iff es).mp hd).1 _ hkv)
  · split at hs
    · cases hs
    · obtain rfl := List.mem_singleton.mp hs
      exact absurd rfl hm

theorem stored_entrySteps {declared : List Value} {entry e : Value × Value}
    (h : e ∈ stored (entrySteps declared is entry)) : e.1 = entry.1 ∧ entry.1.occursIn declared = false := by
  obtain ⟨s, hs, hk, _⟩ := mem_stored h
  obtain ⟨hseg, hocc⟩ := segment_entrySteps hs
  rw [hseg] at hk
  exact ⟨hk, hocc⟩

/-- No two groups keep members under one key. -/
theorem pairwise_stored (hn : ps.Pairwise fun p q => p.name.equals q.name = false) (hd : es.distinct) :
    ((groups ps is es).map stored).Pairwise Entries.Apart := by
  have hkeys := ((Entries.distinct_iff es).mp hd).1
  rw [groups, List.map_append, List.map_map, List.map_map, List.pairwise_append]
  refine ⟨List.pairwise_map.mpr ?_, List.pairwise_map.mpr ?_, ?_⟩
  · refine hn.imp fun {p q} hpq e he f hf => ?_
    obtain ⟨hep, _⟩ := stored_propertySteps hd he
    obtain ⟨hfq, hq⟩ := stored_propertySteps hd hf
    rw [hep, hfq]
    exact ⟨hpq, Value.differs_symm hq hpq⟩
  · refine (Entries.pairwise_of_distinct hd).imp fun {e f} hef e' he f' hf => ?_
    rw [(stored_entrySteps he).1, (stored_entrySteps hf).1]
    exact hef
  · intro g hg k hk e he f hf
    obtain ⟨p, hp, rfl⟩ := List.mem_map.mp hg
    obtain ⟨entry, hentry, rfl⟩ := List.mem_map.mp hk
    obtain ⟨hep, _⟩ := stored_propertySteps hd he
    obtain ⟨hfe, hocc⟩ := stored_entrySteps hf
    have hne : p.name.equals entry.1 = false := Value.differs_of_not_occursIn hocc (List.mem_map_of_mem hp)
    rw [hep, hfe]
    exact ⟨hne, Value.differs_symm (hkeys entry hentry) hne⟩

variable {scope : Scope} {x y : Value} (a b : Annotations)

/-- Whether a struct accepts does not depend on either order. -/
theorem parse_accepts_reordered (hps : ps.Perm qs) (hx : x.entries? = some es) (hy : y.entries? = some fs)
    (hes : es.Perm fs) (hd : es.distinct) :
    (∃ o, parse scope a ps is x = .ok o ∧ o.isFailure = false) ↔
      ∃ o, parse scope b qs is y = .ok o ∧ o.isFailure = false := by
  have hsteps : (steps ps is es).Perm (steps qs is fs) := steps_perm hps hes hd
  simp only [parse_accepts_iff, hx, hy, Option.some.injEq, exists_eq_left', exists_and_left, exists_eq,
    and_true, hsteps.mem_iff]

/-- What a struct accepts comes out the same in either order, but for the order. -/
theorem parse_reordered (hps : ps.Perm qs) (hn : ps.Pairwise fun p q => p.name.equals q.name = false)
    (hx : x.entries? = some es) (hy : y.entries? = some fs) (hes : es.Perm fs) (hd : es.distinct) {o p : Outcome}
    (ho : parse scope a ps is x = .ok o) (hp : parse scope b qs is y = .ok p) : o.Reordered p := by
  have haccepts : (∃ o, parse scope a ps is x = .ok o ∧ o.isFailure = false) ↔
      ∃ p, parse scope b qs is y = .ok p ∧ p.isFailure = false :=
    parse_accepts_reordered a b hps hx hy hes hd
  simp only [ho, hp, Except.ok.injEq, exists_eq_left'] at haccepts
  cases hfail : o.isFailure with
  | true =>
    refine Outcome.reordered_of_failures hfail ?_
    by_contra hpf
    have := haccepts.mpr (by simpa using hpf)
    simp [hfail] at this
  | false =>
    obtain ⟨es', hes', _, rfl⟩ := parse_accepts_iff.mp ⟨ho, hfail⟩
    obtain ⟨fs', hfs', _, rfl⟩ := parse_accepts_iff.mp ⟨hp, haccepts.mp hfail⟩
    obtain rfl := Option.some.inj (hx.symm.trans hes')
    obtain rfl := Option.some.inj (hy.symm.trans hfs')
    have hgroups : (groups ps is es).Perm (groups qs is fs) := groups_perm hps hes hd
    rw [← flatten_groups, ← flatten_groups, rebuild_flatten, rebuild_flatten]
    apply Outcome.reordered_warn
    · exact Entries.ofList_flatten_perm (hgroups.map stored) (pairwise_stored hn hd)
    · exact hgroups.flatten.flatMap_right Step.warnings

end
end Struct

namespace Scope
variable {scope : Scope} {direction : Direction} {s t : Schema} {x y : Value}

/-- Two schemas do the same with a value each, but for the order of what they give and warn of. -/
structure AlikeButOrder (scope : Scope) (direction : Direction) (s : Schema) (x : Value) (t : Schema) (y : Value) :
    Prop where
  outcomes : ∀ o p, scope.Yields direction s x o → scope.Yields direction t y p → o.Reordered p
  accepts : (∃ o, scope.Yields direction s x o ∧ o.isFailure = false) ↔
    ∃ p, scope.Yields direction t y p ∧ p.isFailure = false

section
variable {ps qs : List (Property Schema)} {is : List (IndexSignature Schema)} {es fs : Entries} (a b : Annotations)

theorem alikeButOrder_struct (hps : ps.Perm qs) (hn : ps.Pairwise fun p q => p.name.equals q.name = false)
    (hx : x.entries? = some es) (hy : y.entries? = some fs) (hes : es.Perm fs) (hd : es.distinct) :
    scope.AlikeButOrder direction (.struct a ps is) x (.struct b qs is) y := by
  constructor
  · intro o p ho hp
    obtain ⟨n, ho, hp⟩ := (ho.eventually.and hp.eventually).exists
    rw [run_struct] at ho hp
    exact Struct.parse_reordered a b (hps.map _) (List.pairwise_map.mpr hn) hx hy hes hd ho hp
  · refine exists_yields_congr fun n => ?_
    rw [run_struct, run_struct]
    exact Struct.parse_accepts_reordered a b (hps.map _) hx hy hes hd

/-- A struct has an outcome when its members have one on whatever the value holds. -/
theorem exists_yields_struct
    (h : ∀ t ∈ (Schema.struct a ps is).children, ∀ w ∈ x.parts, scope.Answers direction t w) :
    ∃ o, scope.Yields direction (.struct a ps is) x o := by
  have hmembers := eventually_forall_mem fun t ht => eventually_forall_mem fun w hw => h t ht w hw
  obtain ⟨n, hn⟩ := hmembers.exists
  have hsteady : scope.Steady direction (.struct a ps is) := trivial
  obtain ⟨o, ho⟩ := hsteady.run rfl (fun _ ht => nomatch ht) hn
  exact ⟨o, n, ho⟩

theorem mem_children_struct_perm (hps : ps.Perm qs) {js : List (IndexSignature Schema)} (his : is.Perm js) {t : Schema}
    (h : t ∈ (Schema.struct a ps is).children) : t ∈ (Schema.struct b qs js).children := by
  rcases List.mem_append.mp h with h | h
  · exact List.mem_append_left _ ((hps.map _).mem_iff.mp h)
  · exact List.mem_append_right _ ((his.flatMap_right _).mem_iff.mp h)

theorem rankedProperties_perm (ps : List (Property Schema)) : (Schema.rankedProperties ps).Perm ps :=
  List.mergeSort_perm _ _

/-- Neither the order in which a struct declares its keys nor that in which a mapping lists its entries has a part in
what is accepted and what is made of it. So ranking the declared keys changes nothing about either; and where the
members of the struct come to an outcome on all that the mapping holds, every one of these structs has an outcome. -/
theorem struct_reordered (hps : ps.Perm qs) (hn : ps.Pairwise fun p q => p.name.equals q.name = false)
    (hx : x.entries? = some es) (hy : y.entries? = some fs) (hes : es.Perm fs) (hd : es.distinct) :
    scope.AlikeButOrder direction (.struct a ps is) x (.struct b qs is) y ∧
    scope.AlikeButOrder direction (.struct b ps (Schema.rankedIndexes is)) x (.structOf ps is a) y ∧
    ((∀ t ∈ (Schema.struct a ps is).children, ∀ w ∈ x.parts, scope.Answers direction t w) →
      (∃ o, scope.Yields direction (.struct a ps is) x o) ∧
      (∃ p, scope.Yields direction (.struct b qs is) y p) ∧
      ∃ r, scope.Yields direction (.structOf ps is a) y r) := by
  refine ⟨alikeButOrder_struct a b hps hn hx hy hes hd, ?_, fun h => ⟨exists_yields_struct a h, ?_, ?_⟩⟩
  · exact alikeButOrder_struct b a (rankedProperties_perm ps).symm hn hx hy hes hd
  all_goals
    apply exists_yields_struct
    intro t ht w hw
    refine h t ?_ w ?_
    on_goal 2 =>
      rw [Value.parts_of_entries hy] at hw
      rw [Value.parts_of_entries hx]
      exact (hes.flatMap_right _).mem_iff.mpr hw
  · exact mem_children_struct_perm b a hps.symm (.refl is) ht
  · exact mem_children_struct_perm a a (rankedProperties_perm ps) (List.mergeSort_perm _ _) ht

end

def tagged : List (Property Schema) × List (IndexSignature Schema) :=
  ([⟨.text "id", .word .number, false, false, .empty⟩, ⟨.text "name", .word .string, true, false, .empty⟩],
    [⟨.word .string, .word .unknown, false⟩, ⟨.word .string, .word .number, false⟩])

/-- A tagged number in two orders, with an entry that both index signatures claim and one that neither does. -/
theorem struct_reordered_tagged :
    let scope := Stock.scope []
    let es : Entries := [(.text "id", .int 1), (.text "rate", .float .nan), (.text "name", .text "n"),
      (.symbol "s", .null)]
    scope.AlikeButOrder .decode (.struct .empty tagged.1 tagged.2) (.dict es)
        (.struct .empty tagged.1.reverse tagged.2) (.view es.reverse) ∧
      (∃ o, scope.Yields .decode (.struct .empty tagged.1 tagged.2) (.dict es) o ∧ o.isFailure = false) ∧
      ∃ p, scope.Yields .decode (.structOf tagged.1 tagged.2 .empty) (.view es.reverse) p := by
  intro scope es
  have hanswers : ∀ t ∈ (Schema.struct .empty tagged.1 tagged.2).children, ∀ w ∈ (Value.dict es).parts,
      scope.Answers .decode t w := by
    intro t ht w _
    obtain ⟨k, rfl⟩ : ∃ k, t = .word k := by
      simp only [tagged, Schema.children, List.map_cons, List.map_nil, List.flatMap_cons, List.flatMap_nil,
        List.cons_append, List.nil_append, List.mem_cons, List.not_mem_nil, or_false] at ht
      rcases ht with rfl | rfl | rfl | rfl | rfl | rfl <;> exact ⟨_, rfl⟩
    exact answers_iff.mpr ⟨_, 0, run_keyword ..⟩
  have hperm : tagged.1.Perm tagged.1.reverse := (List.reverse_perm _).symm
  have hn : tagged.1.Pairwise fun p q => p.name.equals q.name = false := by decide
  have hes : es.Perm es.reverse := (List.reverse_perm es).symm
  obtain ⟨halike, _, hyields⟩ :=
    struct_reordered .empty .empty hperm hn (x := .dict es) (y := .view es.reverse) rfl rfl hes (by decide)
  obtain ⟨_, _, hsorted⟩ := hyields hanswers
  exact ⟨halike, ⟨_, ⟨0, rfl⟩, rfl⟩, hsorted⟩

end Scope
end Schemata
