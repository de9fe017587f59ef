import Schemata.Proofs.Decode.Accepted
import Schemata.Proofs.Decode.Assignment
import Schemata.Proofs.Decode.Claims
import Schemata.Proofs.Decode.Fuel
import Schemata.Proofs.Lists
import Schemata.Proofs.Problem.Unexpected
import Schemata.Stock

/-!
Nothing is lost in silence. Without conversions, what comes out is what went in without the members that are reported
as unexpected. The value and the report are made apart from each other, so the proof goes by containers: a step that
keeps a member reports just what is missing in it, and a step that keeps nothing reports its member.
-/
namespace Schemata

namespace Step

def segment {m : Type → Type} : Step m → Segment
  | take s _ _ | check s _ _ | missing s | unexpected s => s

def reported : Step (Except Fault) → List Path
  | take _ p v => match p v with
    | .ok o => Problem.unexpectedPathsOfAll o.warnings
    | .error _ => []
  | unexpected _ => [[]]
  | _ => []

theorem unexpectedPathsOfAll_warnings (s : Step (Except Fault)) :
    Problem.unexpectedPathsOfAll s.warnings = s.reported.map (s.segment :: ·) := by
  cases s with
  | missing | unexpected | check => rfl
  | take segment p v =>
    cases hv : p v with
    | error f => simp [warnings, reported, hv, Problem.unexpectedPathsOfAll]
    | ok o =>
      cases o <;> simp [warnings, reported, hv, Problem.unexpectedPathsOfAll, Problem.unexpectedPaths,
        Outcome.warnings, Step.segment]

def reportedAt (segment : Segment) (s : Step (Except Fault)) : List Path :=
  if s.segment.same segment then s.reported else []

theorem below_warnings (segment : Segment) (steps : List (Step (Except Fault))) :
    Path.below segment (Problem.unexpectedPathsOfAll (steps.flatMap warnings)) =
      steps.flatMap (reportedAt segment) := by
  rw [Problem.unexpectedPathsOfAll_flatMap, Path.below_flatMap]
  congr 1
  funext s
  rw [unexpectedPathsOfAll_warnings, Path.below_map_cons, reportedAt]

end Step

/-- What a parser gives for a plain value is plain, and is the value without the members that its warnings report;
the value itself is never reported. -/
def Conserves (p : Parser (Except Fault)) : Prop :=
  ∀ x v o, x.Plain → p x = .ok o → o.value? = some v →
    v.Plain ∧ [] ∉ Problem.unexpectedPathsOfAll o.warnings ∧
      v.same (x.prune (Problem.unexpectedPathsOfAll o.warnings))

/-- A parser that gives back what it accepts, and warns of numbers at most. -/
theorem conserves_of_identity {p : Parser (Except Fault)}
    (h : ∀ x v o, p x = .ok o → o.value? = some v →
      v = x ∧ Problem.unexpectedPathsOfAll o.warnings = []) : Conserves p := by
  intro x v o hx hp hv
  obtain ⟨rfl, hw⟩ := h x v o hp hv
  rw [hw, Value.prune_nil]
  exact ⟨hx, List.not_mem_nil, Value.same_refl v⟩

theorem Conserves.of_accepted {p : Parser (Except Fault)}
    (h : ∀ x o, p x = .ok o → o.isFailure = false → ∃ q : Parser (Except Fault), Conserves q ∧ q x = .ok o) :
    Conserves p := by
  intro x v o hx hp hv
  obtain ⟨q, hq, hqx⟩ := h x o hp ((Outcome.isFailure_iff o).mpr ⟨v, hv⟩)
  exact hq x v o hx hqx hv

namespace Tuple

theorem segment_itemSteps {i : Nat} {ps : List (Option (Parser (Except Fault)))} {vs : List Value}
    {s : Step (Except Fault)} (hs : s ∈ itemSteps i ps vs) : ∃ j, i ≤ j ∧ s.segment = .index j := by
  induction ps generalizing i vs with
  | nil => cases hs
  | cons p ps ih =>
    cases vs with
    | nil => cases hs
    | cons v vs =>
      rcases List.mem_cons.mp hs with rfl | hs
      · cases p <;> exact ⟨i, Nat.le_refl i, rfl⟩
      · obtain ⟨j, hj, h⟩ := ih hs
        exact ⟨j, Nat.le_of_succ_le hj, h⟩

/-- Items by what they are assigned to. The induction is on the items; `paths` may report more than the steps do, as
long as it reports the same about the items that are left. -/
theorem itemSteps_conserves {i : Nat} {ps : List (Option (Parser (Except Fault)))} {vs : List Value}
    (hl : ps.length = vs.length) (hp : ∀ p, some p ∈ ps → Conserves p) (hv : ∀ v ∈ vs, v.Plain)
    (hpass : ∀ s ∈ itemSteps i ps vs, s.Passes) {paths : List Path}
    (hpaths : ∀ j, i ≤ j → Path.below (.index j) paths =
      (itemSteps i ps vs).flatMap (Step.reportedAt (.index j))) :
    (∀ w ∈ ((itemSteps i ps vs).flatMap Step.members).map Prod.snd, w.Plain) ∧
      List.Forall₂ (fun v w => v.same w) (((itemSteps i ps vs).flatMap Step.members).map Prod.snd)
        (Value.pruneItems vs i paths) := by
  induction vs generalizing i ps with
  | nil =>
    obtain rfl := List.eq_nil_of_length_eq_zero hl
    exact ⟨fun w hw => absurd hw List.not_mem_nil, .nil⟩
  | cons v vs ih =>
    cases ps with
    | nil => cases hl
    | cons p ps =>
      simp only [itemSteps, List.flatMap_cons, List.map_append] at hpass hpaths ⊢
      rw [List.forall_mem_cons] at hpass hv
      have hlater (j : Nat) (hj : i + 1 ≤ j) : Path.below (.index j) paths =
          (itemSteps (i + 1) ps vs).flatMap (Step.reportedAt (.index j)) := by
        have hne : (i == j) = false := by simpa using Nat.ne_of_lt hj
        rw [hpaths j (Nat.le_of_succ_le hj)]
        cases p <;> simp [itemStep, Step.reportedAt, Step.segment, Segment.same, hne]
      have hhere : Path.below (.index i) paths = (itemStep i p v).reported := by
        have hnone : (itemSteps (i + 1) ps vs).flatMap (Step.reportedAt (.index i)) = [] := by
          rw [List.flatMap_eq_nil_iff]
          intro s hs
          obtain ⟨j, hj, h⟩ := segment_itemSteps hs
          have hne : (j == i) = false := by simpa using Nat.ne_of_gt hj
          simp [Step.reportedAt, h, Segment.same, hne]
        rw [hpaths i (Nat.le_refl i), hnone, List.append_nil]
        cases p <;> simp [itemStep, Step.reportedAt, Step.segment]
      obtain ⟨hplain, hsame⟩ := ih (Nat.succ.inj hl) (fun p h => hp p (List.mem_cons_of_mem _ h)) hv.2
        hpass.2 hlater
      cases p with
      | none =>
        have hr : Path.reported (Path.below (.index i) paths) := by
          rw [hhere, Path.reported_iff]
          exact List.mem_cons_self
        rw [Value.pruneItems, if_pos hr]
        exact ⟨hplain, hsame⟩
      | some p =>
        obtain ⟨o, ho, hf⟩ := hpass.1
        obtain ⟨w, hw⟩ := (Outcome.isFailure_iff o).mp hf
        obtain ⟨hwp, hnil, hws⟩ := hp p List.mem_cons_self v w o hv.1 ho hw
        have hrep : (itemStep i (some p) v).reported = Problem.unexpectedPathsOfAll o.warnings := by
          simp [itemStep, Step.reported, ho]
        rw [hrep] at hhere
        have hr : ¬Path.reported (Path.below (.index i) paths) := by
          rwa [hhere, Path.reported_iff]
        rw [Value.pruneItems, if_neg hr, hhere, itemStep, Step.members_take ho hw]
        exact ⟨List.forall_mem_cons.mpr ⟨hwp, hplain⟩, .cons hws hsame⟩

theorem parse_conserves {scope : Scope} {a : Annotations} {es : List (Element (Parser (Except Fault)))}
    {rest : Option (Rest (Parser (Except Fault)))}
    (h : ∀ p ∈ es.map (fun e => e.type) ++ (rest.map Rest.toList).getD [], Conserves p) :
    Conserves (parse scope a es rest) := by
  intro x v o hx hp hv
  obtain ⟨items, hi, hpass, rfl⟩ := parse_accepts_iff.mp ⟨hp, (Outcome.isFailure_iff o).mpr ⟨v, hv⟩⟩
  rw [Outcome.value?_warn] at hv
  rw [Outcome.warnings_warn]
  have hnil : [] ∉ Problem.unexpectedPathsOfAll ((steps es rest items).flatMap Step.warnings) := by
    rw [Problem.unexpectedPathsOfAll_flatMap]
    simp [Step.unexpectedPathsOfAll_warnings]
  have hg : (gaps es rest items.length) = [] := by
    rw [List.eq_nil_iff_forall_not_mem]
    intro i hi
    exact hpass (gapStep i) (by rw [steps_eq]; exact List.mem_append_right _ (List.mem_map_of_mem hi))
  have hparts : ∀ w ∈ items, w.Plain := by
    cases x <;> simp [Value.items?] at hi <;> subst hi <;> exact fun w hw => hx.part hw
  have hsteps : steps es rest items = itemSteps 0 (assigned es rest items.length) items := by
    rw [steps_eq, hg, List.map_nil, List.append_nil]
  rw [hsteps] at hpass hv hnil ⊢
  obtain ⟨hplain, hsame⟩ := itemSteps_conserves (length_assigned es rest items.length)
    (fun p hp => h p (mem_assigned hp)) hparts hpass fun j _ => Step.below_warnings (.index j) _
  obtain rfl := Option.some.inj hv
  refine ⟨?_, hnil, ?_⟩
  · cases x <;> first | exact Value.plain_tuple hplain | exact Value.plain_list hplain
  · cases x <;> simp [Value.items?] at hi <;> subst hi
    · exact (Value.equalsUpTo_iff _ _).mpr (.list hsame)
    · exact (Value.equalsUpTo_iff _ _).mpr (.tuple hsame)
    · exact absurd hx Value.Plain.not_array

end Tuple

section
variable {es outs srcs : Entries} {paths : List Path}

structure Entries.Kept (paths : List Path) (out e : Value × Value) : Prop where
  hashable : out.1.hashable
  equals : out.1.equals e.1
  plain : out.2.Plain
  same : out.2.same (e.2.prune (Path.below (.key e.1) paths))

/-- Entries that come out for those that are not reported, in any order, make up the pruned table. -/
theorem Entries.same_prune (hes : es.distinct)
    (hsrc : srcs.Perm (es.filter fun e => !Path.reported (Path.below (.key e.1) paths)))
    (h : List.Forall₂ (Kept paths) outs srcs) :
    outs.distinct ∧ (Value.dict outs).same (.dict (Value.pruneEntries es paths)) := by
  refine ⟨distinct_of_respelled hes hsrc (h.imp fun _ _ hk => ⟨hk.hashable, hk.equals⟩), ?_⟩
  rw [Value.pruneEntries_eq]
  refine (Value.equalsUpTo_iff _ _).mpr (.mapping rfl rfl ?_ fun out ho => ?_)
  · rw [List.length_map, h.length_eq, hsrc.length_eq]
  · obtain ⟨e, he, hk⟩ := Lists.exists_of_mem_left h ho
    exact ⟨_, List.mem_map_of_mem (hsrc.mem_iff.mp he), Value.same_of_equals hk.equals, hk.same⟩

end

namespace Struct

/-- An undeclared key is claimed by one index signature at most, so that its entry is kept once. -/
def Unambiguous {m : Type → Type} (ps : List (Property (Parser m))) (is : List (Index m)) : Prop :=
  (ps.Pairwise fun p q => p.name.equals q.name = false) ∧
    ∀ symbols, (is.filter fun i => i.symbols == symbols).length ≤ 1

theorem Unambiguous.claiming {m : Type → Type} {ps : List (Property (Parser m))} {is : List (Index m)}
    (h : Unambiguous ps is) (key : Value) :
    (is.filter fun i => i.claims key) = [] ∨ ∃ i, (is.filter fun i => i.claims key) = [i] :=
  claiming_cases h.2 key

section
variable {ps : List (Property (Parser (Except Fault)))} {is : List (Index (Except Fault))} {es : Entries}

theorem segment_propertySteps {p : Property (Parser (Except Fault))} {s : Step (Except Fault)}
    (hs : s ∈ propertySteps es p) : s.segment = .key p.name := by
  rw [propertySteps] at hs
  split at hs
  · obtain rfl := List.mem_singleton.mp hs
    rfl
  · split at hs
    · cases hs
    · obtain rfl := List.mem_singleton.mp hs
      rfl

theorem segment_entrySteps {declared : List Value} {e : Value × Value} {s : Step (Except Fault)}
    (hs : s ∈ entrySteps declared is e) : s.segment = .key e.1 ∧ e.1.occursIn declared = false := by
  rw [entrySteps] at hs
  split at hs
  · cases hs
  · rename_i hd
    refine ⟨?_, by simpa using hd⟩
    split at hs
    · obtain rfl := List.mem_singleton.mp hs
      rfl
    · obtain ⟨i, _, hs⟩ := List.mem_flatMap.mp hs
      simp only [List.mem_cons, List.not_mem_nil, or_false] at hs
      rcases hs with rfl | rfl <;> rfl

/-- About an entry whose key equals itself only the steps for its own key report. -/
theorem reportedAt_eq_nil {k : Value} (hk : k.hashable) (hkk : k.equals k) {l : Value}
    (hl : l.equals k = false) {s : Step (Except Fault)} (hs : s.segment = .key l) :
    s.reportedAt (.key k) = [] := by
  apply if_neg
  rw [hs]
  intro h
  have := Value.equals_of_same hk hkk h
  simp [hl] at this

theorem propertySteps_of_find {p : Property (Parser (Except Fault))} {e : Value × Value}
    (h : es.find? (fun e => e.1.equals p.name) = some e) :
    propertySteps es p = [.take (.key p.name) p.type e.2] := by
  simp [propertySteps, Entries.lookup, h]

theorem entrySteps_of_claimed {declared : List Value} {e : Value × Value} {i : Index (Except Fault)}
    (hd : e.1.occursIn declared = false) (hc : (is.filter fun i => i.claims e.1) = [i]) :
    entrySteps declared is e = [.check (.key e.1) i.parameter e.1, .take (.key e.1) i.type e.2] := by
  simp [entrySteps, hd, hc]

/-- About the entry of a declared key only the step of its declaration reports. -/
theorem reportedAt_declared (hes : es.distinct) (hn : ps.Pairwise fun p q => p.name.equals q.name = false)
    {p : Property (Parser (Except Fault))} (hp : p ∈ ps) {e : Value × Value}
    (h : es.find? (fun e => e.1.equals p.name) = some e) :
    (steps ps is es).flatMap (Step.reportedAt (.key e.1)) =
      (Step.take (.key p.name) p.type e.2).reported := by
  obtain ⟨he, hep⟩ := (Entries.find?_eq_some_iff hes).mp h
  have hk : e.1.hashable := ((Entries.distinct_iff es).mp hes).1 e he
  have hpe : p.name.equals e.1 := Value.equals_symm hk hep
  have hkk : e.1.equals e.1 := Value.equals_trans hep hpe
  have hps : (ps.flatMap (propertySteps es)).flatMap (Step.reportedAt (.key e.1)) =
      (Step.take (.key p.name) p.type e.2).reported := by
    rw [List.flatMap_assoc, Lists.flatMap_eq_of_mem hn hp fun q _ hpq => ?_, propertySteps_of_find h]
    · simp [Step.reportedAt, Step.segment, Segment.same, Value.same_of_equals hpe]
    · have hqe : q.name.equals e.1 = false := by
        by_contra hc
        have hqe : q.name.equals e.1 := by simpa using hc
        have heq : e.1.equals q.name := Value.equals_symm ((Value.hashable_congr hqe).mpr hk) hqe
        rcases hpq with hpq | hpq
        · simp [Value.equals_trans hpe heq] at hpq
        · simp [Value.equals_trans hqe hep] at hpq
      exact List.flatMap_eq_nil_iff.mpr fun s hs => reportedAt_eq_nil hk hkk hqe (segment_propertySteps hs)
  have hrest : (es.flatMap (entrySteps (ps.map fun p => p.name) is)).flatMap
      (Step.reportedAt (.key e.1)) = [] := by
    rw [List.flatMap_eq_nil_iff]
    intro s hs
    obtain ⟨f, _, hs⟩ := List.mem_flatMap.mp hs
    obtain ⟨hseg, hd⟩ := segment_entrySteps hs
    refine reportedAt_eq_nil hk hkk ?_ hseg
    by_contra hc
    have hfe : f.1.equals e.1 := by simpa using hc
    have hpf : p.name.equals f.1 :=
      Value.equals_symm ((Value.hashable_congr hfe).mpr hk) (Value.equals_trans hfe hep)
    rw [Value.differs_of_not_occursIn hd (List.mem_map_of_mem hp)] at hpf
    cases hpf
  rw [steps, List.flatMap_append, hps, hrest, List.append_nil]

/-- About an undeclared entry only its own steps report. -/
theorem reportedAt_undeclared (hes : es.distinct) {e : Value × Value} (he : e ∈ es)
    (hd : e.1.occursIn (ps.map fun p => p.name) = false) (hkk : e.1.equals e.1) :
    (steps ps is es).flatMap (Step.reportedAt (.key e.1)) =
      (entrySteps (ps.map fun p => p.name) is e).flatMap (Step.reportedAt (.key e.1)) := by
  obtain ⟨hkeys, hpw⟩ := (Entries.distinct_iff es).mp hes
  have hk : e.1.hashable := hkeys e he
  have hps : (ps.flatMap (propertySteps es)).flatMap (Step.reportedAt (.key e.1)) = [] := by
    rw [List.flatMap_eq_nil_iff]
    intro s hs
    obtain ⟨p, hp, hs⟩ := List.mem_flatMap.mp hs
    have hne : p.name.equals e.1 = false := Value.differs_of_not_occursIn hd (List.mem_map_of_mem hp)
    exact reportedAt_eq_nil hk hkk hne (segment_propertySteps hs)
  rw [steps, List.flatMap_append, hps, List.nil_append, List.flatMap_assoc]
  refine Lists.flatMap_eq_of_mem hpw he fun f hf hef => List.flatMap_eq_nil_iff.mpr fun s hs => ?_
  refine reportedAt_eq_nil hk hkk ?_ (segment_entrySteps hs).1
  rcases hef with hef | hef
  · rwa [Bool.eq_false_iff, ne_eq, Value.equals_comm (hkeys f hf), ← ne_eq, ← Bool.eq_false_iff]
  · exact hef

/-- An entry that nothing describes is reported itself. -/
theorem reportedAt_unclaimed {e : Value × Value} (he : e ∈ es)
    (hd : e.1.occursIn (ps.map fun p => p.name) = false) (hc : (is.filter fun i => i.claims e.1) = []) :
    [] ∈ (steps ps is es).flatMap (Step.reportedAt (.key e.1)) := by
  refine List.mem_flatMap.mpr ⟨.unexpected (.key e.1), ?_, ?_⟩
  · refine List.mem_append_right _ (List.mem_flatMap.mpr ⟨e, he, ?_⟩)
    simp [entrySteps, hd, hc]
  · simp [Step.reportedAt, Step.segment, Step.reported]

end

/-- What a step that takes the value of an entry keeps of it. -/
theorem kept_of_take {p : Parser (Except Fault)} (hp : Conserves p) {paths : List Path} {e : Value × Value}
    (he : e.2.Plain) {key : Value} (hk : key.hashable) (hke : key.equals e.1)
    (hpass : (Step.take (.key key) p e.2).Passes)
    (hb : Path.below (.key e.1) paths = (Step.take (.key key) p e.2).reported) :
    ¬Path.reported (Path.below (.key e.1) paths) ∧
      ∃ w, (Step.take (.key key) p e.2).members = [(.key key, w)] ∧ Entries.Kept paths (key, w) e := by
  obtain ⟨o, ho, hf⟩ := hpass
  obtain ⟨w, hw⟩ := (Outcome.isFailure_iff o).mp hf
  obtain ⟨hwp, hnil, hws⟩ := hp e.2 w o he ho hw
  have hrep : Path.below (.key e.1) paths = Problem.unexpectedPathsOfAll o.warnings := by
    rw [hb]
    simp [Step.reported, ho]
  rw [hrep, Path.reported_iff]
  exact ⟨hnil, w, Step.members_take ho hw, hk, hke, hwp, hrep ▸ hws⟩

structure Walk (ps : List (Property (Parser (Except Fault)))) (is : List (Index (Except Fault))) (es : Entries)
    (paths : List Path) : Prop where
  unambiguous : Unambiguous ps is
  properties : ∀ p ∈ ps, Conserves p.type
  indexes : ∀ i ∈ is, Conserves i.type
  distinct : es.distinct
  plain : ∀ e ∈ es, e.2.Plain
  passes : ∀ s ∈ steps ps is es, s.Passes
  below : ∀ s, Path.below s paths = (steps ps is es).flatMap (Step.reportedAt s)

namespace Walk
variable {ps : List (Property (Parser (Except Fault)))} {is : List (Index (Except Fault))} {es : Entries}
  {paths : List Path}

theorem declared (h : Walk ps is es paths) {p : Property (Parser (Except Fault))} (hp : p ∈ ps)
    {e : Value × Value} (hf : es.find? (fun e => e.1.equals p.name) = some e) :
    ¬Path.reported (Path.below (.key e.1) paths) ∧
      ∃ w, (Step.take (.key p.name) p.type e.2).members = [(.key p.name, w)] ∧
        Entries.Kept paths (p.name, w) e := by
  obtain ⟨he, hep⟩ := (Entries.find?_eq_some_iff h.distinct).mp hf
  have hk := ((Entries.distinct_iff es).mp h.distinct).1 e he
  refine kept_of_take (h.properties p hp) (h.plain e he) ((Value.hashable_congr hep).mp hk)
    (Value.equals_symm hk hep) ?_ ?_
  · refine h.passes _ (List.mem_append_left _ (List.mem_flatMap.mpr ⟨p, hp, ?_⟩))
    rw [propertySteps_of_find hf]
    exact List.mem_cons_self
  · rw [h.below, reportedAt_declared h.distinct h.unambiguous.1 hp hf]

theorem claimed (h : Walk ps is es paths) {e : Value × Value} (he : e ∈ es)
    (hd : e.1.occursIn (ps.map fun p => p.name) = false) {i : Index (Except Fault)}
    (hc : (is.filter fun i => i.claims e.1) = [i]) :
    ¬Path.reported (Path.below (.key e.1) paths) ∧
      ∃ w, (Step.take (.key e.1) i.type e.2).members = [(.key e.1, w)] ∧ Entries.Kept paths (e.1, w) e := by
  have hi : i ∈ is.filter fun i => i.claims e.1 := hc ▸ List.mem_cons_self
  obtain ⟨hi, hclaims⟩ := List.mem_filter.mp hi
  have hself : e.1.equals e.1 := equals_self_of_claimed hclaims
  have hk := ((Entries.distinct_iff es).mp h.distinct).1 e he
  refine kept_of_take (h.indexes i hi) (h.plain e he) hk hself ?_ ?_
  · refine h.passes _ (List.mem_append_right _ (List.mem_flatMap.mpr ⟨e, he, ?_⟩))
    rw [entrySteps_of_claimed hd hc]
    simp
  · rw [h.below, reportedAt_undeclared h.distinct he hd hself, entrySteps_of_claimed hd hc]
    simp [Step.reportedAt, Step.segment, Step.reported]

/-- What is not reported is what is declared or claimed. -/
theorem reported_eq (h : Walk ps is es paths) {e : Value × Value} (he : e ∈ es) :
    (!Path.reported (Path.below (.key e.1) paths)) =
      (e.1.occursIn (ps.map fun p => p.name) || is.any fun i => i.claims e.1) := by
  cases hd : e.1.occursIn (ps.map fun p => p.name) with
  | true =>
    obtain ⟨name, hn, hne⟩ := (Value.occursIn_iff e.1 _).mp hd
    obtain ⟨p, hp, rfl⟩ := List.mem_map.mp hn
    have hk := ((Entries.distinct_iff es).mp h.distinct).1 e he
    have hf := (Entries.find?_eq_some_iff h.distinct).mpr ⟨he, (Value.equals_comm hk).mpr hne⟩
    simpa using (h.declared hp hf).1
  | false =>
    rcases h.unambiguous.claiming e.1 with hc | ⟨i, hc⟩
    · have hreported := (Path.reported_iff _).mpr (h.below _ ▸ reportedAt_unclaimed he hd hc)
      simpa [hreported] using hc
    · have hi : i ∈ is.filter fun i => i.claims e.1 := hc ▸ List.mem_cons_self
      have hany : (is.any fun i => i.claims e.1) = true := List.any_eq_true.mpr ⟨i, List.mem_filter.mp hi⟩
      simpa [hany] using (h.claimed he hd hc).1

def outs (ps : List (Property (Parser (Except Fault)))) (is : List (Index (Except Fault))) (es : Entries) :
    Entries :=
  ((steps ps is es).flatMap Step.members).map fun e => (segmentKey e.1, e.2)

def srcs (ps : List (Property (Parser (Except Fault)))) (is : List (Index (Except Fault))) (es : Entries) :
    Entries :=
  (found ps es).map Prod.snd ++ (Struct.claimed Index.claims (ps.map fun p => p.name) is es).map Prod.snd

theorem kept (h : Walk ps is es paths) : List.Forall₂ (Entries.Kept paths) (outs ps is es) (srcs ps is es) := by
  rw [outs, srcs, steps, found, Struct.claimed, List.flatMap_append, List.map_append, List.flatMap_assoc,
    List.flatMap_assoc, List.map_flatMap, List.map_flatMap, List.map_filterMap, List.map_filterMap]
  refine List.rel_append (Lists.forall₂_filterMap fun p hp => ?_) (Lists.forall₂_filterMap fun e he => ?_)
  · cases hf : es.find? (fun e => e.1.equals p.name) with
    | none =>
      have hs : ((propertySteps es p).flatMap Step.members).map (fun e => (segmentKey e.1, e.2)) = [] := by
        rw [propertySteps]
        simp only [Entries.lookup, hf, Option.map_none]
        split <;> rfl
      rw [hs]
      simp
    | some e =>
      obtain ⟨_, w, hm, hk⟩ := h.declared hp hf
      rw [propertySteps_of_find hf]
      simpa [hm, hf, segmentKey] using hk
  · cases hd : e.1.occursIn (ps.map fun p => p.name) with
    | true => simp [entrySteps, hd]
    | false =>
      have hfirst : (is.find? fun i => i.claims e.1) = (is.filter fun i => i.claims e.1).head? :=
        List.head?_filter.symm
      rcases h.unambiguous.claiming e.1 with hc | ⟨i, hc⟩
      · rw [hc] at hfirst
        simp [entrySteps, hd, hc, hfirst, Step.members]
      · obtain ⟨_, w, hm, hk⟩ := h.claimed he hd hc
        have hcheck : (Step.check (.key e.1) i.parameter e.1).members = [] := rfl
        rw [hc] at hfirst
        rw [entrySteps_of_claimed hd hc]
        simpa [hm, hcheck, hfirst, segmentKey] using hk

theorem srcs_perm (h : Walk ps is es paths) : (srcs ps is es).Perm
    (es.filter fun e => !Path.reported (Path.below (.key e.1) paths)) := by
  refine (found_claimed_perm h.distinct h.unambiguous.1).trans (.of_eq ?_)
  exact List.filter_congr fun e he => (h.reported_eq he).symm

end Walk

theorem parse_conserves {scope : Scope} {a : Annotations} {ps : List (Property (Parser (Except Fault)))}
    {is : List (Index (Except Fault))} (hp : ∀ p ∈ ps, Conserves p.type) (hi : ∀ i ∈ is, Conserves i.type)
    (hu : Unambiguous ps is) : Conserves (parse scope a ps is) := by
  intro x v o hx hpx hv
  obtain ⟨es, he, hpass, rfl⟩ := parse_accepts_iff.mp ⟨hpx, (Outcome.isFailure_iff o).mpr ⟨v, hv⟩⟩
  rw [Outcome.value?_warn] at hv
  obtain rfl := Option.some.inj hv
  rw [Outcome.warnings_warn]
  have hnil : [] ∉ Problem.unexpectedPathsOfAll ((steps ps is es).flatMap Step.warnings) := by
    rw [Problem.unexpectedPathsOfAll_flatMap]
    simp [Step.unexpectedPathsOfAll_warnings]
  have hw : Walk ps is es (Problem.unexpectedPathsOfAll ((steps ps is es).flatMap Step.warnings)) :=
    ⟨hu, hp, hi, hx.distinct he, fun e h => hx.part (Value.mem_parts_of_entries he h).2, hpass,
      fun s => Step.below_warnings s _⟩
  obtain ⟨hd, hsame⟩ := Entries.same_prune hw.distinct hw.srcs_perm hw.kept
  have hv : rebuild ((steps ps is es).flatMap Step.members) = .dict (Walk.outs ps is es) := by
    rw [rebuild, ← Walk.outs, Entries.ofList_of_pairwise ((Entries.distinct_iff _).mp hd).2]
  rw [hv]
  refine ⟨Value.plain_dict hd fun out ho => ?_, hnil, ?_⟩
  · obtain ⟨e, _, hk⟩ := Lists.exists_of_mem_left hw.kept ho
    exact ⟨Value.plain_of_hashable hk.hashable, hk.plain⟩
  · cases x <;> simp [Value.entries?] at he <;> subst he
    · exact hsame
    · exact Value.same_trans hsame ((Value.equalsUpTo_iff _ _).mpr (.mapping rfl rfl rfl fun e he =>
        ⟨e, he, Value.same_refl _, Value.same_refl _⟩))

end Struct

namespace Scope
variable {scope : Scope} {direction : Direction}

theorem unexpectedPathsOfAll_anomaly (v : Value) :
    Problem.unexpectedPathsOfAll (anomaly? v).toList = [] := by
  rw [anomaly?]
  split
  · rfl
  · split <;> rfl

/-- Where no schema converts and every struct is unambiguous, runs conserve what they are given. -/
theorem run_conserves {n : Nat} {s : Schema}
    (hs : ∀ t, scope.Part s t → t.converts = false ∧ t.Unambiguous) :
    Conserves (scope.run direction n s) := by
  refine accepted_induction (fun p h => .of_accepted h) ?_ ?_ ?_ ?_ n
  · intro n t ht hatom
    apply conserves_of_identity
    intro x v o hr hv
    obtain ⟨p, hp, hid⟩ := scope.run_atom hatom (hs t ht).1 x
    obtain rfl := Except.ok.inj (hr.symm.trans (hp direction n))
    rcases hid ((Outcome.isFailure_iff _).mpr ⟨v, hv⟩) with rfl | rfl
    · exact ⟨(Option.some.inj hv).symm, rfl⟩
    · rw [Outcome.value?_warn] at hv
      rw [Outcome.warnings_warn]
      exact ⟨(Option.some.inj hv).symm, unexpectedPathsOfAll_anomaly x⟩
  · intro n a es r o _ hc
    rw [run_tuple]
    apply Tuple.parse_conserves
    intro p hp
    rw [Tuple.parts_map] at hp
    obtain ⟨t, ht, rfl⟩ := List.mem_map.mp hp
    exact hc t ht
  · intro n a ps is ht hc
    have hu := (hs _ ht).2
    rw [run_struct]
    refine Struct.parse_conserves ?_ ?_ ⟨?_, fun symbols => ?_⟩
    · intro p hp
      obtain ⟨q, hq, rfl⟩ := List.mem_map.mp hp
      exact hc _ (Schema.mem_children_of_property hq)
    · intro i hi
      obtain ⟨j, hj, rfl⟩ := List.mem_map.mp hi
      exact hc _ (Schema.mem_children_of_index hj).2
    · rw [List.pairwise_map]
      exact hu.1
    · rw [List.filter_map, List.length_map]
      exact hu.2 symbols
  · intro n a t u c ht _
    cases (hs _ ht).1

/-- What is accepted is the input without exactly the members that the warnings report as unexpected, at every depth;
a clean success is the input itself. -/
theorem outcome_same_prune {s : Schema} {x v : Value} {o : Outcome}
    (hs : ∀ t, scope.Part s t → t.converts = false ∧ t.Unambiguous) (hx : x.wellFormed) (ha : x.arrayFree)
    (h : scope.Yields direction s x o) (hv : o.value? = some v) :
    v.same (x.prune (Problem.unexpectedPathsOfAll o.warnings)) ∧ (o.isSuccess → v.same x) := by
  obtain ⟨n, hn⟩ := h
  obtain ⟨_, _, hsame⟩ := run_conserves hs x v o ⟨hx, ha⟩ hn hv
  refine ⟨hsame, fun ho => ?_⟩
  cases o with
  | success w =>
    have hw : Problem.unexpectedPathsOfAll (Outcome.success w).warnings = [] := rfl
    rwa [hw, Value.prune_nil] at hsame
  | warning w ps => cases ho
  | failure ps => cases ho

def chain : Schema := .struct .empty
  [⟨.text "value", .keyword .empty .number, false, false, .empty⟩,
    ⟨.text "next", .lazy .empty (.root 0), true, false, .empty⟩] []

/-- A chain with a member too many at each of its two links, and a number that is none. -/
theorem outcome_same_prune_chain :
    let scope := Stock.scope [(0, .ok chain)]
    let x : Value := .dict [(.text "value", .float .nan), (.text "extra", .null),
      (.text "next", .dict [(.text "junk", .null), (.text "value", .int 2)])]
    let v : Value := .dict [(.text "value", .float .nan), (.text "next", .dict [(.text "value", .int 2)])]
    let ws : List Problem := [.within (.key (.text "value")) [.anomaly (.float .nan) .notANumber],
      .within (.key (.text "next")) [.within (.key (.text "junk")) [.unexpected (.key (.text "junk"))]],
      .within (.key (.text "extra")) [.unexpected (.key (.text "extra"))]]
    x.wellFormed ∧ x.arrayFree ∧ scope.Yields .decode chain x (.warning v ws) ∧
      (∀ t, scope.Part chain t → t.converts = false ∧ t.Unambiguous) ∧
      v.same (x.prune (Problem.unexpectedPathsOfAll ws)) := by
  intro scope x v ws
  have hparts : ∀ t, scope.Part chain t → t.converts = false ∧ t.Unambiguous := by
    intro t ht
    have hmem : t ∈ [chain, .keyword .empty .number, .lazy .empty (.root 0)] := by
      refine Part.of_closed (by simp) (fun s hs u hu => ?_) ht
      simp only [List.mem_cons, List.not_mem_nil, or_false] at hs
      rcases hs with rfl | rfl | rfl
      · exact List.mem_cons_of_mem _ hu
      · cases hu
      · obtain rfl := List.mem_singleton.mp hu
        exact List.mem_cons_self
    simp only [List.mem_cons, List.not_mem_nil, or_false] at hmem
    rcases hmem with rfl | rfl | rfl
    · exact ⟨rfl, by decide, by simp⟩
    · exact ⟨rfl, trivial⟩
    · exact ⟨rfl, trivial⟩
  have hy : scope.Yields .decode chain x (.warning v ws) := ⟨2, rfl⟩
  have hx : x.wellFormed := by rfl
  have ha : x.arrayFree := by rfl
  exact ⟨hx, ha, hy, hparts, (outcome_same_prune hparts hx ha hy rfl).1⟩

end Scope
end Schemata
