import Schemata.Proofs.Decode.Congruence
import Schemata.Proofs.Decode.Location
import Schemata.Proofs.Problem.Lines
import Schemata.Proofs.Value.Lines
import Schemata.Proofs.Value.Order

/-!
Messages on one line. Texts of the input reach messages by two routes: rendered as values, which escapes them, and as
they are, where a key names the way to a problem or a symbol stands at the top. Where neither the schema nor those texts
of the input hold a line feed, every message is on one line and a drawn tree has one line for each problem.
-/
namespace Schemata

/-- Annotations whose texts are on one line, and which word no messages of their own. -/
structure Annotations.Straight (a : Annotations) : Prop where
  texts : ∀ t ∈ [a.label, a.identifier, a.title, a.description].filterMap id, OneLine t
  message : a.message = none

theorem Annotations.Straight.oneLine_displayLabel {a : Annotations} (h : a.Straight) : OneLine a.displayLabel := by
  rw [displayLabel, labelOr]
  cases hf : ([a.label, a.identifier, a.title, a.description].filterMap id).find? (· != "") with
  | none => decide
  | some t => exact h.texts t (List.mem_of_find?_eq_some hf)

/-- Whatever a schema itself puts into messages is on one line: symbols, the literals of templates, enumerated values,
and declared keys. -/
def Schema.Straight : Schema → Prop
  | uniqueSymbol _ key => OneLine key
  | template _ head first more => OneLine head ∧ ∀ s ∈ first :: more, OneLine s.literal
  | enums _ pairs => ∀ p ∈ pairs, OneLine p.2.render
  | struct _ properties _ => ∀ p ∈ properties, p.name.isKey ∧ OneLine p.name.plain
  | _ => True

/-- An outcome whose problems are on one line each and whose value does not break messages about it. -/
structure Outcome.Straight (inspected : Bool) (o : Outcome) : Prop where
  problems : ∀ p ∈ o.problems, p.Straight
  value : ∀ v, o.value? = some v → v.Straight inspected

section
variable {inspected : Bool} {scope : Scope} {a : Annotations} {x v : Value} {o : Outcome} {ps : List Problem}

theorem Problem.straight_leaf {p : Problem} (hb : p.isBranch = false) (h : OneLine p.leafMessage) : p.Straight := by
  cases p with
  | within | ofMember => cases hb
  | _ => exact Problem.straight_iff.mpr ⟨h, fun _ hq => nomatch hq⟩

theorem Problem.straight_within {segment : Segment} (hs : OneLine segment.pathText) (h : ∀ p ∈ ps, p.Straight) :
    (Problem.within segment ps).Straight :=
  Problem.straight_iff.mpr ⟨oneLine_label_segment.mpr hs, h⟩

theorem Problem.straight_ofMember (h : ∀ p ∈ ps, p.Straight) : (Problem.ofMember ps).Straight :=
  Problem.straight_iff.mpr ⟨(by decide : OneLine "union member"), h⟩

theorem Outcome.straight_success (h : v.Straight inspected) : (Outcome.success v).Straight inspected :=
  ⟨by simp [Outcome.problems], fun _ hw => Option.some.inj hw ▸ h⟩

theorem Outcome.straight_failure (h : ∀ p ∈ ps, p.Straight) : (Outcome.failure ps).Straight inspected :=
  ⟨h, fun _ hw => nomatch hw⟩

theorem Outcome.straight_warn (h : v.Straight inspected) (hps : ∀ p ∈ ps, p.Straight) :
    (Outcome.warn v ps).Straight inspected := by
  cases ps with
  | nil => exact straight_success h
  | cons p ps => exact ⟨hps, fun _ hw => Option.some.inj hw ▸ h⟩

theorem Problem.oneLine_unsatisfied {predicate : String} (h : x.Straight inspected) (hp : OneLine predicate) :
    OneLine (Problem.unsatisfied x predicate) := by
  simp only [Problem.unsatisfied, oneLine_append_iff]
  exact ⟨⟨Value.oneLine_render h, by decide⟩, hp⟩

theorem Problem.oneLine_isPredicate {kind : String} (h : OneLine kind) : OneLine (Problem.isPredicate kind) := by
  simp only [Problem.isPredicate, oneLine_append_iff]
  exact ⟨⟨by decide, h⟩, by decide⟩

theorem Scope.straight_mismatch {predicate : String} (ha : a.message = none) (h : x.Straight inspected)
    (hp : OneLine predicate) : (scope.mismatch a predicate x).Straight inspected := by
  refine Outcome.straight_failure (List.forall_mem_singleton.mpr (Problem.straight_leaf rfl ?_))
  simpa [Problem.leafMessage, Annotations.renderMessage, ha, Problem.worded] using Problem.oneLine_unsatisfied h hp

/-- A value that is taken as it is, or refused. -/
theorem Scope.straight_ite {c : Bool} {predicate : String} (ha : a.message = none) (h : x.Straight inspected)
    (hp : OneLine predicate) :
    (if c then .success x else scope.mismatch a predicate x : Outcome).Straight inspected := by
  cases c with
  | true => exact Outcome.straight_success h
  | false => exact straight_mismatch ha h hp

end

def Step.Straight (inspected : Bool) : Step (Except Fault) → Prop
  | take segment p v | check segment p v =>
    OneLine segment.pathText ∧ ∀ o, p v = .ok o → o.Straight inspected
  | missing segment | unexpected segment => OneLine segment.pathText

section
variable {inspected : Bool} {steps : List (Step (Except Fault))}

theorem Step.straight_of_stops {s : Step (Except Fault)} {p : Problem} (h : s.Straight inspected) (hp : s.Stops p) :
    p.Straight := by
  cases hp with
  | take hf => exact Problem.straight_within h.1 (h.2 _ hf).problems
  | check hf => exact Problem.straight_within h.1 (h.2 _ hf).problems
  | missing => exact Problem.straight_within h (List.forall_mem_singleton.mpr (Problem.straight_leaf rfl (by decide)))

theorem Step.straight_of_warns {s : Step (Except Fault)} {p : Problem} (h : s.Straight inspected) (hp : s.Warns p) :
    p.Straight := by
  cases hp with
  | take hf => exact Problem.straight_within h.1 (h.2 _ hf).problems
  | unexpected segment =>
    refine Problem.straight_within h (List.forall_mem_singleton.mpr (Problem.straight_leaf rfl ?_))
    cases segment with
    | key k => exact (by decide : OneLine "key is unexpected")
    | index i => exact (by decide : OneLine "index is unexpected")

theorem Step.exists_of_mem_members {s : Step (Except Fault)} {segment : Segment} {v : Value}
    (h : (segment, v) ∈ s.members) : ∃ p w o, s = .take segment p w ∧ p w = .ok o ∧ o.value? = some v := by
  cases s with
  | take segment' p w =>
    rw [members] at h
    split at h
    · rename_i o ho
      obtain ⟨v', hv, heq⟩ := List.mem_map.mp h
      obtain ⟨rfl, rfl⟩ := Prod.mk.inj heq
      exact ⟨p, w, o, rfl, ho, Option.mem_toList.mp hv⟩
    · cases h
  | _ => cases h

/-- What a run through straight steps gathers. -/
theorem gather_straight {g : Gathered} (hs : ∀ s ∈ steps, s.Straight inspected) (h : gather steps = .ok g) :
    match g with
    | .stopped p => p.Straight
    | .kept members warnings =>
      (∀ m ∈ members, m.2.Straight inspected ∧ ∃ p w, .take m.1 p w ∈ steps) ∧ ∀ p ∈ warnings, p.Straight := by
  cases g with
  | stopped p =>
    obtain ⟨s, hsm, hp⟩ := (halts_of_gather h).exists_mem
    exact Step.straight_of_stops (hs s hsm) hp
  | kept members warnings =>
    obtain ⟨-, rfl, rfl⟩ := (gather_eq_kept_iff _ _ _).mp h
    constructor
    · intro m hm
      obtain ⟨s, hsm, hm⟩ := List.mem_flatMap.mp hm
      obtain ⟨p, w, o, rfl, ho, hv⟩ := Step.exists_of_mem_members hm
      exact ⟨((hs _ hsm).2 o ho).value _ hv, p, w, hsm⟩
    · intro p hp
      obtain ⟨s, hsm, hp⟩ := List.mem_flatMap.mp hp
      exact Step.straight_of_warns (hs s hsm) (Step.warns_of_mem_warnings hp)

end

namespace Scope
variable {inspected : Bool} {scope : Scope} {direction : Direction} {a : Annotations} {x : Value} {o : Outcome}

theorem straight_tuple {es : List (Element (Parser (Except Fault)))} {rest : Option (Rest (Parser (Except Fault)))}
    (ha : a.message = none) (hx : x.Straight inspected)
    (hs : ∀ items, x.items? = some items → ∀ s ∈ Tuple.steps es rest items, s.Straight inspected)
    (h : Tuple.parse scope a es rest x = .ok o) : o.Straight inspected := by
  rw [Tuple.parse] at h
  cases hi : x.items? with
  | none =>
    rw [hi] at h
    obtain rfl := Except.ok.inj h
    exact straight_mismatch ha hx (by decide)
  | some items =>
    rw [hi] at h
    obtain ⟨g, hg, h⟩ := bind_eq_ok_iff.mp h
    obtain rfl := Except.ok.inj h
    have hgood := gather_straight (hs items hi) hg
    cases g with
    | stopped p => exact Outcome.straight_failure (List.forall_mem_singleton.mpr hgood)
    | kept members warnings =>
      refine Outcome.straight_warn ?_ hgood.2
      have hitems : ∀ w ∈ members.map Prod.snd, w.Straight inspected :=
        List.forall_mem_map.mpr fun m hm => (hgood.1 m hm).1
      unfold Tuple.rebuild
      split
      · exact (Value.straight_items hitems).2
      · exact (Value.straight_items hitems).1

theorem straight_struct {ps : List (Property (Parser (Except Fault)))} {is : List (Struct.Index (Except Fault))}
    (ha : a.message = none) (hx : x.Straight inspected)
    (hs : ∀ es, x.entries? = some es → ∀ s ∈ Struct.steps ps is es, s.Straight inspected)
    (hkeys : ∀ es, x.entries? = some es → ∀ segment p w, .take segment p w ∈ Struct.steps ps is es →
      Value.straightKey inspected (Struct.segmentKey segment) ∧ (Struct.segmentKey segment).Straight inspected)
    (h : Struct.parse scope a ps is x = .ok o) : o.Straight inspected := by
  rw [Struct.parse] at h
  cases hi : x.entries? with
  | none =>
    rw [hi] at h
    obtain rfl := Except.ok.inj h
    exact straight_mismatch ha hx (by decide)
  | some es =>
    rw [hi] at h
    obtain ⟨g, hg, h⟩ := bind_eq_ok_iff.mp h
    obtain rfl := Except.ok.inj h
    have hgood := gather_straight (hs es hi) hg
    cases g with
    | stopped p => exact Outcome.straight_failure (List.forall_mem_singleton.mpr hgood)
    | kept members warnings =>
      refine Outcome.straight_warn (Value.straight_dict_iff.mpr fun e he => ?_) hgood.2
      obtain ⟨f, hf, hfk⟩ := Entries.mem_ofList he
      obtain ⟨f', hf', hfv⟩ := Entries.value_mem_ofList he
      obtain ⟨m, hm, rfl⟩ := List.mem_map.mp hf
      obtain ⟨m', hm', rfl⟩ := List.mem_map.mp hf'
      obtain ⟨p, w, htake⟩ := (hgood.1 m hm).2
      obtain ⟨hkey, hstraight⟩ := hkeys es hi m.1 p w htake
      exact ⟨hfk ▸ hkey, hfk ▸ hstraight, hfv ▸ (hgood.1 m' hm').1⟩

theorem straight_refinement {p : Predicate} {base : Parser (Except Fault)} (ha : a.Straight)
    (hx : x.Straight inspected) (hb : ∀ o, base x = .ok o → o.Straight inspected)
    (h : Refinement.parse scope direction a p base x = .ok o) : o.Straight inspected := by
  have violation {v : Value} (hv : v.Straight inspected) : (Refinement.violation scope a v).Straight inspected := by
    refine Outcome.straight_failure (List.forall_mem_singleton.mpr (Problem.straight_leaf rfl ?_))
    have hlabel := Problem.oneLine_isPredicate ha.oneLine_displayLabel
    simpa [Problem.leafMessage, Annotations.renderMessage, ha.message, Problem.worded]
      using Problem.oneLine_unsatisfied hv hlabel
  cases direction with
  | decode =>
    obtain ⟨o', ho, h⟩ := bind_eq_ok_iff.mp h
    cases hv : o'.value? with
    | none =>
      rw [hv] at h
      obtain rfl := Except.ok.inj h
      exact hb o' ho
    | some v =>
      rw [hv] at h
      obtain ⟨b, -, h⟩ := bind_eq_ok_iff.mp h
      cases b with
      | true =>
        obtain rfl := Except.ok.inj h
        exact hb o' ho
      | false =>
        obtain rfl := Except.ok.inj h
        exact violation ((hb o' ho).value v hv)
  | encode =>
    obtain ⟨b, -, h⟩ := bind_eq_ok_iff.mp h
    cases b with
    | true => exact hb o h
    | false =>
      obtain rfl := Except.ok.inj h
      exact violation hx

theorem straight_union {ws : List Nat} {ps : List (Parser (Except Fault))} (hl : ps.length ≤ ws.length)
    (hp : ∀ p ∈ ps, ∀ o, p x = .ok o → o.Straight inspected) (h : Union.parse ws ps x = .ok o) :
    o.Straight inspected := by
  cases o with
  | success | warning =>
    obtain ⟨p, hpm, hpx⟩ := Union.parse_accepts h rfl
    exact hp p hpm _ hpx
  | failure qs =>
    obtain ⟨-, pss, hall, rfl⟩ := Union.parse_fails hl h
    refine Outcome.straight_failure (List.forall_mem_map.mpr fun rs hrs => ?_)
    obtain ⟨p, hpm, hpx⟩ := Lists.exists_of_mem_right hall hrs
    exact Problem.straight_ofMember (hp p hpm _ hpx).problems

theorem straight_keyword {w : Keyword} (ha : a.message = none) (hx : x.Straight inspected) :
    (scope.parseKeyword direction a w x).Straight inspected := by
  have integer (n : Int) : (Outcome.success (.int n)).Straight inspected := Outcome.straight_success rfl
  have plain : (scope.parsePlainKeyword a w x).Straight inspected := by
    unfold parsePlainKeyword
    split
    · split
      · refine Outcome.straight_warn hx fun p hp => ?_
        obtain ⟨reason, rfl⟩ := eq_anomaly_of_anomaly? (Option.mem_toList.mp hp)
        cases reason with
        | notANumber => exact Problem.straight_leaf rfl (by decide : OneLine "did not satisfy not(isNaN)")
        | notFinite => exact Problem.straight_leaf rfl (by decide : OneLine "did not satisfy isFinite")
      · exact Outcome.straight_success hx
    · exact straight_mismatch ha hx (by cases w <;> decide)
  unfold parseKeyword
  split
  · unfold decodeBigint
    split
    · exact integer _
    · split
      · split
        · exact integer _
        · refine Outcome.straight_failure (List.forall_mem_singleton.mpr (Problem.straight_leaf rfl ?_))
          simpa [Problem.leafMessage, Annotations.renderMessage, ha, Problem.worded]
            using Problem.oneLine_unsatisfied hx (by decide)
      · exact straight_mismatch ha hx (by decide)
  · unfold encodeBigint
    split
    · exact integer _
    · exact straight_mismatch ha hx (by decide)
  · exact plain

theorem oneLine_shown {head : String} {spans : List Span} (hh : OneLine head) (hs : ∀ s ∈ spans, OneLine s.literal) :
    OneLine (Template.shown head spans) := by
  have hspans : ∀ t ∈ spans.map fun s => "$\x7b" ++ s.slot.keyword.word ++ "\x7d" ++ s.literal, OneLine t := by
    refine List.forall_mem_map.mpr fun s hsm => ?_
    simp only [oneLine_append_iff]
    exact ⟨⟨⟨by decide, by cases s.slot <;> decide⟩, by decide⟩, hs s hsm⟩
  rw [Template.shown, oneLine_append_iff]
  refine ⟨hh, fun hmem => ?_⟩
  rw [String.toList_join] at hmem
  obtain ⟨t, ht, hmem⟩ := List.mem_flatMap.mp hmem
  exact hspans t ht hmem

theorem oneLine_equalPredicate {v : Value} (h : OneLine v.render) : OneLine (equalPredicate v) := by
  simp only [equalPredicate, oneLine_append_iff]
  exact ⟨⟨by decide, h⟩, by decide⟩

theorem oneLine_enumPredicate {pairs : List (String × Value)} (h : ∀ p ∈ pairs, OneLine p.2.render) :
    OneLine (enumPredicate pairs) := by
  refine Value.oneLine_enclosed (by decide) (by decide) (by decide) (List.forall_mem_map.mpr fun p hp => ?_)
  simp only [oneLine_append_iff]
  exact ⟨⟨⟨⟨by decide, Text.oneLine_quoteRendered p.1⟩, by decide⟩, h p hp⟩, by decide⟩

/-- Schemas without parts come to straight outcomes. -/
theorem straight_atom {s : Schema} (hs : s.isAtom) (ha : s.annotations.message = none) (hstraight : s.Straight)
    (hx : x.Straight inspected) {n : Nat} (h : scope.run direction n s x = .ok o) : o.Straight inspected := by
  cases s with
  | literal a y =>
    obtain rfl := Except.ok.inj h
    have hy : y.value.Straight false := by cases y <;> rfl
    exact straight_ite ha hx (oneLine_equalPredicate (Value.oneLine_render hy))
  | uniqueSymbol a key =>
    obtain rfl := Except.ok.inj h
    have hkey : (Value.symbol key).Straight false :=
      Value.straight_iff.mpr ⟨decide_eq_true (show OneLine key from hstraight), by simp [Value.parts]⟩
    exact straight_ite ha hx (oneLine_equalPredicate (Value.oneLine_render hkey))
  | keyword a w =>
    obtain rfl := Except.ok.inj h
    exact straight_keyword ha hx
  | enums a pairs =>
    obtain rfl := Except.ok.inj h
    exact straight_ite ha hx (oneLine_enumPredicate hstraight)
  | template a head first more =>
    obtain rfl := Except.ok.inj h
    have hpredicate := Problem.oneLine_isPredicate (oneLine_shown hstraight.1 hstraight.2)
    cases x with
    | text y => exact straight_ite ha hx hpredicate
    | _ => exact straight_mismatch ha hx hpredicate
  | _ => cases hs

/-- A declared key whose text is on one line is straight itself, and so is its place among the keys of a mapping where
it is found there. -/
theorem straight_name {name v : Value} {es : Entries} (hname : name.isKey) (hline : OneLine name.plain)
    (hes : ∀ e ∈ es, Value.straightKey inspected e.1) (h : es.lookup name = some v) :
    Value.straightKey inspected name ∧ name.Straight inspected := by
  have leaf {w : Value} (hw : w.parts = []) (hnode : Value.straightNode inspected w) : w.Straight inspected :=
    Value.straight_iff.mpr ⟨hnode, by simp [hw]⟩
  have form {w : Value} (hw : w.renderKey.isSome) : (inspected || w.renderKey.isSome) = true := by
    rw [hw, Bool.or_true]
  cases name with
  | text s => exact ⟨Bool.and_eq_true_iff.mpr ⟨decide_eq_true hline, form rfl⟩, leaf rfl rfl⟩
  | int n => exact ⟨form rfl, leaf rfl rfl⟩
  | bool b => exact ⟨form rfl, leaf rfl rfl⟩
  | symbol key =>
    have hkey : OneLine key := (oneLine_append_iff.mp (oneLine_append_iff.mp hline).1).2
    refine ⟨?_, leaf rfl (decide_eq_true hkey)⟩
    -- Only a symbol equals a symbol, and symbols have no rendered form: the keys may be inspected.
    obtain ⟨e, he, rfl⟩ := Option.map_eq_some_iff.mp h
    obtain ⟨key', hkey'⟩ : ∃ key', e.1 = .symbol key' := by
      have hequals : e.1.equals (.symbol key) := by simpa using List.find?_some he
      have hsymbol := Value.isSymbol_of_equals hequals
      cases hk : e.1 <;> rw [hk] at hsymbol <;> first | exact ⟨_, rfl⟩ | cases hsymbol
    have hform := hes e (List.mem_of_find?_eq_some he)
    rw [hkey'] at hform
    simpa [Value.straightKey, Value.renderKey] using hform
  | _ => cases hname

/-- Every run of a straight schema on a straight value comes to a straight outcome. -/
theorem straight_of_run {s : Schema} (ht : scope.TransformFree s)
    (hs : ∀ t, scope.Part s t → t.annotations.Straight ∧ t.Straight) (hx : x.Straight inspected) {n : Nat}
    (h : scope.run direction n s x = .ok o) : o.Straight inspected := by
  induction n, s using scope.runInduction generalizing x o with
  | spent a handle => cases h
  | unfolded n a handle ih =>
    rw [run_lazy_succ] at h
    obtain ⟨t, hf, h⟩ := bind_eq_ok_iff.mp h
    exact ih t hf (ht.part (.force hf)) (fun u hu => hs u (.trans (.force hf) hu)) hx h
  | node n s hl ih =>
    have child {t : Schema} (htc : t ∈ s.children) {v : Value} (hv : v.Straight inspected) {o : Outcome}
        (h : scope.run direction n t v = .ok o) : o.Straight inspected :=
      ih t htc (ht.part (.child htc)) (fun u hu => hs u (.trans (.child htc) hu)) hv h
    obtain ⟨ha, hstraight⟩ := hs s (.refl scope s)
    cases s with
    | lazy a handle => cases hl
    | transform a t u c => exact absurd (.refl scope _) (ht a t u c)
    | literal | uniqueSymbol | keyword | enums | template => exact straight_atom rfl ha.message hstraight hx h
    | typeAlias a ps t => exact child List.mem_cons_self hx h
    | refinement a t p =>
      rw [run_refinement] at h
      exact straight_refinement ha hx (fun o ho => child List.mem_cons_self hx ho) h
    | union a ms =>
      rw [run_union] at h
      have hlength : (ms.map (scope.run direction n)).length ≤ (ms.map Schema.weight).length := by simp
      exact straight_union hlength (List.forall_mem_map.mpr fun m hm o ho => child hm hx ho) h
    | tuple a es rest readonly =>
      rw [run_tuple] at h
      refine straight_tuple ha.message hx (fun items hi step hstep => ?_) h
      cases Tuple.mem_steps_iff.mp hstep with
      | missing | unexpected => exact oneLine_nat _
      | item hti hv =>
        have hpart := hx.part (Value.mem_parts_of_items hi (List.mem_of_getElem? hv))
        exact ⟨oneLine_nat _, fun o ho => child (Tuple.mem_assigned (List.mem_of_getElem? hti)) hpart ho⟩
    | struct a ps is =>
      rw [run_struct] at h
      refine straight_struct ha.message hx (fun es hi step hstep => ?_) (fun es hi segment p w hstep => ?_) h
      · have entry {e : Value × Value} (he : e ∈ es) := hx.entry hi he
        have key {e : Value × Value} (he : e ∈ es) : OneLine e.1.plain :=
          Value.oneLine_plain (entry he).2.1 (entry he).1
        cases Struct.mem_steps_iff.mp hstep with
        | property hp hv =>
          refine ⟨(hstraight _ hp).2, fun o ho => ?_⟩
          exact child (Schema.mem_children_of_property hp) (hx.part (Value.mem_parts_of_lookup hi hv)) ho
        | missing hp => exact (hstraight _ hp).2
        | unexpected he => exact key he
        | parameter he _ hi' _ =>
          exact ⟨key he, fun o ho => child (Schema.mem_children_of_index hi').1 (entry he).2.1 ho⟩
        | index he _ hi' _ =>
          exact ⟨key he, fun o ho => child (Schema.mem_children_of_index hi').2 (entry he).2.2 ho⟩
      · have entry {e : Value × Value} (he : e ∈ es) := hx.entry hi he
        generalize hstep' : Step.take segment p w = step at hstep
        cases Struct.mem_steps_iff.mp hstep with
        | property hp hv =>
          cases hstep'
          exact straight_name (hstraight _ hp).1 (hstraight _ hp).2 (fun e he => (entry he).1) hv
        | index he =>
          cases hstep'
          exact ⟨(entry he).1, (entry he).2.1⟩
        | _ => cases hstep'

/-- Messages are on one line, and a drawn tree has one line for its header and one for each problem, a single leaf being
one line in all: in either direction, where no part of the schema is a transform, words messages of its own or puts a
line feed into messages, and the value is straight. -/
theorem messages_oneLine {s : Schema} (ht : scope.TransformFree s)
    (hs : ∀ t, scope.Part s t → t.annotations.Straight ∧ t.Straight) (hx : x.Straight inspected)
    (ho : scope.Yields direction s x o) :
    (∀ m ∈ o.messages, OneLine m) ∧ ∀ color, lineCount (Problem.tree color o.problems) =
      if Problem.isSingleLeaf o.problems then 1 else (Problem.nodesOfAll o.problems).length + 1 := by
  obtain ⟨n, hn⟩ := ho
  have hproblems := (straight_of_run ht hs hx hn).problems
  refine ⟨?_, Problem.lineCount_tree hproblems⟩
  rw [Outcome.messages, Problem.messages_eq_map, List.forall_mem_map]
  exact fun p hp => Problem.oneLine_message (hproblems p hp)

theorem straight_item {t : Schema} (h : (Stock.scope [(0, .ok numbered)]).Part item t) :
    t.annotations.Straight ∧ t.Straight := by
  have plain : Annotations.empty.Straight := ⟨by simp [Annotations.empty], rfl⟩
  have hmem := mem_itemParts h
  simp only [itemParts, List.mem_cons, List.not_mem_nil, or_false] at hmem
  rcases hmem with rfl | rfl | rfl | rfl | rfl | rfl | rfl <;> refine ⟨plain, ?_⟩
  · trivial
  · trivial
  · trivial
  · simp only [numbered, Schema.Straight, List.forall_mem_cons]
    exact ⟨⟨rfl, by decide⟩, ⟨rfl, by decide⟩, by simp⟩
  · simp only [named, Schema.Straight, List.forall_mem_singleton]
    exact ⟨rfl, by decide⟩
  all_goals trivial

/-- A text that holds a line feed is quoted: both members of an item refuse it on a line each. -/
theorem messages_oneLine_item :
    let scope := Stock.scope [(0, .ok numbered)]
    let x : Value := .dict [(.text "id", .list [.text "a\nb"])]
    ∃ o, scope.Yields .decode item x o ∧ o.isFailure ∧ (∀ m ∈ o.messages, OneLine m) ∧
      lineCount (Problem.tree false o.problems) = 7 := by
  intro scope x
  have hx : x.Straight false := by rfl
  have ho : ∃ o, scope.Yields .decode item x o ∧ o.isFailure ∧ (Problem.nodesOfAll o.problems).length = 6 ∧
      Problem.isSingleLeaf o.problems = false := ⟨_, ⟨1, rfl⟩, rfl, rfl, rfl⟩
  obtain ⟨o, ho, hf, hlength, hsingle⟩ := ho
  obtain ⟨hmessages, htree⟩ := messages_oneLine not_part_transform_item (fun _ => straight_item) hx ho
  refine ⟨o, ho, hf, hmessages, ?_⟩
  rw [htree false, hsingle, hlength]
  rfl

/-- A key of the input stands in messages as it is. Where it holds a line feed, so does the message about its value, and
the tree of two problems has four lines. -/
theorem key_not_quoted :
    let scope := Stock.scope []
    let s : Schema := .struct .empty [] [⟨.keyword .empty .string, .keyword .empty .number, false⟩]
    let x : Value := .dict [(.text "a\nb", .bool true)]
    ∃ o, scope.Yields .decode s x o ∧ o.isFailure ∧ o.messages = ["/a\nb true did not satisfy is(number)"] ∧
      (∃ m ∈ o.messages, ¬OneLine m) ∧ (Problem.nodesOfAll o.problems).length = 2 ∧
      lineCount (Problem.tree false o.problems) = 4 :=
  ⟨_, ⟨0, rfl⟩, rfl, by decide, by decide, by decide, by decide⟩

end Scope
end Schemata
