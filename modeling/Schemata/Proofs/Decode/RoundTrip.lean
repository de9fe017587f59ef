import Schemata.Proofs.Decode.Loss
import Schemata.Proofs.Decode.Termination

/-!
Encoding takes back what decoding gave. The induction is along the decoding run, with the value that came out as the
one to be encoded. A union may choose another member on the way back; without conversions below it, any member that
succeeds gives back its input, whichever it is.
-/
namespace Schemata

def valueOf (p : Parser (Except Fault)) (v : Value) : Value :=
  match p v with
  | .ok o => o.value?.getD v
  | .error _ => v

theorem valueOf_success {p : Parser (Except Fault)} {v w : Value} (h : p v = .ok (.success w)) :
    valueOf p v = w := by
  simp [valueOf, h, Outcome.value?]

namespace Struct
variable {ps : List (Property Schema)} {is : List (IndexSignature Schema)} {es : Entries}
  {f : Schema → Parser (Except Fault)}

def results (f : Schema → Parser (Except Fault)) (ps : List (Property Schema)) (is : List (IndexSignature Schema))
    (es : Entries) : Entries :=
  respell IndexSignature.claims ps is es (fun r => valueOf (f r.1.type) r.2.2)
    fun r => valueOf (f r.1.type) r.2.2

structure Succeeds (f : Schema → Parser (Except Fault)) (ps : List (Property Schema))
    (is : List (IndexSignature Schema)) (es : Entries) : Prop where
  declared : ∀ r ∈ found ps es, f r.1.type r.2.2 = .ok (.success (valueOf (f r.1.type) r.2.2))
  undeclared : ∀ r ∈ claimed IndexSignature.claims (ps.map fun p => p.name) is es,
    f r.1.type r.2.2 = .ok (.success (valueOf (f r.1.type) r.2.2))
  keys : ∀ r ∈ claimed IndexSignature.claims (ps.map fun p => p.name) is es,
    ∃ o, f r.1.parameter r.2.1 = .ok o ∧ o.isFailure = false

theorem succeeds_of_clean (hfit : Fits ps is es)
    (h : ∀ s ∈ steps (ps.map (Property.map f)) (is.map (IndexSignature.parsers f)) es, s.Clean) :
    Succeeds f ps is es := by
  have take {p : Parser (Except Fault)} {segment : Segment} {v : Value}
      (h : (Step.take segment p v).Clean) : p v = .ok (.success (valueOf p v)) := by
    obtain ⟨w, hw⟩ := h
    rw [valueOf_success hw, hw]
  rw [hfit.steps_eq f, List.forall_mem_append, List.forall_mem_map] at h
  have hc (r : _) (hr : r ∈ claimed IndexSignature.claims (ps.map fun p => p.name) is es) :=
    List.forall_mem_cons.mp fun s hs => h.2 s (List.mem_flatMap.mpr ⟨r, hr, hs⟩)
  exact ⟨fun r hr => take (h.1 r hr), fun r hr => take ((hc r hr).2 _ List.mem_cons_self),
    fun r hr => (hc r hr).1⟩

/-- A table that fits is taken over entry by entry when every part succeeds. -/
theorem parse_of_fits (hfit : Fits ps is es) (hes : es.distinct)
    (hn : ps.Pairwise fun p q => p.name.equals q.name = false) (h : Succeeds f ps is es) {scope : Scope}
    {a : Annotations} {x : Value} (hx : x.entries? = some es) :
    parse scope a (ps.map (Property.map f)) (is.map (IndexSignature.parsers f)) x =
      .ok (.success (.dict (results f ps is es))) := by
  refine parse_success_iff.mpr ⟨es, hx, ?_, ?_⟩
  · rw [hfit.steps_eq f, List.forall_mem_append]
    constructor
    · intro s hs
      obtain ⟨r, hr, rfl⟩ := List.mem_map.mp hs
      exact ⟨_, h.declared r hr⟩
    · intro s hs
      obtain ⟨r, hr, hs⟩ := List.mem_flatMap.mp hs
      simp only [List.mem_cons, List.not_mem_nil, or_false] at hs
      rcases hs with rfl | rfl
      · exact h.keys r hr
      · exact ⟨_, h.undeclared r hr⟩
  · have hd : (results f ps is es).distinct := respell_distinct _ _ hes hn selfClaims_index
    have hm : ((steps (ps.map (Property.map f)) (is.map (IndexSignature.parsers f)) es).flatMap
        Step.members).map (fun e => (segmentKey e.1, e.2)) = results f ps is es := by
      rw [hfit.steps_eq f, List.flatMap_append, List.map_append, List.flatMap_assoc, List.flatMap_map,
        List.map_flatMap, List.map_flatMap, results, respell]
      congr 1
      · refine (List.flatMap_congr fun r hr => ?_).trans List.map_eq_flatMap.symm
        rw [Step.members_take (h.declared r hr) rfl]
        rfl
      · refine (List.flatMap_congr fun r hr => ?_).trans List.map_eq_flatMap.symm
        have hcheck : (Step.check (.key r.2.1) (f r.1.parameter) r.2.1).members = [] := rfl
        rw [List.flatMap_cons, hcheck, List.nil_append, List.flatMap_cons,
          Step.members_take (h.undeclared r hr) rfl]
        rfl
    rw [rebuild, hm, Entries.ofList_of_pairwise ((Entries.distinct_iff _).mp hd).2]

theorem results_respell (hes : es.distinct) (hn : ps.Pairwise fun p q => p.name.equals q.name = false)
    (value : Property Schema × (Value × Value) → Value)
    (value' : IndexSignature Schema × (Value × Value) → Value) :
    results f ps is (respell IndexSignature.claims ps is es value value') =
      respell IndexSignature.claims ps is es (fun r => valueOf (f r.1.type) (value r))
        fun r => valueOf (f r.1.type) (value' r) := by
  rw [results, respell, found_respell _ _ hes hn selfClaims_index, claimed_respell _ _ hes, List.map_map,
    List.map_map, respell]
  rfl

/-- Where the parts of a struct succeed on what came out of them, the struct succeeds on what came out of it. -/
theorem parse_results {g : Schema → Parser (Except Fault)} (hfit : Fits ps is es) (hes : es.distinct)
    (hn : ps.Pairwise fun p q => p.name.equals q.name = false)
    {back : Property Schema × (Value × Value) → Value} {back' : IndexSignature Schema × (Value × Value) → Value}
    (hf : ∀ r ∈ found ps es, g r.1.type (valueOf (f r.1.type) r.2.2) = .ok (.success (back r)))
    (hc : ∀ r ∈ claimed IndexSignature.claims (ps.map fun p => p.name) is es,
      g r.1.type (valueOf (f r.1.type) r.2.2) = .ok (.success (back' r)))
    (hk : ∀ r ∈ claimed IndexSignature.claims (ps.map fun p => p.name) is es,
      ∃ o, g r.1.parameter r.2.1 = .ok o ∧ o.isFailure = false) {scope : Scope} {a : Annotations} :
    parse scope a (ps.map (Property.map g)) (is.map (IndexSignature.parsers g)) (.dict (results f ps is es)) =
      .ok (.success (.dict (respell IndexSignature.claims ps is es back back'))) := by
  have hs : Succeeds g ps is (results f ps is es) := by
    rw [results]
    constructor
    · rw [found_respell _ _ hes hn selfClaims_index, List.forall_mem_map]
      intro r hr
      rw [valueOf_success (hf r hr), hf r hr]
    · rw [claimed_respell _ _ hes, List.forall_mem_map]
      intro r hr
      rw [valueOf_success (hc r hr), hc r hr]
    · rw [claimed_respell _ _ hes, List.forall_mem_map]
      exact hk
  have hd : (results f ps is es).distinct := respell_distinct _ _ hes hn selfClaims_index
  have hfit' : Fits ps is (results f ps is es) := hfit.respell hes hn _ _
  have hres : results g ps is (results f ps is es) = respell IndexSignature.claims ps is es back back' :=
    (results_respell hes hn _ _).trans
      (respell_congr _ _ (fun r hr => valueOf_success (hf r hr)) fun r hr => valueOf_success (hc r hr))
  rw [parse_of_fits hfit' hd hn hs rfl, hres]

/-- A mapping with the entries of another is the same when their values are. -/
theorem same_respell (hfit : Fits ps is es) (hes : es.distinct)
    (hn : ps.Pairwise fun p q => p.name.equals q.name = false)
    {back : Property Schema × (Value × Value) → Value} {back' : IndexSignature Schema × (Value × Value) → Value}
    (hf : ∀ r ∈ found ps es, (back r).same r.2.2)
    (hc : ∀ r ∈ claimed IndexSignature.claims (ps.map fun p => p.name) is es, (back' r).same r.2.2) {x : Value}
    (hx : x.entries? = some es) :
    (Value.dict (respell IndexSignature.claims ps is es back back')).same x := by
  have hall := respell_forall₂ back back' hes selfClaims_index (R := fun v w => v.same w) hf hc
  have hp := hfit.perm hes hn
  refine (Value.equalsUpTo_iff _ _).mpr (.mapping rfl hx ?_ fun out ho => ?_)
  · rw [hall.length_eq, hp.length_eq]
  · obtain ⟨e, hmem, _, hk, hv⟩ := Lists.exists_of_mem_left hall ho
    exact ⟨e, hp.mem_iff.mp hmem, Value.same_of_equals hk, hv⟩

end Struct

namespace Scope
variable {scope : Scope}

/-- What succeeds in decoding succeeds in encoding, and gives back what went in. -/
def Returns (scope : Scope) (n : Nat) (s : Schema) : Prop :=
  ∀ x v, x.Plain → scope.run .decode n s x = .ok (.success v) →
    ∃ w, scope.Yields .encode s v (.success w) ∧ w.same x

/-- Where nothing converts, what a schema accepts of a value without members is the value, without warnings unless it
is an anomalous number. -/
theorem run_simple {direction : Direction} {s : Schema} (hs : ∀ t, scope.Part s t → t.converts = false)
    {x : Value} (hi : x.items? = none) (he : x.entries? = none) (ha : anomaly? x = none) {n : Nat} {o : Outcome}
    (h : scope.run direction n s x = .ok o) (ho : o.isFailure = false) : o = .success x := by
  let K (p : Parser (Except Fault)) : Prop := ∀ o, p x = .ok o → o.isFailure = false → o = .success x
  suffices hK : K (scope.run direction n s) from hK o h ho
  refine accepted_induction (fun p hp o hr ho => ?_) (fun n t ht hatom o hr ho => ?_) ?_ ?_ ?_ n
  · obtain ⟨q, hq, hqx⟩ := hp x o hr ho
    exact hq o hqx ho
  · obtain ⟨p, hp, hid⟩ := scope.run_atom hatom (hs t ht) x
    obtain rfl := Except.ok.inj (hr.symm.trans (hp direction n))
    rw [ha] at hid
    exact (hid ho).elim id id
  · intro n a es r ro _ _ o hr ho
    rw [run_tuple] at hr
    obtain ⟨items, hx, _⟩ := Tuple.parse_accepts_iff.mp ⟨hr, ho⟩
    simp [hi] at hx
  · intro n a ps is _ _ o hr ho
    rw [run_struct] at hr
    obtain ⟨es, hx, _⟩ := Struct.parse_accepts_iff.mp ⟨hr, ho⟩
    simp [he] at hx
  · intro n a t u c ht _
    cases hs _ ht

open Struct in
theorem returns_struct {n : Nat} {a : Annotations} {ps : List (Property Schema)}
    {is : List (IndexSignature Schema)} (hu : (Schema.struct a ps is).Unambiguous)
    (hc : ∀ t ∈ (Schema.struct a ps is).children, scope.Returns n t)
    (hk : ∀ i ∈ is, ∀ k o, i.claims k → scope.run .decode n i.parameter k = .ok o → o.isFailure = false →
      o = .success k) :
    scope.Returns n (.struct a ps is) := by
  intro x v hx hr
  rw [run_struct] at hr
  obtain ⟨es, he, hclean, -⟩ := parse_success_iff.mp hr
  have hes := hx.distinct he
  have hn := hu.1
  have hfit := fits_of_clean hu hclean
  have hs := succeeds_of_clean hfit hclean
  have hv : v = .dict (results (scope.run .decode n) ps is es) := by
    have := hr.symm.trans (parse_of_fits hfit hes hn hs he)
    simpa using this
  have hplain : ∀ e ∈ es, e.1.Plain ∧ e.2.Plain := fun e h =>
    ⟨hx.part (Value.mem_parts_of_entries he h).1, hx.part (Value.mem_parts_of_entries he h).2⟩
  -- What the parts give back.
  have hfound : ∀ r ∈ found ps es, ∃ w,
      scope.Yields .encode r.1.type (valueOf (scope.run .decode n r.1.type) r.2.2) (.success w) ∧
        w.same r.2.2 := by
    intro r hr
    obtain ⟨hp, hre, _⟩ := (mem_found hes).mp hr
    exact hc _ (Schema.mem_children_of_property hp) _ _ (hplain _ hre).2 (hs.declared r hr)
  have hindex : ∀ r ∈ claimed IndexSignature.claims (ps.map fun p => p.name) is es,
      r.1 ∈ is ∧ r.2 ∈ es ∧ r.1.claims r.2.1 := fun r hr => by
    obtain ⟨hre, _, hf⟩ := mem_claimed hr
    exact ⟨List.mem_of_find?_eq_some hf, hre, by simpa using List.find?_some hf⟩
  have hclaimed : ∀ r ∈ claimed IndexSignature.claims (ps.map fun p => p.name) is es, ∃ w,
      scope.Yields .encode r.1.type (valueOf (scope.run .decode n r.1.type) r.2.2) (.success w) ∧
        w.same r.2.2 := by
    intro r hr
    obtain ⟨hi, hre, _⟩ := hindex r hr
    exact hc _ (Schema.mem_children_of_index hi).2 _ _ (hplain _ hre).2 (hs.undeclared r hr)
  have hkeys : ∀ r ∈ claimed IndexSignature.claims (ps.map fun p => p.name) is es, ∃ w,
      scope.Yields .encode r.1.parameter r.2.1 (.success w) := by
    intro r hr
    obtain ⟨hi, hre, hcl⟩ := hindex r hr
    obtain ⟨o, ho, hf⟩ := hs.keys r hr
    obtain rfl := hk _ hi _ _ hcl ho hf
    obtain ⟨w, hw, _⟩ := hc _ (Schema.mem_children_of_index hi).1 _ _ (hplain _ hre).1 ho
    exact ⟨w, hw⟩
  choose! back hback hsame using hfound
  choose! back' hback' hsame' using hclaimed
  choose! key hkey using hkeys
  refine ⟨.dict (respell IndexSignature.claims ps is es back back'), ?_, same_respell hfit hes hn hsame hsame' he⟩
  obtain ⟨m, hm, hm', hmk⟩ := ((eventually_forall_mem fun r hr => (hback r hr).eventually).and
    ((eventually_forall_mem fun r hr => (hback' r hr).eventually).and
      (eventually_forall_mem fun r hr => (hkey r hr).eventually))).exists
  exact ⟨m, by rw [run_struct, hv, parse_results hfit hes hn hm hm' fun r hr => ⟨_, hmk r hr, rfl⟩]⟩

/-- Items by what they are assigned to: what comes out has the same length, so it is assigned in the same way. -/
theorem returns_itemSteps {n i : Nat} {as : List (Option Schema)} {items : List Value}
    (hl : as.length = items.length) (h : ∀ t, some t ∈ as → scope.Returns n t) (hx : ∀ v ∈ items, v.Plain)
    (hc : ∀ s ∈ Tuple.itemSteps i (as.map (Option.map (scope.run .decode n))) items, s.Clean) :
    ∃ outs ws : List Value,
      ((Tuple.itemSteps i (as.map (Option.map (scope.run .decode n))) items).flatMap Step.members).map Prod.snd =
        outs ∧
      outs.length = items.length ∧ List.Forall₂ (fun w v => w.same v) ws items ∧
      ∀ᶠ m in Filter.atTop,
        (∀ s ∈ Tuple.itemSteps i (as.map (Option.map (scope.run .encode m))) outs, s.Clean) ∧
        ((Tuple.itemSteps i (as.map (Option.map (scope.run .encode m))) outs).flatMap Step.members).map
          Prod.snd = ws := by
  induction items generalizing i as with
  | nil =>
    obtain rfl := List.eq_nil_of_length_eq_zero hl
    exact ⟨[], [], rfl, rfl, .nil, .of_forall fun m => ⟨fun s hs => absurd hs List.not_mem_nil, rfl⟩⟩
  | cons v items ih =>
    cases as with
    | nil => cases hl
    | cons a as =>
      simp only [List.map_cons, Tuple.itemSteps, List.forall_mem_cons] at hc hx
      obtain ⟨outs, ws, houts, hlen, hsame, hev⟩ := ih (Nat.succ.inj hl)
        (fun t ht => h t (List.mem_cons_of_mem _ ht)) hx.2 hc.2
      cases a with
      | none => exact absurd hc.1 id
      | some t =>
        obtain ⟨out, hout⟩ := hc.1
        obtain ⟨w, hw, hwv⟩ := h t List.mem_cons_self v out hx.1 hout
        refine ⟨out :: outs, w :: ws, ?_, by simp [hlen], .cons hwv hsame, ?_⟩
        · simp only [List.map_cons, Option.map_some, Tuple.itemSteps, Tuple.itemStep, List.flatMap_cons,
            List.map_append, houts, Step.members_take hout rfl]
          rfl
        · apply (hw.eventually.and hev).mono
          intro m hm
          obtain ⟨hm, hclean, hmem⟩ := hm
          simp only [List.map_cons, Option.map_some, Tuple.itemSteps, Tuple.itemStep, List.flatMap_cons,
            List.map_append, hmem, Step.members_take hm rfl, List.forall_mem_cons]
          exact ⟨⟨⟨w, hm⟩, hclean⟩, rfl⟩

theorem returns_tuple {n : Nat} {a : Annotations} {es : List (Element Schema)} {rest : Option (Rest Schema)}
    {readonly : Bool} (hc : ∀ t ∈ (Schema.tuple a es rest readonly).children, scope.Returns n t) :
    scope.Returns n (.tuple a es rest readonly) := by
  intro x v hx hr
  rw [run_tuple] at hr
  obtain ⟨items, hi, hclean, rfl⟩ := Tuple.parse_success_iff.mp hr
  have hgaps : Tuple.gaps es rest items.length = [] := by
    rw [List.eq_nil_iff_forall_not_mem]
    intro i hgap
    apply hclean (Tuple.gapStep i)
    rw [Tuple.steps_map]
    exact List.mem_append_right _ (List.mem_map_of_mem hgap)
  have hparts : ∀ w ∈ items, w.Plain := fun w hw => hx.part (Value.mem_parts_of_items hi hw)
  rw [Tuple.steps_map, hgaps, List.map_nil, List.append_nil] at hclean ⊢
  obtain ⟨outs, ws, rfl, hlen, hsame, hev⟩ := returns_itemSteps (Tuple.length_assigned es rest items.length)
    (fun t ht => hc t (Tuple.mem_assigned ht)) hparts hclean
  generalize ((Tuple.itemSteps 0 ((Tuple.assigned es rest items.length).map
    (Option.map (scope.run .decode n))) items).flatMap Step.members).map Prod.snd = outs at hlen hev
  have hout : (Tuple.rebuild x outs).items? = some outs := by
    cases x <;> rfl
  refine ⟨Tuple.rebuild x ws, ?_, ?_⟩
  · obtain ⟨m, hm, hmem⟩ := hev.exists
    refine ⟨m, ?_⟩
    have hsteps : Tuple.steps (es.map (Element.map (scope.run .encode m)))
        (rest.map (Rest.map (scope.run .encode m))) outs =
        Tuple.itemSteps 0 ((Tuple.assigned es rest items.length).map (Option.map (scope.run .encode m))) outs := by
      rw [Tuple.steps_map, hlen, hgaps, List.map_nil, List.append_nil]
    rw [run_tuple]
    refine Tuple.parse_success_iff.mpr ⟨outs, hout, by rwa [hsteps], ?_⟩
    rw [hsteps, hmem]
    cases x <;> rfl
  · cases x <;> simp [Value.items?] at hi <;> subst hi
    · exact (Value.equalsUpTo_iff _ _).mpr (.list hsame)
    · exact (Value.equalsUpTo_iff _ _).mpr (.tuple hsame)
    · exact absurd hx Value.Plain.not_array

/-- What encoding gives back is what was decoded, for conversions that are lawful. -/
def Lawful (scope : Scope) (c : Conversion) : Prop :=
  ∀ x y, scope.convert c .decode x = .ok (.success y) → scope.convert c .encode y = .ok (.success x)

def TransformFree (scope : Scope) (s : Schema) : Prop :=
  ∀ a t u c, ¬scope.Part s (.transform a t u c)

/-- A schema whose decoding can be taken back. Conversions are lawful, and warn only with a problem; there is none below
a union, whose choice of a member need not be the same on the way back, and none in the parameter of an index signature,
whose result is dropped. -/
structure Invertible (scope : Scope) (s : Schema) : Prop where
  guarded : scope.Guarded s
  forced : ∀ a h, scope.Part s (.lazy a h) → ∃ t, scope.force h = .ok t
  tested : ∀ a t p, scope.Part s (.refinement a t p) → ∀ v, ∃ b, scope.test p v = .ok b
  members : ∀ a, ¬scope.Part s (.union a [])
  bigint : ∀ a, ¬scope.Part s (.keyword a .bigint)
  unambiguous : ∀ t, scope.Part s t → t.Unambiguous
  lawful : ∀ a t u c, scope.Part s (.transform a t u c) → scope.Lawful c
  warned : ∀ a t u c, scope.Part s (.transform a t u c) → ∀ d x y, scope.convert c d x ≠ .ok (.warning y [])
  unions : ∀ a ms, scope.Part s (.union a ms) → ∀ m ∈ ms, scope.TransformFree m
  parameters : ∀ a ps is, scope.Part s (.struct a ps is) → ∀ i ∈ is, scope.TransformFree i.parameter

theorem Invertible.part {s t : Schema} (hs : scope.Invertible s) (h : scope.Part s t) : scope.Invertible t where
  guarded u hu := hs.guarded u (h.trans hu)
  forced a handle hu := hs.forced a handle (h.trans hu)
  tested a u p hu := hs.tested a u p (h.trans hu)
  members a hu := hs.members a (h.trans hu)
  bigint a hu := hs.bigint a (h.trans hu)
  unambiguous u hu := hs.unambiguous u (h.trans hu)
  lawful a u u' c hu := hs.lawful a u u' c (h.trans hu)
  warned a u u' c hu := hs.warned a u u' c (h.trans hu)
  unions a ms hu := hs.unions a ms (h.trans hu)
  parameters a ps is hu := hs.parameters a ps is (h.trans hu)

theorem Invertible.productive {s : Schema} (hs : scope.Invertible s) (ht : scope.TransformFree s) :
    scope.Productive .encode s where
  guarded := hs.guarded
  forced := hs.forced
  tested a t p h _ _ v _ := hs.tested a t p h v
  members := hs.members
  converted a t u c h := absurd h (ht a t u c)

theorem Invertible.converts_of_ne {s t : Schema} (hs : scope.Invertible s) (h : scope.Part s t)
    (ht : ∀ a u u' c, t ≠ .transform a u u' c) : t.converts = false := by
  cases t with
  | transform a t u c => exact absurd rfl (ht a t u c)
  | keyword a w =>
    cases w with
    | bigint => exact absurd h (hs.bigint a)
    | _ => rfl
  | _ => rfl

theorem Invertible.converts {s t : Schema} (hs : scope.Invertible s) (hf : scope.TransformFree s)
    (h : scope.Part s t) : t.converts = false :=
  hs.converts_of_ne h fun a u u' c ht => hf a u u' c (ht ▸ h)

theorem returns_union {n : Nat} {a : Annotations} {ms : List Schema} (hs : scope.Invertible (.union a ms))
    (hc : ∀ m ∈ ms, scope.Returns n m) : scope.Returns n (.union a ms) := by
  intro x v hx hr
  have hpart (m : Schema) (hm : m ∈ ms) : scope.Part (.union a ms) m := Part.child hm
  have hfree := hs.unions a ms (.refl scope _)
  have hconserves (direction : Direction) (n : Nat) (m : Schema) (hm : m ∈ ms) :
      Conserves (scope.run direction n m) :=
    run_conserves fun t ht =>
      ⟨(hs.part (hpart m hm)).converts (hfree m hm) ht, (hs.part (hpart m hm)).unambiguous t ht⟩
  have hclean {direction : Direction} {n : Nat} {m : Schema} (hm : m ∈ ms) {x v : Value} (hx : x.Plain)
      (h : scope.run direction n m x = .ok (.success v)) : v.Plain ∧ v.same x := by
    obtain ⟨hv, _, hsame⟩ := hconserves direction n m hm x v _ hx h rfl
    exact ⟨hv, by simpa [Outcome.warnings, Problem.unexpectedPathsOfAll, Value.prune_nil] using hsame⟩
  rw [run_union] at hr
  obtain ⟨p, hp, hpx⟩ := Union.parse_accepts hr rfl
  obtain ⟨m, hm, rfl⟩ := List.mem_map.mp hp
  obtain ⟨hv, hvx⟩ := hclean hm hx hpx
  obtain ⟨w, hw, _⟩ := hc m hm x v hx hpx
  -- On the way back all members answer, and at least this one succeeds.
  have hanswers : ∀ᶠ k in Filter.atTop, ∀ m ∈ ms, ∃ o, scope.run .encode k m v = .ok o :=
    eventually_forall_mem fun m hm => ((hs.part (hpart m hm)).productive (hfree m hm)).answers v
  obtain ⟨k, hk, hkw⟩ := (hanswers.and hw.eventually).exists
  have hall : ∀ p ∈ ms.map (scope.run .encode k), ∃ o, p v = .ok o := List.forall_mem_map.mpr hk
  have hmem : scope.run .encode k m ∈ ms.map (scope.run .encode k) := List.mem_map_of_mem hm
  obtain ⟨o, ho⟩ : ∃ o, scope.run .encode k (.union a ms) v = .ok o := by
    rw [run_union]
    exact Union.parse_ok (List.ne_nil_of_mem hmem) hall
  have ho' := ho
  rw [run_union] at ho'
  obtain ⟨u, rfl⟩ : ∃ u, o = .success u := by
    have hpass : o.passes false := (Union.parse_passes_iff (by simp) ho').mpr ⟨_, hmem, _, hkw, rfl⟩
    cases o with
    | success u => exact ⟨u, rfl⟩
    | warning | failure => cases hpass
  obtain ⟨q, hq, hqu⟩ := Union.parse_accepts ho' rfl
  obtain ⟨m', hm', rfl⟩ := List.mem_map.mp hq
  exact ⟨u, ⟨k, ho⟩, Value.same_trans (hclean hm' hv hqu).2 hvx⟩

theorem returns_transform {n : Nat} {a : Annotations} {t u : Schema} {c : Conversion}
    (hs : scope.Invertible (.transform a t u c)) (hc : scope.Returns n t) :
    scope.Returns n (.transform a t u c) := by
  intro x v hx hr
  rw [run_transform] at hr
  obtain ⟨y, hy, hv⟩ : ∃ y, scope.run .decode n t x = .ok (.success y) ∧
      scope.convert c .decode y = .ok (.success v) := by
    apply Transform.decode_success hr
    intro y hw
    exact run_warning_ne (fun a u u' c hu => hs.warned a u u' c (.trans (.child List.mem_cons_self) hu)) n x y hw
  obtain ⟨w, ⟨m, hm⟩, hsame⟩ := hc x y hx hy
  refine ⟨w, ⟨m, ?_⟩, hsame⟩
  rw [run_transform]
  exact Transform.encode_success (hs.lawful a t u c (.refl scope _) y v hv) hm

/-- The induction along the decoding run; a lazy schema hands the fuel on, any other schema the part of the value. -/
theorem Invertible.returns {n : Nat} {s : Schema} (hs : scope.Invertible s) : scope.Returns n s := by
  induction n, s using scope.runInduction with
  | spent a h =>
    intro x v _ hr
    rw [run_lazy_zero] at hr
    cases hr
  | unfolded n a h ih =>
    intro x v hx hr
    obtain ⟨t, ht⟩ := hs.forced a h (.refl scope _)
    rw [run_lazy_succ, ht] at hr
    obtain ⟨w, ⟨m, hm⟩, hsame⟩ := ih t ht (hs.part (.force ht)) x v hx hr
    exact ⟨w, ⟨m + 1, by rw [run_lazy_succ, ht]; exact hm⟩, hsame⟩
  | node n s hl ih =>
    have hc (t : Schema) (ht : t ∈ s.children) : scope.Returns n t := ih t ht (hs.part (.child ht))
    cases s with
    | lazy a h => cases hl
    | literal | uniqueSymbol | keyword | enums | template =>
      intro x v _ hr
      have hconv := hs.converts_of_ne (.refl scope _) fun a t u c h => nomatch h
      obtain ⟨o, ho, hid⟩ := scope.run_atom rfl hconv x
      obtain rfl := Except.ok.inj (hr.symm.trans (ho .decode n))
      have hv : v = x := by
        rcases hid rfl with h | h
        · exact Outcome.success.inj h
        · exact ((Outcome.success_eq_warn_iff _ _ _).mp h).2
      exact ⟨v, ⟨0, hv ▸ ho .encode 0⟩, hv ▸ Value.same_refl v⟩
    | tuple a es r o => exact returns_tuple hc
    | union a ms => exact returns_union hs hc
    | transform a t u c => exact returns_transform hs (hc t List.mem_cons_self)
    | typeAlias a ps t =>
      intro x v hx hr
      rw [run_alias] at hr
      obtain ⟨w, ⟨m, hm⟩, hsame⟩ := hc t List.mem_cons_self x v hx hr
      exact ⟨w, ⟨m, by rwa [run_alias]⟩, hsame⟩
    | refinement a t p =>
      intro x v hx hr
      rw [run_refinement] at hr
      obtain ⟨hb, v', hv', htest⟩ := Refinement.decode_accepts_iff.mp ⟨hr, rfl⟩
      obtain rfl := Option.some.inj hv'
      obtain ⟨w, ⟨m, hm⟩, hsame⟩ := hc t List.mem_cons_self x v hx hb
      refine ⟨w, ⟨m, ?_⟩, hsame⟩
      rw [run_refinement]
      exact (Refinement.encode_accepts_iff.mpr ⟨htest, hm, rfl⟩).1
    | struct a ps is =>
      apply returns_struct (hs.unambiguous _ (.refl scope _)) hc
      intro i hi k o hcl hr ho
      have hpart : scope.Part (.struct a ps is) i.parameter := .child (Schema.mem_children_of_index hi).1
      obtain ⟨hitems, hentries, hanomaly⟩ := Struct.simple_of_claims hcl
      exact run_simple (fun t ht => (hs.part hpart).converts (hs.parameters a ps is (.refl scope _) i hi) ht)
        hitems hentries hanomaly hr ho

/-- What decodes cleanly encodes cleanly, and comes back as it was at every level. -/
theorem encode_decode {s : Schema} {x v : Value} (hs : scope.Invertible s) (hx : x.wellFormed) (ha : x.arrayFree)
    (h : scope.Yields .decode s x (.success v)) : ∃ w, scope.Yields .encode s v (.success w) ∧ w.same x := by
  obtain ⟨n, hn⟩ := h
  exact hs.returns x v ⟨hx, ha⟩ hn

def boxing : Conversion := ⟨"wrap", 0, "item", "box"⟩

def ledger : Schema := .struct .empty
  [⟨.text "value", .transform .empty (.keyword .empty .number) (.keyword .empty .unknown) boxing, false, false, .empty⟩,
    ⟨.text "tag", .union .empty [.keyword .empty .string, .keyword .empty .number], false, false, .empty⟩,
    ⟨.text "next", .lazy .empty (.root 0), true, false, .empty⟩] []

def ledgerParts : List Schema :=
  [ledger, .transform .empty (.keyword .empty .number) (.keyword .empty .unknown) boxing,
    .union .empty [.keyword .empty .string, .keyword .empty .number], .lazy .empty (.root 0),
    .keyword .empty .string, .keyword .empty .number]

theorem mem_ledgerParts {t : Schema} (h : (Stock.scope [(0, .ok ledger)]).Part ledger t) : t ∈ ledgerParts := by
  refine Part.of_closed (by simp [ledgerParts]) (fun s hs t ht => ?_) h
  simp only [ledgerParts, List.mem_cons, List.not_mem_nil, or_false] at hs
  rcases hs with rfl | rfl | rfl | rfl | rfl | rfl
  · simp only [next, Schema.children, ledger, List.map_cons, List.map_nil, List.flatMap_nil, List.append_nil,
      List.mem_cons, List.not_mem_nil, or_false] at ht
    rcases ht with rfl | rfl | rfl <;> simp [ledgerParts]
  · obtain rfl := List.mem_singleton.mp ht
    simp [ledgerParts]
  · simp only [next, Schema.children, List.mem_cons, List.not_mem_nil, or_false] at ht
    rcases ht with rfl | rfl <;> simp [ledgerParts]
  · obtain rfl := Except.ok.inj ((mem_next_lazy.mp ht).symm.trans (by rfl : _ = Except.ok ledger))
    simp [ledgerParts]
  · cases ht
  · cases ht

theorem guarded_ledger : (Stock.scope [(0, .ok ledger)]).Guarded ledger := by
  have atom (a : Annotations) (w : Keyword) : Acc (fun u v => u ∈ (Stock.scope [(0, .ok ledger)]).exposed v)
      (.keyword a w) := .intro _ fun t ht => absurd ht List.not_mem_nil
  have top : Acc (fun u v => u ∈ (Stock.scope [(0, .ok ledger)]).exposed v) ledger :=
    .intro _ fun t ht => absurd ht List.not_mem_nil
  intro t ht
  have hmem := mem_ledgerParts ht
  simp only [ledgerParts, List.mem_cons, List.not_mem_nil, or_false] at hmem
  rcases hmem with rfl | rfl | rfl | rfl | rfl | rfl
  · exact top
  · refine .intro _ fun t ht => ?_
    obtain rfl := List.mem_singleton.mp ht
    exact atom _ _
  · refine .intro _ fun t ht => ?_
    simp only [exposed, next, Schema.children, List.mem_cons, List.not_mem_nil, or_false] at ht
    rcases ht with rfl | rfl <;> exact atom _ _
  · refine .intro _ fun t ht => ?_
    obtain rfl := List.mem_singleton.mp ht
    exact top
  · exact atom _ _
  · exact atom _ _

theorem lawful_boxing (thunks : List (Nat × Except Fault Schema)) : (Stock.scope thunks).Lawful boxing := by
  intro x y hxy
  have hy : y = .list [x] := by
    simpa [Stock.scope, Stock.convert, Stock.isTotal, Stock.total, boxing, pure, Except.pure, eq_comm] using hxy
  subst hy
  rfl

theorem invertible_ledger : (Stock.scope [(0, .ok ledger)]).Invertible ledger where
  guarded := guarded_ledger
  forced a h ht := by
    have hmem := mem_ledgerParts ht
    simp [ledgerParts, ledger] at hmem
    obtain ⟨_, rfl⟩ := hmem
    exact ⟨ledger, rfl⟩
  tested a t p ht := by
    have hmem := mem_ledgerParts ht
    simp [ledgerParts, ledger] at hmem
  members a ht := by
    have hmem := mem_ledgerParts ht
    simp [ledgerParts, ledger] at hmem
  bigint a ht := by
    have hmem := mem_ledgerParts ht
    simp [ledgerParts, ledger] at hmem
  unambiguous t ht := by
    have hmem := mem_ledgerParts ht
    simp only [ledgerParts, List.mem_cons, List.not_mem_nil, or_false] at hmem
    rcases hmem with rfl | rfl | rfl | rfl | rfl | rfl
    · exact ⟨by decide, by simp⟩
    all_goals trivial
  lawful a t u c ht := by
    have hmem := mem_ledgerParts ht
    simp [ledgerParts, ledger] at hmem
    obtain ⟨_, _, _, rfl⟩ := hmem
    exact lawful_boxing _
  warned a t u c ht d x y := by
    have hmem := mem_ledgerParts ht
    simp [ledgerParts, ledger] at hmem
    obtain ⟨_, _, _, rfl⟩ := hmem
    simp [Stock.scope, Stock.convert, Stock.isTotal, boxing, pure, Except.pure]
  unions a ms ht m hm b t u c hp := by
    have hmem := mem_ledgerParts ht
    simp [ledgerParts, ledger] at hmem
    obtain ⟨_, rfl⟩ := hmem
    simp only [List.mem_cons, List.not_mem_nil, or_false] at hm
    rcases hm with rfl | rfl <;> cases Part.eq_of_next_eq_nil rfl hp
  parameters a ps is ht := by
    have hmem := mem_ledgerParts ht
    simp [ledgerParts, ledger] at hmem
    obtain ⟨_, _, rfl⟩ := hmem
    exact fun i hi => absurd hi List.not_mem_nil

/-- Two entries of a ledger, tagged by a text and by a number. -/
theorem encode_decode_ledger :
    let scope := Stock.scope [(0, .ok ledger)]
    let x : Value := .dict [(.text "tag", .text "first"), (.text "value", .int 1),
      (.text "next", .dict [(.text "value", .int 2), (.text "tag", .int 7)])]
    let v : Value := .dict [(.text "value", .list [.int 1]), (.text "tag", .text "first"),
      (.text "next", .dict [(.text "value", .list [.int 2]), (.text "tag", .int 7)])]
    scope.Invertible ledger ∧ x.wellFormed ∧ x.arrayFree ∧ scope.Yields .decode ledger x (.success v) ∧
      ∃ w, scope.Yields .encode ledger v (.success w) ∧ w.same x := by
  intro scope x v
  have hx : x.wellFormed := by rfl
  have ha : x.arrayFree := by rfl
  have hv : scope.Yields .decode ledger x (.success v) := ⟨1, rfl⟩
  exact ⟨invertible_ledger, hx, ha, hv, encode_decode invertible_ledger hx ha hv⟩

end Scope
end Schemata
