import Schemata.Proofs.Decode.Assignment
import Schemata.Proofs.Decode.Choice
import Schemata.Proofs.Decode.Claims
import Schemata.Proofs.Value.Equality

/-!
The calls that a run consists of. A run calls for others, with other schemas and values, and it ends with a fault exactly
when a call that it gets to does so by itself: by spending its fuel, by asking a function that gives no answer, or as a
union without members.
-/
namespace Schemata

/-- What a container does about a member: it hands it on, to keep what comes out or only to see that it does not fail,
or finds that the member is not there or not expected. -/
inductive Hand (σ : Type) where
  | take (segment : Segment) (type : σ) (item : Value)
  | check (segment : Segment) (type : σ) (item : Value)
  | missing (segment : Segment)
  | unexpected (segment : Segment)

namespace Hand
variable {σ : Type} {m : Type → Type}

def given? : Hand σ → Option (σ × Value)
  | take _ type item | check _ type item => some (type, item)
  | _ => none

def step (f : σ → Parser m) : Hand σ → Step m
  | take segment type item => .take segment (f type) item
  | check segment type item => .check segment (f type) item
  | missing segment => .missing segment
  | unexpected segment => .unexpected segment

theorem faults_step_iff {f : σ → Parser (Except Fault)} {h : Hand σ} {fault : Fault} :
    (h.step f).Faults fault ↔ ∃ t v, h.given? = some (t, v) ∧ f t v = .error fault := by
  cases h <;> simp [step, Step.Faults, given?]

end Hand

namespace Struct
variable {m : Type → Type}

def hands (ps : List (Property Schema)) (is : List (IndexSignature Schema)) (es : Entries) : List (Hand Schema) :=
  (ps.flatMap fun p =>
    match es.lookup p.name with
    | some v => [.take (.key p.name) p.type v]
    | none => if p.optional then [] else [.missing (.key p.name)]) ++
  es.flatMap fun e =>
    if e.1.occursIn (ps.map fun p => p.name) then []
    else
      match is.filter fun i => i.claims e.1 with
      | [] => [.unexpected (.key e.1)]
      | claiming => claiming.flatMap fun i =>
        [.check (.key e.1) i.parameter e.1, .take (.key e.1) i.type e.2]

theorem steps_eq_hands (f : Schema → Parser m) (ps : List (Property Schema)) (is : List (IndexSignature Schema))
    (es : Entries) :
    steps (ps.map (Property.map f)) (is.map (IndexSignature.parsers f)) es = (hands ps is es).map (Hand.step f) := by
  rw [steps, hands, names_map, List.map_append, List.map_flatMap, List.map_flatMap, List.flatMap_map]
  congr 1
  · apply List.flatMap_congr
    intro p _
    rw [propertySteps, Property.map]
    cases es.lookup p.name with
    | some v => rfl
    | none => cases p.optional <;> rfl
  · apply List.flatMap_congr
    intro e _
    rw [entrySteps, filter_parsers]
    split
    · rfl
    · cases is.filter fun i => i.claims e.1 with
      | nil => rfl
      | cons i claiming => simp [List.flatMap_map, List.map_flatMap, Hand.step, IndexSignature.parsers]

theorem parts_of_hands {a : Annotations} {ps : List (Property Schema)} {is : List (IndexSignature Schema)} {x : Value}
    {es : Entries} (hx : x.entries? = some es) {h : Hand Schema} {t : Schema} {v : Value} (hh : h ∈ hands ps is es)
    (ht : h.given? = some (t, v)) : t ∈ (Schema.struct a ps is).children ∧ v ∈ x.parts := by
  rcases List.mem_append.mp hh with hh | hh
  · obtain ⟨p, hp, hh⟩ := List.mem_flatMap.mp hh
    split at hh
    · rename_i hv
      obtain rfl := List.mem_singleton.mp hh
      obtain ⟨rfl, rfl⟩ := Prod.mk.inj (Option.some.inj ht)
      exact ⟨Schema.mem_children_of_property hp, Value.mem_parts_of_lookup hx hv⟩
    · split at hh
      · cases hh
      · obtain rfl := List.mem_singleton.mp hh
        cases ht
  · obtain ⟨e, he, hh⟩ := List.mem_flatMap.mp hh
    have hparts := Value.mem_parts_of_entries hx he
    split at hh
    · cases hh
    · split at hh
      · obtain rfl := List.mem_singleton.mp hh
        cases ht
      · obtain ⟨i, hi, hh⟩ := List.mem_flatMap.mp hh
        have hmem : i.parameter ∈ (Schema.struct a ps is).children ∧ i.type ∈ (Schema.struct a ps is).children :=
          Schema.mem_children_of_index (List.mem_filter.mp hi).1
        simp only [List.mem_cons, List.not_mem_nil, or_false] at hh
        rcases hh with rfl | rfl <;> obtain ⟨rfl, rfl⟩ := Prod.mk.inj (Option.some.inj ht)
        · exact ⟨hmem.1, hparts.1⟩
        · exact ⟨hmem.2, hparts.2⟩

end Struct

namespace Tuple
variable {m : Type → Type}

def itemHands (i : Nat) : List (Option Schema) → List Value → List (Hand Schema)
  | some t :: ts, v :: vs => .take (.index i) t v :: itemHands (i + 1) ts vs
  | none :: ts, _ :: vs => .unexpected (.index i) :: itemHands (i + 1) ts vs
  | _, _ => []

def hands (es : List (Element Schema)) (rest : Option (Rest Schema)) (items : List Value) : List (Hand Schema) :=
  itemHands 0 (assigned es rest items.length) items ++
    (gaps es rest items.length).map fun i => .missing (.index i)

theorem steps_eq_hands (f : Schema → Parser m) (es : List (Element Schema)) (rest : Option (Rest Schema))
    (items : List Value) :
    steps (es.map (Element.map f)) (rest.map (Rest.map f)) items = (hands es rest items).map (Hand.step f) := by
  have hitems (i : Nat) (ts : List (Option Schema)) (vs : List Value) :
      itemSteps i (ts.map (Option.map f)) vs = (itemHands i ts vs).map (Hand.step f) := by
    induction vs generalizing i ts with
    | nil => cases ts with
      | nil => rfl
      | cons t ts => cases t <;> rfl
    | cons v vs ih =>
      cases ts with
      | nil => rfl
      | cons t ts => cases t <;> exact congrArg _ (ih (i + 1) ts)
  rw [steps_map, hands, List.map_append, List.map_map, hitems]
  rfl

theorem parts_of_hands {a : Annotations} {es : List (Element Schema)} {rest : Option (Rest Schema)}
    {readonly : Bool} {x : Value} {items : List Value} (hx : x.items? = some items) {h : Hand Schema} {t : Schema}
    {v : Value} (hh : h ∈ hands es rest items) (ht : h.given? = some (t, v)) :
    t ∈ (Schema.tuple a es rest readonly).children ∧ v ∈ x.parts := by
  have hitems (i : Nat) (ts : List (Option Schema)) (vs : List Value) (hh : h ∈ itemHands i ts vs) :
      some t ∈ ts ∧ v ∈ vs := by
    induction vs generalizing i ts with
    | nil => cases ts with
      | nil => cases hh
      | cons u ts => cases u <;> cases hh
    | cons w vs ih =>
      have later {ts : List (Option Schema)} {u : Option Schema} (hh : h ∈ itemHands (i + 1) ts vs) :
          some t ∈ u :: ts ∧ v ∈ w :: vs :=
        ⟨List.mem_cons_of_mem _ (ih (i + 1) ts hh).1, List.mem_cons_of_mem _ (ih (i + 1) ts hh).2⟩
      cases ts with
      | nil => cases hh
      | cons u ts =>
        cases u with
        | none =>
          rcases List.mem_cons.mp hh with rfl | hh
          · cases ht
          · exact later hh
        | some u =>
          rcases List.mem_cons.mp hh with rfl | hh
          · obtain ⟨rfl, rfl⟩ := Prod.mk.inj (Option.some.inj ht)
            exact ⟨List.mem_cons_self, List.mem_cons_self⟩
          · exact later hh
  rcases List.mem_append.mp hh with hh | hh
  · obtain ⟨hmem, hv⟩ := hitems _ _ _ hh
    exact ⟨mem_assigned hmem, Value.mem_parts_of_items hx hv⟩
  · obtain ⟨i, _, rfl⟩ := List.mem_map.mp hh
    cases ht

end Tuple

namespace Schema

def hands : Schema → Value → List (Hand Schema)
  | tuple _ es rest _, x => (x.items?.map (Tuple.hands es rest)).getD []
  | struct _ ps is, x => (x.entries?.map (Struct.hands ps is)).getD []
  | _, _ => []

theorem parts_of_hands {s t : Schema} {x v : Value} {h : Hand Schema} (hh : h ∈ s.hands x)
    (ht : h.given? = some (t, v)) : t ∈ s.children ∧ v ∈ x.parts := by
  cases s with
  | tuple a es rest o =>
    rw [hands] at hh
    cases hx : x.items? with
    | none => simp [hx] at hh
    | some items => exact Tuple.parts_of_hands hx (by simpa [hx] using hh) ht
  | struct a ps is =>
    rw [hands] at hh
    cases hx : x.entries? with
    | none => simp [hx] at hh
    | some es => exact Struct.parts_of_hands hx (by simpa [hx] using hh) ht
  | _ => cases hh

end Schema

section
variable {scope : Scope} {a : Annotations} {base : Parser (Except Fault)} {x : Value} {f : Fault}

theorem Outcome.andThen_eq_error_iff {o : Outcome} {g : Value → Except Fault Outcome} :
    o.andThen g = .error f ↔ ∃ v, o.value? = some v ∧ g v = .error f := by
  cases o with
  | success v => simp [andThen, value?]
  | warning v ps =>
    have hafter : (do return (← g v).after ps) = .error f ↔ g v = .error f := by
      rw [bind_pure_comp, map_eq_error_iff]
    simpa [andThen, value?] using hafter
  | failure ps => simp [andThen, value?, pure, Except.pure]

theorem Refinement.decode_eq_error_iff {p : Predicate} : decode scope a p base x = .error f ↔
    base x = .error f ∨ ∃ o v, base x = .ok o ∧ o.value? = some v ∧ scope.test p v = .error f := by
  rw [decode, bind_eq_error_iff]
  refine or_congr_right (exists_congr fun o => ?_)
  cases hv : o.value? with
  | none => simp [pure, Except.pure]
  | some v =>
    cases ht : scope.test p v with
    | error g => simp [bind, Except.bind, liftM, monadLift, ht]
    | ok b => cases b <;> simp [bind, Except.bind, liftM, monadLift, pure, Except.pure, ht]

theorem Refinement.encode_eq_error_iff {p : Predicate} : encode scope a p base x = .error f ↔
    scope.test p x = .error f ∨ (scope.test p x = .ok true ∧ base x = .error f) := by
  rw [encode]
  cases ht : scope.test p x with
  | error g => simp [bind, Except.bind, liftM, monadLift]
  | ok b => cases b <;> simp [bind, Except.bind, liftM, monadLift, pure, Except.pure]

theorem Transform.decode_eq_error_iff {c : Conversion} : parse scope .decode c base x = .error f ↔
    base x = .error f ∨ ∃ o v, base x = .ok o ∧ o.value? = some v ∧ scope.convert c .decode v = .error f := by
  rw [parse, bind_eq_error_iff]
  simp only [Outcome.andThen_eq_error_iff, exists_and_left]
  rfl

theorem Transform.encode_eq_error_iff {c : Conversion} : parse scope .encode c base x = .error f ↔
    scope.convert c .encode x = .error f ∨
      ∃ o v, scope.convert c .encode x = .ok o ∧ o.value? = some v ∧ base v = .error f := by
  rw [parse, bind_eq_error_iff]
  simp only [Outcome.andThen_eq_error_iff, exists_and_left]
  rfl

end

structure Call where
  fuel : Nat
  schema : Schema
  value : Value

namespace Scope

/-- What the function of a refinement or a transform is given. Decoding gives it what the base makes of the value, and
encoding the value itself. -/
def Given (scope : Scope) (n : Nat) (base : Schema) (x : Value) : Direction → Value → Prop
  | .decode, v => ∃ o, scope.run .decode n base x = .ok o ∧ o.value? = some v
  | .encode, v => v = x

/-- The calls that a call makes. A union tries its members as long as none succeeds cleanly, a container goes through
its members as long as they pass, and a refinement that encodes asks its predicate first. -/
inductive Calls (scope : Scope) (direction : Direction) : Call → Call → Prop
  | aliased {n : Nat} {a : Annotations} {ps : List Schema} {t : Schema} {x : Value} :
    Calls scope direction ⟨n, .typeAlias a ps t, x⟩ ⟨n, t, x⟩
  | member {n : Nat} {a : Annotations} {ss : List Schema} {t : Schema} {x : Value}
    (ht : Lists.Reached (fun s => ∃ o, scope.run direction n s x = .ok o ∧ o.isSuccess = false) ss t) :
    Calls scope direction ⟨n, .union a ss, x⟩ ⟨n, t, x⟩
  | part {n : Nat} {s t : Schema} {x v : Value} {hand : Hand Schema}
    (hh : Lists.Reached (fun k => (k.step (scope.run direction n)).Passes) (s.hands x) hand)
    (ht : hand.given? = some (t, v)) : Calls scope direction ⟨n, s, x⟩ ⟨n, t, v⟩
  | base {n : Nat} {a : Annotations} {t : Schema} {p : Predicate} {x : Value}
    (hp : direction = .encode → scope.test p x = .ok true) :
    Calls scope direction ⟨n, .refinement a t p, x⟩ ⟨n, t, x⟩
  | source {n : Nat} {a : Annotations} {t u : Schema} {c : Conversion} {x : Value} (hd : direction = .decode) :
    Calls scope direction ⟨n, .transform a t u c, x⟩ ⟨n, t, x⟩
  | converted {n : Nat} {a : Annotations} {t u : Schema} {c : Conversion} {x v : Value} {o : Outcome}
    (hd : direction = .encode) (ho : scope.convert c .encode x = .ok o) (hv : o.value? = some v) :
    Calls scope direction ⟨n, .transform a t u c, x⟩ ⟨n, t, v⟩
  | unfolded {n : Nat} {a : Annotations} {h : Handle} {t : Schema} {x : Value} (hf : scope.force h = .ok t) :
    Calls scope direction ⟨n + 1, .lazy a h, x⟩ ⟨n, t, x⟩

/-- The faults that a call ends with by itself and not through another call. -/
inductive Faults (scope : Scope) (direction : Direction) : Call → Fault → Prop
  | spent {a : Annotations} {h : Handle} {x : Value} : Faults scope direction ⟨0, .lazy a h, x⟩ .endlessUnfolding
  | thunk {n : Nat} {a : Annotations} {h : Handle} {x : Value} {f : Fault} (hf : scope.force h = .error f) :
    Faults scope direction ⟨n + 1, .lazy a h, x⟩ f
  | predicate {n : Nat} {a : Annotations} {t : Schema} {p : Predicate} {x v : Value} {f : Fault}
    (hv : scope.Given n t x direction v) (hf : scope.test p v = .error f) :
    Faults scope direction ⟨n, .refinement a t p, x⟩ f
  | conversion {n : Nat} {a : Annotations} {t u : Schema} {c : Conversion} {x v : Value} {f : Fault}
    (hv : scope.Given n t x direction v) (hf : scope.convert c direction v = .error f) :
    Faults scope direction ⟨n, .transform a t u c, x⟩ f
  | memberless {n : Nat} {a : Annotations} {x : Value} : Faults scope direction ⟨n, .union a [], x⟩ .emptyFailure

variable {scope : Scope} {direction : Direction} {n : Nat} {x : Value} {f : Fault}

/-- A container ends with the fault of what it hands on. -/
theorem run_container_eq_error_iff {s : Schema}
    (hs : (∃ a es rest o, s = .tuple a es rest o) ∨ ∃ a ps is, s = .struct a ps is) :
    scope.run direction n s x = .error f ↔ ∃ hand,
      Lists.Reached (fun k => (k.step (scope.run direction n)).Passes) (s.hands x) hand ∧
        (hand.step (scope.run direction n)).Faults f := by
  have hgather (hands : List (Hand Schema)) : gather (hands.map (Hand.step (scope.run direction n))) = .error f ↔
      ∃ hand, Lists.Reached (fun k => (k.step (scope.run direction n)).Passes) hands hand ∧
        (hand.step (scope.run direction n)).Faults f :=
    gather_eq_error_iff.trans (Lists.exists_reached_map (q := fun s : Step (Except Fault) => s.Faults f))
  rcases hs with ⟨a, es, rest, o, rfl⟩ | ⟨a, ps, is, rfl⟩
  · rw [run_tuple, Tuple.parse, Schema.hands]
    cases x.items? with
    | none =>
      constructor
      · intro h
        cases h
      · rintro ⟨_, h, _⟩
        cases h
    | some items =>
      rw [Option.map_some, Option.getD_some, ← hgather, ← Tuple.steps_eq_hands]
      exact map_eq_error_iff
  · rw [run_struct, Struct.parse, Schema.hands]
    cases x.entries? with
    | none =>
      constructor
      · intro h
        cases h
      · rintro ⟨_, h, _⟩
        cases h
    | some es =>
      rw [Option.map_some, Option.getD_some, ← hgather, ← Struct.steps_eq_hands]
      exact map_eq_error_iff

def call (scope : Scope) (direction : Direction) (c : Call) : Except Fault Outcome :=
  scope.run direction c.fuel c.schema c.value

theorem call_of_faults {c : Call} (h : scope.Faults direction c f) : scope.call direction c = .error f := by
  cases h with
  | spent => rfl
  | thunk hf => rw [call, run_lazy_succ, hf]; rfl
  | memberless => rfl
  | @predicate n a t p x v f hv hf =>
    rw [call, run_refinement]
    cases direction with
    | decode =>
      obtain ⟨o, ho, hv⟩ := hv
      exact Refinement.decode_eq_error_iff.mpr (.inr ⟨o, v, ho, hv, hf⟩)
    | encode => exact Refinement.encode_eq_error_iff.mpr (.inl (hv ▸ hf))
  | @conversion n a t u c x v f hv hf =>
    rw [call, run_transform]
    cases direction with
    | decode =>
      obtain ⟨o, ho, hv⟩ := hv
      exact Transform.decode_eq_error_iff.mpr (.inr ⟨o, v, ho, hv, hf⟩)
    | encode => exact Transform.encode_eq_error_iff.mpr (.inl (hv ▸ hf))

theorem call_of_calls {c d : Call} (h : scope.Calls direction c d) (hf : scope.call direction d = .error f) :
    scope.call direction c = .error f := by
  cases h with
  | aliased => exact hf
  | @member n a ss t x ht =>
    rw [call, run_union]
    refine Union.parse_eq_error_iff.mpr (.inr ?_)
    exact (Lists.exists_reached_map (q := fun p : Parser (Except Fault) => p x = .error f)).mpr ⟨t, ht, hf⟩
  | @part n s t x v hand hh ht =>
    have hs : (∃ a es rest o, s = .tuple a es rest o) ∨ ∃ a ps is, s = .struct a ps is := by
      cases s with
      | tuple => exact .inl ⟨_, _, _, _, rfl⟩
      | struct => exact .inr ⟨_, _, _, rfl⟩
      | _ => cases hh
    exact (run_container_eq_error_iff hs).mpr ⟨hand, hh, Hand.faults_step_iff.mpr ⟨t, v, ht, hf⟩⟩
  | @base n a t p x hp =>
    rw [call, run_refinement]
    cases direction with
    | decode => exact Refinement.decode_eq_error_iff.mpr (.inl hf)
    | encode => exact Refinement.encode_eq_error_iff.mpr (.inr ⟨hp rfl, hf⟩)
  | source hd =>
    subst hd
    exact Transform.decode_eq_error_iff.mpr (.inl hf)
  | converted hd ho hv =>
    subst hd
    exact Transform.encode_eq_error_iff.mpr (.inr ⟨_, _, ho, hv, hf⟩)
  | unfolded ht =>
    rw [call, run_lazy_succ, ht]
    exact hf

/-- A call that ends with a fault does so by itself or through a call that it makes. -/
theorem call_eq_error_iff {c : Call} : scope.call direction c = .error f ↔
    scope.Faults direction c f ∨ ∃ d, scope.Calls direction c d ∧ scope.call direction d = .error f := by
  constructor
  · obtain ⟨n, s, x⟩ := c
    intro h
    rw [call] at h
    cases s with
    | literal | uniqueSymbol | keyword | enums | template => cases h
    | typeAlias a ps t => exact .inr ⟨_, .aliased, h⟩
    | tuple a es rest o =>
      obtain ⟨hand, hh, hf⟩ := (run_container_eq_error_iff (.inl ⟨a, es, rest, o, rfl⟩)).mp h
      obtain ⟨t, v, ht, hf⟩ := Hand.faults_step_iff.mp hf
      exact .inr ⟨_, .part hh ht, hf⟩
    | struct a ps is =>
      obtain ⟨hand, hh, hf⟩ := (run_container_eq_error_iff (.inr ⟨a, ps, is, rfl⟩)).mp h
      obtain ⟨t, v, ht, hf⟩ := Hand.faults_step_iff.mp hf
      exact .inr ⟨_, .part hh ht, hf⟩
    | union a ss =>
      rw [run_union] at h
      rcases Union.parse_eq_error_iff.mp h with ⟨hnil, rfl⟩ | hmember
      · obtain rfl := List.map_eq_nil_iff.mp hnil
        exact .inl .memberless
      · obtain ⟨t, ht, hf⟩ :=
          (Lists.exists_reached_map (q := fun p : Parser (Except Fault) => p x = .error f)).mp hmember
        exact .inr ⟨_, .member ht, hf⟩
    | lazy a k =>
      cases n with
      | zero =>
        obtain rfl := Except.error.inj h
        exact .inl .spent
      | succ n =>
        rw [run_lazy_succ] at h
        rcases bind_eq_error_iff.mp h with hf | ⟨t, ht, hf⟩
        · exact .inl (.thunk hf)
        · exact .inr ⟨_, .unfolded ht, hf⟩
    | refinement a t p =>
      rw [run_refinement] at h
      cases direction with
      | decode =>
        rcases Refinement.decode_eq_error_iff.mp h with hf | ⟨o, v, ho, hv, hf⟩
        · exact .inr ⟨_, .base (fun h => nomatch h), hf⟩
        · exact .inl (.predicate ⟨o, ho, hv⟩ hf)
      | encode =>
        rcases Refinement.encode_eq_error_iff.mp h with hf | ⟨hp, hf⟩
        · exact .inl (.predicate rfl hf)
        · exact .inr ⟨_, .base fun _ => hp, hf⟩
    | transform a t u c =>
      rw [run_transform] at h
      cases direction with
      | decode =>
        rcases Transform.decode_eq_error_iff.mp h with hf | ⟨o, v, ho, hv, hf⟩
        · exact .inr ⟨_, .source rfl, hf⟩
        · exact .inl (.conversion ⟨o, ho, hv⟩ hf)
      | encode =>
        rcases Transform.encode_eq_error_iff.mp h with hf | ⟨o, v, ho, hv, hf⟩
        · exact .inl (.conversion rfl hf)
        · exact .inr ⟨_, .converted rfl ho hv, hf⟩
  · rintro (hf | ⟨d, hd, hf⟩)
    · exact call_of_faults hf
    · exact call_of_calls hd hf

/-- Unless it unfolds a lazy schema, a call has those that it makes run the children of its schema. -/
theorem Calls.child {s t : Schema} {m : Nat} {v : Value} (h : scope.Calls direction ⟨n, s, x⟩ ⟨m, t, v⟩)
    (hl : s.handle? = none) : m = n ∧ t ∈ s.children := by
  cases h with
  | aliased | base | source | converted => exact ⟨rfl, List.mem_cons_self⟩
  | member ht => exact ⟨rfl, ht.mem⟩
  | part hh ht => exact ⟨rfl, (Schema.parts_of_hands hh.mem ht).1⟩
  | unfolded => cases hl

theorem Calls.part_schema {c d : Call} (h : scope.Calls direction c d) : scope.Part c.schema d.schema := by
  obtain ⟨n, s, x⟩ := c
  obtain ⟨m, t, v⟩ := d
  cases hl : s.handle? with
  | none => exact .child (h.child hl).2
  | some k =>
    cases h with
    | unfolded ht => exact .force ht
    | part hh ht => exact .child (Schema.parts_of_hands hh.mem ht).1
    | _ => cases hl

theorem part_of_calls {c d : Call} (h : Relation.ReflTransGen (scope.Calls direction) c d) :
    scope.Part c.schema d.schema := by
  induction h with
  | refl => exact .refl scope _
  | tail _ hd ih => exact ih.trans hd.part_schema

/-- Where no node is lazy, a run stays within the schema. -/
theorem throughout_of_calls {p : Schema → Prop} (hl : ∀ t, p t → t.handle? = none) {c d : Call}
    (hs : c.schema.Throughout p) (h : Relation.ReflTransGen (scope.Calls direction) c d) : d.schema.Throughout p := by
  induction h with
  | refl => exact hs
  | tail _ hd ih => exact ih.child (hd.child (hl _ ih.node)).2

theorem call_of_reached {c d : Call} (h : Relation.ReflTransGen (scope.Calls direction) c d)
    (hf : scope.Faults direction d f) : scope.call direction c = .error f := by
  induction h using Relation.ReflTransGen.head_induction_on with
  | refl => exact call_of_faults hf
  | head hd _ ih => exact call_of_calls hd ih

/-- A run ends with a fault exactly when a call that it gets to does so by itself. -/
theorem run_eq_error_iff {s : Schema} : scope.run direction n s x = .error f ↔
    ∃ c, Relation.ReflTransGen (scope.Calls direction) ⟨n, s, x⟩ c ∧ scope.Faults direction c f := by
  constructor
  · have step {c : Call} (h : scope.call direction c = .error f)
        (ih : ∀ d, scope.Calls direction c d → scope.call direction d = .error f →
          ∃ e, Relation.ReflTransGen (scope.Calls direction) d e ∧ scope.Faults direction e f) :
        ∃ e, Relation.ReflTransGen (scope.Calls direction) c e ∧ scope.Faults direction e f := by
      rcases call_eq_error_iff.mp h with hf | ⟨d, hd, hf⟩
      · exact ⟨c, .refl, hf⟩
      · obtain ⟨e, he, hf⟩ := ih d hd hf
        exact ⟨e, .head hd he, hf⟩
    induction n, s using scope.runInduction generalizing x with
    | spent a k =>
      refine fun h => step h fun d hd _ => ?_
      cases hd with
      | part hh => cases hh
    | unfolded n a k ih =>
      refine fun h => step h fun d hd hf => ?_
      cases hd with
      | unfolded ht => exact ih _ ht hf
      | part hh => cases hh
    | node n s hl ih =>
      refine fun h => step h fun d hd hf => ?_
      obtain ⟨m, t, v⟩ := d
      obtain ⟨rfl, ht⟩ := hd.child hl
      exact ih t ht hf
  · rintro ⟨c, hc, hf⟩
    exact call_of_reached hc hf

/-- The run puts the predicate to the value: it gets to a refinement by it, which is given the value. -/
def Tests (scope : Scope) (direction : Direction) (n : Nat) (s : Schema) (x : Value) (p : Predicate) (v : Value) :
    Prop :=
  ∃ m a t y, Relation.ReflTransGen (scope.Calls direction) ⟨n, s, x⟩ ⟨m, .refinement a t p, y⟩ ∧
    scope.Given m t y direction v

end Scope
end Schemata
