import Schemata.Proofs.Decode.Signatures
import Schemata.Proofs.Decode.Memo
import Mathlib.Data.Finset.Prod

/-!
The fuel of a run suffices. Between two levels of the value a run only goes from one lazy schema to another. Those of
the table itself come first; once a partial form has been met, all that follow are partial forms, since a partial form
holds no transform and no lazy schema but partial ones. In either stretch no entry of the table comes twice.
-/
namespace Schemata

theorem Value.depth_part_lt {v w : Value} (h : w ∈ v.parts) : w.depth < v.depth := by
  have ofItems {vs : List Value} (hw : w ∈ vs) : w.depth ≤ depthOfItems vs := by
    induction vs with
    | nil => cases hw
    | cons u vs ih =>
      rw [depthOfItems]
      rcases List.mem_cons.mp hw with rfl | hw
      · exact le_max_left _ _
      · exact le_max_of_le_right (ih hw)
  have ofEntries {es : List (Value × Value)} (hw : w ∈ es.flatMap fun e => [e.1, e.2]) :
      w.depth ≤ depthOfEntries es := by
    induction es with
    | nil => cases hw
    | cons e es ih =>
      obtain ⟨k, u⟩ := e
      rw [depthOfEntries]
      simp only [List.flatMap_cons, List.mem_append, List.mem_cons, List.not_mem_nil, or_false] at hw
      rcases hw with (rfl | rfl) | hw
      · exact le_max_of_le_left (le_max_left _ _)
      · exact le_max_of_le_left (le_max_right _ _)
      · exact le_max_of_le_right (ih hw)
  cases v with
  | list vs | tuple vs | set vs | array _ vs =>
    have hle : w.depth ≤ depthOfItems vs := ofItems h
    rw [depth]
    omega
  | dict es | view es =>
    have hle : w.depth ≤ depthOfEntries es := ofEntries h
    rw [depth]
    omega
  | _ => cases h

/-- Whether the handle is one of a partial form, and the entry that it leads to. -/
def Handle.turn : Handle → Bool × Nat
  | .root i => (false, i)
  | .partialOf h _ => (true, h.index)

theorem Handle.turn_snd (h : Handle) : h.turn.2 = h.index := by
  cases h <;> rfl

namespace Schema
variable {s t : Schema} {a : Annotations}

/-- Looking through wrappers meets no transform, and no lazy schema but those of partial forms. -/
inductive Reduced : Schema → Prop
  | lazy (a : Annotations) (h : Handle) (path : List Nat) : Reduced (lazy a (.partialOf h path))
  | node {s : Schema} (hl : s.handle? = none) (ht : s.kind ≠ .transform) (hb : ∀ t ∈ s.behind, Reduced t) : Reduced s

theorem Reduced.alternative (h : s.Reduced) (ht : t ∈ s.alternatives) : t.Reduced := by
  cases s with
  | union a ss =>
    cases h with
    | node _ _ hb => exact hb t ht
  | _ =>
    obtain rfl := List.mem_singleton.mp ht
    exact h

theorem reduced_oneOf {cs : List Schema} (h : ∀ c ∈ cs, c.Reduced) (a : Annotations) : (oneOf cs a).Reduced := by
  have hu : ∀ s ∈ unify cs, s.Reduced := forall_unify fun c hc _ hs => (h c hc).alternative hs
  rcases oneOf_eq cs a with ⟨_, hc⟩ | ⟨s, hs, hc⟩ | ⟨_, hc⟩
  · rw [hc]
    exact .node rfl (by decide) fun _ ht => absurd ht List.not_mem_nil
  · rw [hc]
    exact hu s (by simp [hs])
  · rw [hc]
    exact .node rfl (by simp [kind]) fun t ht => hu t (mem_ranked.mp ht)

theorem reduced_partialForm (s : Schema) (path : List Nat) : (s.partialForm path).Reduced := by
  induction s using heldInduction generalizing path with
  | step s ih =>
    have closed {t : Schema} (hl : t.handle? = none) (hk : t.kind ≠ .transform) (hb : t.behind = []) : t.Reduced :=
      .node hl hk (by simp [hb])
    cases s with
    | typeAlias a ps t => exact ih t (by simp [held]) path
    | refinement a t p => exact ih t (by simp [held, children]) path
    | transform a u t c => exact ih t (by simp [held]) path
    | lazy a h => exact .lazy .empty h path
    | union a ss =>
      rw [partialForm]
      refine reduced_oneOf (fun c hc => ?_) .empty
      obtain ⟨t, ht, path', rfl⟩ := mem_partialForms hc
      exact ih t ht path'
    | _ => exact closed rfl (by simp [kind, partialForm, structOf]) rfl

end Schema

namespace Scope
variable {scope : Scope} {direction : Direction} {s t : Schema} {a : Annotations} {h k : Handle}

inductive Hands (scope : Scope) : Schema → Handle → Prop
  | lazy (a : Annotations) (h : Handle) : Hands scope (.lazy a h) h
  | exposed {s t : Schema} {h : Handle} (hs : s.handle? = none) (ht : t ∈ scope.exposed s) (hh : Hands scope t h) :
    Hands scope s h

theorem hands_lazy : scope.Hands (.lazy a h) k ↔ h = k := by
  constructor
  · rintro (_ | ⟨hs, _, _⟩)
    · rfl
    · cases hs
  · rintro rfl
    exact .lazy a h

theorem hands_iff (hs : s.handle? = none) : scope.Hands s k ↔ ∃ t ∈ scope.exposed s, scope.Hands t k := by
  constructor
  · rintro (_ | ⟨_, ht, hk⟩)
    · cases hs
    · exact ⟨_, ht, hk⟩
  · rintro ⟨t, ht, hk⟩
    exact .exposed hs ht hk

/-- What is handed the value is met on the way through what the schemas expose. -/
theorem Hands.exists_lazy (hk : scope.Hands s k) :
    ∃ a, Relation.ReflTransGen (fun u v => v ∈ scope.exposed u) s (.lazy a k) := by
  induction hk with
  | lazy a h => exact ⟨a, .refl⟩
  | exposed _ ht _ ih =>
    obtain ⟨a, ha⟩ := ih
    exact ⟨a, .head ht ha⟩

theorem part_of_exposed (h : Relation.ReflTransGen (fun u v => v ∈ scope.exposed u) s t) : scope.Part s t :=
  Relation.ReflTransGen.mono (fun _ _ => mem_next_of_exposed) _ _ h

theorem exposed_eq_behind (hl : s.handle? = none) (ht : s.kind ≠ .transform) : scope.exposed s = s.behind := by
  cases s with
  | lazy => cases hl
  | transform => exact absurd rfl ht
  | _ => rfl

/-- From partial forms it is seen from the entries alone what lazy schemas are handed the value. -/
theorem hands_of_reduced (ht : t.Reduced) (q : Bool × Nat) :
    (∃ k, scope.Hands t k ∧ k.turn = q) ↔ ∃ j, q = (true, j) ∧ t.Awaits j := by
  induction ht with
  | lazy a h path =>
    simp only [hands_lazy, Schema.awaits_lazy, Handle.index, Handle.turn, exists_eq_left']
    constructor
    · rintro rfl
      exact ⟨_, rfl, rfl⟩
    · rintro ⟨j, rfl, rfl⟩
      rfl
  | @node s hl hk _ ih =>
    simp only [hands_iff hl, Schema.awaits_iff hl, exposed_eq_behind hl hk]
    constructor
    · rintro ⟨k, ⟨t, ht, hk⟩, hq⟩
      obtain ⟨j, rfl, hj⟩ := (ih t ht).mp ⟨k, hk, hq⟩
      exact ⟨j, rfl, t, ht, hj⟩
    · rintro ⟨j, rfl, t, ht, hj⟩
      obtain ⟨k, hk, hq⟩ := (ih t ht).mpr ⟨j, rfl, hj⟩
      exact ⟨k, ⟨t, ht, hk⟩, hq⟩

/-- One turn leads to another: an entry to the lazy schemas in it, a partial form of an entry to the partial forms of
the entries that it leads to. -/
def Turns (scope : Scope) : Bool × Nat → Bool × Nat → Prop
  | (false, i), q => ∃ t, scope.deferred.lookup i = some (.ok t) ∧ ∃ k, scope.Hands t k ∧ k.turn = q
  | (true, i), q => ∃ j, q = (true, j) ∧ scope.Follows i j

theorem turns_iff (hf : scope.force h = .ok t) (q : Bool × Nat) :
    scope.Turns h.turn q ↔ ∃ k, scope.Hands t k ∧ k.turn = q := by
  cases h with
  | root i =>
    rw [force] at hf
    split at hf
    · rename_i hl
      subst hf
      simp [Turns, Handle.turn, hl]
    · cases hf
  | partialOf h path =>
    have hfollows {j : Nat} : scope.Follows h.index j ↔ t.Awaits j := follows_iff_awaits (h := .partialOf h path) hf
    obtain ⟨u, _, hu⟩ := bind_eq_ok_iff.mp hf
    obtain rfl := Except.ok.inj hu
    rw [hands_of_reduced (Schema.reduced_partialForm u path)]
    simp only [Handle.turn, Turns, hfollows]

/-- What the lazy schemas of handles hand the value to is seen from the table. -/
theorem Productive.charted (scope : Scope) (direction : Direction) :
    Charted (fun h => ∃ a, scope.Productive direction (.lazy a h))
      (fun h k => ∃ t, scope.force h = .ok t ∧ scope.Hands t k) Handle.turn scope.Turns where
  closed := by
    rintro h k ⟨b, hb⟩ ⟨t, ht, hk⟩
    obtain ⟨a, ha⟩ := hk.exists_lazy
    exact ⟨a, hb.part ((Part.force ht).trans (part_of_exposed ha))⟩
  seen := by
    rintro h k _ ⟨t, ht, hk⟩
    exact (turns_iff ht _).mpr ⟨k, hk, rfl⟩
  lifts := by
    rintro h q ⟨b, hb⟩ hq
    obtain ⟨t, ht⟩ := hb.forced b h (.refl scope _)
    obtain ⟨k, hk, rfl⟩ := (turns_iff ht _).mp hq
    exact ⟨k, ⟨t, ht, hk⟩, rfl⟩
  ends := by
    rintro h ⟨b, hb⟩
    have hacc := (hb.guarded _ (.refl scope _)).transGen
    clear hb
    generalize hv : Schema.lazy b h = v at hacc
    induction hacc generalizing b h with
    | intro v _ ih =>
      subst hv
      refine Acc.intro _ fun k hk => ?_
      obtain ⟨t, ht, hk⟩ := hk
      obtain ⟨a, ha⟩ := hk.exists_lazy
      have hstep : t ∈ scope.next (.lazy b h) := mem_next_lazy.mpr ht
      exact ih _ (Relation.transGen_swap.mpr (.head' (b := t) hstep ha)) a rfl

def turns (scope : Scope) : Finset (Bool × Nat) :=
  Finset.univ ×ˢ (scope.deferred.map Prod.fst).toFinset

theorem card_turns_le (scope : Scope) : scope.turns.card ≤ 2 * scope.deferred.length := by
  have hl := List.toFinset_card_le (scope.deferred.map Prod.fst)
  rw [List.length_map] at hl
  rw [turns, Finset.card_product, Finset.card_univ, Fintype.card_bool]
  omega

theorem turn_mem_turns (hf : scope.force h = .ok t) : h.turn ∈ scope.turns := by
  refine Finset.mem_product.mpr ⟨Finset.mem_univ _, List.mem_toFinset.mpr ?_⟩
  rw [Handle.turn_snd]
  exact mem_keys_of_force hf

/-- A schema has an outcome on a value when the lazy schemas that are handed the value have one. -/
theorem Productive.run_of_hands (hs : scope.Productive direction s) {n : Nat} {v : Value}
    (lazies : ∀ a k, scope.Hands s k → ∃ o, scope.run direction n (.lazy a k) v = .ok o)
    (members : ∀ t, scope.Productive direction t → ∀ w ∈ v.parts, ∃ o, scope.run direction n t w = .ok o) :
    ∃ o, scope.run direction n s v = .ok o := by
  induction s using Schema.childrenInduction with
  | step s ih =>
    cases hl : s.handle? with
    | some h =>
      cases s with
      | lazy a h => exact lazies a h (.lazy a h)
      | _ => cases hl
    | none =>
      refine hs.steady.run hl (fun t ht => ?_) fun t ht => members t (hs.part (.child ht))
      have hchild : t ∈ s.children := mem_children_of_exposed hl ht
      exact ih t hchild (hs.part (.child hchild)) fun a k hk => lazies a k (.exposed hl ht hk)

/-- The fuel that is given to a value lets a productive schema come to an outcome, and so does any more. -/
theorem Productive.run_of_fuelFor_le (hs : scope.Productive direction s) {n : Nat} {v : Value}
    (hn : scope.fuelFor v ≤ n) : ∃ o, scope.run direction n s v = .ok o := by
  induction v using Value.partsInduction generalizing s n with
  | step v ih =>
    let level := 2 * scope.deferred.length + 1
    have hfuel : scope.fuelFor v = v.depth * level + level := by
      rw [fuelFor, Nat.add_mul, Nat.one_mul]
    have members {m : Nat} (hm : v.depth * level ≤ m) : ∀ t, scope.Productive direction t → ∀ w ∈ v.parts,
        ∃ o, scope.run direction m t w = .ok o := by
      intro t ht w hw
      refine ih w hw ht (le_trans ?_ hm)
      exact Nat.mul_le_mul_right level (Value.depth_part_lt hw)
    have lazies {a : Annotations} {h : Handle} (hh : scope.Productive direction (.lazy a h)) :
        ∀ b m, scope.turns.card + v.depth * level ≤ m → ∃ o, scope.run direction m (.lazy b h) v = .ok o := by
      refine (Productive.charted scope direction).walk
        (motive := fun c h => ∀ b m, c + v.depth * level ≤ m → ∃ o, scope.run direction m (.lazy b h) v = .ok o)
        ?_ scope.turns ?_ ⟨a, hh⟩ le_rfl
      · rintro c h ⟨a, ha⟩ step b m hm
        obtain ⟨t, ht⟩ := ha.forced a h (.refl scope _)
        obtain ⟨m, rfl⟩ : ∃ l, m = l + 1 := ⟨m - 1, by omega⟩
        have hrun : scope.run direction (m + 1) (.lazy b h) v = scope.run direction m t v := by
          rw [run_lazy_succ, ht]
          rfl
        rw [hrun]
        refine (ha.part (.force ht)).run_of_hands (fun d k hk => ?_) (members (by omega))
        exact step k ⟨t, ht, hk⟩ d m (by omega)
      · rintro h ⟨a, ha⟩
        obtain ⟨t, ht⟩ := ha.forced a h (.refl scope _)
        exact turn_mem_turns ht
    have hcard := scope.card_turns_le
    refine hs.run_of_hands (fun a k hk => ?_) (members (by omega))
    obtain ⟨b, hb⟩ := hk.exists_lazy
    exact lazies (hs.part (part_of_exposed hb)) a n (by omega)

/-- Runs come to an end. When a schema has finitely many parts, none of which comes back to itself but through an item
of a tuple or a property, a parameter or a value of a struct, and everything that it calls on gives a result, then it
comes to an outcome on every value: with the fuel that is given to the value and with any more, and in a session of
its own. It does so in either direction, in that of encoding if no part is a transform. -/
theorem apply_terminates (hfin : {t | scope.Part s t}.Finite)
    (hcycle : ∀ t, scope.Part s t → ¬Relation.TransGen (fun u v => u ∈ scope.exposed v) t t)
    (hforced : ∀ a h, scope.Part s (.lazy a h) → ∃ t, scope.force h = .ok t)
    (htested : ∀ a t p, scope.Part s (.refinement a t p) → scope.Answerable direction t p)
    (hmembers : ∀ a, ¬scope.Part s (.union a []))
    (hconverted : ∀ a t u c, scope.Part s (.transform a t u c) →
      direction = .decode ∧ ∀ v, ∃ o, scope.convert c .decode v = .ok o) (v : Value) :
    ∃ o, scope.apply direction s v = .ok o ∧ (∀ n, scope.fuelFor v ≤ n → scope.run direction n s v = .ok o) ∧
      ((SessionM.apply scope direction s v).run.run Session.empty).1 = .ok o := by
  have hs : scope.Productive direction s :=
    ⟨guarded_of_acyclic hfin hcycle, hforced, htested, hmembers, hconverted⟩
  obtain ⟨o, ho⟩ := hs.run_of_fuelFor_le (le_refl (scope.fuelFor v))
  refine ⟨o, ?_, fun n hn => run_mono_ok hn ho, ?_⟩
  · cases direction with
    | decode | encode => exact ho
  · rw [SessionM.apply, (SessionM.run_parse (Session.faithful_empty scope direction) _ s v).1]
    exact ho

/-- An item with another one behind it, of a schema that comes back to itself. -/
theorem apply_terminates_item :
    let scope := Stock.scope [(0, .ok numbered)]
    let x : Value := .dict [(.text "id", .int 1), (.text "next", .dict [(.text "id", .int 2)])]
    Relation.TransGen (fun s t => t ∈ scope.next s) numbered numbered ∧
      ∃ o, scope.apply .decode item x = .ok o ∧ (∀ n, scope.fuelFor x ≤ n → scope.run .decode n item x = .ok o) ∧
        ((SessionM.apply scope .decode item x).run.run Session.empty).1 = .ok o := by
  intro scope x
  have hs : scope.Productive .decode item := productive_item
  have hlink : Schema.lazy .empty (.root 0) ∈ scope.next numbered := by simp [next, Schema.children, numbered]
  refine ⟨.tail (.single hlink) (mem_next_lazy.mpr rfl), ?_⟩
  refine apply_terminates ?_ (fun t ht => ?_) hs.forced hs.tested hs.members hs.converted x
  · exact (List.finite_toSet itemParts).subset fun t ht => mem_itemParts ht
  · exact not_self_of_acc (hs.guarded t ht).transGen

end Scope
end Schemata
