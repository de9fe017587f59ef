import Schemata.Proofs.Schema.Canonical
import Schemata.Proofs.Schema.Union
import Mathlib.Data.Finset.Card

/-!
The fuel of a spine suffices. A way through lazy schemas that is not cut off by a container never comes back to an entry
of the table, so that it is no longer than the table. Handles of partial forms grow without bound, but which entries
the partial form of a schema leads to is what the schema itself leads to.
-/
namespace Schemata

/-! ### Walks that are seen in a table -/

section
variable {α κ : Type}

theorem not_self_of_acc {r : α → α → Prop} {a : α} (h : Acc r a) : ¬r a a := by
  induction h with
  | intro a _ ih => exact fun ha => ih a ha ha

/-- Steps between places, of which the key of a place tells what keys it leads to. From the places in question no way
goes on without end. -/
structure Charted (place : α → Prop) (next : α → α → Prop) (key : α → κ) (leads : κ → κ → Prop) : Prop where
  closed : ∀ {a b}, place a → next a b → place b
  seen : ∀ {a b}, place a → next a b → leads (key a) (key b)
  lifts : ∀ {a q}, place a → leads (key a) q → ∃ b, next a b ∧ key b = q
  ends : ∀ {a}, place a → Acc (fun b a => next a b) a

namespace Charted
variable {place : α → Prop} {next : α → α → Prop} {key : α → κ} {leads : κ → κ → Prop} {a : α}

theorem exists_place (hc : Charted place next key leads) (ha : place a) {q : κ}
    (hq : Relation.ReflTransGen leads (key a) q) : ∃ b, place b ∧ key b = q := by
  induction hq with
  | refl => exact ⟨a, ha, rfl⟩
  | tail _ hpq ih =>
    obtain ⟨b, hb, rfl⟩ := ih
    obtain ⟨c, hbc, rfl⟩ := hc.lifts hb hpq
    exact ⟨c, hc.closed hb hbc, rfl⟩

/-- As the ways between places come to an end, so do those between keys. -/
theorem acc_key (hc : Charted place next key leads) (ha : place a) : Acc (fun q p => leads p q) (key a) := by
  have hacc := hc.ends ha
  induction hacc with
  | intro a _ ih =>
    refine Acc.intro _ fun q hq => ?_
    obtain ⟨b, hab, rfl⟩ := hc.lifts ha hq
    exact ih b hab (hc.closed ha hab)

theorem not_leads_self (hc : Charted place next key leads) (ha : place a) :
    ¬Relation.TransGen leads (key a) (key a) :=
  fun h => not_self_of_acc (hc.acc_key ha).transGen (Relation.transGen_swap.mpr h)

/-- What grows by one with each step reaches no further than there are keys: the keys that the way can still come to
become fewer with every step. -/
theorem walk [DecidableEq κ] (hc : Charted place next key leads) {motive : Nat → α → Prop}
    (step : ∀ n a, place a → (∀ b, next a b → motive n b) → motive (n + 1) a) (keys : Finset κ)
    (hk : ∀ a, place a → key a ∈ keys) (ha : place a) {n : Nat} (hn : keys.card ≤ n) : motive n a := by
  have hreach : ∀ q, Relation.ReflTransGen leads (key a) q → q ∈ keys := by
    intro q hq
    obtain ⟨b, hb, rfl⟩ := hc.exists_place ha hq
    exact hk b hb
  clear hk
  induction n generalizing a keys with
  | zero =>
    have hmem := hreach (key a) .refl
    rw [Finset.card_eq_zero.mp (Nat.le_zero.mp hn)] at hmem
    cases hmem
  | succ n ih =>
    apply step n a ha
    intro b hab
    have hfewer : (keys.erase (key a)).card ≤ n := by
      rw [Finset.card_erase_of_mem (hreach (key a) .refl)]
      omega
    refine ih (keys.erase (key a)) (hc.closed ha hab) hfewer fun q hq => ?_
    refine Finset.mem_erase.mpr ⟨?_, hreach q (.head (hc.seen ha hab) hq)⟩
    rintro rfl
    exact hc.not_leads_self ha (.head' (hc.seen ha hab) hq)

end Charted

end

/-! ### Entries that a schema leads to -/

namespace Schema
variable {s t u : Schema} {a b : Annotations} {i : Nat}

inductive Awaits : Schema → Nat → Prop
  | lazy (a : Annotations) (h : Handle) : Awaits (lazy a h) h.index
  | behind {s t : Schema} {i : Nat} (ht : t ∈ s.behind) (h : Awaits t i) : Awaits s i

theorem awaits_lazy {h : Handle} : (lazy a h).Awaits i ↔ h.index = i := by
  constructor
  · rintro (_ | ⟨ht, _⟩)
    · rfl
    · cases ht
  · rintro rfl
    exact .lazy a h

theorem awaits_iff (hs : s.handle? = none) : s.Awaits i ↔ ∃ t ∈ s.behind, t.Awaits i := by
  constructor
  · rintro (_ | ⟨ht, h⟩)
    · cases hs
    · exact ⟨_, ht, h⟩
  · rintro ⟨t, ht, h⟩
    exact .behind ht h

theorem not_awaits (hs : s.handle? = none) (hb : s.behind = []) : ¬s.Awaits i := by
  simp [awaits_iff hs, hb]

theorem target_equals_of_equals {s t u v : Schema} {c d : Conversion}
    (h : (transform a s t c).equals (transform b u v d)) : t.equals v := by
  unfold equals at h
  simp only [Bool.and_eq_true] at h
  exact h.1.2

theorem awaits_of_equals (h : s.equals t) : s.Awaits i ↔ t.Awaits i := by
  induction s using heldInduction generalizing t with
  | step s ih =>
    have wrapped {u v : Schema} (hs : s.handle? = none) (ht : t.handle? = none) (hu : s.behind = [u])
        (hv : t.behind = [v]) (h : u.equals v) : s.Awaits i ↔ t.Awaits i := by
      rw [awaits_iff hs, awaits_iff ht]
      simpa [hu, hv] using ih u (mem_held_of_behind (by simp [hu])) h
    cases alike_of_equals h with
    | typeAlias hs => exact wrapped rfl rfl rfl rfl hs
    | refinement p hs => exact wrapped rfl rfl rfl rfl hs
    | transform c _ => exact wrapped rfl rfl rfl rfl (target_equals_of_equals h)
    | lazy handle => rw [awaits_lazy, awaits_lazy]
    | union hs =>
      rw [awaits_iff rfl, awaits_iff rfl]
      constructor
      · rintro ⟨u, hu, hi⟩
        obtain ⟨v, hv, huv⟩ := Lists.exists_of_mem_left hs hu
        exact ⟨v, hv, (ih u hu huv).mp hi⟩
      · rintro ⟨v, hv, hi⟩
        obtain ⟨u, hu, huv⟩ := Lists.exists_of_mem_right hs hv
        exact ⟨u, hu, (ih u hu huv).mpr hi⟩
    | _ => rw [awaits_iff rfl, awaits_iff rfl]; simp [behind]

theorem awaits_alternatives : s.Awaits i ↔ ∃ t ∈ s.alternatives, t.Awaits i := by
  cases s with
  | union a ss => exact awaits_iff rfl
  | _ => simp [alternatives]

/-- A canonical union leads to what its candidates lead to: what it leaves out equals a member, or is a literal. -/
theorem awaits_oneOf {cs : List Schema} : (oneOf cs a).Awaits i ↔ ∃ c ∈ cs, c.Awaits i := by
  have hu : (∃ t ∈ unify cs, t.Awaits i) ↔ ∃ c ∈ cs, c.Awaits i := by
    constructor
    · rintro ⟨t, ht, hi⟩
      obtain ⟨c, hc, htc⟩ := mem_unify ht
      exact ⟨c, hc, awaits_alternatives.mpr ⟨t, htc, hi⟩⟩
    · rintro ⟨c, hc, hi⟩
      obtain ⟨s, hs, hi⟩ := awaits_alternatives.mp hi
      obtain ⟨t, _, hts, hleft⟩ := unify_covers hc hs
      have hti : t.Awaits i := by
        rcases hts with rfl | heq
        · exact hi
        · exact (awaits_of_equals heq).mpr hi
      rcases hleft with ht | ⟨k, _, habs⟩
      · exact ⟨t, ht, hti⟩
      · cases habs <;> exact absurd hti (not_awaits rfl rfl)
  rw [← hu]
  rcases oneOf_eq cs a with ⟨hn, hc⟩ | ⟨s, hs, hc⟩ | ⟨_, hc⟩
  · simpa [hc, hn] using not_awaits rfl rfl
  · simp [hc, hs]
  · rw [hc, awaits_iff rfl]
    simp only [behind, mem_ranked]

theorem exists_partialForm_mem {path : List Nat} {n : Nat} {ss : List Schema} (h : s ∈ ss) :
    ∃ path', s.partialForm path' ∈ partialForms path n ss := by
  induction ss generalizing n with
  | nil => cases h
  | cons t ss ih =>
    rcases List.mem_cons.mp h with rfl | h
    · exact ⟨n :: path, List.mem_cons_self⟩
    · obtain ⟨path', hp⟩ := ih h
      exact ⟨path', List.mem_cons_of_mem _ hp⟩

/-- The partial form leads to what the schema leads to. -/
theorem awaits_partialForm (path : List Nat) : (s.partialForm path).Awaits i ↔ s.Awaits i := by
  induction s using heldInduction generalizing path with
  | step s ih =>
    have wrapped {t : Schema} (hs : s.handle? = none) (ht : s.behind = [t]) :
        (t.partialForm path).Awaits i ↔ s.Awaits i := by
      rw [ih t (mem_held_of_behind (by simp [ht])), awaits_iff hs, ht]
      simp
    cases s with
    | typeAlias a ps t => exact wrapped (t := t) rfl rfl
    | refinement a t p => exact wrapped (t := t) rfl rfl
    | transform a u t c => exact wrapped (t := t) rfl rfl
    | lazy a h => rw [partialForm, awaits_lazy, awaits_lazy, Handle.index]
    | union a ss =>
      rw [partialForm, awaits_oneOf, awaits_iff rfl]
      constructor
      · rintro ⟨c, hc, hi⟩
        obtain ⟨t, ht, path', rfl⟩ := mem_partialForms hc
        exact ⟨t, ht, (ih t ht path').mp hi⟩
      · rintro ⟨t, ht, hi⟩
        obtain ⟨path', hp⟩ := exists_partialForm_mem ht
        exact ⟨_, hp, (ih t ht path').mpr hi⟩
    | tuple | struct =>
      exact iff_of_false (not_awaits rfl rfl) (not_awaits rfl rfl)
    | _ => rfl

end Schema

namespace Scope
variable {scope : Scope} {s t : Schema} {i j n : Nat}

def Follows (scope : Scope) (i j : Nat) : Prop :=
  ∃ t, scope.deferred.lookup i = some (.ok t) ∧ t.Awaits j

/-- What a handle stands for leads to what its entry leads to. -/
theorem follows_iff_awaits {h : Handle} (hf : scope.force h = .ok t) : scope.Follows h.index j ↔ t.Awaits j := by
  induction h generalizing t with
  | root i =>
    rw [force] at hf
    split at hf
    · rename_i hl
      subst hf
      simp [Follows, Handle.index, hl]
    · cases hf
  | partialOf h path ih =>
    obtain ⟨u, hu, hf⟩ := bind_eq_ok_iff.mp hf
    obtain rfl := Except.ok.inj hf
    rw [Handle.index, ih hu, Schema.awaits_partialForm]

theorem mem_keys_of_force {h : Handle} (hf : scope.force h = .ok t) : h.index ∈ scope.deferred.map Prod.fst := by
  induction h generalizing t with
  | root i =>
    rw [force] at hf
    split at hf
    · rename_i hl
      obtain ⟨before, after, he, _⟩ := List.lookup_eq_some_iff.mp hl
      simp [he, Handle.index]
    · cases hf
  | partialOf h path ih =>
    obtain ⟨u, hu, _⟩ := bind_eq_ok_iff.mp hf
    exact ih hu

theorem exists_behind_of_awaits (scope : Scope) (h : s.Awaits i) : ∃ a h, scope.Behind s (.lazy a h) ∧ h.index = i := by
  induction h with
  | lazy a h => exact ⟨a, h, .refl, rfl⟩
  | behind ht _ ih =>
    obtain ⟨a, h, hb, hi⟩ := ih
    exact ⟨a, h, .head (mem_unfolding_behind ht) hb, hi⟩

/-- Looking through wrappers comes to an end, and every lazy schema met on the way leads somewhere. -/
structure Unfolds (scope : Scope) (s : Schema) : Prop where
  forced : ∀ a h, scope.Behind s (.lazy a h) → ∃ t, scope.force h = .ok t
  guarded : Acc (fun u v => u ∈ scope.unfolding Schema.behind v) s

namespace Unfolds
variable {a : Annotations} {h : Handle}

theorem behind (hs : scope.Unfolds s) (ht : scope.Behind s t) : scope.Unfolds t where
  forced a h hb := hs.forced a h (ht.trans hb)
  guarded := by
    induction ht with
    | refl => exact hs.guarded
    | tail _ hu ih => exact ih.inv hu

/-- What stands behind the lazy schemas of handles is seen from the table. -/
theorem charted (scope : Scope) : Charted (fun h => ∃ a, scope.Unfolds (.lazy a h))
    (fun h k => ∃ t a, scope.force h = .ok t ∧ scope.Behind t (.lazy a k) ∧ t.Awaits k.index)
    Handle.index scope.Follows where
  closed := by
    rintro h k ⟨b, hb⟩ ⟨t, a, ht, hk, _⟩
    exact ⟨a, hb.behind (.head (mem_unfolding_lazy.mpr ht) hk)⟩
  seen := by
    rintro h k _ ⟨t, a, ht, _, hk⟩
    exact (follows_iff_awaits ht).mpr hk
  lifts := by
    rintro h j ⟨b, hb⟩ hj
    obtain ⟨t, ht⟩ := hb.forced b h .refl
    have hawaits := (follows_iff_awaits ht).mp hj
    obtain ⟨a, k, hk, rfl⟩ := exists_behind_of_awaits scope hawaits
    exact ⟨k, ⟨t, a, ht, hk, hawaits⟩, rfl⟩
  ends := by
    rintro h ⟨b, hb⟩
    have hacc := hb.guarded.transGen
    generalize hv : Schema.lazy b h = v at hacc
    induction hacc generalizing b h with
    | intro v _ ih =>
      subst hv
      refine Acc.intro _ fun k hk => ?_
      obtain ⟨t, a, ht, hk, _⟩ := hk
      have hbk : Relation.TransGen (fun s t => t ∈ scope.unfolding Schema.behind s) (.lazy b h) (.lazy a k) :=
        .head' (mem_unfolding_lazy.mpr ht) hk
      exact ih _ (Relation.transGen_swap.mpr hbk) a (hb.behind hbk.to_reflTransGen) rfl

end Unfolds

/-- A spine is whole when it is so for the lazy schemas in it. -/
theorem whole_spine (scope : Scope) {unfold : Handle → Spine}
    (hu : ∀ a h, scope.Behind s (.lazy a h) → s.Awaits h.index → (unfold h).Whole) : (s.spine unfold).Whole := by
  induction s using Schema.heldInduction with
  | step s ih =>
    have wrapped {t : Schema} (ht : t ∈ s.behind) : (t.spine unfold).Whole :=
      ih t (Schema.mem_held_of_behind ht) fun a h hb hi =>
        hu a h (.head (mem_unfolding_behind ht) hb) (.behind ht hi)
    cases s with
    | typeAlias a ps t => exact wrapped (t := t) List.mem_cons_self
    | refinement a t p => exact wrapped (t := t) List.mem_cons_self
    | transform a u t c => exact wrapped (t := t) List.mem_cons_self
    | lazy a h => exact hu a h .refl (.lazy a h)
    | union a ss =>
      rw [Schema.spine_union]
      refine .fork fun m hm => ?_
      obtain ⟨t, ht, rfl⟩ := List.mem_map.mp hm
      exact wrapped ht
    | _ => exact .node _

theorem Unfolds.whole (hs : scope.Unfolds s) : (scope.spine s).Whole := by
  refine whole_spine scope fun a h hb _ => ?_
  refine (Unfolds.charted scope).walk (motive := fun n h => (scope.unfoldSpine n h).Whole) ?_
    (scope.deferred.map Prod.fst).toFinset ?_ ⟨a, hs.behind hb⟩ ?_
  · rintro n h ⟨a, ha⟩ ih
    obtain ⟨t, ht⟩ := ha.forced a h .refl
    rw [unfoldSpine, ht]
    exact whole_spine scope fun b k hb hk => ih k ⟨t, b, ht, hb, hk⟩
  · rintro h ⟨a, ha⟩
    obtain ⟨t, ht⟩ := ha.forced a h .refl
    exact List.mem_toFinset.mpr (mem_keys_of_force ht)
  · have hl := List.toFinset_card_le (scope.deferred.map Prod.fst)
    rw [List.length_map] at hl
    omega

end Scope
end Schemata
