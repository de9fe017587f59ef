import Schemata.Proofs.Lists
import Schemata.Proofs.Schema.Parts
import Schemata.Schema.Derived

/-!
The spine of a schema: the schemas met on the way through wrappers, and the keys of a spine in terms of the keys of its
members.
-/
namespace Schemata

/-- A computation in two steps gives a result when both steps do. -/
theorem bind_eq_ok_iff {α β : Type} {x : Except Fault α} {f : α → Except Fault β} {r : β} :
    x >>= f = .ok r ↔ ∃ a, x = .ok a ∧ f a = .ok r := by
  cases x <;> simp [bind, Except.bind]

theorem mapM_eq_ok_iff {α β : Type} {f : α → Except Fault β} {as : List α} {bs : List β} :
    as.mapM f = .ok bs ↔ List.Forall₂ (fun a b => f a = .ok b) as bs := by
  induction as generalizing bs with
  | nil => simp [pure, Except.pure, eq_comm]
  | cons a as ih =>
    simp only [List.mapM_cons, bind_eq_ok_iff, ih, pure, Except.pure, Except.ok.injEq, List.forall₂_cons_left_iff]
    constructor
    · rintro ⟨b, hb, bs, hbs, rfl⟩
      exact ⟨b, bs, hb, hbs, rfl⟩
    · rintro ⟨b, bs, hb, hbs, rfl⟩
      exact ⟨b, hb, bs, hbs, rfl⟩

theorem mem_iff_of_mapM {α β : Type} {f : α → Except Fault β} {as : List α} {bs : List β} (h : as.mapM f = .ok bs)
    {b : β} : b ∈ bs ↔ ∃ a ∈ as, f a = .ok b := by
  have hall := mapM_eq_ok_iff.mp h
  constructor
  · exact Lists.exists_of_mem_right hall
  · rintro ⟨a, ha, hab⟩
    obtain ⟨c, hc, hac⟩ := Lists.exists_of_mem_left hall ha
    exact Except.ok.inj (hac.symm.trans hab) ▸ hc

/-- Lists computed member by member and put behind one another. -/
theorem concat_eq_ok_iff {α β : Type} (f : α → Except Fault (List β)) (g : List α → Except Fault (List β))
    (nil : g [] = .ok [])
    (cons : ∀ a as, g (a :: as) = f a >>= fun first => g as >>= fun others => .ok (first ++ others))
    {as : List α} {bs : List β} :
    g as = .ok bs ↔ ∃ bss, List.Forall₂ (fun a bs => f a = .ok bs) as bss ∧ bs = bss.flatten := by
  induction as generalizing bs with
  | nil => simp [nil, eq_comm]
  | cons a as ih =>
    simp only [cons, bind_eq_ok_iff, ih, Except.ok.injEq, List.forall₂_cons_left_iff]
    constructor
    · rintro ⟨first, ha, _, ⟨bss, has, rfl⟩, rfl⟩
      exact ⟨first :: bss, ⟨first, bss, ha, has, rfl⟩, rfl⟩
    · rintro ⟨_, ⟨first, bss, ha, has, rfl⟩, rfl⟩
      exact ⟨first, ha, bss.flatten, ⟨bss, has, rfl⟩, rfl⟩

namespace Schema

/-- The schemas that a schema stands for when wrappers are looked through. -/
def behind : Schema → List Schema
  | typeAlias _ _ type => [type]
  | union _ members => members
  | refinement _ base _ => [base]
  | transform _ _ target _ => [target]
  | _ => []

theorem mem_held_of_behind {s t : Schema} (h : t ∈ s.behind) : t ∈ s.held := by
  cases s with
  | typeAlias a parameters type => exact List.mem_append_right parameters h
  | transform a source target c => exact List.mem_cons_of_mem source h
  | union | refinement => exact h
  | _ => cases h

theorem spines_eq_map (unfold : Handle → Spine) (ss : List Schema) :
    spines unfold ss = ss.map (spine unfold) := by
  induction ss with
  | nil => rfl
  | cons s ss ih => rw [spines, ih, List.map_cons]

theorem spine_union (unfold : Handle → Spine) (a : Annotations) (ss : List Schema) :
    (union a ss).spine unfold = .fork (ss.map (spine unfold)) := by
  rw [spine, spines_eq_map]

end Schema

namespace Spine

/-- Induction on the members of a spine. -/
theorem membersInduction {motive : Spine → Prop} (node : ∀ s, motive (.node s))
    (fork : ∀ ms, (∀ m ∈ ms, motive m) → motive (.fork ms)) (broken : ∀ f, motive (.broken f)) (p : Spine) :
    motive p :=
  match p with
  | .node s => node s
  | .broken f => broken f
  | .fork ms => fork ms fun m hm =>
    have := List.sizeOf_lt_of_mem hm
    membersInduction node fork broken m
termination_by sizeOf p

inductive Leads : Spine → Schema → Prop
  | node (s : Schema) : Leads (.node s) s
  | fork {ms : List Spine} {m : Spine} {s : Schema} (hm : m ∈ ms) (h : Leads m s) : Leads (.fork ms) s

inductive Whole : Spine → Prop
  | node (s : Schema) : Whole (.node s)
  | fork {ms : List Spine} (h : ∀ m ∈ ms, Whole m) : Whole (.fork ms)

section
variable {ms : List Spine}

theorem keyTypesOfAll_eq_mapM : keyTypesOfAll ms = ms.mapM keyTypes := by
  induction ms with
  | nil => rfl
  | cons m ms ih => rw [keyTypesOfAll, ih, List.mapM_cons]

theorem keysOfAll_eq_mapM : keysOfAll ms = ms.mapM keys := by
  induction ms with
  | nil => rfl
  | cons m ms ih => rw [keysOfAll, ih, List.mapM_cons]

theorem propertiesOfAll_eq_ok_iff {all : List (Property Schema)} :
    propertiesOfAll ms = .ok all ↔ ∃ pss, List.Forall₂ (fun m ps => m.properties = .ok ps) ms pss ∧
      all = pss.flatten :=
  concat_eq_ok_iff properties propertiesOfAll rfl fun _ _ => rfl

theorem mem_intersect {α : Type} {same : α → α → Bool} {x : α} {first : List α} {others : List (List α)} :
    x ∈ intersect same (first :: others) ↔ x ∈ first ∧ ∀ other ∈ others, ∃ y ∈ other, same y x := by
  rw [intersect]
  induction others generalizing first with
  | nil => simp
  | cons other others ih =>
    rw [List.foldl_cons, ih, List.mem_filter, List.any_eq_true, List.forall_mem_cons, and_assoc]

end

variable {p : Spine}

theorem Whole.exists_keys (h : p.Whole) : ∃ ks, p.keys = .ok ks := by
  induction h with
  | node s => exact ⟨_, rfl⟩
  | fork _ ih =>
    obtain ⟨kss, hkss⟩ := Lists.exists_forall₂ ih
    refine ⟨_, bind_eq_ok_iff.mpr ⟨kss, ?_, rfl⟩⟩
    rwa [keysOfAll_eq_mapM, mapM_eq_ok_iff]

theorem Whole.exists_properties (h : p.Whole) : ∃ qs, p.properties = .ok qs := by
  induction h with
  | node s => exact ⟨_, rfl⟩
  | fork hw ih =>
    obtain ⟨pss, hpss⟩ := Lists.exists_forall₂ ih
    obtain ⟨ks, hks⟩ := (Whole.fork hw).exists_keys
    exact ⟨_, bind_eq_ok_iff.mpr ⟨_, propertiesOfAll_eq_ok_iff.mpr ⟨pss, hpss, rfl⟩,
      bind_eq_ok_iff.mpr ⟨ks, hks, rfl⟩⟩⟩

theorem properties_fork_eq_ok_iff {ms : List Spine} {qs : List (Property Schema)} :
    (fork ms).properties = .ok qs ↔ ∃ pss keys, List.Forall₂ (fun m ps => m.properties = .ok ps) ms pss ∧
      (fork ms).keys = .ok keys ∧ qs = keys.map (mergedProperty pss.flatten) := by
  rw [properties]
  simp only [bind_eq_ok_iff, propertiesOfAll_eq_ok_iff, pure, Except.pure, Except.ok.injEq]
  constructor
  · rintro ⟨_, ⟨pss, hpss, rfl⟩, keys, hk, rfl⟩
    exact ⟨pss, keys, hpss, hk, rfl⟩
  · rintro ⟨pss, keys, hpss, hk, rfl⟩
    exact ⟨_, ⟨pss, hpss, rfl⟩, keys, hk, rfl⟩

theorem keys_fork_eq_ok_iff {ms : List Spine} {ks : List Value} :
    (fork ms).keys = .ok ks ↔ ∃ kss, List.Forall₂ (fun m ks => m.keys = .ok ks) ms kss ∧
      ks = intersect Value.equals kss := by
  rw [keys]
  simp only [bind_eq_ok_iff, keysOfAll_eq_mapM, mapM_eq_ok_iff, pure, Except.pure, Except.ok.injEq,
    eq_comm (b := ks)]

theorem keyTypes_fork_eq_ok_iff {ms : List Spine} {ks : List Schema} :
    (fork ms).keyTypes = .ok ks ↔ ∃ kss, List.Forall₂ (fun m ks => m.keyTypes = .ok ks) ms kss ∧
      ks = intersect Schema.equals kss := by
  rw [keyTypes]
  simp only [bind_eq_ok_iff, keyTypesOfAll_eq_mapM, mapM_eq_ok_iff, pure, Except.pure, Except.ok.injEq,
    eq_comm (b := ks)]

/-- The key types of a struct are those of its declared keys, and then the parameters of its index signatures. -/
theorem keyTypes_struct {a : Annotations} {ps : List (Property Schema)} {is : List (IndexSignature Schema)}
    {ts : List Schema} (h : List.Forall₂ (fun p t => keyType p.name = .ok t) ps ts) :
    (node (.struct a ps is)).keyTypes = .ok (ts ++ is.map fun i => i.parameter) :=
  bind_eq_ok_iff.mpr ⟨ts, mapM_eq_ok_iff.mpr h, rfl⟩

/-- Key types come from the ends of the spine. -/
theorem forall_keyTypes {motive : Schema → Prop}
    (hp : ∀ s ls, p.Leads s → nodeKeyTypes s = .ok ls → ∀ l ∈ ls, motive l) {ks : List Schema}
    (h : p.keyTypes = .ok ks) : ∀ k ∈ ks, motive k := by
  induction p using membersInduction generalizing ks with
  | node s => exact hp s ks (.node s) h
  | broken f => cases h
  | fork ms ih =>
    obtain ⟨kss, hall, rfl⟩ := keyTypes_fork_eq_ok_iff.mp h
    intro k hk
    cases kss with
    | nil => cases hk
    | cons first others =>
      obtain ⟨m, hm, hfirst⟩ := Lists.exists_of_mem_right hall List.mem_cons_self
      exact ih m hm (fun s ls hs => hp s ls (.fork hm hs)) hfirst k (mem_intersect.mp hk).1

/-- The keys are the names of the properties. -/
theorem keys_of_properties {qs : List (Property Schema)} (h : p.properties = .ok qs) :
    p.keys = .ok (qs.map fun q => q.name) := by
  cases p with
  | broken f => cases h
  | fork ms =>
    obtain ⟨pss, keys, _, hk, rfl⟩ := properties_fork_eq_ok_iff.mp h
    rw [hk, List.map_map]
    simp [Function.comp_def, mergedProperty]
  | node s =>
    obtain rfl := Except.ok.inj h
    cases s with
    | struct a ps is => rfl
    | tuple a es r readonly =>
      have hindexes : List.range es.length = es.zipIdx.map Prod.snd := by
        rw [List.zipIdx_map_snd, List.range_eq_range']
      simp only [keys, nodeKeys, nodeProperties, hindexes, List.map_map]
      rfl
    | _ => rfl

/-- What holds of the keys at the ends of a spine holds of its keys. -/
theorem forall_keys {motive : Value → Prop} (node : ∀ s, p.Leads s → ∀ k ∈ nodeKeys s, motive k) {ks : List Value}
    (h : p.keys = .ok ks) : ∀ k ∈ ks, motive k := by
  induction p using membersInduction generalizing ks with
  | node s =>
    obtain rfl := Except.ok.inj h
    exact node s (.node s)
  | broken f => cases h
  | fork ms ih =>
    obtain ⟨kss, hkss, rfl⟩ := keys_fork_eq_ok_iff.mp h
    intro k hk
    cases kss with
    | nil => cases hk
    | cons first others =>
      obtain ⟨m, hm, hfirst⟩ := Lists.exists_of_mem_right hkss List.mem_cons_self
      exact ih m hm (fun s hs => node s (.fork hm hs)) hfirst k (mem_intersect.mp hk).1

/-- What holds of the types at the ends of a spine, and of canonical unions of such types, holds of the types of its
keys. -/
theorem forall_properties {motive : Schema → Prop}
    (node : ∀ s, p.Leads s → ∀ q ∈ nodeProperties s, motive q.type)
    (merged : ∀ ts, (∀ t ∈ ts, motive t) → motive (.oneOf ts .empty)) {qs : List (Property Schema)}
    (h : p.properties = .ok qs) : ∀ q ∈ qs, motive q.type := by
  induction p using membersInduction generalizing qs with
  | node s =>
    obtain rfl := Except.ok.inj h
    exact node s (.node s)
  | broken f => cases h
  | fork ms ih =>
    obtain ⟨pss, keys, hpss, _, rfl⟩ := properties_fork_eq_ok_iff.mp h
    intro q hq
    obtain ⟨key, _, rfl⟩ := List.mem_map.mp hq
    refine merged _ fun t ht => ?_
    obtain ⟨r, hr, rfl⟩ := List.mem_map.mp ht
    obtain ⟨ps, hps, hr⟩ := List.mem_flatten.mp (List.mem_of_mem_filter hr)
    obtain ⟨m, hm, hmp⟩ := Lists.exists_of_mem_right hpss hps
    exact ih m hm (fun s hs => node s (.fork hm hs)) hmp r hr

end Spine

namespace Scope
variable {scope : Scope} {s t : Schema}

def unfolding (scope : Scope) (parts : Schema → List Schema) : Schema → List Schema
  | .lazy _ handle => ((scope.force handle).toOption).toList
  | s => parts s

theorem mem_unfolding_lazy {parts : Schema → List Schema} {a : Annotations} {h : Handle} :
    t ∈ scope.unfolding parts (.lazy a h) ↔ scope.force h = .ok t := by
  simp only [unfolding, Option.mem_toList]
  cases scope.force h <;> simp [Except.toOption]

/-- The schemas met when wrappers are looked through, the first one included. -/
def Behind (scope : Scope) : Schema → Schema → Prop :=
  Relation.ReflTransGen fun s t => t ∈ scope.unfolding Schema.behind s

theorem mem_unfolding_behind (h : t ∈ s.behind) : t ∈ scope.unfolding Schema.behind s := by
  cases s with
  | lazy => cases h
  | _ => exact h

/-- What a spine leads to is met on the way, if it is so for lazy schemas. -/
theorem behind_of_leads {unfold : Handle → Spine} (hu : ∀ a h t, (unfold h).Leads t → scope.Behind (.lazy a h) t)
    (h : (s.spine unfold).Leads t) : scope.Behind s t := by
  induction s using Schema.heldInduction with
  | step s ih =>
    have wrapped {u : Schema} (hb : u ∈ s.behind) (hl : (u.spine unfold).Leads t) : scope.Behind s t :=
      .head (mem_unfolding_behind hb) (ih u (Schema.mem_held_of_behind hb) hl)
    cases s with
    | typeAlias a ps u => exact wrapped List.mem_cons_self h
    | refinement a u p => exact wrapped List.mem_cons_self h
    | transform a u v c => exact wrapped List.mem_cons_self h
    | lazy a handle => exact hu a handle t h
    | union a ss =>
      rw [Schema.spine_union] at h
      cases h with
      | fork hm h =>
        obtain ⟨u, hus, rfl⟩ := List.mem_map.mp hm
        exact wrapped hus h
    | _ =>
      cases h
      exact .refl

theorem behind_of_leads_unfoldSpine {n : Nat} {a : Annotations} {h : Handle}
    (hl : (scope.unfoldSpine n h).Leads t) : scope.Behind (.lazy a h) t := by
  induction n generalizing a h t with
  | zero => cases hl
  | succ n ih =>
    rw [unfoldSpine] at hl
    cases hf : scope.force h with
    | error f =>
      rw [hf] at hl
      cases hl
    | ok u =>
      rw [hf] at hl
      exact .head (mem_unfolding_lazy.mpr hf) (behind_of_leads (fun _ _ _ => ih) hl)

/-- What is at an end of the spine is met when wrappers are looked through. -/
theorem behind_of_leads_spine (h : (scope.spine s).Leads t) : scope.Behind s t :=
  behind_of_leads (fun _ _ _ => behind_of_leads_unfoldSpine) h

end Scope
end Schemata
