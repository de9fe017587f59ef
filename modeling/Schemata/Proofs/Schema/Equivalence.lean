import Schemata.Proofs.Schema.Equality
import Schemata.Proofs.Value.Literal
import Schemata.Proofs.Value.Orderly

/-!
Equality of schemas as a relation. Two schemas are equal when their nodes match and what they hold is equal place by
place; so equality is transitive, symmetric where the values that stand in a schema can be compared either way, and
reflexive where none of them is not-a-number.
-/
namespace Schemata

namespace Annotations
variable {a b c : Annotations}

theorem equals_iff : a.equals b ↔ a.identifier = b.identifier ∧ a.title = b.title ∧ a.description = b.description ∧
    a.message = b.message ∧ a.label = b.label ∧ equalExamples a.examples b.examples := by
  simp only [equals, Bool.and_eq_true, beq_iff_eq, and_assoc]

theorem equalExamples_iff {x y : Option Value} : equalExamples x y ↔ Option.Rel (fun v w => v.equals w) x y := by
  cases x <;> cases y <;> simp [equalExamples]

theorem equalExamples_trans {x y z : Option Value} (h : equalExamples x y) (k : equalExamples y z) :
    equalExamples x z := by
  rw [equalExamples_iff] at h k ⊢
  cases h with
  | none => exact k
  | some hv =>
    cases k with
    | some kv => exact .some (Value.equals_trans hv kv)

theorem equalExamples_symm {x y : Option Value} (hx : ∀ v ∈ x, v.orderly) (h : equalExamples x y) :
    equalExamples y x := by
  rw [equalExamples_iff] at h ⊢
  cases h with
  | none => exact .none
  | some hv => exact .some (Value.equals_symm_of_orderly (hx _ rfl) hv)

theorem equals_trans (h : a.equals b) (k : b.equals c) : a.equals c := by
  rw [equals_iff] at h k ⊢
  obtain ⟨hi, ht, hd, hm, hl, he⟩ := h
  obtain ⟨ki, kt, kd, km, kl, ke⟩ := k
  exact ⟨hi.trans ki, ht.trans kt, hd.trans kd, hm.trans km, hl.trans kl, equalExamples_trans he ke⟩

theorem equals_symm (ha : ∀ v ∈ a.examples, v.orderly) (h : a.equals b) : b.equals a := by
  rw [equals_iff] at h ⊢
  obtain ⟨hi, ht, hd, hm, hl, he⟩ := h
  exact ⟨hi.symm, ht.symm, hd.symm, hm.symm, hl.symm, equalExamples_symm ha he⟩

theorem equals_self (ha : ∀ v ∈ a.examples, v.equals v) : a.equals a := by
  refine equals_iff.mpr ⟨rfl, rfl, rfl, rfl, rfl, equalExamples_iff.mpr ?_⟩
  cases hx : a.examples with
  | none => exact .none
  | some v => exact .some (ha v hx)

end Annotations

namespace Scalar
variable {x y z : Scalar}

theorem equals_trans (h : x.equals y) (k : y.equals z) : x.equals z := by
  simp only [equals, Bool.and_eq_true, beq_iff_eq] at h k ⊢
  exact ⟨h.1.trans k.1, Value.equals_trans h.2 k.2⟩

theorem equals_symm (h : x.equals y) : y.equals x := by
  simp only [equals, Bool.and_eq_true, beq_iff_eq] at h ⊢
  exact ⟨h.1.symm, Value.equals_symm x.hashable_value h.2⟩

end Scalar

namespace Span
variable {s t u : Span}

theorem equals_trans (h : s.equals t) (k : t.equals u) : s.equals u := by
  rw [equals_iff] at h k ⊢
  exact ⟨h.1.trans k.1, Annotations.equals_trans h.2.1 k.2.1, h.2.2.trans k.2.2⟩

theorem equals_symm (hs : ∀ v ∈ s.annotations.examples, v.orderly) (h : s.equals t) : t.equals s := by
  rw [equals_iff] at h ⊢
  exact ⟨h.1.symm, Annotations.equals_symm hs h.2.1, h.2.2.symm⟩

end Span

def PropertyMatches (p q : Property Schema) : Prop :=
  p.name.equals q.name ∧ p.optional = q.optional ∧ p.readonly = q.readonly ∧ p.annotations.equals q.annotations

namespace Schema
variable {s t u : Schema}

def Matches : Schema → Schema → Prop
  | typeAlias a _ _, typeAlias b _ _ => a.equals b
  | literal a x, literal b y => a.equals b ∧ x.equals y
  | uniqueSymbol a k, uniqueSymbol b l => a.equals b ∧ k = l
  | keyword a w, keyword b x => a.equals b ∧ w = x
  | enums a ps, enums b qs => a.equals b ∧ List.Forall₂ PairMatches ps qs
  | template a h s ss, template b i t ts =>
    a.equals b ∧ h = i ∧ List.Forall₂ (fun s t => s.equals t) (s :: ss) (t :: ts)
  | tuple a es r o, tuple b fs q p =>
    a.equals b ∧ List.Forall₂ (fun e f => e.optional = f.optional) es fs ∧ r.isSome = q.isSome ∧ o = p
  | struct a ps is, struct b qs js =>
    a.equals b ∧ List.Forall₂ PropertyMatches ps qs ∧ List.Forall₂ (fun i j => i.readonly = j.readonly) is js
  | union a _, union b _ => a.equals b
  | lazy a h, lazy b i => a.equals b ∧ h = i
  | refinement a _ p, refinement b _ q => a.equals b ∧ p = q
  | transform a _ _ c, transform b _ _ d => a.equals b ∧ c = d
  | _, _ => False

theorem equalElements_iff {es fs : List (Element Schema)} : equalElements es fs ↔
    List.Forall₂ (fun e f => e.optional = f.optional) es fs ∧
      List.Forall₂ (fun s t => s.equals t) (es.map fun e => e.type) (fs.map fun f => f.type) := by
  induction es generalizing fs with
  | nil => cases fs <;> simp [equalElements]
  | cons e es ih =>
    cases fs with
    | nil => simp [equalElements]
    | cons f fs =>
      simp only [equalElements, Bool.and_eq_true, beq_iff_eq, ih, List.map_cons, List.forall₂_cons]
      tauto

theorem equalRests_iff {r q : Option (Rest Schema)} : equalRests r q ↔ r.isSome = q.isSome ∧
    List.Forall₂ (fun s t => s.equals t) ((r.map Rest.toList).getD []) ((q.map Rest.toList).getD []) := by
  cases r <;> cases q <;> simp [equalRests, equalLists_iff, Rest.toList]

theorem equalProperties_iff {ps qs : List (Property Schema)} : equalProperties ps qs ↔
    List.Forall₂ PropertyMatches ps qs ∧
      List.Forall₂ (fun s t => s.equals t) (ps.map fun p => p.type) (qs.map fun q => q.type) := by
  induction ps generalizing qs with
  | nil => cases qs <;> simp [equalProperties]
  | cons p ps ih =>
    cases qs with
    | nil => simp [equalProperties]
    | cons q qs =>
      simp only [equalProperties, Bool.and_eq_true, beq_iff_eq, ih, List.map_cons, List.forall₂_cons, PropertyMatches]
      tauto

theorem equalIndexes_iff {is js : List (IndexSignature Schema)} : equalIndexes is js ↔
    List.Forall₂ (fun i j => i.readonly = j.readonly) is js ∧ List.Forall₂ (fun s t => s.equals t)
      (is.flatMap fun i => [i.parameter, i.type]) (js.flatMap fun j => [j.parameter, j.type]) := by
  induction is generalizing js with
  | nil => cases js <;> simp [equalIndexes]
  | cons i is ih =>
    cases js with
    | nil => simp [equalIndexes]
    | cons j js =>
      simp only [equalIndexes, Bool.and_eq_true, beq_iff_eq, ih, List.flatMap_cons, List.cons_append, List.nil_append,
        List.forall₂_cons]
      tauto

/-- Schemas are equal when their nodes match and they hold equal schemas at the same places. -/
theorem equals_iff : s.equals t ↔ s.Matches t ∧ List.Forall₂ (fun u v => u.equals v) s.held t.held := by
  cases s with
  | typeAlias a ps s =>
    cases t with
    | typeAlias b qs t =>
      simp only [equals, Matches, held, Bool.and_eq_true, equalLists_iff, and_assoc]
      refine and_congr_right fun _ => ⟨fun h => List.rel_append h.1 (.cons h.2 .nil), fun h => ?_⟩
      have hl : ps.length = qs.length := by simpa using h.length_eq
      obtain ⟨hps, hst⟩ := (Lists.forall₂_append_iff hl).mp h
      exact ⟨hps, (List.forall₂_cons.mp hst).1⟩
    | _ => simp [equals, Matches]
  | tuple a es r o =>
    cases t with
    | tuple b fs q p =>
      simp only [equals, Matches, held, children, Bool.and_eq_true, beq_iff_eq, equalElements_iff, equalRests_iff]
      constructor
      · rintro ⟨⟨⟨ha, ho, ht⟩, hr, hrt⟩, rfl⟩
        exact ⟨⟨ha, ho, hr, rfl⟩, List.rel_append ht hrt⟩
      · rintro ⟨⟨ha, ho, hr, rfl⟩, h⟩
        obtain ⟨ht, hrt⟩ := (Lists.forall₂_append_iff (by simpa using ho.length_eq)).mp h
        exact ⟨⟨⟨ha, ho, ht⟩, hr, hrt⟩, rfl⟩
    | _ => simp [equals, Matches]
  | struct a ps is =>
    cases t with
    | struct b qs js =>
      simp only [equals, Matches, held, children, Bool.and_eq_true, equalProperties_iff, equalIndexes_iff]
      constructor
      · rintro ⟨⟨ha, hp, ht⟩, hi, hit⟩
        exact ⟨⟨ha, hp, hi⟩, List.rel_append ht hit⟩
      · rintro ⟨⟨ha, hp, hi⟩, h⟩
        obtain ⟨ht, hit⟩ := (Lists.forall₂_append_iff (by simpa using hp.length_eq)).mp h
        exact ⟨⟨ha, hp, ht⟩, hi, hit⟩
    | _ => simp [equals, Matches]
  | literal | uniqueSymbol | keyword | enums | template | union | lazy | refinement | transform =>
    cases t <;> simp [equals, Matches, held, children, equalLists_iff, equalPairs_iff, equalSpans_iff] <;> tauto

theorem Matches.trans (h : s.Matches t) (k : t.Matches u) : s.Matches u := by
  -- Nodes of different kinds do not match.
  cases s <;> cases t <;> try exact h.elim
  all_goals cases u <;> try exact k.elim
  case typeAlias | union => exact Annotations.equals_trans h k
  case uniqueSymbol | keyword | lazy | refinement | transform =>
    exact ⟨Annotations.equals_trans h.1 k.1, h.2.trans k.2⟩
  case literal => exact ⟨Annotations.equals_trans h.1 k.1, Scalar.equals_trans h.2 k.2⟩
  case enums =>
    refine ⟨Annotations.equals_trans h.1 k.1, Lists.forall₂_trans h.2 k.2 fun _ _ _ _ hpq hqr => ?_⟩
    exact ⟨hpq.1.trans hqr.1, Value.equals_trans hpq.2 hqr.2⟩
  case template =>
    exact ⟨Annotations.equals_trans h.1 k.1, h.2.1.trans k.2.1,
      Lists.forall₂_trans h.2.2 k.2.2 fun _ _ _ _ => Span.equals_trans⟩
  case tuple =>
    exact ⟨Annotations.equals_trans h.1 k.1, Lists.forall₂_trans h.2.1 k.2.1 fun _ _ _ _ => Eq.trans,
      h.2.2.1.trans k.2.2.1, h.2.2.2.trans k.2.2.2⟩
  case struct =>
    refine ⟨Annotations.equals_trans h.1 k.1, Lists.forall₂_trans h.2.1 k.2.1 fun _ _ _ _ hpq hqr => ?_,
      Lists.forall₂_trans h.2.2 k.2.2 fun _ _ _ _ => Eq.trans⟩
    obtain ⟨hn, ho, hr, ha⟩ := hpq
    obtain ⟨kn, ko, kr, ka⟩ := hqr
    exact ⟨Value.equals_trans hn kn, ho.trans ko, hr.trans kr, Annotations.equals_trans ha ka⟩

/-- Equality of schemas is transitive. -/
theorem equals_trans (h : s.equals t) (k : t.equals u) : s.equals u := by
  induction s using heldInduction generalizing t u with
  | step s ih =>
    rw [equals_iff] at h k ⊢
    exact ⟨h.1.trans k.1, Lists.forall₂_trans h.2 k.2 fun _ hm _ _ => ih _ hm⟩

def values : Schema → List Value
  | enums a pairs => a.examples.toList ++ pairs.map Prod.snd
  | template a _ first more => a.examples.toList ++ (first :: more).flatMap fun s => s.annotations.examples.toList
  | struct a properties _ =>
    a.examples.toList ++ properties.flatMap fun p => p.name :: p.annotations.examples.toList
  | s => s.annotations.examples.toList

/-- The values that stand in a schema can be compared either way. -/
inductive Orderly : Schema → Prop
  | intro {s : Schema} (node : ∀ v ∈ s.values, v.orderly) (held : ∀ t ∈ s.held, Orderly t) : Orderly s

theorem mem_values_of_examples {v : Value} (h : v ∈ s.annotations.examples) : v ∈ s.values := by
  have hlist : v ∈ s.annotations.examples.toList := Option.mem_toList.mpr h
  cases s <;> first | exact hlist | exact List.mem_append_left _ hlist

theorem Matches.symm (hs : ∀ v ∈ s.values, v.orderly) (h : s.Matches t) : t.Matches s := by
  have own : ∀ v ∈ s.annotations.examples, v.orderly := fun v hv => hs v (mem_values_of_examples hv)
  cases s <;> cases t <;> try exact h.elim
  case typeAlias | union => exact Annotations.equals_symm own h
  case uniqueSymbol | keyword | lazy | refinement | transform => exact ⟨Annotations.equals_symm own h.1, h.2.symm⟩
  case literal => exact ⟨Annotations.equals_symm own h.1, Scalar.equals_symm h.2⟩
  case enums =>
    refine ⟨Annotations.equals_symm own h.1, Lists.forall₂_symm h.2 fun p hp q hpq => ?_⟩
    have hv := hs p.2 (List.mem_append_right _ (List.mem_map_of_mem hp))
    exact ⟨hpq.1.symm, Value.equals_symm_of_orderly hv hpq.2⟩
  case template =>
    refine ⟨Annotations.equals_symm own h.1, h.2.1.symm, Lists.forall₂_symm h.2.2 fun s hsm t => ?_⟩
    refine Span.equals_symm fun v hv => hs v (List.mem_append_right _ ?_)
    exact List.mem_flatMap.mpr ⟨s, hsm, Option.mem_toList.mpr hv⟩
  case tuple =>
    exact ⟨Annotations.equals_symm own h.1, Lists.forall₂_symm h.2.1 fun _ _ _ => Eq.symm, h.2.2.1.symm,
      h.2.2.2.symm⟩
  case struct =>
    refine ⟨Annotations.equals_symm own h.1, Lists.forall₂_symm h.2.1 fun p hp q hpq => ?_,
      Lists.forall₂_symm h.2.2 fun _ _ _ => Eq.symm⟩
    have held {v : Value} (hv : v ∈ p.name :: p.annotations.examples.toList) : v.orderly :=
      hs v (List.mem_append_right _ (List.mem_flatMap.mpr ⟨p, hp, hv⟩))
    obtain ⟨hn, ho, hr, ha⟩ := hpq
    refine ⟨Value.equals_symm_of_orderly (held List.mem_cons_self) hn, ho.symm, hr.symm, ?_⟩
    exact Annotations.equals_symm (fun v hv => held (List.mem_cons_of_mem _ (Option.mem_toList.mpr hv))) ha

/-- Equality with a schema whose values can be compared either way can be turned around. -/
theorem equals_symm (hs : s.Orderly) (h : s.equals t) : t.equals s := by
  induction s using heldInduction generalizing t with
  | step s ih =>
    obtain ⟨hnode, hheld⟩ := hs
    rw [equals_iff] at h ⊢
    exact ⟨h.1.symm hnode, Lists.forall₂_symm h.2 fun u hu _ => ih u hu (hheld u hu)⟩

def constants : Schema → List Value
  | literal a x => x.value :: a.examples.toList
  | s => s.values

inductive NanFree : Schema → Prop
  | intro {s : Schema} (node : ∀ v ∈ s.constants, v.nanFree) (held : ∀ t ∈ s.held, NanFree t) : NanFree s

theorem mem_constants_of_values {v : Value} (h : v ∈ s.values) : v ∈ s.constants := by
  cases s with
  | literal a x => exact List.mem_cons_of_mem _ h
  | _ => exact h

theorem Matches.refl (hs : ∀ v ∈ s.constants, v.equals v) : s.Matches s := by
  have own : s.annotations.equals s.annotations := by
    refine Annotations.equals_self fun v hv => hs v ?_
    exact mem_constants_of_values (mem_values_of_examples hv)
  cases s with
  | typeAlias | union => exact own
  | uniqueSymbol | keyword | lazy | refinement | transform => exact ⟨own, rfl⟩
  | literal a x =>
    refine ⟨own, ?_⟩
    simpa [Scalar.equals] using hs x.value List.mem_cons_self
  | enums a ps =>
    refine ⟨own, List.forall₂_same.mpr fun p hp => ⟨rfl, hs p.2 ?_⟩⟩
    exact List.mem_append_right _ (List.mem_map_of_mem hp)
  | template a h first more =>
    refine ⟨own, rfl, List.forall₂_same.mpr fun s hsm => ?_⟩
    refine Span.equals_iff.mpr ⟨rfl, Annotations.equals_self fun v hv => hs v ?_, rfl⟩
    exact List.mem_append_right _ (List.mem_flatMap.mpr ⟨s, hsm, Option.mem_toList.mpr hv⟩)
  | tuple a es r o => exact ⟨own, List.forall₂_same.mpr fun _ _ => rfl, rfl, rfl⟩
  | struct a ps is =>
    refine ⟨own, List.forall₂_same.mpr fun p hp => ?_, List.forall₂_same.mpr fun _ _ => rfl⟩
    have held {v : Value} (hv : v ∈ p.name :: p.annotations.examples.toList) : v.equals v :=
      hs v (List.mem_append_right _ (List.mem_flatMap.mpr ⟨p, hp, hv⟩))
    refine ⟨held List.mem_cons_self, rfl, rfl, Annotations.equals_self fun v hv => ?_⟩
    exact held (List.mem_cons_of_mem _ (Option.mem_toList.mpr hv))

theorem equals_self_of_nanFree (hs : s.NanFree) : s.equals s := by
  induction s using heldInduction with
  | step s ih =>
    obtain ⟨hnode, hheld⟩ := hs
    rw [equals_iff]
    refine ⟨.refl fun v hv => Value.equals_self_of_nanFree (hnode v hv), List.forall₂_same.mpr fun t ht => ?_⟩
    exact ih t ht (hheld t ht)

end Schema
end Schemata
