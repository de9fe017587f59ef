import Schemata.Proofs.Decode.Combinators
import Schemata.Proofs.Lists
import Schemata.Proofs.Schema.Parts
import Schemata.Schema.Equality
import Schemata.Schema.Rank

/-!
Equality of schemas, read off node by node. What equal schemas share besides their children is their kind and whatever
decoding reads of a node; annotations and the parameters of an alias play no part in it.
-/
namespace Schemata

def Span.Agree (s t : Span) : Prop :=
  s.slot = t.slot ∧ s.literal = t.literal

theorem Span.equals_iff {s t : Span} :
    s.equals t ↔ s.slot = t.slot ∧ s.annotations.equals t.annotations ∧ s.literal = t.literal := by
  simp only [equals, Bool.and_eq_true, beq_iff_eq, and_assoc]

theorem Span.agree_of_equals {s t : Span} (h : s.equals t) : s.Agree t := by
  rw [equals_iff] at h
  exact ⟨h.1, h.2.2⟩

def PairMatches (p q : String × Value) : Prop :=
  p.1 = q.1 ∧ p.2.equals q.2

theorem equalSpans_iff {ss ts : List Span} : equalSpans ss ts ↔ List.Forall₂ (fun s t => s.equals t) ss ts := by
  induction ss generalizing ts with
  | nil => cases ts <;> simp [equalSpans]
  | cons s ss ih => cases ts <;> simp [equalSpans, ih]

theorem equalPairs_iff {ps qs : List (String × Value)} : equalPairs ps qs ↔ List.Forall₂ PairMatches ps qs := by
  induction ps generalizing qs with
  | nil => cases qs <;> simp [equalPairs]
  | cons p ps ih => cases qs <;> simp [equalPairs, ih, PairMatches]

namespace Schema

def PropertyAlike (same : Schema → Schema → Prop) (p q : Property Schema) : Prop :=
  p.name.equals q.name ∧ p.optional = q.optional ∧ same p.type q.type

def IndexAlike (same : Schema → Schema → Prop) (i j : IndexSignature Schema) : Prop :=
  same i.parameter j.parameter ∧ same i.type j.type

/-- How two schemas can be equal when their children are compared by `same`. -/
inductive Alike (same : Schema → Schema → Prop) : Schema → Schema → Prop
  | typeAlias {a b : Annotations} {ps qs : List Schema} {s t : Schema} (h : same s t) :
      Alike same (typeAlias a ps s) (typeAlias b qs t)
  | literal {a b : Annotations} {x y : Scalar} (h : x.equals y) : Alike same (literal a x) (literal b y)
  | uniqueSymbol {a b : Annotations} (key : String) : Alike same (uniqueSymbol a key) (uniqueSymbol b key)
  | keyword {a b : Annotations} (word : Keyword) : Alike same (keyword a word) (keyword b word)
  | enums {a b : Annotations} {ps qs : List (String × Value)}
      (h : List.Forall₂ (fun p q => p.2.equals q.2) ps qs) : Alike same (enums a ps) (enums b qs)
  | template {a b : Annotations} (head : String) {s t : Span} {ss ts : List Span}
      (h : List.Forall₂ Span.Agree (s :: ss) (t :: ts)) :
      Alike same (template a head s ss) (template b head t ts)
  | tuple {a b : Annotations} {es fs : List (Element Schema)} {r q : Option (Rest Schema)} (readonly : Bool)
      (h : List.Forall₂ (Element.Agree same) es fs) (hr : Option.Rel (Rest.Agree same) r q) :
      Alike same (tuple a es r readonly) (tuple b fs q readonly)
  | struct {a b : Annotations} {ps qs : List (Property Schema)} {is js : List (IndexSignature Schema)}
      (hp : List.Forall₂ (PropertyAlike same) ps qs) (hi : List.Forall₂ (IndexAlike same) is js) :
      Alike same (struct a ps is) (struct b qs js)
  | union {a b : Annotations} {ss ts : List Schema} (h : List.Forall₂ same ss ts) :
      Alike same (union a ss) (union b ts)
  | lazy {a b : Annotations} (handle : Handle) : Alike same (lazy a handle) (lazy b handle)
  | refinement {a b : Annotations} {s t : Schema} (p : Predicate) (h : same s t) :
      Alike same (refinement a s p) (refinement b t p)
  | transform {a b : Annotations} {s t u v : Schema} (c : Conversion) (h : same s u) :
      Alike same (transform a s t c) (transform b u v c)

theorem equalLists_iff {ss ts : List Schema} : equalLists ss ts ↔ List.Forall₂ (fun s t => s.equals t) ss ts := by
  induction ss generalizing ts with
  | nil => cases ts <;> simp [equalLists]
  | cons s ss ih => cases ts <;> simp [equalLists, ih]

theorem agree_of_equalElements {es fs : List (Element Schema)} (h : equalElements es fs) :
    List.Forall₂ (Element.Agree fun s t => s.equals t) es fs := by
  induction es generalizing fs with
  | nil =>
    cases fs with
    | nil => exact .nil
    | cons f fs => simp [equalElements] at h
  | cons e es ih =>
    cases fs with
    | nil => simp [equalElements] at h
    | cons f fs =>
      simp only [equalElements, Bool.and_eq_true, beq_iff_eq] at h
      exact .cons ⟨h.1.2, h.1.1⟩ (ih h.2)

theorem agree_of_equalRests {r q : Option (Rest Schema)} (h : equalRests r q) :
    Option.Rel (Rest.Agree fun s t => s.equals t) r q := by
  cases r with
  | none =>
    cases q with
    | none => exact .none
    | some q => simp [equalRests] at h
  | some r =>
    cases q with
    | none => simp [equalRests] at h
    | some q =>
      simp only [equalRests, Bool.and_eq_true] at h
      exact .some ⟨h.1, equalLists_iff.mp h.2⟩

theorem alike_of_equalProperties {ps qs : List (Property Schema)} (h : equalProperties ps qs) :
    List.Forall₂ (PropertyAlike fun s t => s.equals t) ps qs := by
  induction ps generalizing qs with
  | nil =>
    cases qs with
    | nil => exact .nil
    | cons q qs => simp [equalProperties] at h
  | cons p ps ih =>
    cases qs with
    | nil => simp [equalProperties] at h
    | cons q qs =>
      simp only [equalProperties, Bool.and_eq_true, beq_iff_eq] at h
      obtain ⟨⟨⟨⟨⟨hn, ht⟩, ho⟩, _⟩, _⟩, hs⟩ := h
      exact .cons ⟨hn, ho, ht⟩ (ih hs)

theorem alike_of_equalIndexes {is js : List (IndexSignature Schema)} (h : equalIndexes is js) :
    List.Forall₂ (IndexAlike fun s t => s.equals t) is js := by
  induction is generalizing js with
  | nil =>
    cases js with
    | nil => exact .nil
    | cons j js => simp [equalIndexes] at h
  | cons i is ih =>
    cases js with
    | nil => simp [equalIndexes] at h
    | cons j js =>
      simp only [equalIndexes, Bool.and_eq_true] at h
      exact .cons ⟨h.1.1.1, h.1.1.2⟩ (ih h.2)

theorem alike_of_equals {s t : Schema} (h : s.equals t) : Alike (fun s t => s.equals t) s t := by
  cases s with
  | typeAlias a ps s =>
    unfold equals at h
    split at h
    · simp only [Bool.and_eq_true] at h
      exact .typeAlias h.2
    · cases h
  | literal a x =>
    unfold equals at h
    split at h
    · simp only [Bool.and_eq_true] at h
      exact .literal h.1
    · cases h
  | uniqueSymbol a key =>
    unfold equals at h
    split at h
    · simp only [Bool.and_eq_true, beq_iff_eq] at h
      obtain ⟨_, rfl⟩ := h
      exact .uniqueSymbol key
    · cases h
  | keyword a word =>
    unfold equals at h
    split at h
    · simp only [Bool.and_eq_true, beq_iff_eq] at h
      obtain ⟨rfl, _⟩ := h
      exact .keyword word
    · cases h
  | enums a ps =>
    unfold equals at h
    split at h
    · simp only [Bool.and_eq_true] at h
      exact .enums ((equalPairs_iff.mp h.2).imp fun _ _ hpq => hpq.2)
    · cases h
  | template a head s ss =>
    unfold equals at h
    split at h
    · simp only [Bool.and_eq_true, beq_iff_eq, equalSpans_iff] at h
      obtain ⟨⟨⟨_, rfl⟩, hs⟩, hss⟩ := h
      exact .template head (.cons (Span.agree_of_equals hs) (hss.imp fun _ _ => Span.agree_of_equals))
    · cases h
  | tuple a es r readonly =>
    unfold equals at h
    split at h
    · simp only [Bool.and_eq_true, beq_iff_eq] at h
      obtain ⟨⟨⟨_, he⟩, hr⟩, rfl⟩ := h
      exact .tuple readonly (agree_of_equalElements he) (agree_of_equalRests hr)
    · cases h
  | struct a ps is =>
    unfold equals at h
    split at h
    · simp only [Bool.and_eq_true] at h
      exact .struct (alike_of_equalProperties h.1.2) (alike_of_equalIndexes h.2)
    · cases h
  | union a ss =>
    unfold equals at h
    split at h
    · simp only [Bool.and_eq_true] at h
      exact .union (equalLists_iff.mp h.2)
    · cases h
  | lazy a handle =>
    unfold equals at h
    split at h
    · simp only [Bool.and_eq_true, beq_iff_eq] at h
      obtain ⟨_, rfl⟩ := h
      exact .lazy handle
    · cases h
  | refinement a s p =>
    unfold equals at h
    split at h
    · simp only [Bool.and_eq_true, beq_iff_eq] at h
      obtain ⟨⟨_, hs⟩, rfl⟩ := h
      exact .refinement p hs
    · cases h
  | transform a s t c =>
    unfold equals at h
    split at h
    · simp only [Bool.and_eq_true, beq_iff_eq] at h
      obtain ⟨⟨⟨_, hs⟩, _⟩, rfl⟩ := h
      exact .transform c hs
    · cases h

theorem totalWeight_congr {ss ts : List Schema} (h : ss.map weight = ts.map weight) :
    totalWeight ss = totalWeight ts := by
  induction ss generalizing ts with
  | nil =>
    rw [List.map_nil, eq_comm, List.map_eq_nil_iff] at h
    rw [h]
  | cons s ss ih =>
    cases ts with
    | nil => cases h
    | cons t ts =>
      obtain ⟨hw, hs⟩ := List.cons.inj h
      rw [totalWeight, totalWeight, hw, ih hs]

/-- Equal schemas have one weight. -/
theorem weight_eq_of_equals {s t : Schema} (h : s.equals t) : s.weight = t.weight := by
  induction s using childrenInduction generalizing t with
  | step s ih =>
    cases alike_of_equals h with
    | typeAlias hs =>
      rw [weight, weight]
      exact ih _ List.mem_cons_self hs
    | tuple readonly he hr =>
      have hsome : ∀ {r q : Option (Rest Schema)}, Option.Rel (Rest.Agree fun s t => s.equals t) r q →
          r.isSome = q.isSome := by
        rintro _ _ (_ | _) <;> rfl
      rw [weight, weight, he.length_eq, hsome hr]
    | struct hp hi => rw [weight, weight, hp.length_eq, hi.length_eq]
    | union hs =>
      have hw : List.Forall₂ (· = ·) (List.map weight _) (List.map weight _) :=
        Lists.forall₂_map hs fun s hs t _ hst => ih s hs hst
      rw [List.forall₂_eq_eq_eq] at hw
      rw [weight, weight, totalWeight_congr hw]
    | _ => rfl

/-- Equal lists of schemas have one list of weights. -/
theorem weights_eq_of_equals {ss ts : List Schema} (h : List.Forall₂ (fun s t => s.equals t) ss ts) :
    ss.map weight = ts.map weight := by
  have hw : List.Forall₂ (· = ·) (ss.map weight) (ts.map weight) :=
    Lists.forall₂_map h fun _ _ _ _ hst => weight_eq_of_equals hst
  rwa [List.forall₂_eq_eq_eq] at hw

theorem isKeyword_eq_of_equals {s t : Schema} (h : s.equals t) (word : Keyword) :
    s.isKeyword word = t.isKeyword word := by
  cases alike_of_equals h <;> rfl

end Schema
end Schemata
