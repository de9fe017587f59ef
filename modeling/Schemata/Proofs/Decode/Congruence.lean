import Schemata.Proofs.Decode.Fuel
import Schemata.Proofs.Schema.Equality
import Schemata.Proofs.Value.Literal

/-!
Equal schemas run alike. Where neither puts a boolean in the place of a number, as a name or as an enumerated value, two
equal schemas come to outcomes of one kind with one value and equally many problems; only the wording of problems can
differ, because equality of annotations compares examples as values. Names that are texts, integers or symbols and
enumerated values that are texts or numbers meet the condition by themselves.
-/
namespace Schemata

/-- Whether a value can name a declared key: of such values, equal ones are the same. -/
def Value.isName : Value → Bool
  | text _ | int _ | symbol _ => true
  | _ => false

theorem Value.eq_of_isName {v w : Value} (hv : v.isName) (hw : w.isName) (h : v.equals w) : v = w := by
  have he := (equalsUpTo_iff v w).mp h
  cases he with
  | text | symbol => rfl
  | number hm hn he =>
    cases v <;> simp [isName, numeral?] at hv hm
    cases w <;> simp [isName, numeral?] at hw hn
    subst hm hn
    rw [(Numeral.equals_int _ _).mp he]
  | mapping hm => cases v <;> simp [isName, entries?] at hv hm
  | _ => cases hv

theorem Value.equals_self_of_isName {v : Value} (hv : v.isName) : v.equals v := by
  cases v with
  | text | symbol => simp [equals, equalsUpTo]
  | int n =>
    simp only [equals, equalsUpTo, numeral?]
    exact (Numeral.equals_int n n).mpr rfl
  | _ => cases hv

def Value.isKey : Value → Bool
  | bool _ => true
  | v => v.isName

theorem Value.isKey_iff {v : Value} : v.isKey ↔ v.isName ∨ ∃ b, v = .bool b := by
  cases v <;> simp [isKey, isName]

theorem Value.isBoolean_of_isName {v : Value} (h : v.isName) : v.isBoolean = false := by
  cases v <;> first | rfl | cases h

/-- Equal keys are the same, unless one is a boolean and the other a number. -/
theorem Value.eq_of_isKey {v w : Value} (hv : v.isKey) (hw : w.isKey) (hb : v.isBoolean = w.isBoolean)
    (h : v.equals w) : v = w := by
  rcases isKey_iff.mp hv with hv | ⟨b, rfl⟩ <;> rcases isKey_iff.mp hw with hw | ⟨c, rfl⟩
  · exact eq_of_isName hv hw h
  · rw [isBoolean_of_isName hv] at hb
    cases hb
  · rw [isBoolean_of_isName hw] at hb
    cases hb
  · have he : Numeral.equals (.int (if b then 1 else 0)) (.int (if c then 1 else 0)) := h
    rw [Numeral.equals_int] at he
    cases b <;> cases c <;> simp at he ⊢

/-- Names and enumerated values are of the kinds that equality of schemas can tell apart. -/
def Schema.Conventional : Schema → Prop
  | enums _ pairs => ∀ p ∈ pairs, p.2.isText ∨ p.2.isNumber
  | struct _ properties _ => ∀ p ∈ properties, p.name.isName
  | _ => True

/-- Two nodes compare no boolean with a number, neither as names nor as enumerated values. -/
def Schema.Unmixed : Schema → Schema → Prop
  | enums _ ps, enums _ qs => ∀ pq ∈ ps.zip qs, pq.1.2.hashable ∧ pq.1.2.isBoolean = pq.2.2.isBoolean
  | struct _ ps _, struct _ qs _ =>
    ∀ pq ∈ ps.zip qs, pq.1.name.isKey ∧ pq.2.name.isKey ∧ pq.1.name.isBoolean = pq.2.name.isBoolean
  | _, _ => True

def Schema.UnmixedThroughout (s t : Schema) : Prop :=
  ∀ u v, s.Facing t u v → u.Unmixed v

theorem Value.hashable_of_listed {v : Value} (h : v.isText ∨ v.isNumber) : v.hashable := by
  cases v <;> simp [isText, isNumber, number?] at h <;> rfl

theorem Value.isBoolean_of_listed {v : Value} (h : v.isText ∨ v.isNumber) : v.isBoolean = false := by
  rcases h with h | h
  · cases v <;> first | rfl | cases h
  · obtain ⟨n, hn⟩ := Option.isSome_iff_exists.mp h
    simp [isBoolean, boolean?_of_number hn]

theorem Schema.Conventional.unmixed {s t : Schema} (hs : s.Conventional) (ht : t.Conventional) : s.Unmixed t := by
  cases s <;> cases t <;> try trivial
  · intro pq hpq
    have hp := hs _ (List.of_mem_zip hpq).1
    have hq := ht _ (List.of_mem_zip hpq).2
    refine ⟨Value.hashable_of_listed hp, ?_⟩
    rw [Value.isBoolean_of_listed hp, Value.isBoolean_of_listed hq]
  · intro pq hpq
    have hp := hs _ (List.of_mem_zip hpq).1
    have hq := ht _ (List.of_mem_zip hpq).2
    refine ⟨Value.isKey_iff.mpr (.inl hp), Value.isKey_iff.mpr (.inl hq), ?_⟩
    rw [Value.isBoolean_of_isName hp, Value.isBoolean_of_isName hq]

namespace Template

theorem remaindersOfAll_agree {ss ts : List Span} (h : List.Forall₂ Span.Agree ss ts) (rs : List (List Char)) :
    remaindersOfAll ss rs = remaindersOfAll ts rs := by
  induction h generalizing rs with
  | nil => rfl
  | @cons s t ss ts hst _ ih =>
    have hr : remainders s = remainders t := by
      funext cs
      rw [remainders, remainders, hst.1, hst.2]
    rw [remaindersOfAll, remaindersOfAll, hr, ih]

theorem accepts_agree {ss ts : List Span} (h : List.Forall₂ Span.Agree ss ts) (head s : String) :
    accepts head ss s = accepts head ts s := by
  unfold accepts
  split
  · rw [remaindersOfAll_agree h]
  · rfl

end Template

namespace Scope
variable {scope : Scope}

theorem mismatch_agree (a b : Annotations) (p q : String) (v : Value) :
    (scope.mismatch a p v).Rel .indifference (scope.mismatch b q v) :=
  .failure (.cons trivial .nil)

theorem mismatch_rel {q : ProblemRelation} (hq : q.IgnoresMessages) (scope scope' : Scope) (a b : Annotations)
    (predicate : String) (v : Value) : (scope.mismatch a predicate v).Rel q (scope'.mismatch b predicate v) :=
  .failure (.cons (hq.mismatch _ _ _ _) .nil)

/-- A keyword reads nothing of its annotations but the message. -/
theorem parseKeyword_rel {q : ProblemRelation} (hq : q.IgnoresMessages) (scope scope' : Scope) (direction : Direction)
    (a b : Annotations) (word : Keyword) (v : Value) :
    (scope.parseKeyword direction a word v).Rel q (scope'.parseKeyword direction b word v) := by
  unfold parseKeyword
  split
  · unfold decodeBigint
    split
    · exact .success _
    · split
      · split
        · exact .success _
        · exact .failure (.cons (hq.conversion _ _ _ _ _) .nil)
      · exact mismatch_rel hq scope scope' a b _ v
  · unfold encodeBigint
    split
    · exact .success _
    · exact mismatch_rel hq scope scope' a b _ v
  · unfold parsePlainKeyword
    split
    · exact .refl _ _
    · exact mismatch_rel hq scope scope' a b _ v

theorem parseLiteral_agree {x y : Scalar} (h : x.equals y) (a b : Annotations) (v : Value) :
    (scope.parseLiteral a x v).Rel .indifference (scope.parseLiteral b y v) :=
  .ite (Scalar.literalEquals_congr h v) (mismatch_agree a b _ _ v) v

/-- Enumerations that compare no boolean with a number list the same values where they are equal. -/
theorem parseEnums_agree {a b : Annotations} {ps qs : List (String × Value)}
    (h : List.Forall₂ (fun p q => p.2.equals q.2) ps qs) (hu : (Schema.enums a ps).Unmixed (.enums b qs)) (v : Value) :
    (scope.parseEnums a ps v).Rel .indifference (scope.parseEnums b qs v) := by
  have hany : (ps.any fun p => v.literalEquals p.2) = qs.any fun q => v.literalEquals q.2 := by
    refine Lists.any_eq_any_of_forall₂ (Lists.forall₂_zip h) ?_
    rintro p q ⟨hpq, he⟩
    obtain ⟨hh, hb⟩ := hu (p, q) hpq
    exact Value.literalEquals_congr hh (Value.literalEquals_of_equals hh hb he) v
  exact .ite hany (mismatch_agree a b _ _ v) v

theorem parseTemplate_agree {ss ts : List Span} (h : List.Forall₂ Span.Agree ss ts) (a b : Annotations)
    (head : String) (v : Value) :
    (scope.parseTemplate a head ss v).Rel .indifference (scope.parseTemplate b head ts v) := by
  cases v with
  | text s => exact .ite (Template.accepts_agree h head s) (mismatch_agree a b _ _ _) _
  | _ => exact mismatch_agree a b _ _ _

end Scope

section
variable {m n : Type → Type} [Monad m] [Monad n] [MonadLiftT (Except Fault) m]
  [MonadLiftT (Except Fault) n]

/-- Parsers of equal schemas agree when the parsers of lazy schemas do. -/
theorem Schema.parser_agree_of_equals (r : Relator m n) (scope : Scope) (direction : Direction)
    {unfold : Handle → Parser m} {unfold' : Handle → Parser n}
    (hu : ∀ handle, r.Agree .indifference (unfold handle) (unfold' handle)) {s t : Schema} (h : s.equals t)
    (hst : s.UnmixedThroughout t) :
    r.Agree .indifference (s.parser scope direction unfold) (t.parser scope direction unfold') := by
  induction s using Schema.childrenInduction generalizing t with
  | step s ih =>
    -- Only the children at one place of both sides are compared further.
    have child {u v : Schema} (huv : (u, v) ∈ s.children.zip t.children) (h : u.equals v) :
        r.Agree .indifference (u.parser scope direction unfold) (v.parser scope direction unfold') :=
      ih u (List.of_mem_zip huv).1 h fun w w' hw => hst w w' (.inside huv hw)
    have hnode : s.Unmixed t := hst s t (.here s t)
    cases Schema.alike_of_equals h with
    | literal hx => exact fun v => r.pure (Scope.parseLiteral_agree hx _ _ v)
    | uniqueSymbol key => exact fun v => r.pure (.ite rfl (Scope.mismatch_agree _ _ _ _ v) v)
    | keyword word => exact fun v => r.pure (Scope.parseKeyword_rel ProblemRelation.ignoresMessages_indifference ..)
    | enums hx => exact fun v => r.pure (Scope.parseEnums_agree hx hnode v)
    | template head hx => exact fun v => r.pure (Scope.parseTemplate_agree hx _ _ head v)
    | typeAlias hx => simpa only [Schema.parser] using child List.mem_cons_self hx
    | lazy handle => exact hu handle
    | refinement p hx =>
      simp only [Schema.parser]
      exact Refinement.parse_agree rfl (fun _ => .failure (.cons trivial .nil)) (child List.mem_cons_self hx)
    | transform c hx =>
      simp only [Schema.parser]
      exact Transform.parse_agree rfl (child List.mem_cons_self hx)
    | union hx =>
      rw [Schema.parser_union, Schema.parser_union, Schema.weights_eq_of_equals hx]
      exact Union.parse_agree (Lists.forall₂_map (Lists.forall₂_zip hx) fun u _ v _ huv => child huv.1 huv.2) _
    | tuple readonly he hr =>
      rw [Schema.parser_tuple, Schema.parser_tuple]
      refine Tuple.parse_agree (fun v => Scope.mismatch_agree _ _ _ _ v) ?_ ?_
      · refine Lists.forall₂_map (Lists.forall₂_zip he) fun e _ f _ hef => ⟨hef.2.1, ?_⟩
        exact child (Schema.zip_children_of_element hef.1) hef.2.2
      · cases hr with
        | none => exact .none
        | some hr =>
          have run {u v : Schema} (huv : (u, v) ∈ (Rest.toList _).zip (Rest.toList _)) (h : u.equals v) :=
            child (Schema.zip_children_of_rest he.length_eq huv) h
          refine .some ⟨run List.mem_cons_self hr.1, ?_⟩
          exact Lists.forall₂_map (Lists.forall₂_zip hr.2) fun u _ v _ huv =>
            run (List.mem_cons_of_mem _ huv.1) huv.2
    | struct hp hi =>
      rw [Schema.parser_struct, Schema.parser_struct]
      refine Struct.parse_agree (fun v => Scope.mismatch_agree _ _ _ _ v) ?_ ?_
      · apply Lists.forall₂_map (Lists.forall₂_zip hp)
        rintro p _ q _ ⟨hpq, hname, hoptional, htype⟩
        obtain ⟨hk, hk', hb⟩ := hnode (p, q) hpq
        refine ⟨Value.eq_of_isKey hk hk' hb hname, hoptional, ?_⟩
        exact child (Schema.zip_children_of_property hpq) htype
      · refine Lists.forall₂_map (Lists.forall₂_zip hi) ?_
        rintro i _ j _ ⟨hij, hparameter, htype⟩
        obtain ⟨hfirst, hsecond⟩ := Schema.zip_children_of_index hp.length_eq hij
        exact ⟨Schema.isKeyword_eq_of_equals hparameter .symbol, child hfirst hparameter, child hsecond htype⟩

end

namespace Relator

def exact : Relator (Except Fault) (Except Fault) where
  rel := Except.Rel
  pure h := .ok h
  bind hx hf := by
    cases hx with
    | ok h => exact hf _ _ h
    | error f => exact .error f
  lift h := h

end Relator

namespace Scope
variable {scope : Scope} {direction : Direction}

/-- Equal schemas run to outcomes that differ in the wording of problems only, or to the same fault, unless one has a
boolean where the other has a number. -/
theorem run_agree_of_unmixed {s t : Schema} (h : s.equals t) (hst : s.UnmixedThroughout t) (n : Nat) (v : Value) :
    Except.Rel (Outcome.Rel .indifference) (scope.run direction n s v) (scope.run direction n t v) := by
  have hu (handle : Handle) :
      Relator.exact.Agree .indifference (scope.unfold direction n handle) (scope.unfold direction n handle) :=
    fun w => .refl (Outcome.Rel.refl _) (scope.unfold direction n handle w)
  exact Schema.parser_agree_of_equals Relator.exact scope direction hu h hst v

/-- Where no part has names or enumerated values that equality cannot tell apart, no place compares a boolean with a
number. -/
theorem unmixedThroughout_of_parts {s t : Schema} (hs : ∀ u, scope.Part s u → u.Conventional)
    (ht : ∀ u, scope.Part t u → u.Conventional) : s.UnmixedThroughout t := by
  intro u v hf
  induction hf with
  | here s t => exact (hs s (.refl scope s)).unmixed (ht t (.refl scope t))
  | inside h _ ih =>
    have hmem := List.of_mem_zip h
    exact ih (fun w hw => hs w ((Part.child hmem.1).trans hw)) fun w hw => ht w ((Part.child hmem.2).trans hw)

theorem run_agree_of_equals {s t : Schema} (h : s.equals t) (hs : ∀ u, scope.Part s u → u.Conventional)
    (ht : ∀ u, scope.Part t u → u.Conventional) (n : Nat) (v : Value) :
    Except.Rel (Outcome.Rel .indifference) (scope.run direction n s v) (scope.run direction n t v) :=
  run_agree_of_unmixed h (unmixedThroughout_of_parts hs ht) n v

end Scope
end Schemata
