import Schemata.Proofs.Decode.Relation

/-!
Each way to put parsers together respects agreement: containers, unions, refinements and transforms.
-/
namespace Schemata

def Element.Agree {σ τ : Type} (P : σ → τ → Prop) (e : Element σ) (f : Element τ) : Prop :=
  e.optional = f.optional ∧ P e.type f.type

def Rest.Agree {σ τ : Type} (P : σ → τ → Prop) (r : Rest σ) (s : Rest τ) : Prop :=
  P r.head s.head ∧ List.Forall₂ P r.trailing s.trailing

def Property.Agree {σ τ : Type} (P : σ → τ → Prop) (p : Property σ) (q : Property τ) : Prop :=
  p.name = q.name ∧ p.optional = q.optional ∧ P p.type q.type

variable {m n : Type → Type}

def Struct.Index.Agree (P : Parser m → Parser n → Prop) (i : Index m) (j : Index n) : Prop :=
  i.symbols = j.symbols ∧ P i.parameter j.parameter ∧ P i.type j.type

inductive Step.Agree (P : Parser m → Parser n → Prop) : Step m → Step n → Prop
  | take (segment : Segment) {p : Parser m} {p' : Parser n} (h : P p p') (v : Value) :
      Agree P (.take segment p v) (.take segment p' v)
  | check (segment : Segment) {p : Parser m} {p' : Parser n} (h : P p p') (v : Value) :
      Agree P (.check segment p v) (.check segment p' v)
  | missing (segment : Segment) : Agree P (.missing segment) (.missing segment)
  | unexpected (segment : Segment) : Agree P (.unexpected segment) (.unexpected segment)

inductive Gathered.Rel (q : ProblemRelation) : Gathered → Gathered → Prop
  | stopped {p p' : Problem} (h : q.rel p p') : Rel q (.stopped p) (.stopped p')
  | kept (members : List (Segment × Value)) {ps qs : List Problem} (h : List.Forall₂ q.rel ps qs) :
      Rel q (.kept members ps) (.kept members qs)

theorem Gathered.Rel.keep {q : ProblemRelation} {g g' : Gathered} (h : g.Rel q g') (segment : Segment)
    (v : Value) : (g.keep segment v).Rel q (g'.keep segment v) := by
  cases h with
  | stopped h => exact .stopped h
  | kept members h => exact .kept _ h

theorem Gathered.Rel.warn {q : ProblemRelation} {g g' : Gathered} (h : g.Rel q g') {p p' : Problem}
    (hp : q.rel p p') : (g.warn p).Rel q (g'.warn p') := by
  cases h with
  | stopped h => exact .stopped h
  | kept members h => exact .kept members (.cons hp h)

section
variable {P : Parser m → Parser n → Prop}

theorem Tuple.positionSteps_agree {es : List (Element (Parser m))} {fs : List (Element (Parser n))}
    (h : List.Forall₂ (Element.Agree P) es fs) (i : Nat) (vs : List Value) :
    List.Forall₂ (Step.Agree P) (positionSteps i es vs) (positionSteps i fs vs) := by
  induction h generalizing i vs with
  | nil => exact .nil
  | cons h _ ih =>
    cases vs with
    | nil =>
      rw [positionSteps, positionSteps, h.1]
      split
      · exact ih (i + 1) []
      · exact .cons (.missing _) .nil
    | cons v vs => exact .cons (.take _ h.2 v) (ih (i + 1) vs)

theorem Tuple.runSteps_agree {p : Parser m} {p' : Parser n} (h : P p p') (i : Nat) (vs : List Value) :
    List.Forall₂ (Step.Agree P) (runSteps i p vs) (runSteps i p' vs) := by
  induction vs generalizing i with
  | nil => exact .nil
  | cons v vs ih => exact .cons (.take _ h v) (ih (i + 1))

theorem Tuple.trailingSteps_agree {ps : List (Parser m)} {ps' : List (Parser n)}
    (h : List.Forall₂ P ps ps') (i : Nat) (vs : List Value) :
    List.Forall₂ (Step.Agree P) (trailingSteps i ps vs) (trailingSteps i ps' vs) := by
  induction h generalizing i vs with
  | nil => exact .nil
  | cons h _ ih =>
    cases vs with
    | nil => exact .cons (.missing _) .nil
    | cons v vs => exact .cons (.take _ h v) (ih (i + 1) vs)

theorem Tuple.unexpectedSteps_agree (i : Nat) (vs : List Value) :
    List.Forall₂ (Step.Agree P) (unexpectedSteps i vs) (unexpectedSteps i vs) := by
  induction vs generalizing i with
  | nil => exact .nil
  | cons v vs ih => exact .cons (.unexpected _) (ih (i + 1))

theorem Tuple.steps_agree {es : List (Element (Parser m))} {fs : List (Element (Parser n))}
    {r : Option (Rest (Parser m))} {s : Option (Rest (Parser n))}
    (h : List.Forall₂ (Element.Agree P) es fs) (hr : Option.Rel (Rest.Agree P) r s) (vs : List Value) :
    List.Forall₂ (Step.Agree P) (steps es r vs) (steps fs s vs) := by
  rw [steps, steps, h.length_eq]
  apply List.rel_append (positionSteps_agree h 0 vs)
  cases hr with
  | none => exact unexpectedSteps_agree _ _
  | some hr =>
    simp only [restSteps, hr.2.length_eq]
    exact List.rel_append (runSteps_agree hr.1 _ _) (trailingSteps_agree hr.2 _ _)

theorem Struct.propertySteps_agree {p : Property (Parser m)} {p' : Property (Parser n)}
    (h : Property.Agree P p p') (es : Entries) :
    List.Forall₂ (Step.Agree P) (propertySteps es p) (propertySteps es p') := by
  obtain ⟨hn, ho, ht⟩ := h
  rw [propertySteps, propertySteps, hn, ho]
  split
  · exact .cons (.take _ ht _) .nil
  · split
    · exact .nil
    · exact .cons (.missing _) .nil

theorem Struct.claiming_agree {is : List (Index m)} {js : List (Index n)}
    (h : List.Forall₂ (Index.Agree P) is js) (key : Value) :
    List.Forall₂ (Index.Agree P) (is.filter fun i => i.claims key) (js.filter fun j => j.claims key) :=
  List.rel_filter (fun i j hij => by simp only [Index.claims, hij.1]) h

theorem Struct.entrySteps_agree {is : List (Index m)} {js : List (Index n)}
    (h : List.Forall₂ (Index.Agree P) is js) (declared : List Value) (e : Value × Value) :
    List.Forall₂ (Step.Agree P) (entrySteps declared is e) (entrySteps declared js e) := by
  rw [entrySteps, entrySteps]
  split
  · exact .nil
  · have hc := claiming_agree h e.1
    revert hc
    generalize is.filter (fun i => i.claims e.1) = cs
    generalize js.filter (fun j => j.claims e.1) = ds
    intro hc
    cases hc with
    | nil => exact .cons (.unexpected _) .nil
    | cons h hs =>
      apply List.rel_flatMap (.cons h hs)
      intro i j hij
      exact .cons (.check _ hij.2.1 _) (.cons (.take _ hij.2.2 _) .nil)

theorem Struct.steps_agree {ps : List (Property (Parser m))} {qs : List (Property (Parser n))}
    {is : List (Index m)} {js : List (Index n)} (hp : List.Forall₂ (Property.Agree P) ps qs)
    (hi : List.Forall₂ (Index.Agree P) is js) (es : Entries) :
    List.Forall₂ (Step.Agree P) (steps ps is es) (steps qs js es) := by
  have hn : ps.map (fun p => p.name) = qs.map fun p => p.name := by
    induction hp with
    | nil => rfl
    | cons h _ ih => simp [h.1, ih]
  rw [steps, steps, hn]
  apply List.rel_append (List.rel_flatMap hp fun p q h => propertySteps_agree h es)
  exact List.rel_flatMap (List.forall₂_same.mpr fun e _ => rfl) fun e f hef => by
    subst hef
    exact entrySteps_agree hi _ e

end

section
variable [Monad m] [Monad n] [MonadLiftT (Except Fault) m] [MonadLiftT (Except Fault) n]
  {r : Relator m n} {q : ProblemRelation}

theorem gather_agree {ss : List (Step m)} {ts : List (Step n)}
    (h : List.Forall₂ (Step.Agree (r.Agree q)) ss ts) :
    r.rel (Gathered.Rel q) (gather ss) (gather ts) := by
  induction h with
  | nil => exact r.pure (.kept [] .nil)
  | cons h _ ih =>
    cases h with
    | missing segment => exact r.pure (.stopped (q.refl _))
    | unexpected segment => exact r.bind ih fun g g' hg => r.pure (hg.warn (q.refl _))
    | check segment h v =>
      apply r.bind (h v)
      intro o p ho
      cases ho with
      | failure hp => exact r.pure (.stopped (q.within hp))
      | success w => exact ih
      | warning w hp => exact ih
    | take segment h v =>
      apply r.bind (h v)
      intro o p ho
      cases ho with
      | failure hp => exact r.pure (.stopped (q.within hp))
      | success w => exact r.bind ih fun g g' hg => r.pure (hg.keep segment w)
      | warning w hp =>
        exact r.bind ih fun g g' hg => r.pure ((hg.keep segment w).warn (q.within hp))

theorem Tuple.parse_agree {scope scope' : Scope} {a b : Annotations} {es : List (Element (Parser m))}
    {fs : List (Element (Parser n))} {rest : Option (Rest (Parser m))} {rest' : Option (Rest (Parser n))}
    (ha : ∀ v, (scope.mismatch a (Problem.isPredicate "Sequence") v).Rel q
      (scope'.mismatch b (Problem.isPredicate "Sequence") v))
    (h : List.Forall₂ (Element.Agree (r.Agree q)) es fs)
    (hr : Option.Rel (Rest.Agree (r.Agree q)) rest rest') :
    r.Agree q (parse scope a es rest) (parse scope' b fs rest') := by
  intro v
  simp only [parse]
  cases v.items? with
  | none => exact r.pure (ha v)
  | some items =>
    refine r.bind (gather_agree (steps_agree h hr items)) fun g g' hg => r.pure ?_
    cases hg with
    | stopped hp => exact .failure (.cons hp .nil)
    | kept members hp => exact .warn _ hp

theorem Struct.parse_agree {scope scope' : Scope} {a b : Annotations} {ps : List (Property (Parser m))}
    {qs : List (Property (Parser n))} {is : List (Index m)} {js : List (Index n)}
    (ha : ∀ v, (scope.mismatch a (Problem.isPredicate "Mapping") v).Rel q
      (scope'.mismatch b (Problem.isPredicate "Mapping") v))
    (hp : List.Forall₂ (Property.Agree (r.Agree q)) ps qs)
    (hi : List.Forall₂ (Index.Agree (r.Agree q)) is js) :
    r.Agree q (parse scope a ps is) (parse scope' b qs js) := by
  intro v
  simp only [parse]
  cases v.entries? with
  | none => exact r.pure (ha v)
  | some entries =>
    refine r.bind (gather_agree (steps_agree hp hi entries)) fun g g' hg => r.pure ?_
    cases hg with
    | stopped hp => exact .failure (.cons hp .nil)
    | kept members hp => exact .warn _ hp

namespace Union

theorem tryMembers_agree {ps : List (Parser m)} {ps' : List (Parser n)}
    (h : List.Forall₂ (r.Agree q) ps ps') (v : Value) :
    r.rel (List.Forall₂ (Outcome.Rel q)) (tryMembers v ps) (tryMembers v ps') := by
  induction h with
  | nil => exact r.pure .nil
  | cons h _ ih =>
    apply r.bind (h v)
    intro o p ho
    rw [ho.isSuccess]
    split
    · exact r.pure (.cons ho .nil)
    · exact r.bind ih fun os ps hos => r.pure (.cons ho hos)

def Candidate.Rel (q : ProblemRelation) (c d : Candidate) : Prop :=
  c.value = d.value ∧ c.weight = d.weight ∧ List.Forall₂ q.rel c.problems d.problems

theorem Candidate.Rel.better {c c' d d' : Candidate} (h : c.Rel q c') (k : d.Rel q d') :
    c.better d = c'.better d' := by
  obtain ⟨hv, hw, hp⟩ := h
  obtain ⟨kv, kw, kp⟩ := k
  rw [Candidate.better, Candidate.better, hv, hw, kv, kw, hp.length_eq, kp.length_eq]

theorem best_agree {c c' : Candidate} {ds ds' : List Candidate} (h : c.Rel q c')
    (hs : List.Forall₂ (Candidate.Rel q) ds ds') : (best c ds).Rel q (best c' ds') := by
  induction hs generalizing c c' with
  | nil => exact h
  | cons k _ ih =>
    simp only [best, List.foldl_cons] at ih ⊢
    rw [k.better h]
    split
    · exact ih k
    · exact ih h

theorem candidates_agree {os ps : List Outcome} (h : List.Forall₂ (Outcome.Rel q) os ps)
    (weights : List Nat) :
    List.Forall₂ (Candidate.Rel q) (candidates weights os) (candidates weights ps) := by
  induction h generalizing weights with
  | nil => exact .nil
  | cons h _ ih =>
    cases weights with
    | nil => exact .nil
    | cons w weights =>
      cases h with
      | success v => exact ih weights
      | failure hp => exact ih weights
      | warning v hp => exact .cons ⟨rfl, rfl, hp⟩ (ih weights)

theorem find?_isSuccess_agree {os ps : List Outcome} (h : List.Forall₂ (Outcome.Rel q) os ps) :
    os.find? Outcome.isSuccess = ps.find? Outcome.isSuccess := by
  induction h with
  | nil => rfl
  | cons h _ ih =>
    cases h with
    | success v => rfl
    | warning v hp | failure hp => simpa [List.find?_cons, Outcome.isSuccess] using ih

theorem Outcome.problems_agree {o p : Outcome} (h : o.Rel q p) : List.Forall₂ q.rel o.problems p.problems := by
  cases h with
  | success v => exact .nil
  | warning v h | failure h => exact h

theorem resolve_agree {os ps : List Outcome} (h : List.Forall₂ (Outcome.Rel q) os ps)
    (weights : List Nat) :
    Except.Rel (Outcome.Rel q) (resolve weights os) (resolve weights ps) := by
  rw [resolve, resolve, find?_isSuccess_agree h]
  cases ps.find? Outcome.isSuccess with
  | some o => exact .ok (.refl q o)
  | none =>
    have hc := candidates_agree h weights
    revert hc
    generalize candidates weights os = cs
    generalize candidates weights ps = ds
    intro hc
    cases hc with
    | nil =>
      cases h with
      | nil => exact .error _
      | cons h hs =>
        refine .ok (.failure (.cons (q.ofMember (Outcome.problems_agree h)) ?_))
        exact List.rel_map (fun o p h => q.ofMember (Outcome.problems_agree h)) hs
    | cons h hs =>
      obtain ⟨hv, _, hp⟩ := best_agree h hs
      refine .ok ?_
      rw [Candidate.outcome, Candidate.outcome, hv]
      exact .warning _ hp

theorem parse_agree {ps : List (Parser m)} {ps' : List (Parser n)}
    (h : List.Forall₂ (r.Agree q) ps ps') (weights : List Nat) :
    r.Agree q (parse weights ps) (parse weights ps') :=
  fun v => r.bind (tryMembers_agree h v) fun _ _ ho => r.lift (resolve_agree ho weights)

end Union

theorem Outcome.andThen_agree {o p : Outcome} (h : o.Rel q p) {f : Parser m} {g : Parser n}
    (hf : r.Agree q f g) : r.rel (Outcome.Rel q) (o.andThen f) (p.andThen g) := by
  cases h with
  | success v => exact hf v
  | warning v hp => exact r.bind (hf v) fun _ _ ho => r.pure (ho.after hp)
  | failure hp => exact r.pure (.failure hp)

/-- What both sides lift from one fault-prone computation agrees. -/
theorem Relator.lift_self (r : Relator m n) {α : Type} (x : Except Fault α) :
    r.rel (· = ·) (liftM x : m α) (liftM x : n α) :=
  r.lift (.refl (fun _ => rfl) x)

theorem Refinement.parse_agree {scope scope' : Scope} {direction : Direction} {a b : Annotations} {p : Predicate}
    {base : Parser m} {base' : Parser n} (hp : scope.test p = scope'.test p)
    (ha : ∀ v, (violation scope a v).Rel q (violation scope' b v)) (h : r.Agree q base base') :
    r.Agree q (parse scope direction a p base) (parse scope' direction b p base') := by
  intro v
  cases direction with
  | decode =>
    apply r.bind (h v)
    intro o o' ho
    rw [ho.value?]
    cases o'.value? with
    | none => exact r.pure ho
    | some w =>
      dsimp only
      rw [hp]
      apply r.bind (r.lift_self (scope'.test p w))
      intro c d hcd
      subst hcd
      split
      · exact r.pure ho
      · exact r.pure (ha w)
  | encode =>
    simp only [parse, encode, hp]
    apply r.bind (r.lift_self (scope'.test p v))
    intro c d hcd
    subst hcd
    split
    · exact h v
    · exact r.pure (ha v)

theorem Transform.parse_agree {scope scope' : Scope} {direction : Direction} {c : Conversion} {source : Parser m}
    {source' : Parser n} (hs : scope.convert c = scope'.convert c) (h : r.Agree q source source') :
    r.Agree q (parse scope direction c source) (parse scope' direction c source') := by
  have hc (d : Direction) (v : Value) :
      r.rel (Outcome.Rel q) (liftM (scope.convert c d v) : m Outcome) (liftM (scope'.convert c d v)) := by
    rw [hs]
    exact r.lift (by cases scope'.convert c d v with
      | ok o => exact .ok (.refl q o)
      | error f => exact .error f)
  intro v
  cases direction with
  | decode => exact r.bind (h v) fun _ _ ho => Outcome.andThen_agree ho (hc .decode)
  | encode => exact r.bind (hc .encode v) fun _ _ ho => Outcome.andThen_agree ho h

end
end Schemata
