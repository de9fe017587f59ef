import Schemata.Proofs.Decode.Choice
import Schemata.Proofs.Decode.Congruence
import Schemata.Proofs.Decode.Termination
import Schemata.Proofs.Schema.Union
import Schemata.Stock

/-!
Canonical unions mean what their candidates mean. A union accepts what some member accepts, and cleanly what some
member accepts cleanly; this survives the loss of members that equal another or that a keyword absorbs.
-/
namespace Schemata

theorem Outcome.Rel.passes {q : ProblemRelation} {o p : Outcome} (h : o.Rel q p) (lenient : Bool) :
    o.passes lenient = p.passes lenient := by
  cases h <;> rfl

namespace Scope
variable {scope : Scope} {direction : Direction} {lenient : Bool} {x : Value} {o : Outcome}

/-- The schema comes to an outcome on the value that is good enough. -/
def Passes (scope : Scope) (direction : Direction) (lenient : Bool) (s : Schema) (x : Value) : Prop :=
  ∃ o, scope.Yields direction s x o ∧ o.passes lenient

theorem Yields.passes_iff {s : Schema} (h : scope.Yields direction s x o) :
    o.passes lenient ↔ scope.Passes direction lenient s x := by
  constructor
  · exact fun ho => ⟨o, h, ho⟩
  · rintro ⟨p, hp, hpass⟩
    exact h.unique hp ▸ hpass

theorem Yields.union_passes_iff {a : Annotations} {ss : List Schema} (h : scope.Yields direction (.union a ss) x o) :
    o.passes lenient ↔ ∃ s ∈ ss, scope.Passes direction lenient s x := by
  have hl {n : Nat} : (ss.map (scope.run direction n)).length ≤ (ss.map Schema.weight).length := by simp
  constructor
  · intro ho
    obtain ⟨n, hn⟩ := h
    rw [run_union] at hn
    obtain ⟨p, hp, q, hq, hpass⟩ := (Union.parse_passes_iff hl hn).mp ho
    obtain ⟨s, hs, rfl⟩ := List.mem_map.mp hp
    exact ⟨s, hs, q, ⟨n, hq⟩, hpass⟩
  · rintro ⟨s, hs, q, hq, hpass⟩
    -- The member may need more fuel than the union, which need not have tried it.
    obtain ⟨n, hn, hqn⟩ := (h.eventually.and hq.eventually).exists
    rw [run_union] at hn
    exact (Union.parse_passes_iff hl hn).mpr ⟨_, List.mem_map_of_mem hs, q, hqn, hpass⟩

/-- A candidate does as well as its best alternative. -/
theorem passes_alternatives_iff {c : Schema} (h : ∃ o, scope.Yields direction c x o) :
    scope.Passes direction lenient c x ↔ ∃ s ∈ c.alternatives, scope.Passes direction lenient s x := by
  cases c with
  | union a ss =>
    obtain ⟨o, ho⟩ := h
    rw [← ho.passes_iff, ho.union_passes_iff]
    rfl
  | _ => simp [Schema.alternatives]

/-- The canonical union does as well as the best of what is left of its candidates. -/
theorem Yields.oneOf_passes_iff {cs : List Schema} {a : Annotations}
    (h : scope.Yields direction (.oneOf cs a) x o) :
    o.passes lenient ↔ ∃ s ∈ Schema.unify cs, scope.Passes direction lenient s x := by
  rcases Schema.oneOf_eq cs a with ⟨hu, hc⟩ | ⟨s, hu, hc⟩ | ⟨_, hc⟩
  · obtain ⟨n, hn⟩ := h
    rw [hc, Schema.word, run_keyword] at hn
    cases hn
    simp [hu, parseKeyword, parsePlainKeyword, Keyword.admits, mismatch, Outcome.passes]
  · rw [hc] at h
    simp [hu, h.passes_iff]
  · rw [hc] at h
    simp only [h.union_passes_iff, Schema.mem_ranked]

theorem parseLiteral_passes_iff (a : Annotations) (y : Scalar) :
    (scope.parseLiteral a y x).passes lenient ↔ x.literalEquals y.value := by
  rw [parseLiteral]
  split <;> simp_all [mismatch, Outcome.passes]

theorem parseUniqueSymbol_passes_iff (a : Annotations) (key : String) :
    (scope.parseUniqueSymbol a key x).passes lenient ↔ x.equals (.symbol key) := by
  rw [parseUniqueSymbol]
  split <;> simp_all [mismatch, Outcome.passes]

/-- A finite number is accepted cleanly, an infinity with a warning. -/
theorem parseKeyword_number_passes (a : Annotations) (hx : x.isNumber) (hn : x.isNaN = false)
    (hf : lenient = false → x.isInfinite = false) :
    (scope.parseKeyword direction a .number x).passes lenient := by
  have hp : scope.parseKeyword direction a .number x = .warn x (anomaly? x).toList := by
    simp [parseKeyword, parsePlainKeyword, Keyword.admits, hx]
  rw [hp]
  cases lenient with
  | true => exact (Outcome.passes_true _).mpr (Outcome.isFailure_warn _ _)
  | false => simp [anomaly?, hn, hf rfl, Outcome.warn, Outcome.passes]

/-- What a literal or a symbol accepts, the keyword that absorbs it accepts; only infinities come with a warning. -/
theorem Passes.absorbed {k s : Schema} (h : scope.Passes direction lenient s x) (hk : Schema.Absorbs k s)
    (hf : lenient = false → ∀ b y, s = .literal b y → y.value.isInfinite = false) :
    scope.Passes direction lenient k x := by
  obtain ⟨o, ⟨n, hn⟩, hpass⟩ := h
  cases hk with
  | @text a b y hy =>
    rw [run_literal, Except.ok.injEq] at hn
    subst hn
    rw [parseLiteral_passes_iff] at hpass
    have hx : x.isText := Value.isText_of_literalEquals (by rwa [Scalar.isText_value]) hpass
    exact ⟨_, ⟨n, run_keyword ..⟩, by simp [parseKeyword, parsePlainKeyword, Keyword.admits, hx, Outcome.passes]⟩
  | @number a b y hy =>
    rw [run_literal, Except.ok.injEq] at hn
    subst hn
    rw [parseLiteral_passes_iff] at hpass
    obtain ⟨hx, hnan, hinf⟩ := Value.number_of_literalEquals (by rwa [Scalar.isNumber_value]) hpass
    exact ⟨_, ⟨n, run_keyword ..⟩, parseKeyword_number_passes a hx hnan fun hl => hinf.trans (hf hl b y rfl)⟩
  | symbol a b key =>
    rw [run_uniqueSymbol, Except.ok.injEq] at hn
    subst hn
    rw [parseUniqueSymbol_passes_iff] at hpass
    have hx : x.isSymbol := Value.isSymbol_of_equals hpass
    exact ⟨_, ⟨n, run_keyword ..⟩, by simp [parseKeyword, parsePlainKeyword, Keyword.admits, hx, Outcome.passes]⟩

def Conventional (scope : Scope) (s : Schema) : Prop :=
  ∀ t, scope.Part s t → t.Conventional

theorem conventional_of_next {s : Schema} (hs : s.Conventional) (hn : ∀ t ∈ scope.next s, scope.Conventional t) :
    scope.Conventional s := by
  intro t ht
  rcases Relation.ReflTransGen.cases_head ht with rfl | ⟨u, hu, hut⟩
  · exact hs
  · exact hn u hu t hut

theorem Conventional.alternative {c s : Schema} (h : scope.Conventional c) (hs : s ∈ c.alternatives) :
    scope.Conventional s := by
  cases c with
  | union a ss => exact fun t ht => h t ((Part.child hs).trans ht)
  | _ =>
    obtain rfl := List.mem_singleton.mp hs
    exact h

/-- Equal schemas do equally well. -/
theorem passes_iff_of_equals {s t : Schema} (h : s.equals t) (hs : scope.Conventional s) (ht : scope.Conventional t) :
    scope.Passes direction lenient s x ↔ scope.Passes direction lenient t x := by
  refine exists_yields_congr fun n => (run_agree_of_equals h hs ht n x).exists_ok_iff fun _ _ hop => ?_
  rw [hop.passes lenient]

/-- What is left of the candidates does as well as all their alternatives did. -/
theorem passes_unify_iff {cs : List Schema} (hc : ∀ c ∈ cs, scope.Conventional c)
    (hf : lenient = false → ∀ c ∈ cs, ∀ b y, .literal b y ∈ c.alternatives → y.value.isInfinite = false) :
    (∃ s ∈ Schema.unify cs, scope.Passes direction lenient s x) ↔
      ∃ c ∈ cs, ∃ s ∈ c.alternatives, scope.Passes direction lenient s x := by
  constructor
  · rintro ⟨s, hs, hpass⟩
    obtain ⟨c, hcm, hsc⟩ := Schema.mem_unify hs
    exact ⟨c, hcm, s, hsc, hpass⟩
  · rintro ⟨c, hcm, s, hsc, hpass⟩
    obtain ⟨t, ⟨d, hd, htd⟩, hts, hleft⟩ := Schema.unify_covers hcm hsc
    have ht : scope.Passes direction lenient t x := by
      rcases hts with rfl | heq
      · exact hpass
      · exact (passes_iff_of_equals heq ((hc d hd).alternative htd) ((hc c hcm).alternative hsc)).mpr hpass
    rcases hleft with hu | ⟨k, hk, habs⟩
    · exact ⟨t, hu, ht⟩
    · refine ⟨k, hk, ht.absorbed habs fun hl b y hty => ?_⟩
      subst hty
      exact hf hl d hd b y htd

/-- Where all members come to an outcome, their union does. -/
theorem union_yields {ss : List Schema} (hne : ss ≠ []) (h : ∀ s ∈ ss, ∃ o, scope.Yields direction s x o)
    (a : Annotations) : ∃ o, scope.Yields direction (.union a ss) x o := by
  have hall : ∀ᶠ n in Filter.atTop, ∀ s ∈ ss, ∃ o, scope.run direction n s x = .ok o :=
    eventually_forall_mem fun s hs => answers_iff.mpr (h s hs)
  obtain ⟨n, hn⟩ := hall.exists
  have hruns : ∀ p ∈ ss.map (scope.run direction n), ∃ o, p x = .ok o := List.forall_mem_map.mpr hn
  obtain ⟨o, ho⟩ := Union.parse_ok (List.map_eq_nil_iff.not.mpr hne) hruns
  exact ⟨o, n, by rw [run_union, ho]⟩

/-- Where all alternatives come to an outcome, their canonical union does. -/
theorem oneOf_yields {cs : List Schema} {a : Annotations}
    (h : ∀ c ∈ cs, ∀ s ∈ c.alternatives, ∃ o, scope.Yields direction s x o) :
    ∃ o, scope.Yields direction (.oneOf cs a) x o := by
  have hu : ∀ s ∈ Schema.unify cs, ∃ o, scope.Yields direction s x o := by
    intro s hs
    obtain ⟨c, hc, hsc⟩ := Schema.mem_unify hs
    exact h c hc s hsc
  rcases Schema.oneOf_eq cs a with ⟨_, hc⟩ | ⟨s, hs, hc⟩ | ⟨hne, hc⟩
  · rw [hc]
    exact ⟨_, 0, run_keyword ..⟩
  · rw [hc]
    exact hu s (by simp [hs])
  · have hranked : Schema.ranked (Schema.unify cs) ≠ [] := by
      obtain ⟨s, hs⟩ := List.exists_mem_of_ne_nil _ hne
      exact List.ne_nil_of_mem (Schema.mem_ranked.mpr hs)
    rw [hc]
    exact union_yields hranked (fun s hs => hu s (Schema.mem_ranked.mp hs)) a

/-- Where all alternatives come to an outcome, a candidate does as well as the best of them. -/
theorem passes_alternatives_iff_of_yields {c : Schema} (h : ∀ s ∈ c.alternatives, ∃ o, scope.Yields direction s x o) :
    scope.Passes direction lenient c x ↔ ∃ s ∈ c.alternatives, scope.Passes direction lenient s x := by
  cases c with
  | union a ss =>
    constructor
    · rintro ⟨o, ho, hpass⟩
      exact ho.union_passes_iff.mp hpass
    · rintro ⟨s, hs, hpass⟩
      obtain ⟨o, ho⟩ := union_yields (List.ne_nil_of_mem hs) h a
      exact ⟨o, ho, ho.union_passes_iff.mpr ⟨s, hs, hpass⟩⟩
  | _ => simp [Schema.alternatives]

/-- Where all alternatives of the candidates come to an outcome, their canonical union accepts what some candidate
accepts. -/
theorem exists_yields_oneOf {cs : List Schema} (hc : ∀ c ∈ cs, scope.Conventional c)
    (h : ∀ c ∈ cs, ∀ s ∈ c.alternatives, ∃ o, scope.Yields direction s x o) (a : Annotations) :
    ∃ o, scope.Yields direction (.oneOf cs a) x o ∧ (o.passes true ↔ ∃ c ∈ cs, scope.Passes direction true c x) := by
  obtain ⟨o, ho⟩ : ∃ o, scope.Yields direction (.oneOf cs a) x o := oneOf_yields h
  refine ⟨o, ho, ?_⟩
  rw [ho.oneOf_passes_iff, passes_unify_iff hc fun hl => absurd hl (by decide)]
  exact exists_congr fun c => and_congr_right fun hcm => (passes_alternatives_iff_of_yields (h c hcm)).symm

/-- The canonical union of candidates accepts what some candidate accepts, and accepts cleanly what some candidate
accepts cleanly. Only an infinite literal beside the keyword of numbers spoils the latter. -/
theorem oneOf_meaning {cs : List Schema} {a : Annotations} (hc : ∀ c ∈ cs, scope.Conventional c)
    (ht : ∀ c ∈ cs, ∃ o, scope.Yields direction c x o) :
    ((∀ c ∈ cs, ∀ s ∈ c.alternatives, ∃ o, scope.Yields direction s x o) →
      ∃ o, scope.Yields direction (.oneOf cs a) x o) ∧
    ∀ o, scope.Yields direction (.oneOf cs a) x o →
      (o.isFailure = false ↔ ∃ c ∈ cs, ∃ p, scope.Yields direction c x p ∧ p.isFailure = false) ∧
      ((∀ c ∈ cs, ∀ b y, .literal b y ∈ c.alternatives → y.value.isInfinite = false) →
        (o.isSuccess ↔ ∃ c ∈ cs, ∃ p, scope.Yields direction c x p ∧ p.isSuccess)) := by
  refine ⟨oneOf_yields, fun o ho => ?_⟩
  have candidates {lenient : Bool} : (∃ c ∈ cs, scope.Passes direction lenient c x) ↔
      ∃ c ∈ cs, ∃ s ∈ c.alternatives, scope.Passes direction lenient s x := by
    constructor
    · rintro ⟨c, hcm, h⟩
      exact ⟨c, hcm, (passes_alternatives_iff (ht c hcm)).mp h⟩
    · rintro ⟨c, hcm, h⟩
      exact ⟨c, hcm, (passes_alternatives_iff (ht c hcm)).mpr h⟩
  constructor
  · have h : o.passes true ↔ ∃ c ∈ cs, scope.Passes direction true c x := by
      rw [ho.oneOf_passes_iff, passes_unify_iff hc (fun hl => absurd hl (by decide)), candidates]
    simpa only [Passes, Outcome.passes_true] using h
  · intro hf
    have h : o.passes false ↔ ∃ c ∈ cs, scope.Passes direction false c x := by
      rw [ho.oneOf_passes_iff, passes_unify_iff hc (fun _ => hf), candidates]
    simpa only [Passes, Outcome.passes_false] using h

def labels : List Schema :=
  [.literal .empty (.int 1), .union .empty [.keyword .empty .string, .literal .empty (.int 1)],
    .literal .empty (.text "draft"),
    .struct .empty [⟨.text "name", .keyword .empty .string, false, false, .empty⟩] []]

theorem conventional_labels : ∀ c ∈ labels, (Stock.scope []).Conventional c := by
  have leaf {s : Schema} (hs : s.Conventional) (hn : (Stock.scope []).next s = []) : (Stock.scope []).Conventional s :=
    conventional_of_next hs (by simp [hn])
  have word : (Stock.scope []).Conventional (.keyword .empty .string) := leaf trivial rfl
  have one : (Stock.scope []).Conventional (.literal .empty (.int 1)) := leaf trivial rfl
  simp only [labels, List.forall_mem_cons]
  refine ⟨one, conventional_of_next trivial ?_, leaf trivial rfl, conventional_of_next ?_ ?_, by simp⟩
  · simpa [next, Schema.children] using ⟨word, one⟩
  · simp [Schema.Conventional, Value.isName]
  · simpa [next, Schema.children] using word

/-- The label "draft" is a text, and given once more as a literal that the union leaves out. -/
theorem oneOf_meaning_labels :
    let scope := Stock.scope []
    let x : Value := .text "draft"
    (∀ c ∈ labels, scope.Conventional c) ∧ (∀ c ∈ labels, ∃ o, scope.Yields .decode c x o) ∧
      (∀ c ∈ labels, ∀ b y, .literal b y ∈ c.alternatives → y.value.isInfinite = false) ∧
      ∃ o, scope.Yields .decode (.oneOf labels .empty) x o ∧ o.isSuccess := by
  intro scope x
  have hyields : ∀ c ∈ labels, ∃ o, scope.Yields .decode c x o := by
    simp only [labels, List.forall_mem_cons]
    exact ⟨⟨_, 0, rfl⟩, ⟨_, 0, rfl⟩, ⟨_, 0, rfl⟩, ⟨_, 0, rfl⟩, by simp⟩
  have halternatives : ∀ c ∈ labels, ∀ s ∈ c.alternatives, ∃ o, scope.Yields .decode s x o := by
    simp only [labels, List.forall_mem_cons, Schema.alternatives]
    exact ⟨⟨⟨_, 0, rfl⟩, by simp⟩, ⟨⟨_, 0, rfl⟩, ⟨_, 0, rfl⟩, by simp⟩, ⟨⟨_, 0, rfl⟩, by simp⟩,
      ⟨⟨_, 0, rfl⟩, by simp⟩, by simp⟩
  have hfinite : ∀ c ∈ labels, ∀ b y, .literal b y ∈ c.alternatives → y.value.isInfinite = false := by
    simp [labels, Schema.alternatives, Scalar.value, Value.isInfinite, Value.float?]
  obtain ⟨hanswer, hmeaning⟩ := oneOf_meaning (a := .empty) conventional_labels hyields
  obtain ⟨o, ho⟩ := hanswer halternatives
  refine ⟨conventional_labels, hyields, hfinite, o, ho, ((hmeaning o ho).2 hfinite).mpr ?_⟩
  exact ⟨_, List.mem_cons_of_mem _ (List.mem_cons_of_mem _ List.mem_cons_self), .success x, ⟨0, rfl⟩, rfl⟩

end Scope
end Schemata
