import Schemata.Proofs.Decode.Widening
import Schemata.Schema.Derived

/-!
Records over open key types. Each sort of keys in the key type becomes an index signature, and an entry answers to every
signature that claims its key. The signatures of a union of key types are therefore joint demands: the record over the
union accepts what the records over its members all accept.
-/
namespace Schemata

namespace Schema

/-- The types of keys that name no single key: texts, symbols, templates, refinements and unions of such types. -/
inductive KeyType : Schema → Prop
  | never (a : Annotations) : KeyType (keyword a .never)
  | string (a : Annotations) : KeyType (keyword a .string)
  | symbol (a : Annotations) : KeyType (keyword a .symbol)
  | template (a : Annotations) (head : String) (first : Span) (more : List Span) :
      KeyType (template a head first more)
  | refinement (a : Annotations) {base : Schema} (p : Predicate) (h : KeyType base) : KeyType (refinement a base p)
  | union (a : Annotations) {members : List Schema} (h : ∀ s ∈ members, KeyType s) : KeyType (union a members)

mutual

def keySorts : Schema → List Schema
  | union _ members => keySortsOfAll members
  | keyword _ .never => []
  | s => [s]

def keySortsOfAll : List Schema → List Schema
  | [] => []
  | s :: ss => s.keySorts ++ keySortsOfAll ss

end

theorem keySortsOfAll_eq (ss : List Schema) : keySortsOfAll ss = ss.flatMap keySorts := by
  induction ss with
  | nil => rfl
  | cons s ss ih => rw [keySortsOfAll, ih, List.flatMap_cons]

theorem keySorts_union (a : Annotations) (ss : List Schema) : (union a ss).keySorts = ss.flatMap keySorts := by
  rw [keySorts, keySortsOfAll_eq]

theorem keySorts_eq_alternatives (s : Schema) : s.keySorts = s.alternatives.flatMap keySorts := by
  cases s with
  | union a ss => exact keySorts_union a ss
  | _ => simp [alternatives]

/-- Equal key types have equal sorts of keys. -/
theorem keySorts_equals {s t : Schema} (h : s.equals t) :
    List.Forall₂ (fun k l => k.equals l) s.keySorts t.keySorts := by
  induction s using childrenInduction generalizing t with
  | step s ih =>
    cases alike_of_equals h with
    | keyword word =>
      cases word with
      | never => exact .nil
      | _ => exact .cons h .nil
    | union hs =>
      rw [keySorts_union, keySorts_union, List.flatMap_def, List.flatMap_def]
      exact List.rel_flatten (Lists.forall₂_map hs fun u hu v _ huv => ih u hu huv)
    | _ => exact .cons h .nil

namespace KeyType
variable {s t : Schema} {value : Schema} {readonly : Bool}

theorem alternative (h : s.KeyType) (ht : t ∈ s.alternatives) : t.KeyType := by
  cases s with
  | union a ss =>
    cases h with
    | union _ h => exact h t ht
  | _ =>
    obtain rfl := List.mem_singleton.mp ht
    exact h

theorem sort (h : s.KeyType) (ht : t ∈ s.keySorts) : t.KeyType := by
  induction h with
  | never => cases ht
  | union a h ih =>
    rw [keySorts_union] at ht
    obtain ⟨u, hu, ht⟩ := List.mem_flatMap.mp ht
    exact ih u hu ht
  | _ =>
    obtain rfl := List.mem_singleton.mp ht
    constructor <;> assumption

theorem conventional {scope : Scope} (h : s.KeyType) : scope.Conventional s := by
  induction h with
  | refinement a p h ih =>
    refine Scope.conventional_of_next trivial fun t ht => ?_
    obtain rfl := List.mem_singleton.mp ht
    exact ih
  | union a h ih => exact Scope.conventional_of_next trivial ih
  | _ => exact Scope.conventional_of_next trivial fun t ht => absurd ht List.not_mem_nil

/-- Only single values are absorbed, and key types name none. -/
theorem not_absorbed (h : s.KeyType) : ¬Absorbs t s := by
  intro ha
  cases ha <;> cases h

theorem recordMembersOfAll_eq {ss : List Schema}
    (h : ∀ s ∈ ss, recordMembers value readonly s = .ok ([], s.keySorts.map fun k => ⟨k, value, readonly⟩)) :
    recordMembersOfAll value readonly ss = .ok ([], (ss.flatMap keySorts).map fun k => ⟨k, value, readonly⟩) := by
  induction ss with
  | nil => rfl
  | cons s ss ih =>
    rw [List.forall_mem_cons] at h
    rw [recordMembersOfAll, h.1, ih h.2, List.flatMap_cons, List.map_append]
    rfl

/-- A key type becomes an index signature for each of its sorts of keys. -/
theorem recordMembers_eq (h : s.KeyType) :
    recordMembers value readonly s = .ok ([], s.keySorts.map fun k => ⟨k, value, readonly⟩) := by
  induction h with
  | union a h ih => rw [recordMembers, keySorts_union, recordMembersOfAll_eq ih]
  | _ => rfl

/-- The index signatures of a record have one type, so that ranking leaves them as they are. -/
theorem record_eq (h : s.KeyType) (value : Schema) (readonly : Bool) :
    record s value readonly = .ok (.struct .empty [] (s.keySorts.map fun k => ⟨k, value, readonly⟩)) := by
  have hnone : ∀ p ∈ ([] : List (Property Schema)), p.type = value := fun p hp => absurd hp List.not_mem_nil
  rw [record, h.recordMembers_eq]
  exact congrArg Except.ok (structOf_of_type hnone (List.forall_mem_map.mpr fun _ _ => rfl) .empty)

end KeyType

/-- The canonical union of key types is a key type. -/
theorem keyType_oneOf {cs : List Schema} (h : ∀ c ∈ cs, c.KeyType) (a : Annotations) : (oneOf cs a).KeyType := by
  have hu : ∀ s ∈ unify cs, s.KeyType := forall_unify fun c hc _ hs => (h c hc).alternative hs
  rcases oneOf_eq cs a with ⟨_, hc⟩ | ⟨s, hs, hc⟩ | ⟨_, hc⟩
  · rw [hc]
    exact .never _
  · rw [hc]
    exact hu s (by simp [hs])
  · rw [hc]
    exact .union a fun s hs => hu s (mem_ranked.mp hs)

end Schema

namespace Scope
variable {scope : Scope} {direction : Direction} {value s t : Schema} {readonly : Bool} {x : Value} {es : Entries}

/-- Every key that an index signature claims is accepted by it, and so is the value of the key. -/
def Meets (scope : Scope) (direction : Direction) (es : Entries) (i : IndexSignature Schema) : Prop :=
  ∀ e ∈ es, i.claims e.1 → scope.Passes direction true i.parameter e.1 ∧ scope.Passes direction true i.type e.2

/-- A struct that declares no keys accepts the tables that meet all its index signatures. -/
theorem passes_indexes_iff {is : List (IndexSignature Schema)} {a : Annotations} :
    scope.Passes direction true (.struct a [] is) x ↔
      ∃ es, x.entries? = some es ∧ ∀ i ∈ is, scope.Meets direction es i := by
  constructor
  · intro h
    obtain ⟨es, hx⟩ := h.exists_entries
    have hsuits := (passes_struct_iff hx).mp h
    exact ⟨es, hx, fun i hi e he hc => hsuits.index e he rfl i hi hc⟩
  · rintro ⟨es, hx, hmeets⟩
    refine (passes_struct_iff hx).mpr ⟨?_, ?_, fun e he _ i hi hc => hmeets i hi e he hc⟩
    · exact fun p hp => absurd hp List.not_mem_nil
    · exact fun p hp => absurd hp List.not_mem_nil

def Fits (scope : Scope) (direction : Direction) (es : Entries) (value key : Schema) : Prop :=
  ∀ k ∈ key.keySorts, scope.Meets direction es ⟨k, value, false⟩

theorem passes_record_iff : scope.Passes direction true
    (.struct .empty [] (s.keySorts.map fun k => ⟨k, value, readonly⟩)) x ↔
      ∃ es, x.entries? = some es ∧ scope.Fits direction es value s := by
  rw [passes_indexes_iff]
  simp only [List.forall_mem_map]
  rfl

/-- Equal sorts of keys make the same demands. -/
theorem meets_iff_of_equals (h : s.equals t) (hs : scope.Conventional s) (ht : scope.Conventional t) :
    scope.Meets direction es ⟨s, value, readonly⟩ ↔ scope.Meets direction es ⟨t, value, readonly⟩ := by
  simp only [Meets, IndexSignature.claims, Schema.isKeyword_eq_of_equals h, passes_iff_of_equals h hs ht]

theorem Fits.of_equals (h : scope.Fits direction es value s) (heq : s.equals t) (hs : s.KeyType) (ht : t.KeyType) :
    scope.Fits direction es value t := by
  intro l hl
  obtain ⟨k, hk, hkl⟩ := Lists.exists_of_mem_right (Schema.keySorts_equals heq) hl
  exact (meets_iff_of_equals hkl (hs.sort hk).conventional (ht.sort hl).conventional).mp (h k hk)

theorem fits_iff_alternatives :
    scope.Fits direction es value s ↔ ∀ t ∈ s.alternatives, scope.Fits direction es value t := by
  rw [Fits, Schema.keySorts_eq_alternatives]
  simp only [List.forall_mem_flatMap]
  rfl

theorem fits_oneOf_iff_unify {cs : List Schema} {a : Annotations} :
    scope.Fits direction es value (.oneOf cs a) ↔ ∀ s ∈ Schema.unify cs, scope.Fits direction es value s := by
  rcases Schema.oneOf_eq cs a with ⟨hu, hc⟩ | ⟨s, hu, hc⟩ | ⟨_, hc⟩
  · simp [hu, hc, Fits, Schema.word, Schema.keySorts]
  · simp [hu, hc]
  · rw [hc, fits_iff_alternatives]
    simp only [Schema.alternatives, Schema.mem_ranked]

/-- Canonical unions of key types lose no demand: a sort of keys leaves only where an equal one stays. -/
theorem fits_oneOf_iff {cs : List Schema} (h : ∀ c ∈ cs, c.KeyType) {a : Annotations} :
    scope.Fits direction es value (.oneOf cs a) ↔ ∀ c ∈ cs, scope.Fits direction es value c := by
  rw [fits_oneOf_iff_unify]
  constructor
  · intro hfits c hc
    refine fits_iff_alternatives.mpr fun s hs => ?_
    obtain ⟨t, ⟨d, hd, htd⟩, hts, hleft⟩ := Schema.unify_covers hc hs
    have htype : t.KeyType := (h d hd).alternative htd
    have ht : t ∈ Schema.unify cs := hleft.elim id fun ⟨k, _, hk⟩ => absurd hk htype.not_absorbed
    rcases hts with rfl | heq
    · exact hfits t ht
    · exact (hfits t ht).of_equals heq htype ((h c hc).alternative hs)
  · intro hfits
    exact Schema.forall_unify fun c hc s hs => fits_iff_alternatives.mp (hfits c hc) s hs

/-- The record over a union of two key types accepts the values that the records over both of them accept: what one of
them accepts stays accepted where the other key type makes no demand that fails. -/
theorem record_oneOf {k l : Schema} (hk : k.KeyType) (hl : l.KeyType) (value : Schema) (readonly : Bool)
    (a : Annotations) : ∃ r s t, Schema.record k value readonly = .ok r ∧ Schema.record l value readonly = .ok s ∧
      Schema.record (.oneOf [k, l] a) value readonly = .ok t ∧
      ∀ x, (∃ o, scope.Yields direction t x o ∧ o.isFailure = false) ↔
        (∃ o, scope.Yields direction r x o ∧ o.isFailure = false) ∧
          ∃ o, scope.Yields direction s x o ∧ o.isFailure = false := by
  have hall : ∀ c ∈ [k, l], c.KeyType := by simp [hk, hl]
  have accepts {u : Schema} {x : Value} : (∃ o, scope.Yields direction u x o ∧ o.isFailure = false) ↔
      scope.Passes direction true u x := by
    simp only [Passes, Outcome.passes_true]
  refine ⟨_, _, _, hk.record_eq value readonly, hl.record_eq value readonly,
    (Schema.keyType_oneOf hall a).record_eq value readonly, fun x => ?_⟩
  simp only [accepts, passes_record_iff, fits_oneOf_iff hall]
  constructor
  · rintro ⟨es, hx, hfits⟩
    exact ⟨⟨es, hx, hfits k (by simp)⟩, es, hx, hfits l (by simp)⟩
  · rintro ⟨⟨es, hx, hkx⟩, es', hx', hlx⟩
    obtain rfl := Option.some.inj (hx.symm.trans hx')
    exact ⟨es, hx, by simp [hkx, hlx]⟩

def prefixed : Schema := .template .empty "a" ⟨.string, .empty, ""⟩ []

def tags : Schema :=
  .union .empty [.keyword .empty .symbol, .refinement .empty (.word .string) (.constraint 0 (.minLength 2))]

/-- A text that both key types claim, a symbol that one of them claims, and a number that none claims. -/
theorem record_oneOf_tags :
    let scope := Stock.scope []
    let x : Value := .dict [(.text "ab", .int 1), (.symbol "s", .int 2), (.int 3, .null)]
    prefixed.KeyType ∧ tags.KeyType ∧
      ∃ t o, Schema.record (.oneOf [prefixed, tags] .empty) (.word .number) true = .ok t ∧
        scope.Yields .decode t x o ∧ o.isFailure = false := by
  intro scope x
  have hprefixed : prefixed.KeyType := .template ..
  have htags : tags.KeyType := .union _ <| by
    simp only [List.forall_mem_cons]
    exact ⟨.symbol _, .refinement _ _ (.string _), by simp⟩
  obtain ⟨r, s, t, hr, hs, ht, hiff⟩ :=
    @record_oneOf scope .decode prefixed tags hprefixed htags (.word .number) true .empty
  obtain rfl := Except.ok.inj ((hprefixed.record_eq _ _).symm.trans hr)
  obtain rfl := Except.ok.inj ((htags.record_eq _ _).symm.trans hs)
  obtain ⟨o, ho⟩ := (hiff x).mpr ⟨⟨_, ⟨0, rfl⟩, rfl⟩, ⟨_, ⟨0, rfl⟩, rfl⟩⟩
  exact ⟨hprefixed, htags, t, o, ht, ho⟩

/-- A wider key type can narrow the record: a text is only unexpected beside symbols, but its value must fit as soon as
texts are keys as well. -/
theorem record_symbol_not_widened :
    let scope := Stock.scope []
    let x : Value := .dict [(.text "a", .text "x")]
    (Schema.word .symbol).KeyType ∧ (Schema.word .string).KeyType ∧
      ∃ r t, Schema.record (.word .symbol) (.word .number) true = .ok r ∧
        Schema.record (.oneOf [.word .symbol, .word .string] .empty) (.word .number) true = .ok t ∧
        (∃ o, scope.Yields .decode r x o ∧ o.isFailure = false) ∧ ∃ o, scope.Yields .decode t x o ∧ o.isFailure := by
  intro scope x
  have hsymbol : (Schema.word .symbol).KeyType := .symbol _
  have hstring : (Schema.word .string).KeyType := .string _
  have hall : ∀ c ∈ [Schema.word .symbol, .word .string], c.KeyType := by simp [hsymbol, hstring]
  have hranked : Schema.ranked [.word .symbol, .word .string] = [.word .symbol, .word .string] :=
    List.mergeSort_of_pairwise (by decide)
  have hunion : Schema.oneOf [.word .symbol, .word .string] .empty =
      .union .empty [.word .symbol, .word .string] := congrArg (Schema.union .empty) hranked
  refine ⟨hsymbol, hstring, _, _, hsymbol.record_eq _ _, (Schema.keyType_oneOf hall .empty).record_eq _ _,
    ⟨_, ⟨0, rfl⟩, rfl⟩, ?_⟩
  rw [hunion]
  exact ⟨_, ⟨0, rfl⟩, rfl⟩

end Scope
end Schemata
