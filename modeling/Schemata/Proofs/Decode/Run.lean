import Schemata.Decode.Run
import Schemata.Proofs.Schema.Parts

/-!
The parser of a schema in terms of the parsers of its children, and induction along a run: on the fuel where a lazy
schema is unfolded, and on the children everywhere else.
-/
namespace Schemata

def Element.map {σ τ : Type} (f : σ → τ) (e : Element σ) : Element τ :=
  ⟨f e.type, e.optional⟩

def Rest.map {σ τ : Type} (f : σ → τ) (r : Rest σ) : Rest τ :=
  ⟨f r.head, r.trailing.map f⟩

def Property.map {σ τ : Type} (f : σ → τ) (p : Property σ) : Property τ :=
  ⟨p.name, f p.type, p.optional, p.readonly, p.annotations⟩

def IndexSignature.parsers {m : Type → Type} (f : Schema → Parser m) (i : IndexSignature Schema) :
    Struct.Index m :=
  ⟨i.parameter.isKeyword .symbol, f i.parameter, f i.type⟩

namespace Schema

section
variable {m : Type → Type} [Monad m] [MonadLiftT (Except Fault) m]
  (scope : Scope) (direction : Direction) (unfold : Handle → Parser m)

theorem parsers_eq_map (ss : List Schema) :
    parsers scope direction unfold ss = ss.map (parser scope direction unfold) := by
  induction ss with
  | nil => rfl
  | cons s ss ih =>
    rw [List.map_cons, ← ih]
    rfl

theorem elementParsers_eq_map (es : List (Element Schema)) :
    elementParsers scope direction unfold es = es.map (Element.map (parser scope direction unfold)) := by
  induction es with
  | nil => rfl
  | cons e es ih =>
    rw [List.map_cons, ← ih]
    rfl

theorem restParsers_eq_map (r : Option (Rest Schema)) :
    restParsers scope direction unfold r = r.map (Rest.map (parser scope direction unfold)) := by
  cases r with
  | none => rfl
  | some r =>
    rw [Option.map_some, Rest.map, ← parsers_eq_map]
    rfl

theorem propertyParsers_eq_map (ps : List (Property Schema)) :
    propertyParsers scope direction unfold ps = ps.map (Property.map (parser scope direction unfold)) := by
  induction ps with
  | nil => rfl
  | cons p ps ih =>
    rw [List.map_cons, ← ih]
    rfl

theorem indexParsers_eq_map (is : List (IndexSignature Schema)) :
    indexParsers scope direction unfold is =
      is.map (IndexSignature.parsers (parser scope direction unfold)) := by
  induction is with
  | nil => rfl
  | cons i is ih =>
    rw [List.map_cons, ← ih]
    rfl

theorem parser_tuple (a : Annotations) (es : List (Element Schema)) (r : Option (Rest Schema)) (o : Bool) :
    (tuple a es r o).parser scope direction unfold =
      Tuple.parse scope a (es.map (Element.map (parser scope direction unfold)))
        (r.map (Rest.map (parser scope direction unfold))) := by
  rw [← elementParsers_eq_map, ← restParsers_eq_map]
  rfl

theorem parser_struct (a : Annotations) (ps : List (Property Schema)) (is : List (IndexSignature Schema)) :
    (struct a ps is).parser scope direction unfold =
      Struct.parse scope a (ps.map (Property.map (parser scope direction unfold)))
        (is.map (IndexSignature.parsers (parser scope direction unfold))) := by
  rw [← propertyParsers_eq_map, ← indexParsers_eq_map]
  rfl

theorem parser_union (a : Annotations) (ss : List Schema) :
    (union a ss).parser scope direction unfold =
      Union.parse (ss.map weight) (ss.map (parser scope direction unfold)) := by
  rw [← parsers_eq_map]
  rfl

end

end Schema

namespace Scope
variable (scope : Scope) (direction : Direction)

section
variable (n : Nat) (a : Annotations)

theorem run_alias (ps : List Schema) (t : Schema) :
    scope.run direction n (.typeAlias a ps t) = scope.run direction n t :=
  rfl

theorem run_literal (x : Scalar) (v : Value) :
    scope.run direction n (.literal a x) v = .ok (scope.parseLiteral a x v) :=
  rfl

theorem run_uniqueSymbol (k : String) (v : Value) :
    scope.run direction n (.uniqueSymbol a k) v = .ok (scope.parseUniqueSymbol a k v) :=
  rfl

theorem run_keyword (w : Keyword) (v : Value) :
    scope.run direction n (.keyword a w) v = .ok (scope.parseKeyword direction a w v) :=
  rfl

theorem run_enums (ps : List (String × Value)) (v : Value) :
    scope.run direction n (.enums a ps) v = .ok (scope.parseEnums a ps v) :=
  rfl

theorem run_template (h : String) (s : Span) (ss : List Span) (v : Value) :
    scope.run direction n (.template a h s ss) v = .ok (scope.parseTemplate a h (s :: ss) v) :=
  rfl

theorem run_tuple (es : List (Element Schema)) (r : Option (Rest Schema)) (o : Bool) :
    scope.run direction n (.tuple a es r o) =
      Tuple.parse scope a (es.map (Element.map (scope.run direction n)))
        (r.map (Rest.map (scope.run direction n))) :=
  Schema.parser_tuple ..

theorem run_struct (ps : List (Property Schema)) (is : List (IndexSignature Schema)) :
    scope.run direction n (.struct a ps is) =
      Struct.parse scope a (ps.map (Property.map (scope.run direction n)))
        (is.map (IndexSignature.parsers (scope.run direction n))) :=
  Schema.parser_struct ..

theorem run_union (ss : List Schema) :
    scope.run direction n (.union a ss) =
      Union.parse (ss.map Schema.weight) (ss.map (scope.run direction n)) :=
  Schema.parser_union ..

theorem run_refinement (s : Schema) (p : Predicate) :
    scope.run direction n (.refinement a s p) =
      Refinement.parse scope direction a p (scope.run direction n s) :=
  rfl

theorem run_transform (s t : Schema) (c : Conversion) :
    scope.run direction n (.transform a s t c) =
      Transform.parse scope direction c (scope.run direction n s) :=
  rfl

theorem run_lazy_zero (h : Handle) (v : Value) :
    scope.run direction 0 (.lazy a h) v = .error .endlessUnfolding :=
  rfl

theorem run_lazy_succ (h : Handle) (v : Value) :
    scope.run direction (n + 1) (.lazy a h) v = scope.force h >>= fun s => scope.run direction n s v :=
  rfl

end

/-- Induction along a run. -/
theorem runInduction {motive : Nat → Schema → Prop} (spent : ∀ a h, motive 0 (.lazy a h))
    (unfolded : ∀ n a h, (∀ s, scope.force h = .ok s → motive n s) → motive (n + 1) (.lazy a h))
    (node : ∀ n s, s.handle? = none → (∀ t ∈ s.children, motive n t) → motive n s) (n : Nat) (s : Schema) :
    motive n s := by
  induction n generalizing s with
  | zero =>
    induction s using Schema.childrenInduction with
    | step s ih =>
      cases s with
      | lazy a h => exact spent a h
      | _ => exact node 0 _ rfl ih
  | succ n ihn =>
    induction s using Schema.childrenInduction with
    | step s ih =>
      cases s with
      | lazy a h => exact unfolded n a h fun s _ => ihn s
      | _ => exact node (n + 1) _ rfl ih

end Scope
end Schemata
