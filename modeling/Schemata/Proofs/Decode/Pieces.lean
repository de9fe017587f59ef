import Schemata.Proofs.Decode.Assignment
import Schemata.Proofs.Decode.Gather
import Schemata.Proofs.Decode.Fuel
import Schemata.Proofs.Lists
import Schemata.Proofs.Schema.Growth
import Schemata.Stock

/-!
What a tuple grown from pieces accepts. The parts of a tuple are counted from both ends of its items; the pieces it was
grown from take their items one after another. Both ways lead to the same items.
-/
namespace Schemata

namespace Tuple
variable {σ : Type} {clean : σ → Value → Prop} {es : List (Element σ)} {rest : Option (Rest σ)} {v : Value}
  {vs : List Value}

structure Fills (clean : σ → Value → Prop) (es : List (Element σ)) (rest : Option (Rest σ)) (vs : List Value) :
    Prop where
  gaps : gaps es rest vs.length = []
  items : List.Forall₂ (fun q v => ∃ t, q = some t ∧ clean t v) (assigned es rest vs.length) vs

/-- The first item goes to the first position. -/
theorem fills_cons_iff (e : Element σ) :
    Fills clean (e :: es) rest (v :: vs) ↔ clean e.type v ∧ Fills clean es rest vs := by
  have hassigned : assigned (e :: es) rest (v :: vs).length = some e.type :: assigned es rest vs.length := by
    simp [assigned]
  have hgaps : Tuple.gaps (e :: es) rest (v :: vs).length = [] ↔ Tuple.gaps es rest vs.length = [] := by
    simp [gaps_eq_nil_iff]
  constructor
  · rintro ⟨hg, hi⟩
    rw [hassigned, List.forall₂_cons] at hi
    obtain ⟨⟨t, ht, hv⟩, hi⟩ := hi
    obtain rfl := Option.some.inj ht
    exact ⟨hv, hgaps.mp hg, hi⟩
  · rintro ⟨hv, hg, hi⟩
    refine ⟨hgaps.mpr hg, ?_⟩
    rw [hassigned]
    exact .cons ⟨_, rfl, hv⟩ hi

/-- Without items every position must be optional. -/
theorem fills_nil_iff (e : Element σ) :
    Fills clean (e :: es) rest [] ↔ e.optional ∧ Fills clean es rest [] := by
  have hgaps : Tuple.gaps (e :: es) rest 0 = [] ↔ e.optional ∧ Tuple.gaps es rest 0 = [] := by
    simp [gaps_eq_nil_iff, and_assoc]
  have hassigned (fs : List (Element σ)) : assigned fs rest 0 = [] :=
    List.eq_nil_of_length_eq_zero (length_assigned fs rest 0)
  constructor
  · rintro ⟨hg, _⟩
    obtain ⟨he, hg⟩ := hgaps.mp hg
    exact ⟨he, hg, by rw [List.length_nil, hassigned]; exact .nil⟩
  · rintro ⟨he, hg, _⟩
    exact ⟨hgaps.mpr ⟨he, hg⟩, by rw [List.length_nil, hassigned]; exact .nil⟩

theorem fills_none_iff : Fills clean [] none vs ↔ vs = [] := by
  constructor
  · rintro ⟨_, hi⟩
    cases vs with
    | nil => rfl
    | cons v vs => simp [assigned, restAssigned, List.replicate_succ] at hi
  · rintro rfl
    exact ⟨rfl, .nil⟩

/-- A rest run takes the last items for its trailing parts, and the others for its head. -/
theorem fills_rest_iff (r : σ) (ts : List σ) : Fills clean [] (some ⟨r, ts⟩) vs ↔
    ∃ run ws, vs = run ++ ws ∧ (∀ v ∈ run, clean r v) ∧ List.Forall₂ clean ts ws := by
  have hitems {run ws : List Value} (hl : ts.length = ws.length) :
      List.Forall₂ (fun q v => ∃ t, q = some t ∧ clean t v) (assigned [] (some ⟨r, ts⟩) (run ++ ws).length)
        (run ++ ws) ↔ (∀ v ∈ run, clean r v) ∧ List.Forall₂ clean ts ws := by
    have ha : assigned [] (some ⟨r, ts⟩) (run ++ ws).length =
        List.replicate run.length (some r) ++ ts.map some := by
      simp [assigned, restAssigned, hl, List.take_of_length_le]
    rw [ha, Lists.forall₂_append_iff (by simp), Lists.forall₂_replicate_left]
    simp
  constructor
  · rintro ⟨hg, hi⟩
    have hl : ts.length ≤ vs.length := by simpa [gaps_eq_nil_iff] using hg
    obtain ⟨run, ws, rfl, hws⟩ : ∃ run ws, vs = run ++ ws ∧ ts.length = ws.length :=
      ⟨vs.take (vs.length - ts.length), vs.drop (vs.length - ts.length), (List.take_append_drop _ _).symm,
        by rw [List.length_drop]; omega⟩
    exact ⟨run, ws, rfl, (hitems hws).mp hi⟩
  · rintro ⟨run, ws, rfl, hr, hw⟩
    refine ⟨?_, (hitems hw.length_eq).mpr ⟨hr, hw⟩⟩
    have hl : ts.length ≤ run.length + ws.length := hw.length_eq ▸ Nat.le_add_left _ _
    simpa [gaps_eq_nil_iff] using hl

theorem clean_itemSteps_iff (i : Nat) (ps : List (Option (Parser (Except Fault)))) (vs : List Value)
    (h : ps.length = vs.length) : (∀ s ∈ itemSteps i ps vs, s.Clean) ↔
      List.Forall₂ (fun p v => ∃ q, p = some q ∧ ∃ w, q v = .ok (.success w)) ps vs := by
  induction vs generalizing i ps with
  | nil => simp [List.eq_nil_of_length_eq_zero h, itemSteps]
  | cons v vs ih =>
    cases ps with
    | nil => cases h
    | cons p ps =>
      rw [itemSteps, List.forall_mem_cons, ih (i + 1) ps (Nat.succ.inj h), List.forall₂_cons]
      cases p <;> simp [itemStep, Step.Clean]

/-- The steps of a tuple are clean when the items fill it cleanly. -/
theorem clean_steps_iff (f : σ → Parser (Except Fault)) :
    (∀ s ∈ steps (es.map (Element.map f)) (rest.map (Rest.map f)) vs, s.Clean) ↔
      Fills (fun t v => ∃ w, f t v = .ok (.success w)) es rest vs := by
  have hitems := clean_itemSteps_iff 0 ((assigned es rest vs.length).map (Option.map f)) vs
    (by rw [List.length_map, length_assigned])
  have hgaps : (∀ s ∈ (Tuple.gaps es rest vs.length).map gapStep, s.Clean) ↔
      Tuple.gaps es rest vs.length = [] := by
    simp [gapStep, Step.Clean, List.eq_nil_iff_forall_not_mem]
  rw [steps_map, List.forall_mem_append, hitems, hgaps, List.forall₂_map_left_iff]
  simp only [Option.map_eq_some_iff, exists_exists_and_eq_and]
  exact ⟨fun h => ⟨h.2, h.1⟩, fun h => ⟨h.items, h.gaps⟩⟩

theorem Fills.imp {clean' : σ → Value → Prop} (h : Fills clean es rest vs) (hc : ∀ t v, clean t v → clean' t v) :
    Fills clean' es rest vs where
  gaps := h.gaps
  items := h.items.imp fun _ _ ⟨t, ht, hv⟩ => ⟨t, ht, hc t _ hv⟩

end Tuple

namespace Piece

/-- The items split, in the order of the pieces: a required piece takes one item, an optional piece takes one or leaves
nothing to the pieces behind it, and a repeated piece takes any number. -/
inductive Splits (clean : Schema → Value → Prop) : List Piece → List Value → Prop
  | nil : Splits clean [] []
  | required {t : Schema} {v : Value} {ps : List Piece} {vs : List Value} (hv : clean t v)
      (h : Splits clean ps vs) : Splits clean (required t :: ps) (v :: vs)
  | present {t : Schema} {v : Value} {ps : List Piece} {vs : List Value} (hv : clean t v)
      (h : Splits clean ps vs) : Splits clean (optional t :: ps) (v :: vs)
  | absent {t : Schema} {ps : List Piece} (h : Splits clean ps []) : Splits clean (optional t :: ps) []
  | repeated {t : Schema} {run : List Value} {ps : List Piece} {vs : List Value} (hrun : ∀ v ∈ run, clean t v)
      (h : Splits clean ps vs) : Splits clean (repeated t :: ps) (run ++ vs)

section
variable {clean : Schema → Value → Prop} {t : Schema} {ps : List Piece} {v : Value} {vs : List Value}

theorem splits_nil_iff : Splits clean [] vs ↔ vs = [] := by
  constructor
  · rintro ⟨⟩
    rfl
  · rintro rfl
    exact .nil

theorem splits_required_cons_iff :
    Splits clean (required t :: ps) (v :: vs) ↔ clean t v ∧ Splits clean ps vs := by
  constructor
  · rintro ⟨⟩
    exact ⟨‹_›, ‹_›⟩
  · exact fun ⟨hv, h⟩ => .required hv h

theorem not_splits_required_nil : ¬Splits clean (required t :: ps) [] := by
  rintro ⟨⟩

theorem splits_optional_cons_iff :
    Splits clean (optional t :: ps) (v :: vs) ↔ clean t v ∧ Splits clean ps vs := by
  constructor
  · rintro ⟨⟩
    exact ⟨‹_›, ‹_›⟩
  · exact fun ⟨hv, h⟩ => .present hv h

theorem splits_optional_nil_iff : Splits clean (optional t :: ps) [] ↔ Splits clean ps [] := by
  constructor
  · rintro ⟨⟩
    assumption
  · exact .absent

theorem splits_repeated_iff : Splits clean (repeated t :: ps) vs ↔
    ∃ run ws, vs = run ++ ws ∧ (∀ v ∈ run, clean t v) ∧ Splits clean ps ws := by
  constructor
  · rintro ⟨⟩
    exact ⟨_, _, rfl, ‹_›, ‹_›⟩
  · rintro ⟨run, ws, rfl, hrun, h⟩
    exact .repeated hrun h

theorem splits_map_required_iff (ts : List Schema) :
    Splits clean (ts.map required) vs ↔ List.Forall₂ clean ts vs := by
  induction ts generalizing vs with
  | nil => simp [splits_nil_iff]
  | cons t ts ih =>
    cases vs with
    | nil => simp [not_splits_required_nil]
    | cons v vs => simp [splits_required_cons_iff, ih]

/-- The items that fill a tuple are those that split among the pieces it is laid out from. -/
theorem Lays.fills_iff_splits {es : List (Element Schema)} {rest : Option (Rest Schema)} (h : Lays ps es rest) :
    Tuple.Fills clean es rest vs ↔ Splits clean ps vs := by
  induction h generalizing vs with
  | nil => rw [Tuple.fills_none_iff, splits_nil_iff]
  | run r ts => simp only [Tuple.fills_rest_iff, splits_repeated_iff, splits_map_required_iff]
  | required t _ ih =>
    cases vs with
    | nil => simp [Tuple.fills_nil_iff, not_splits_required_nil]
    | cons v vs => rw [Tuple.fills_cons_iff, splits_required_cons_iff, ih]
  | optional t _ ih =>
    cases vs with
    | nil => simp [Tuple.fills_nil_iff, splits_optional_nil_iff, ih]
    | cons v vs => rw [Tuple.fills_cons_iff, splits_optional_cons_iff, ih]

end

end Piece

namespace Scope
variable {scope : Scope} {direction : Direction} {x : Value}

def Succeeds (scope : Scope) (direction : Direction) (s : Schema) (x : Value) : Prop :=
  ∃ v, scope.Yields direction s x (.success v)

theorem Succeeds.eventually {s : Schema} (h : scope.Succeeds direction s x) :
    ∀ᶠ n in Filter.atTop, ∃ v, scope.run direction n s x = .ok (.success v) := by
  obtain ⟨v, hv⟩ := h
  exact hv.eventually.mono fun _ hn => ⟨v, hn⟩

theorem run_tuple_success_iff {n : Nat} {a : Annotations} {es : List (Element Schema)}
    {rest : Option (Rest Schema)} {o : Bool} {zs : List Value} (hx : x.items? = some zs) :
    (∃ v, scope.run direction n (.tuple a es rest o) x = .ok (.success v)) ↔
      Tuple.Fills (fun t v => ∃ w, scope.run direction n t v = .ok (.success w)) es rest zs := by
  simp only [run_tuple, Tuple.parse_success_iff, hx, Option.some.injEq, exists_eq_left', exists_and_left,
    exists_eq, and_true]
  exact Tuple.clean_steps_iff (scope.run direction n)

/-- A tuple succeeds on the items that fill it. -/
theorem succeeds_tuple_iff {a : Annotations} {es : List (Element Schema)} {rest : Option (Rest Schema)} {o : Bool}
    {zs : List Value} (hx : x.items? = some zs) :
    scope.Succeeds direction (.tuple a es rest o) x ↔ Tuple.Fills (scope.Succeeds direction) es rest zs := by
  constructor
  · rintro ⟨v, n, hn⟩
    exact ((run_tuple_success_iff hx).mp ⟨v, hn⟩).imp fun t v ⟨w, hw⟩ => ⟨w, n, hw⟩
  · intro h
    -- The items need not all take the same fuel.
    have hitems := eventually_forall₂ (h.items.imp fun q v ⟨t, ht, hs⟩ => hs.eventually.mono fun n hn =>
      (⟨t, ht, hn⟩ : ∃ t, q = some t ∧ ∃ w, scope.run direction n t v = .ok (.success w)))
    obtain ⟨n, hn⟩ := hitems.exists
    obtain ⟨v, hv⟩ := (run_tuple_success_iff hx).mpr ⟨h.gaps, hn⟩
    exact ⟨v, n, hv⟩

end Scope

namespace Piece

/-- Building a tuple piece by piece and decoding with it agree. The builder takes the two orders only, and refuses the
first piece that breaks them; what it builds succeeds on the items that split among the pieces. -/
theorem grow_meaning (scope : Scope) (direction : Direction) (ps : List Piece) :
    ((∃ s, grow ps = .ok s) ↔ Shape ps) ∧
    (¬Shape ps → ∃ before p after s e, ps = before ++ p :: after ∧ Shape before ∧ ¬Shape (before ++ [p]) ∧
      grow before = .ok s ∧ p.appendTo s = .error (.schema e) ∧ grow ps = .error (.schema e)) ∧
    ∀ s, grow ps = .ok s → ∀ x zs, x.items? = some zs →
      (scope.Succeeds direction s x ↔ Splits (scope.Succeeds direction) ps zs) := by
  refine ⟨grow_ok_iff ps, exists_first_refused, fun s hs x zs hx => ?_⟩
  obtain ⟨es, rest, rfl, hl⟩ := exists_lays hs
  rw [Scope.succeeds_tuple_iff hx, hl.fills_iff_splits]

/-- A number, then texts, then a boolean; and an optional piece in front of a required one. -/
theorem grow_meaning_record :
    (∃ s, grow [required (.word .number), repeated (.word .string), required (.word .boolean)] = .ok s ∧
      (Stock.scope []).Succeeds .decode s (.list [.int 1, .text "a", .text "b", .bool true]) ∧
      ¬(Stock.scope []).Succeeds .decode s (.list [.int 1])) ∧
    ∃ before p after s e, [optional (.word .number), required (.word .string)] = before ++ p :: after ∧
      grow before = .ok s ∧ p.appendTo s = .error (.schema e) := by
  have hlegal := grow_meaning (Stock.scope []) .decode
    [required (.word .number), repeated (.word .string), required (.word .boolean)]
  have hbroken := grow_meaning (Stock.scope []) .decode [optional (.word .number), required (.word .string)]
  obtain ⟨s, hs⟩ := hlegal.1.mpr (.trailing [.word .number] (.word .string) [.word .boolean])
  refine ⟨⟨s, hs, (hlegal.2.2 s hs _ _ rfl).mpr ?_, fun h => ?_⟩, ?_⟩
  · have htexts : Splits ((Stock.scope []).Succeeds .decode) [repeated (.word .string), required (.word .boolean)]
        ([.text "a", .text "b"] ++ [.bool true]) := by
      refine .repeated (fun v hv => ?_) (.required ⟨.bool true, 0, rfl⟩ .nil)
      simp only [List.mem_cons, List.not_mem_nil, or_false] at hv
      rcases hv with rfl | rfl <;> exact ⟨_, 0, rfl⟩
    exact .required ⟨.int 1, 0, rfl⟩ htexts
  · have hrest := (splits_required_cons_iff.mp ((hlegal.2.2 s hs _ _ rfl).mp h)).2
    obtain ⟨run, ws, hnil, _, hw⟩ := splits_repeated_iff.mp hrest
    obtain ⟨rfl, rfl⟩ := List.append_eq_nil_iff.mp hnil.symm
    exact not_splits_required_nil hw
  · have hshape : ¬Shape [optional (.word .number), required (.word .string)] := fun h => by
      obtain ⟨_, hg⟩ := hbroken.1.mpr h
      cases hg
    obtain ⟨before, p, after, s, e, hps, _, _, hg, he, _⟩ := hbroken.2.1 hshape
    exact ⟨before, p, after, s, e, hps, hg, he⟩

end Piece
end Schemata
