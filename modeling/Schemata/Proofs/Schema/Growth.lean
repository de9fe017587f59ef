import Schemata.Schema.Tuple
import Mathlib.Data.List.Induction

/-!
Tuples grown piece by piece. Pieces can be appended one after another exactly when they stand in one of two orders, and
the first piece out of order is refused.
-/
namespace Schemata

/-- What can be appended to a tuple: a position, or items of one type, any number of them. -/
inductive Piece where
  | required (type : Schema)
  | optional (type : Schema)
  | repeated (type : Schema)

namespace Piece

def appendTo (s : Schema) : Piece → Except Fault Schema
  | required t => s.appendElement ⟨t, false⟩
  | optional t => s.appendElement ⟨t, true⟩
  | repeated t => s.appendRest t

def grow (ps : List Piece) : Except Fault Schema :=
  ps.foldlM appendTo (.tuple .empty [] none true)

/-- The two orders: required pieces, then optional ones, then perhaps a repeated one; or required pieces on both sides
of a repeated one. -/
inductive Shape : List Piece → Prop
  | positional (rs os : List Schema) (rest : Option Schema) :
      Shape (rs.map required ++ os.map optional ++ rest.toList.map repeated)
  | trailing (rs : List Schema) (rest : Schema) (ts : List Schema) :
      Shape (rs.map required ++ repeated rest :: ts.map required)

def positions (rs os : List Schema) : List (Element Schema) :=
  rs.map (fun t => ⟨t, false⟩) ++ os.map fun t => ⟨t, true⟩

theorem any_optional_positions (rs os : List Schema) :
    (positions rs os).any (fun e => e.optional) = !os.isEmpty := by
  cases os <;> simp [positions]

theorem grow_append (ps : List Piece) (p : Piece) : grow (ps ++ [p]) = grow ps >>= fun s => p.appendTo s := by
  simp only [grow, List.foldlM_append, List.foldlM_cons, List.foldlM_nil, bind_pure]

/-- Pieces of one kind, each of which adds its type to what the tuple is made of. -/
theorem foldlM_map (kind : Schema → Piece) (tuple : List Schema → Schema)
    (h : ∀ ts t, (kind t).appendTo (tuple ts) = .ok (tuple (ts ++ [t]))) (us ts : List Schema) :
    (ts.map kind).foldlM appendTo (tuple us) = .ok (tuple (us ++ ts)) := by
  induction ts generalizing us with
  | nil => simp [pure, Except.pure]
  | cons t ts ih =>
    rw [List.map_cons, List.foldlM_cons, h, List.append_cons us t ts]
    exact ih (us ++ [t])

/-- The tuple grown from positions and at most a repeated piece at the end. -/
theorem grow_positional (rs os : List Schema) (rest : Option Schema) :
    grow (rs.map required ++ os.map optional ++ rest.toList.map repeated) =
      .ok (.tuple .empty (positions rs os) (rest.map fun r => ⟨r, []⟩) true) := by
  have hr : (rs.map required).foldlM appendTo (.tuple .empty [] none true) =
      .ok (.tuple .empty (positions rs []) none true) :=
    foldlM_map required (fun ts => .tuple .empty (positions ts []) none true)
      (fun ts t => by simp [appendTo, Schema.appendElement, positions, pure, Except.pure]) [] rs
  have ho : (os.map optional).foldlM appendTo (.tuple .empty (positions rs []) none true) =
      .ok (.tuple .empty (positions rs os) none true) :=
    foldlM_map optional (fun ts => .tuple .empty (positions rs ts) none true)
      (fun ts t => by simp [appendTo, Schema.appendElement, positions, pure, Except.pure]) [] os
  simp only [grow, List.foldlM_append, hr, ho, bind, Except.bind]
  cases rest <;> rfl

/-- The tuple grown from required pieces around a repeated one. -/
theorem grow_trailing (rs : List Schema) (r : Schema) (ts : List Schema) :
    grow (rs.map required ++ repeated r :: ts.map required) =
      .ok (.tuple .empty (positions rs []) (some ⟨r, ts⟩) true) := by
  have hr := grow_positional rs [] (some r)
  have ht : (ts.map required).foldlM appendTo (.tuple .empty (positions rs []) (some ⟨r, []⟩) true) =
      .ok (.tuple .empty (positions rs []) (some ⟨r, ts⟩) true) :=
    foldlM_map required (fun ts => .tuple .empty (positions rs []) (some ⟨r, ts⟩) true)
      (fun ts t => by simp [appendTo, Schema.appendElement, any_optional_positions, pure, Except.pure]) [] ts
  have hsplit : rs.map required ++ repeated r :: ts.map required =
      (rs.map required ++ ([] : List Schema).map optional ++ (some r).toList.map repeated) ++ ts.map required := by
    simp
  rw [hsplit, grow, List.foldlM_append, ← grow, hr]
  exact ht

inductive Lays : List Piece → List (Element Schema) → Option (Rest Schema) → Prop
  | nil : Lays [] [] none
  | run (r : Schema) (ts : List Schema) : Lays (repeated r :: ts.map required) [] (some ⟨r, ts⟩)
  | required (t : Schema) {ps : List Piece} {es : List (Element Schema)} {rest : Option (Rest Schema)}
      (h : Lays ps es rest) : Lays (required t :: ps) (⟨t, false⟩ :: es) rest
  | optional (t : Schema) {ps : List Piece} {es : List (Element Schema)} {rest : Option (Rest Schema)}
      (h : Lays ps es rest) : Lays (optional t :: ps) (⟨t, true⟩ :: es) rest

theorem Lays.positions {ps : List Piece} {rest : Option (Rest Schema)} (h : Lays ps [] rest) (rs os : List Schema) :
    Lays (rs.map .required ++ os.map .optional ++ ps) (positions rs os) rest := by
  have ho : Lays (os.map .optional ++ ps) (Piece.positions [] os) rest := by
    induction os with
    | nil => exact h
    | cons o os ih => exact .optional o ih
  rw [List.append_assoc]
  induction rs with
  | nil => exact ho
  | cons r rs ih => exact .required r ih

theorem Shape.grows {ps : List Piece} (h : Shape ps) :
    ∃ es rest, grow ps = .ok (.tuple .empty es rest true) ∧ Lays ps es rest := by
  cases h with
  | positional rs os rest =>
    refine ⟨_, _, grow_positional rs os rest, ?_⟩
    cases rest with
    | none => exact Lays.nil.positions rs os
    | some r => exact (Lays.run r []).positions rs os
  | trailing rs r ts =>
    refine ⟨_, _, grow_trailing rs r ts, ?_⟩
    simpa using (Lays.run r ts).positions rs []

theorem refuses_required (t : Schema) {a : Annotations} {rs os : List Schema} (h : os ≠ [])
    (rest : Option (Rest Schema)) (readonly : Bool) :
    appendTo (.tuple a (positions rs os) rest readonly) (required t) =
      .error (.schema .requiredAfterOptional) := by
  have hany : ((positions rs os).any fun e => e.optional) = true := by
    simpa [any_optional_positions] using h
  simp only [appendTo, Schema.appendElement, hany, Bool.not_false, Bool.and_self, if_true]
  rfl

theorem refuses_optional (t : Schema) (a : Annotations) (es : List (Element Schema)) (r : Rest Schema)
    (readonly : Bool) :
    appendTo (.tuple a es (some r) readonly) (optional t) = .error (.schema .optionalAfterRest) := by
  simp only [appendTo, Schema.appendElement, Bool.not_true, Bool.and_false, Bool.false_eq_true, if_false, if_true]
  rfl

/-- A further piece either keeps the order or is refused. -/
theorem Shape.append {ps : List Piece} (h : Shape ps) (p : Piece) :
    Shape (ps ++ [p]) ∨ ∃ s e, grow ps = .ok s ∧ p.appendTo s = .error (.schema e) := by
  cases h with
  | positional rs os rest =>
    have hg := grow_positional rs os rest
    cases rest with
    | none =>
      cases p with
      | optional t =>
        have hs : Shape _ := .positional rs (os ++ [t]) none
        exact .inl (by simpa using hs)
      | repeated t =>
        have hs : Shape _ := .positional rs os (some t)
        exact .inl (by simpa using hs)
      | required t =>
        cases os with
        | nil =>
          have hs : Shape _ := .positional (rs ++ [t]) [] none
          exact .inl (by simpa using hs)
        | cons o os =>
          exact .inr ⟨_, .requiredAfterOptional, hg, refuses_required t (List.cons_ne_nil o os) _ _⟩
    | some r =>
      cases p with
      | repeated t => exact .inr ⟨_, .restAfterRest, hg, rfl⟩
      | optional t => exact .inr ⟨_, .optionalAfterRest, hg, refuses_optional t _ _ _ _⟩
      | required t =>
        cases os with
        | nil =>
          have hs : Shape _ := .trailing rs r [t]
          exact .inl (by simpa using hs)
        | cons o os =>
          exact .inr ⟨_, .requiredAfterOptional, hg, refuses_required t (List.cons_ne_nil o os) _ _⟩
  | trailing rs r ts =>
    have hg := grow_trailing rs r ts
    cases p with
    | repeated t => exact .inr ⟨_, .restAfterRest, hg, rfl⟩
    | optional t => exact .inr ⟨_, .optionalAfterRest, hg, refuses_optional t _ _ _ _⟩
    | required t =>
      have hs : Shape _ := .trailing rs r (ts ++ [t])
      exact .inl (by simpa using hs)

theorem shape_nil : Shape [] :=
  .positional [] [] none

/-- The induction is on the pieces from the last one on: what a longer sequence grows into, it grows through its
beginnings. -/
theorem shape_of_grow {ps : List Piece} {s : Schema} (h : grow ps = .ok s) : Shape ps := by
  induction ps using List.reverseRecOn generalizing s with
  | nil => exact shape_nil
  | append_singleton ps p ih =>
    rw [grow_append] at h
    cases hg : grow ps with
    | error f =>
      rw [hg] at h
      cases h
    | ok t =>
      rcases (ih hg).append p with hs | ⟨t', e, ht, he⟩
      · exact hs
      · obtain rfl := Except.ok.inj (hg.symm.trans ht)
        rw [hg] at h
        cases he.symm.trans h

theorem grow_ok_iff (ps : List Piece) : (∃ s, grow ps = .ok s) ↔ Shape ps := by
  constructor
  · exact fun ⟨_, h⟩ => shape_of_grow h
  · intro h
    obtain ⟨_, _, hg, _⟩ := h.grows
    exact ⟨_, hg⟩

/-- What is grown from pieces is the tuple they are laid out as. -/
theorem exists_lays {ps : List Piece} {s : Schema} (h : grow ps = .ok s) :
    ∃ es rest, s = .tuple .empty es rest true ∧ Lays ps es rest := by
  obtain ⟨es, rest, hg, hl⟩ := (shape_of_grow h).grows
  exact ⟨es, rest, Except.ok.inj (h.symm.trans hg), hl⟩

/-- Where the order is broken, there is a first piece that breaks it. -/
theorem exists_first_refused {ps : List Piece} (h : ¬Shape ps) :
    ∃ before p after s e, ps = before ++ p :: after ∧ Shape before ∧ ¬Shape (before ++ [p]) ∧
      grow before = .ok s ∧ p.appendTo s = .error (.schema e) ∧ grow ps = .error (.schema e) := by
  induction ps using List.reverseRecOn with
  | nil => exact absurd shape_nil h
  | append_singleton ps p ih =>
    by_cases hs : Shape ps
    · rcases hs.append p with hp | ⟨s, e, hg, he⟩
      · exact absurd hp h
      · refine ⟨ps, p, [], s, e, rfl, hs, h, hg, he, ?_⟩
        rw [grow_append, hg]
        exact he
    · obtain ⟨before, q, after, s, e, rfl, hb, hq, hg, he, hall⟩ := ih hs
      refine ⟨before, q, after ++ [p], s, e, by simp, hb, hq, hg, he, ?_⟩
      rw [grow_append, hall]
      rfl

end Piece
end Schemata
