import Schemata.Pattern.Parser
import Mathlib.Data.List.Basic

/-!
Reading a written pattern. Pieces are read one by one, and what is read does not depend on the fuel once there is enough
for the characters. An escaped text reads as the pattern of just this text.
-/
namespace Schemata.Pattern
variable {dotAll : Bool} {c d : Char} {s t rest tail : List Char} {p q r : Pattern} {n : Nat}

/-- With three steps of fuel for each character and two more, the text reads as a pattern up to what is left. -/
def Reads (dotAll : Bool) (s : List Char) (p : Pattern) (tail : List Char) : Prop :=
  ∀ n, 3 * s.length + 2 ≤ n → pieces? dotAll n s = some (p, tail)

theorem reads_nil : Reads dotAll [] empty [] := by
  intro n hn
  obtain ⟨n, rfl⟩ : ∃ k, n = k + 1 := ⟨n - 1, by omega⟩
  rfl

theorem reads_close : Reads dotAll (')' :: rest) empty (')' :: rest) := by
  intro n hn
  obtain ⟨n, rfl⟩ : ∃ k, n = k + 1 := ⟨n - 1, by omega⟩
  rfl

/-- A piece with its repetition stands in front of what is read behind it. -/
theorem pieces?_cons (hc : c ≠ '|' ∧ c ≠ ')') (hpiece : piece? dotAll n (c :: s) = some (p, t))
    (hmark : quantified? p t = some (q, rest)) (hrest : pieces? dotAll n rest = some (r, tail)) :
    pieces? dotAll (n + 1) (c :: s) = some (sequence q r, tail) := by
  rw [pieces?]
  · simp [hpiece, hmark, hrest]
  all_goals simp_all

theorem reads_cons (hc : c ≠ '|' ∧ c ≠ ')') (hpiece : ∀ n, piece? dotAll (n + 1) (c :: s) = some (p, t))
    (hmark : quantified? p t = some (q, rest)) (h : Reads dotAll rest r tail) (hlength : rest.length ≤ s.length) :
    Reads dotAll (c :: s) (sequence q r) tail := by
  intro n hn
  simp only [List.length_cons] at hn
  obtain ⟨n, rfl⟩ : ∃ k, n = k + 2 := ⟨n - 2, by omega⟩
  exact pieces?_cons hc (hpiece n) hmark (h _ (by omega))

/-- A group reads as what is read up to its closing parenthesis. -/
theorem reads_group (hbody : Reads dotAll s p (')' :: t)) (hmark : quantified? (sequence empty p) t = some (q, rest))
    (h : Reads dotAll rest r tail) (hlength : rest.length ≤ s.length) :
    Reads dotAll ('(' :: '?' :: ':' :: s) (sequence q r) tail := by
  intro n hn
  simp only [List.length_cons] at hn
  obtain ⟨n, rfl⟩ : ∃ k, n = k + 3 := ⟨n - 3, by omega⟩
  refine pieces?_cons (by decide) ?_ hmark (h _ (by omega))
  have hpieces : pieces? dotAll n s = some (p, ')' :: t) := hbody n (by omega)
  simp [piece?, groupKind?, alternatives?, hpieces]

theorem quantified?_of_bounds? (h : bounds? s = none) : quantified? p s = some (p, s) := by
  rw [quantified?, h]

theorem bounds?_eq_none (hc : c ∉ ['*', '+', '?', '\x7b']) : bounds? (c :: s) = none := by
  simp only [List.mem_cons, List.not_mem_nil, or_false, not_or] at hc
  obtain ⟨hstar, hplus, hquestion, hbrace⟩ := hc
  rw [bounds?]
  all_goals simp_all

theorem piece?_of_not_isSpecial (hc : isSpecial c = false) :
    piece? dotAll (n + 1) (c :: s) = some (char c, s) := by
  have hne {d : Char} (hd : isSpecial d) : c ≠ d := by
    rintro rfl
    rw [hc] at hd
    cases hd
  have hbounds : bounds? (c :: s) = none := bounds?_eq_none fun h => by
    simp only [List.mem_cons, List.not_mem_nil, or_false] at h
    rcases h with rfl | rfl | rfl | rfl <;> cases hc
  rw [piece?]
  · simp [hbounds]
  -- The characters that open something else are special.
  all_goals exact hne rfl

theorem piece?_of_isSpecial (hc : isSpecial c) : piece? dotAll (n + 1) ('\\' :: c :: s) = some (char c, s) := by
  rw [isSpecial, decide_eq_true_eq] at hc
  simp only [List.mem_cons, List.not_mem_nil, or_false] at hc
  rcases hc with rfl | rfl | rfl | rfl | rfl | rfl | rfl | rfl | rfl | rfl | rfl | rfl | rfl | rfl | rfl | rfl | rfl | rfl |
    rfl | rfl | rfl | rfl | rfl | rfl <;> rfl

theorem toList_escape (s : String) :
    (escape s).toList = s.toList.flatMap fun c => if isSpecial c then ['\\', c] else [c] :=
  String.toList_ofList

/-- No repetition starts where an escaped text does. -/
theorem bounds?_escape_append {s : String} (hrest : bounds? rest = none) :
    bounds? ((escape s).toList ++ rest) = none := by
  rw [toList_escape]
  cases s.toList with
  | nil => exact hrest
  | cons c cs =>
    rw [List.flatMap_cons]
    split
    · exact bounds?_eq_none (by decide)
    · rename_i hc
      refine bounds?_eq_none fun h => hc ?_
      simp only [List.mem_cons, List.not_mem_nil, or_false] at h
      rcases h with rfl | rfl | rfl | rfl <;> rfl

/-- An escaped text reads as its characters in front of what is read behind it. -/
theorem reads_escape {s : String} (h : Reads dotAll rest p tail) (hrest : bounds? rest = none) :
    Reads dotAll ((escape s).toList ++ rest) (literally s.toList p) tail := by
  have hbounds (t : String) := bounds?_escape_append (s := t) hrest
  simp only [toList_escape] at hbounds ⊢
  induction s.toList with
  | nil => exact h
  | cons c cs ih =>
    have hbehind := hbounds (.ofList cs)
    rw [String.toList_ofList] at hbehind
    have hmark := quantified?_of_bounds? (p := char c) hbehind
    rw [List.flatMap_cons, List.append_assoc, literally, List.foldr_cons, ← literally]
    split <;> rename_i hc
    · exact reads_cons (by decide) (fun n => piece?_of_isSpecial hc) hmark ih (by simp)
    · refine reads_cons ⟨?_, ?_⟩ (fun n => piece?_of_not_isSpecial (by simpa using hc)) hmark ih (Nat.le_refl _)
      · rintro rfl
        exact hc rfl
      · rintro rfl
        exact hc rfl

/-- A bracketed pair of characters reads as the set of the two. -/
theorem set?_pair (hc : c ∉ ['^', ']', '\\']) (hd : d ∉ [']', '\\']) :
    set? (c :: d :: ']' :: s) = some (oneOf [.range c c, .range d d], s) := by
  simp only [List.mem_cons, List.not_mem_nil, or_false, not_or] at hc hd
  by_cases hminus : d = '-'
  · simp [set?, setItems?, setItems?.member, setMember?, hc, hminus]
  · simp [set?, setItems?, setItems?.member, setMember?, hc, hd, hminus]

/-- What is read up to the end is the whole pattern. -/
theorem parse?_of_reads {s : String} (h : Reads dotAll s.toList p []) : parse? s dotAll = some p := by
  have hpieces : pieces? dotAll (3 * s.length + 2) s.toList = some (p, []) :=
    h _ (Nat.le_of_eq (by rw [String.length_toList]))
  simp [parse?, alternatives?, hpieces]

end Schemata.Pattern
