import Schemata.Text.Quoted
import Mathlib.Tactic.SplitIfs

/-!
Rendered texts can be read back. What a character becomes between double quotes gives the character again, whatever
follows it, and never starts with a quote. So a rendered text shows where it ends and which text it is.
-/
namespace Schemata.Text
variable {s t : List Char} {c : Char}

def hexValue (c : Char) : Nat :=
  if c.isDigit then c.toNat - '0'.toNat else c.toNat - 'a'.toNat + 10

def readHex (ds : List Char) : Nat :=
  ds.foldl (fun n d => 16 * n + hexValue d) 0

/-- Reads one character, be it escaped or not, and leaves what follows it. -/
def unescape : List Char → Option (Char × List Char)
  | [] => none
  | '\\' :: 'n' :: rest => some ('\n', rest)
  | '\\' :: 'r' :: rest => some ('\r', rest)
  | '\\' :: 't' :: rest => some ('\t', rest)
  | '\\' :: 'b' :: rest => some ('\x08', rest)
  | '\\' :: 'f' :: rest => some ('\x0c', rest)
  | '\\' :: 'u' :: rest => some (Char.ofNat (readHex (rest.take 4)), rest.drop 4)
  | '\\' :: c :: rest => some (c, rest)
  | c :: rest => some (c, rest)

/-- The characters that have no name of their own are few enough to go through. -/
theorem hexDigits_control : ∀ n < 0x20, (hexDigits 4 n).length = 4 ∧ readHex (hexDigits 4 n) = n := by
  decide

/-- What a character becomes is read as this character, whatever follows. -/
theorem unescape_escapeRendered (c : Char) (rest : List Char) :
    unescape (escapeRendered c ++ rest) = some (c, rest) := by
  unfold escapeRendered
  split_ifs with hquote hbackslash hline hreturn htab hbell hfeed hcontrol
  · subst hquote; rfl
  · subst hbackslash; rfl
  · subst hline; rfl
  · subst hreturn; rfl
  · subst htab; rfl
  · subst hbell; rfl
  · subst hfeed; rfl
  · obtain ⟨hlength, hvalue⟩ := hexDigits_control c.toNat hcontrol
    simp only [List.cons_append, unescape]
    rw [List.take_left' hlength, List.drop_left' hlength, hvalue, Char.ofNat_toNat]
  · -- A character that stands for itself is no backslash.
    rw [List.singleton_append, unescape.eq_9] <;> simp [hbackslash]

theorem escapeRendered_append_inj {d : Char} (h : escapeRendered c ++ s = escapeRendered d ++ t) : c = d ∧ s = t := by
  have hread := congrArg unescape h
  rw [unescape_escapeRendered, unescape_escapeRendered] at hread
  simpa using hread

/-- No character becomes something that starts with a quote. -/
theorem escapeRendered_append_ne (c : Char) (s t : List Char) : escapeRendered c ++ s ≠ '"' :: t := by
  intro h
  have hread : some (c, s) = some ('"', t) := (unescape_escapeRendered c s).symm.trans (congrArg unescape h)
  -- The only such character would be the quote, which is escaped.
  cases hread
  cases h

/-- The first quote that is not escaped ends a rendered text. -/
theorem flatMap_escapeRendered_inj {cs ds : List Char}
    (h : cs.flatMap escapeRendered ++ '"' :: s = ds.flatMap escapeRendered ++ '"' :: t) : cs = ds ∧ s = t := by
  induction cs generalizing ds with
  | nil =>
    cases ds with
    | nil => exact ⟨rfl, List.tail_eq_of_cons_eq h⟩
    | cons d ds =>
      rw [List.flatMap_cons, List.append_assoc] at h
      exact (escapeRendered_append_ne _ _ _ h.symm).elim
  | cons c cs ih =>
    rw [List.flatMap_cons, List.append_assoc] at h
    cases ds with
    | nil => exact (escapeRendered_append_ne _ _ _ h).elim
    | cons d ds =>
      rw [List.flatMap_cons, List.append_assoc] at h
      obtain ⟨rfl, hrest⟩ := escapeRendered_append_inj h
      obtain ⟨rfl, hst⟩ := ih hrest
      exact ⟨rfl, hst⟩

/-- A rendered text shows where it ends and which text it is. -/
theorem quoteRendered_append_inj {a b : String} (h : (quoteRendered a).toList ++ s = (quoteRendered b).toList ++ t) :
    a = b ∧ s = t := by
  simp only [quoteRendered, String.toList_ofList, List.cons_append, List.append_assoc] at h
  obtain ⟨hab, hst⟩ := flatMap_escapeRendered_inj (List.tail_eq_of_cons_eq h)
  exact ⟨String.toList_inj.mp hab, hst⟩

end Schemata.Text
