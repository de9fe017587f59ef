import Schemata.Proofs.Pattern.Language
import Schemata.Proofs.Pattern.Reading
import Schemata.Proofs.Template.Match
import Mathlib.Data.List.Forall2

/-!
The pattern of a template: the characters of its head, and for each placeholder the pattern of what may stand there and
the characters of the literal behind it. The written pattern of the template reads as this pattern. Matching a template
decides its language, which is the language of the texts that can be cut into the head, the parts for the placeholders
and their literals.
-/
namespace Schemata

namespace Pattern
variable {s : List Char}

theorem contains_char_iff {c d : Char} : (CharItem.range c c).contains d ↔ d = c := by
  rw [CharItem.contains, Bool.and_eq_true, decide_eq_true_eq, decide_eq_true_eq]
  constructor
  · rintro ⟨hcd, hdc⟩
    exact Char.le_antisymm hdc hcd
  · rintro rfl
    exact ⟨Char.le_refl _, Char.le_refl _⟩

theorem matches_char_iff {c : Char} : (char c).Matches s ↔ s = [c] := by
  simp [char, matches_oneOf_iff, contains_char_iff]

theorem plain_literally (cs : List Char) {p : Pattern} (hp : p.Plain) : (literally cs p).Plain := by
  induction cs with
  | nil => exact hp
  | cons c cs ih => exact .sequence (.oneOf _) ih

theorem matches_literally_iff {cs : List Char} {p : Pattern} :
    (literally cs p).Matches s ↔ ∃ t, p.Matches t ∧ s = cs ++ t := by
  induction cs generalizing s with
  | nil => simp [literally]
  | cons c cs ih =>
    rw [literally, List.foldr_cons, ← literally, matches_sequence_iff]
    simp only [matches_char_iff, ih]
    constructor
    · rintro ⟨_, _, rfl, ⟨t, ht, rfl⟩, rfl⟩
      exact ⟨t, ht, rfl⟩
    · rintro ⟨t, ht, rfl⟩
      exact ⟨_, _, rfl, ⟨t, ht, rfl⟩, rfl⟩

/-! ### Numbers -/

theorem matches_digits_iff {least : Nat} : (digits least).Matches s ↔ least ≤ s.length ∧ Text.Digits s := by
  rw [digits, matches_run_iff fun _ => matches_oneOf_iff]
  simp [CharItem.contains, CharClass.contains, Text.Digits]

theorem matches_sign_iff : sign.Matches s ↔ Text.Sign s := by
  rw [sign, matches_optional_iff, matches_oneOf_iff, Text.Sign]
  refine or_congr_right ?_
  simp only [List.any_cons, List.any_nil, Bool.or_false, Bool.or_eq_true, contains_char_iff]
  constructor
  · rintro ⟨c, rfl, rfl | rfl⟩
    · exact .inl rfl
    · exact .inr rfl
  · rintro (rfl | rfl)
    · exact ⟨_, rfl, .inl rfl⟩
    · exact ⟨_, rfl, .inr rfl⟩

theorem matches_exponentLetter_iff : (oneOf [.range 'E' 'E', .range 'e' 'e']).Matches s ↔
    ∃ c, s = [c] ∧ (c = 'e' ∨ c = 'E') := by
  rw [matches_oneOf_iff]
  simp only [List.any_cons, List.any_nil, Bool.or_false, Bool.or_eq_true, contains_char_iff, or_comm]

theorem matches_exponent_iff : exponent.Matches s ↔ Text.Exponent s := by
  rw [exponent, matches_optional_iff]
  constructor
  · rintro (rfl | h)
    · exact .none
    · obtain ⟨_, _, hgroup, h₁, rfl⟩ := matches_sequence_iff.mp h
      obtain ⟨_, _, hletter, h₂, rfl⟩ := matches_sequence_iff.mp h₁
      obtain ⟨_, _, hsign, h₃, rfl⟩ := matches_sequence_iff.mp h₂
      obtain ⟨_, _, hdigits, hend, rfl⟩ := matches_sequence_iff.mp h₃
      obtain rfl := matches_empty_iff.mp hgroup
      obtain ⟨c, rfl, hc⟩ := matches_exponentLetter_iff.mp hletter
      obtain ⟨hpos, hdigits⟩ := matches_digits_iff.mp hdigits
      obtain rfl := matches_empty_iff.mp hend
      simpa using .some hc (matches_sign_iff.mp hsign) hdigits (List.length_pos_iff.mp hpos)
  · rintro (_ | ⟨hletter, hsign, hdigits, hne⟩)
    · exact .inl rfl
    · have hdigits := matches_digits_iff.mpr ⟨List.length_pos_iff.mpr hne, hdigits⟩
      have h := Matches.sequence .empty (.sequence (matches_exponentLetter_iff.mpr ⟨_, rfl, hletter⟩)
        (.sequence (matches_sign_iff.mpr hsign) (.sequence hdigits .empty)))
      exact .inr (by simpa using h)

/-- The pattern of numbers takes what the grammar of numbers describes, part by part. -/
theorem matches_number_iff : number.Matches s ↔ Text.NumberForm s := by
  constructor
  · intro h
    obtain ⟨_, _, hsign, h₁, rfl⟩ := matches_sequence_iff.mp h
    obtain ⟨_, _, hwhole, h₂, rfl⟩ := matches_sequence_iff.mp h₁
    obtain ⟨_, _, hpoint, h₃, rfl⟩ := matches_sequence_iff.mp h₂
    obtain ⟨_, _, hfraction, h₄, rfl⟩ := matches_sequence_iff.mp h₃
    obtain ⟨_, _, hexponent, hend, rfl⟩ := matches_sequence_iff.mp h₄
    obtain ⟨-, hwhole⟩ := matches_digits_iff.mp hwhole
    obtain ⟨hpos, hfraction⟩ := matches_digits_iff.mp hfraction
    rw [matches_optional_iff, matches_char_iff] at hpoint
    obtain rfl := matches_empty_iff.mp hend
    rw [List.append_nil]
    exact .mk (matches_sign_iff.mp hsign) hwhole hpoint hfraction (List.length_pos_iff.mp hpos)
      (matches_exponent_iff.mp hexponent)
  · rintro ⟨hsign, hwhole, hpoint, hfraction, hne, hexponent⟩
    rw [← matches_char_iff, ← matches_optional_iff] at hpoint
    have hwhole := matches_digits_iff.mpr ⟨Nat.zero_le _, hwhole⟩
    have hfraction := matches_digits_iff.mpr ⟨List.length_pos_iff.mpr hne, hfraction⟩
    have h := Matches.sequence (matches_sign_iff.mpr hsign) (.sequence hwhole (.sequence hpoint
      (.sequence hfraction (.sequence (matches_exponent_iff.mpr hexponent) .empty))))
    rwa [List.append_nil] at h

theorem plain_number : number.Plain := by
  have hset (items : List CharItem) : (oneOf items).Plain := .oneOf items
  have hoptional {p : Pattern} (hp : p.Plain) : (copies p 0 (some 1)).Plain := .copies hp (by simp)
  have hdigits (least : Nat) : (digits least).Plain := .copies (hset _) nofun
  have hexponent : exponent.Plain :=
    hoptional (.sequence .empty (.sequence (hset _) (.sequence (hoptional (hset _)) (.sequence (hdigits 1) .empty))))
  exact .sequence (hoptional (hset _)) (.sequence (hdigits 0) (.sequence (hoptional (hset _))
    (.sequence (hdigits 1) (.sequence hexponent .empty))))

end Pattern

/-! ### Templates -/

theorem Slot.plain_pattern (slot : Slot) : slot.pattern.Plain := by
  cases slot with
  | string => exact .sequence (.copies (.noneOf []) nofun) .empty
  | number => exact Pattern.plain_number

theorem Slot.matches_pattern_iff {slot : Slot} {s : List Char} : slot.pattern.Matches s ↔ slot.Admits s := by
  cases slot with
  | string =>
    refine iff_of_true ?_ trivial
    have hrun : (Pattern.copies (.noneOf []) 0 none).Matches s :=
      (Pattern.matches_run_iff fun _ => Pattern.matches_noneOf_iff).mpr ⟨Nat.zero_le _, fun _ _ => rfl⟩
    exact Pattern.matches_sequence_iff.mpr ⟨s, [], hrun, .empty, (List.append_nil s).symm⟩
  | number => exact Pattern.matches_number_iff

/-- The written pattern of numbers reads as the pattern of numbers. -/
theorem Pattern.reads_number (rest : List Char) :
    Reads true (Slot.number.written.toList ++ ')' :: rest) number (')' :: rest) := by
  have hset {c d : Char} (hc : c ∉ ['^', ']', '\\']) (hd : d ∉ [']', '\\']) (t : List Char) (n : Nat) :
      piece? true (n + 1) ('[' :: c :: d :: ']' :: t) = some (oneOf [.range c c, .range d d], t) := set?_pair hc hd
  have hletter := hset (c := 'E') (d := 'e') (by decide) (by decide)
  have hsign := hset (c := '+') (d := '-') (by decide) (by decide)
  have hdigit (t : List Char) (n : Nat) : piece? true (n + 1) ('\\' :: 'd' :: t) = some (oneOf [.of .digit], t) := rfl
  have hpoint (t : List Char) (n : Nat) : piece? true (n + 1) ('\\' :: '.' :: t) = some (char '.', t) := rfl
  have hgroup : Reads true ('[' :: 'E' :: 'e' :: ']' :: '[' :: '+' :: '-' :: ']' :: '?' :: '\\' :: 'd' :: '+' :: ')' :: '?' ::
      ')' :: rest) (sequence (oneOf [.range 'E' 'E', .range 'e' 'e']) (sequence sign (sequence (digits 1) empty)))
      (')' :: '?' :: ')' :: rest) := by
    refine reads_cons (by decide) (hletter _) rfl ?_ (by simp)
    refine reads_cons (by decide) (hsign _) rfl ?_ (by simp)
    exact reads_cons (by decide) (hdigit _) rfl reads_close (by simp)
  have htext : Slot.number.written.toList = ['[', '+', '-', ']', '?', '\\', 'd', '*', '\\', '.', '?', '\\', 'd', '+', '(',
      '?', ':', '[', 'E', 'e', ']', '[', '+', '-', ']', '?', '\\', 'd', '+', ')', '?'] := by decide
  rw [htext]
  refine reads_cons (by decide) (hsign _) rfl ?_ (by simp)
  refine reads_cons (by decide) (hdigit _) rfl ?_ (by simp)
  refine reads_cons (by decide) (hpoint _) rfl ?_ (by simp)
  refine reads_cons (by decide) (hdigit _) rfl ?_ (by simp)
  exact reads_group hgroup rfl reads_close (by simp)

/-- In front of a closing parenthesis the written pattern of a slot reads as its pattern. -/
theorem Slot.reads_written (slot : Slot) (rest : List Char) :
    Pattern.Reads true (slot.written.toList ++ ')' :: rest) slot.pattern (')' :: rest) := by
  cases slot with
  | string =>
    have h : Pattern.Reads true ('.' :: '*' :: '?' :: ')' :: rest) string.pattern (')' :: rest) :=
      Pattern.reads_cons (by decide) (fun _ => rfl) rfl Pattern.reads_close (by simp)
    exact h
  | number => exact Pattern.reads_number rest

theorem Span.toList_written (s : Span) : s.written.toList =
    '(' :: '?' :: ':' :: (s.slot.written.toList ++ ')' :: (Pattern.escape s.literal).toList) := by
  simp [written]

namespace Template
variable {head : String} {spans : List Span} {s : String}

theorem plain_pattern (head : String) (spans : List Span) : (pattern head spans).Plain := by
  refine Pattern.plain_literally _ ?_
  induction spans with
  | nil => exact .empty
  | cons span spans ih => exact .sequence (.sequence .empty span.slot.plain_pattern) (Pattern.plain_literally _ ih)

theorem matches_spansPattern_iff {t : List Char} : (spansPattern spans).Matches t ↔ Fills spans t := by
  induction spans generalizing t with
  | nil => rw [spansPattern, Pattern.matches_empty_iff, fills_nil_iff]
  | cons span spans ih =>
    simp only [spansPattern, Pattern.matches_sequence_iff, Pattern.matches_empty_iff, Slot.matches_pattern_iff,
      Pattern.matches_literally_iff, ih, fills_cons_iff]
    constructor
    · rintro ⟨part, _, ⟨_, t, rfl, ht, hpart⟩, ⟨rest, hrest, rfl⟩, rfl⟩
      exact ⟨part, rest, hpart ▸ ht, hrest, rfl⟩
    · rintro ⟨t, rest, ht, hrest, rfl⟩
      exact ⟨t, _, ⟨[], t, rfl, ht, (List.nil_append t).symm⟩, ⟨rest, hrest, rfl⟩, rfl⟩

theorem matches_pattern_iff : (pattern head spans).Matches s.toList ↔ accepts head spans s := by
  rw [pattern, Pattern.matches_literally_iff, accepts_iff]
  simp only [matches_spansPattern_iff]

theorem reads_spans (spans : List Span) :
    Pattern.Reads true (spans.flatMap fun s => s.written.toList) (spansPattern spans) [] ∧
      Pattern.bounds? (spans.flatMap fun s => s.written.toList) = none := by
  induction spans with
  | nil => exact ⟨Pattern.reads_nil, rfl⟩
  | cons span spans ih =>
    have hliteral := Pattern.reads_escape (s := span.literal) ih.1 ih.2
    have hbounds := Pattern.bounds?_escape_append (s := span.literal) ih.2
    have hgroup := Pattern.reads_group (span.slot.reads_written _) (Pattern.quantified?_of_bounds? hbounds) hliteral
      (by simp only [List.length_append, List.length_cons]; omega)
    rw [List.flatMap_cons, span.toList_written]
    simp only [List.cons_append, List.append_assoc]
    exact ⟨hgroup, rfl⟩

/-- The written pattern of a template reads as its pattern. -/
theorem parse?_written (head : String) (spans : List Span) :
    Pattern.parse? (written head spans) true = some (pattern head spans) := by
  obtain ⟨hspans, hbounds⟩ := reads_spans spans
  refine Pattern.parse?_of_reads ?_
  rw [written, String.toList_append, String.toList_join, List.flatMap_map]
  exact Pattern.reads_escape hspans hbounds

def assembled (spans : List Span) (parts : List String) : String :=
  String.join (List.zipWith (fun span part => part ++ span.literal) spans parts)

theorem fills_iff_parts {t : List Char} :
    Fills spans t ↔ ∃ parts, List.Forall₂ (fun span part => span.slot.Admits part.toList) spans parts ∧
      t = (assembled spans parts).toList := by
  induction spans generalizing t with
  | nil => simp [fills_nil_iff, List.forall₂_nil_left_iff, assembled]
  | cons span spans ih =>
    simp only [fills_cons_iff, ih, List.forall₂_cons_left_iff]
    constructor
    · rintro ⟨t, _, ht, ⟨parts, hparts, rfl⟩, rfl⟩
      exact ⟨.ofList t :: parts, ⟨_, _, by rwa [String.toList_ofList], hparts, rfl⟩, by simp [assembled]⟩
    · rintro ⟨_, ⟨part, parts, hpart, hparts, rfl⟩, rfl⟩
      exact ⟨part.toList, _, hpart, ⟨parts, hparts, rfl⟩, by simp [assembled]⟩

/-- A template accepts the texts that consist of its head and of one part for each placeholder, followed by the literal
of that placeholder; a part is any text at all, or the text of a number. These are the texts that the pattern of the
template takes, whether by the meaning of patterns or by a search for the whole text, and the pattern is the one that the
written pattern of the template reads as. -/
theorem accepts_iff_parts :
    (accepts head spans s ↔ ∃ parts, List.Forall₂ (fun span part => span.slot.Admits part.toList) spans parts ∧
      s = head ++ assembled spans parts) ∧
    (accepts head spans s ↔ (pattern head spans).Matches s.toList) ∧
    (accepts head spans s = (pattern head spans).takes s) ∧
    Pattern.parse? (written head spans) true = some (pattern head spans) := by
  refine ⟨?_, matches_pattern_iff.symm, ?_, parse?_written head spans⟩
  · simp only [accepts_iff, fills_iff_parts, ← String.toList_inj, String.toList_append]
    constructor
    · rintro ⟨_, ⟨parts, hparts, rfl⟩, hs⟩
      exact ⟨parts, hparts, hs⟩
    · rintro ⟨parts, hparts, hs⟩
      exact ⟨_, ⟨parts, hparts, rfl⟩, hs⟩
  · rw [Bool.eq_iff_iff, Pattern.takes_iff (plain_pattern head spans), matches_pattern_iff]

end Template
end Schemata
