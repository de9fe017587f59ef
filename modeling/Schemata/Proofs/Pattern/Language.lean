import Schemata.Pattern.Search
import Mathlib.Data.List.Basic

/-!
The language of a pattern, and that searching decides it. Where a pattern asks for nothing but characters, which texts
it takes does not depend on what stands around them. A search follows all ways through the text at once; of copies
without an upper limit, those that take nothing can be left out, so that it need not look for more than there are
characters.
-/
namespace Schemata.Pattern
variable {p q : Pattern} {s t : List Char} {text : Array Char} {i j n : Nat}

/-- The texts that a pattern takes as a whole. Anchors and lookahead, which are about what stands around a text, take
none. -/
inductive Matches : Pattern → List Char → Prop
  | empty : Matches empty []
  | oneOf {items : List CharItem} {c : Char} (h : items.any (·.contains c)) : Matches (oneOf items) [c]
  | noneOf {items : List CharItem} {c : Char} (h : items.any (·.contains c) = false) : Matches (noneOf items) [c]
  | sequence {p q : Pattern} {s t : List Char} (hs : Matches p s) (ht : Matches q t) : Matches (sequence p q) (s ++ t)
  | first {p q : Pattern} {s : List Char} (hs : Matches p s) : Matches (choice p q) s
  | second {p q : Pattern} {s : List Char} (hs : Matches q s) : Matches (choice p q) s
  | copies {p : Pattern} {least : Nat} {most : Option Nat} {parts : List (List Char)}
      (h : ∀ s ∈ parts, Matches p s) (hl : least ≤ parts.length) (hm : ∀ m ∈ most, parts.length ≤ m) :
      Matches (copies p least most) parts.flatten

theorem matches_empty_iff : empty.Matches s ↔ s = [] := by
  constructor
  · intro h
    cases h
    rfl
  · rintro rfl
    exact .empty

theorem matches_oneOf_iff {items : List CharItem} :
    (oneOf items).Matches s ↔ ∃ c, s = [c] ∧ items.any (·.contains c) := by
  constructor
  · intro h
    cases h with
    | oneOf h => exact ⟨_, rfl, h⟩
  · rintro ⟨c, rfl, h⟩
    exact .oneOf h

theorem matches_noneOf_iff {items : List CharItem} :
    (noneOf items).Matches s ↔ ∃ c, s = [c] ∧ items.any (·.contains c) = false := by
  constructor
  · intro h
    cases h with
    | noneOf h => exact ⟨_, rfl, h⟩
  · rintro ⟨c, rfl, h⟩
    exact .noneOf h

theorem matches_sequence_iff : (sequence p q).Matches s ↔ ∃ t u, p.Matches t ∧ q.Matches u ∧ s = t ++ u := by
  constructor
  · intro h
    cases h with
    | sequence hs ht => exact ⟨_, _, hs, ht, rfl⟩
  · rintro ⟨t, u, ht, hu, rfl⟩
    exact .sequence ht hu

theorem matches_choice_iff : (choice p q).Matches s ↔ p.Matches s ∨ q.Matches s := by
  constructor
  · intro h
    cases h with
    | first h => exact .inl h
    | second h => exact .inr h
  · rintro (h | h)
    · exact .first h
    · exact .second h

theorem length_le_length_flatten {parts : List (List Char)} (h : ∀ t ∈ parts, t ≠ []) :
    parts.length ≤ parts.flatten.length := by
  induction parts with
  | nil => simp
  | cons t parts ih =>
    rw [List.forall_mem_cons] at h
    have hpos := List.length_pos_iff.mpr h.1
    have hrest := ih h.2
    rw [List.length_cons, List.flatten_cons, List.length_append]
    omega

theorem matches_copies_iff {least : Nat} {most : Option Nat} :
    (copies p least most).Matches s ↔
      ∃ parts : List (List Char), (∀ t ∈ parts, p.Matches t) ∧ least ≤ parts.length ∧
        (∀ m ∈ most, parts.length ≤ m) ∧ s = parts.flatten := by
  constructor
  · intro h
    cases h with
    | copies h hl hm => exact ⟨_, h, hl, hm, rfl⟩
  · rintro ⟨parts, h, hl, hm, rfl⟩
    exact .copies h hl hm

/-- A piece that may be missing. -/
theorem matches_optional_iff : (copies p 0 (some 1)).Matches s ↔ s = [] ∨ p.Matches s := by
  rw [matches_copies_iff]
  constructor
  · rintro ⟨parts, h, -, hm, rfl⟩
    rcases parts with _ | ⟨t, _ | ⟨u, parts⟩⟩
    · exact .inl rfl
    · simpa using .inr (h t List.mem_cons_self)
    · simp at hm
  · rintro (rfl | h)
    · exact ⟨[], by simp⟩
    · exact ⟨[s], by simpa using h⟩

/-- Any number of characters of a sort, but no fewer than the given number. -/
theorem matches_run_iff {sort : Char → Prop} {least : Nat} (h : ∀ s, p.Matches s ↔ ∃ c, s = [c] ∧ sort c) :
    (copies p least none).Matches s ↔ least ≤ s.length ∧ ∀ c ∈ s, sort c := by
  simp only [matches_copies_iff, h]
  constructor
  · rintro ⟨parts, hparts, hl, -, rfl⟩
    have hne : ∀ t ∈ parts, t ≠ [] := by
      intro t ht
      obtain ⟨c, rfl, -⟩ := hparts t ht
      exact List.cons_ne_nil _ _
    refine ⟨Nat.le_trans hl (length_le_length_flatten hne), fun c hc => ?_⟩
    obtain ⟨t, ht, hct⟩ := List.mem_flatten.mp hc
    obtain ⟨d, rfl, hd⟩ := hparts t ht
    exact List.mem_singleton.mp hct ▸ hd
  · rintro ⟨hl, hs⟩
    refine ⟨s.map fun c => [c], ?_, by simpa using hl, nofun, ?_⟩
    · intro t ht
      obtain ⟨c, hc, rfl⟩ := List.mem_map.mp ht
      exact ⟨c, rfl, hs c hc⟩
    · rw [← List.flatMap_def, List.flatMap_singleton']

/-! ### Ways through a text -/

def Steps (step : Nat → List Nat) : Nat → Nat → Nat → Prop
  | 0, i, j => j = i
  | n + 1, i, j => ∃ k ∈ step i, Steps step n k j

section
variable {step : Nat → List Nat} {at_ : List Nat}

theorem steps_add {m : Nat} : Steps step (m + n) i j ↔ ∃ k, Steps step m i k ∧ Steps step n k j := by
  induction m generalizing i with
  | zero => simp [Steps]
  | succ m ih =>
    rw [Nat.succ_add, Steps]
    simp only [ih, Steps]
    constructor
    · rintro ⟨k, hk, l, hl, hj⟩
      exact ⟨l, ⟨k, hk, hl⟩, hj⟩
    · rintro ⟨l, ⟨k, hk, hl⟩, hj⟩
      exact ⟨k, hk, l, hl, hj⟩

theorem mem_repeated : j ∈ repeated step n at_ ↔ ∃ i ∈ at_, Steps step n i j := by
  induction n generalizing at_ with
  | zero => simp [repeated, Steps]
  | succ n ih =>
    simp only [repeated, ih, List.mem_eraseDups, List.mem_flatMap, Steps]
    constructor
    · rintro ⟨k, ⟨i, hi, hk⟩, hj⟩
      exact ⟨i, hi, k, hk, hj⟩
    · rintro ⟨i, hi, k, hk, hj⟩
      exact ⟨k, ⟨i, hi, hk⟩, hj⟩

theorem mem_reachable : j ∈ reachable step n at_ ↔ ∃ i ∈ at_, ∃ m ≤ n, Steps step m i j := by
  induction n generalizing at_ with
  | zero => simp [reachable, Steps]
  | succ n ih =>
    simp only [reachable, ih, List.mem_eraseDups, List.mem_append, List.mem_flatMap]
    constructor
    · rintro ⟨k, hk | ⟨i, hi, hk⟩, m, hm, hj⟩
      · exact ⟨k, hk, m, by omega, hj⟩
      · exact ⟨i, hi, m + 1, by omega, k, hk, hj⟩
    · rintro ⟨i, hi, m, hm, hj⟩
      cases m with
      | zero => exact ⟨i, .inl hi, 0, by omega, hj⟩
      | succ m =>
        obtain ⟨k, hk, hj⟩ := hj
        exact ⟨k, .inr ⟨i, hi, hk⟩, m, by omega, hj⟩

end

def Covers (text : Array Char) (p : Pattern) (i j : Nat) : Prop :=
  ∃ t, p.Matches t ∧ t <+: text.toList.drop i ∧ j = i + t.length

def CoversInParts (text : Array Char) (p : Pattern) (n i j : Nat) : Prop :=
  ∃ parts : List (List Char), parts.length = n ∧ (∀ t ∈ parts, p.Matches t) ∧ parts.flatten <+: text.toList.drop i ∧
    j = i + parts.flatten.length

theorem append_isPrefix_drop {l : List Char} : s ++ t <+: l.drop i ↔ s <+: l.drop i ∧ t <+: l.drop (i + s.length) := by
  constructor
  · rintro ⟨u, hu⟩
    refine ⟨⟨t ++ u, by simpa using hu⟩, u, ?_⟩
    rw [← List.drop_drop, ← hu, List.append_assoc, List.drop_left]
  · rintro ⟨⟨u, hu⟩, v, hv⟩
    rw [← List.drop_drop, ← hu, List.drop_left] at hv
    exact ⟨v, by rw [← hu, ← hv, List.append_assoc]⟩

theorem covers_sequence_iff : Covers text (sequence p q) i j ↔ ∃ k, Covers text p i k ∧ Covers text q k j := by
  simp only [Covers, matches_sequence_iff]
  constructor
  · rintro ⟨_, ⟨s, t, hs, ht, rfl⟩, hpre, rfl⟩
    obtain ⟨hpre, hrest⟩ := append_isPrefix_drop.mp hpre
    exact ⟨_, ⟨s, hs, hpre, rfl⟩, t, ht, hrest, by rw [List.length_append, Nat.add_assoc]⟩
  · rintro ⟨_, ⟨s, hs, hpre, rfl⟩, t, ht, hrest, rfl⟩
    refine ⟨s ++ t, ⟨s, t, hs, ht, rfl⟩, append_isPrefix_drop.mpr ⟨hpre, hrest⟩, ?_⟩
    rw [List.length_append, Nat.add_assoc]

theorem covers_choice_iff : Covers text (choice p q) i j ↔ Covers text p i j ∨ Covers text q i j := by
  simp only [Covers, matches_choice_iff, or_and_right, exists_or]

theorem covers_copies_iff {least : Nat} {most : Option Nat} :
    Covers text (copies p least most) i j ↔
      ∃ n, least ≤ n ∧ (∀ m ∈ most, n ≤ m) ∧ CoversInParts text p n i j := by
  simp only [Covers, CoversInParts, matches_copies_iff]
  constructor
  · rintro ⟨_, ⟨parts, h, hl, hm, rfl⟩, hpre, rfl⟩
    exact ⟨parts.length, hl, hm, parts, rfl, h, hpre, rfl⟩
  · rintro ⟨_, hl, hm, parts, rfl, h, hpre, rfl⟩
    exact ⟨_, ⟨parts, h, hl, hm, rfl⟩, hpre, rfl⟩

/-- Each step goes through one copy. -/
theorem steps_iff_coversInParts (h : ∀ i j, j ∈ p.ends text i ↔ Covers text p i j) :
    Steps (p.ends text) n i j ↔ CoversInParts text p n i j := by
  induction n generalizing i with
  | zero =>
    constructor
    · rintro rfl
      exact ⟨[], by simp⟩
    · rintro ⟨parts, hlength, -, -, rfl⟩
      rw [List.eq_nil_of_length_eq_zero hlength]
      rfl
  | succ n ih =>
    simp only [Steps, h, ih]
    constructor
    · rintro ⟨_, ⟨t, ht, hpre, rfl⟩, parts, rfl, hparts, hrest, rfl⟩
      refine ⟨t :: parts, rfl, List.forall_mem_cons.mpr ⟨ht, hparts⟩, ?_, ?_⟩
      · exact append_isPrefix_drop.mpr ⟨hpre, hrest⟩
      · rw [List.flatten_cons, List.length_append, Nat.add_assoc]
    · rintro ⟨_ | ⟨t, parts⟩, hlength, hparts, hpre, rfl⟩
      · cases hlength
      · obtain ⟨ht, hrest⟩ := append_isPrefix_drop.mp hpre
        rw [List.forall_mem_cons] at hparts
        refine ⟨_, ⟨t, hparts.1, ht, rfl⟩, parts, Nat.succ.inj hlength, hparts.2, hrest, ?_⟩
        rw [List.flatten_cons, List.length_append, Nat.add_assoc]

/-- Beyond the copies that are asked for, those that take nothing are not needed. -/
theorem CoversInParts.shorten {least : Nat} (h : CoversInParts text p n i j) (hl : least ≤ n) :
    ∃ m ≤ text.size, CoversInParts text p (least + m) i j := by
  obtain ⟨parts, rfl, hparts, hpre, rfl⟩ := h
  let spare := (parts.drop least).filter fun t => !t.isEmpty
  have hflatten : (parts.take least ++ spare).flatten = parts.flatten := by
    rw [List.flatten_append, List.flatten_filter_not_isEmpty, ← List.flatten_append, List.take_append_drop]
  have hlong : spare.length ≤ spare.flatten.length :=
    length_le_length_flatten fun t ht => by simpa using (List.mem_filter.mp ht).2
  refine ⟨spare.length, ?_, parts.take least ++ spare, by simp [hl], fun t ht => ?_, hflatten ▸ hpre, by rw [hflatten]⟩
  · have hall := hpre.length_le
    rw [← hflatten, List.flatten_append, List.length_append, List.length_drop] at hall
    rw [← Array.length_toList]
    omega
  · rcases List.mem_append.mp ht with ht | ht
    · exact hparts t (List.mem_of_mem_take ht)
    · exact hparts t (List.mem_of_mem_drop (List.mem_filter.mp ht).1)

/-- What is reached with the copies that are asked for and a number of spare ones. -/
theorem mem_reachable_repeated_iff {least : Nat} (spare : Nat) (h : ∀ i j, j ∈ p.ends text i ↔ Covers text p i j) :
    j ∈ reachable (p.ends text) spare (repeated (p.ends text) least [i]) ↔
      ∃ m ≤ spare, CoversInParts text p (least + m) i j := by
  simp only [← steps_iff_coversInParts h, steps_add, mem_reachable, mem_repeated, List.mem_singleton, exists_eq_left]
  constructor
  · rintro ⟨k, hk, m, hm, hj⟩
    exact ⟨m, hm, k, hk, hj⟩
  · rintro ⟨m, hm, k, hk, hj⟩
    exact ⟨k, hk, m, hm, hj⟩

/-- The pattern asks for characters only, and for no fewer copies than it allows. -/
inductive Plain : Pattern → Prop
  | empty : Plain empty
  | oneOf (items : List CharItem) : Plain (oneOf items)
  | noneOf (items : List CharItem) : Plain (noneOf items)
  | sequence {p q : Pattern} (hp : Plain p) (hq : Plain q) : Plain (sequence p q)
  | choice {p q : Pattern} (hp : Plain p) (hq : Plain q) : Plain (choice p q)
  | copies {p : Pattern} {least : Nat} {most : Option Nat} (hp : Plain p) (hm : ∀ m ∈ most, least ≤ m) :
      Plain (copies p least most)

theorem singleton_isPrefix_drop {c : Char} : [c] <+: text.toList.drop i ↔ text[i]? = some c := by
  rw [← Array.getElem?_toList, ← List.head?_drop]
  cases text.toList.drop i <;> simp [eq_comm]

/-- One character of a sort stands at a position, and the match ends behind it. -/
theorem covers_char_iff {sort : Char → Prop} (h : ∀ s, p.Matches s ↔ ∃ c, s = [c] ∧ sort c) :
    Covers text p i j ↔ ∃ c, text[i]? = some c ∧ sort c ∧ j = i + 1 := by
  simp only [Covers, h]
  constructor
  · rintro ⟨_, ⟨c, rfl, hc⟩, hpre, rfl⟩
    exact ⟨c, singleton_isPrefix_drop.mp hpre, hc, rfl⟩
  · rintro ⟨c, hget, hc, rfl⟩
    exact ⟨[c], ⟨c, rfl, hc⟩, singleton_isPrefix_drop.mpr hget, rfl⟩

/-- A search finds the positions where what the pattern takes ends, and no others. -/
theorem mem_ends_iff (hp : p.Plain) : j ∈ p.ends text i ↔ Covers text p i j := by
  induction hp generalizing i j with
  | empty => simp [ends, Covers, matches_empty_iff]
  | oneOf items =>
    rw [covers_char_iff fun s => matches_oneOf_iff, ends]
    cases text[i]? with
    | none => simp
    | some c =>
      simp only [Option.some.injEq, exists_eq_left']
      split <;> rename_i hc <;> simp only [hc, List.mem_singleton, List.not_mem_nil, true_and, false_and,
        Bool.false_eq_true]
  | noneOf items =>
    rw [covers_char_iff fun s => matches_noneOf_iff, ends]
    cases text[i]? with
    | none => simp
    | some c =>
      simp only [Option.some.injEq, exists_eq_left']
      split <;> rename_i hc <;> simp only [hc, List.mem_singleton, List.not_mem_nil, true_and, false_and,
        Bool.true_eq_false]
  | sequence _ _ ihp ihq =>
    rw [covers_sequence_iff, ends, List.mem_eraseDups, List.mem_flatMap]
    simp only [ihp, ihq]
  | choice _ _ ihp ihq =>
    rw [covers_choice_iff, ends, List.mem_eraseDups, List.mem_append, ihp, ihq]
  | @copies p least most _ hm ih =>
    rw [covers_copies_iff]
    cases most with
    | some n =>
      simp only [Option.mem_def, Option.some.injEq, forall_eq'] at hm ⊢
      refine (mem_reachable_repeated_iff (n - least) fun _ _ => ih).trans ⟨?_, ?_⟩
      · rintro ⟨m, hspare, h⟩
        exact ⟨least + m, by omega, by omega, h⟩
      · rintro ⟨m, hl, hn, h⟩
        exact ⟨m - least, by omega, by rwa [Nat.add_sub_cancel' hl]⟩
    | none =>
      refine (mem_reachable_repeated_iff (text.size + 1) fun _ _ => ih).trans ⟨?_, ?_⟩
      · rintro ⟨m, -, h⟩
        exact ⟨least + m, by omega, nofun, h⟩
      · rintro ⟨n, hl, -, h⟩
        obtain ⟨m, hm, h⟩ := h.shorten hl
        exact ⟨m, by omega, h⟩

/-- Whether a match that starts where the text starts may end where the text ends. -/
def takes (p : Pattern) (s : String) : Bool :=
  (p.ends s.toList.toArray 0).contains s.length

/-- A search for the whole text decides the language of the pattern. -/
theorem takes_iff (hp : p.Plain) {s : String} : p.takes s ↔ p.Matches s.toList := by
  rw [takes, List.contains_iff_mem, mem_ends_iff hp]
  simp only [Covers, List.drop_zero, Nat.zero_add]
  constructor
  · rintro ⟨t, ht, hpre, hlength⟩
    rwa [← hpre.eq_of_length hlength.symm]
  · intro h
    exact ⟨s.toList, h, List.prefix_rfl, rfl⟩

end Schemata.Pattern
