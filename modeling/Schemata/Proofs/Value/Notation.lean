import Schemata.Value.Render
import Schemata.Proofs.Number.FloatText
import Schemata.Proofs.Text.Quoted
import Schemata.Proofs.Value.Lines

/-!
Rendered values are unambiguous. The first character of an object notation tells of what kind the value is, and the
notation of each kind shows where it ends: a number in front of a separator, a text with the quote that is not escaped, a
container with its closing bracket. So two values with one rendered form agree, whichever containers they are nested in.
-/
namespace Schemata

namespace Numeral
variable {a b : Numeral} {n : Int} {t u : String}

/-- The rendered texts of numbers: the digits of the integer that the number equals, or the text of a floating-point
number. -/
inductive Rendered : Numeral → String → Prop
  | whole {a : Numeral} {n : Int} (h : a.equals (.int n)) : Rendered a (toString n)
  | point {x : Double} (hx : x.isFinite) : Rendered (.float x) (x.text .rendered)

theorem rendered_int (n : Int) : Rendered (.int n) (toString n) :=
  .whole ((equals_int n n).mpr rfl)

theorem rendered_float {x : Double} (hx : x.isFinite) : Rendered (.float x) x.render := by
  unfold Double.render
  split
  · rename_i n hn
    split
    · exact .whole (Double.integer?_eq_some_iff.mp hn)
    · exact .point hx
  · exact .point hx

theorem equals_self_of_isFinite {x : Double} (hx : x.isFinite) : (float x).equals (.float x) := by
  cases x with
  | nan | infinite => cases hx
  | finite => exact (equals_iff _ _).mpr ⟨_, rfl, rfl⟩

/-- A minus at most, and digits. -/
theorem toString_int_eq (n : Int) : ∃ ds, Text.AsciiDigits ds ∧ ds ≠ [] ∧
    (toString n).toList = Double.signText (decide (n < 0)) ++ ds := by
  refine ⟨_, Text.asciiDigits_toDigits n.natAbs, Nat.toDigits_ne_nil, ?_⟩
  rw [← Text.paddedInteger_plain]
  by_cases hn : n < 0 <;> simp [Text.paddedInteger, Double.signText, hn]

/-- An integer is read back from its text. -/
theorem toString_int_injective {m n : Int} (h : toString m = toString n) : m = n := by
  have hread (n : Int) : Text.readInteger? (toString n).toList = some n := by
    rw [← Text.paddedInteger_plain]
    exact Text.readInteger?_eq_some_iff.mpr (Text.signedDigits_paddedInteger false 0 n)
  exact Option.some.inj ((hread m).symm.trans (h ▸ hread n))

/-- The text of an integer has neither a point nor an exponent. -/
theorem toString_int_ne {x : Double} (hx : x.isFinite) (n : Int) : toString n ≠ x.text .rendered := by
  intro h
  obtain ⟨ds, hds, -, hn⟩ := toString_int_eq n
  obtain ⟨s, q, hs, hxs⟩ := Double.textAs_written .double .rendered hx
  have hlist : Double.signText (decide (n < 0)) ++ ds = Double.signText x.isNegative ++ s := by
    rw [← hn, ← hxs, h]
    rfl
  have hmark : ∀ c ∈ s, c.isDigit ∨ c = '-' := by
    intro c hc
    have hmem : c ∈ Double.signText (decide (n < 0)) ++ ds := hlist ▸ List.mem_append_right _ hc
    rcases List.mem_append.mp hmem with hc | hc
    · unfold Double.signText at hc
      split at hc <;> simp_all
    · exact .inl (hds c hc)
  rcases hs.marked with hdot | he
  · exact absurd (hmark _ hdot) (by decide)
  · exact absurd (hmark _ he) (by decide)

/-- Numbers with one rendered text are equal. -/
theorem Rendered.equals (ht : Rendered a t) (hu : Rendered b u) (h : t = u) : a.equals b := by
  cases ht with
  | whole hn =>
    cases hu with
    | whole hm => exact equals_trans hn (toString_int_injective h ▸ equals_symm hm)
    | point hx => exact absurd h (toString_int_ne hx _)
  | point hx =>
    cases hu with
    | whole => exact absurd h.symm (toString_int_ne hx _)
    | point hy => exact Double.text_injective hx hy h ▸ equals_self_of_isFinite hx

/-- The characters of a rendered number, the first of which is a digit or a minus. -/
theorem Rendered.chars (ht : Rendered a t) :
    (∀ c ∈ t.toList, Decimal.isNumberChar c) ∧ ∃ c rest, t.toList = c :: rest ∧ (c.isDigit ∨ c = '-') := by
  have signed {negative : Bool} {s : List Char} (hs : ∀ c ∈ s, Decimal.isNumberChar c)
      (hfirst : ∃ c rest, s = c :: rest ∧ c.isDigit) (ht : t.toList = Double.signText negative ++ s) :
      (∀ c ∈ t.toList, Decimal.isNumberChar c) ∧ ∃ c rest, t.toList = c :: rest ∧ (c.isDigit ∨ c = '-') := by
    obtain ⟨c, rest, rfl, hc⟩ := hfirst
    rw [ht]
    cases negative with
    | false => exact ⟨hs, c, rest, rfl, .inl hc⟩
    | true => exact ⟨List.forall_mem_cons.mpr ⟨by decide, hs⟩, '-', _, rfl, .inr rfl⟩
  cases ht with
  | @whole _ n =>
    obtain ⟨ds, hds, hne, hn⟩ := toString_int_eq n
    obtain ⟨c, rest, rfl⟩ := List.exists_cons_of_ne_nil hne
    exact signed (fun c hc => Decimal.isNumberChar_of_isDigit (hds c hc)) ⟨c, rest, rfl, hds c List.mem_cons_self⟩ hn
  | point hx =>
    obtain ⟨s, q, hs, hxs⟩ := Double.textAs_written .double .rendered hx
    exact signed hs.numberChars hs.digits_first hxs

end Numeral

namespace Value
variable {v w : Value} {t u r r' : List Char}

/-- Null, booleans, integers, finite floating-point numbers and texts, and the lists, tuples and dictionaries with texts
as keys that are built of such values. -/
inductive JsonLike : Value → Prop
  | null : JsonLike null
  | bool (b : Bool) : JsonLike (bool b)
  | int (n : Int) : JsonLike (int n)
  | float {x : Double} (hx : x.isFinite) : JsonLike (float x)
  | text (s : String) : JsonLike (text s)
  | list {vs : List Value} (h : ∀ v ∈ vs, JsonLike v) : JsonLike (list vs)
  | tuple {vs : List Value} (h : ∀ v ∈ vs, JsonLike v) : JsonLike (tuple vs)
  | dict {es : List (Value × Value)} (hk : ∀ e ∈ es, e.1.isText) (h : ∀ e ∈ es, JsonLike e.2) : JsonLike (dict es)

/-- Equality that takes a list for a tuple, but no boolean for a number. Dictionaries have equal keys in one order. -/
inductive Agree : Value → Value → Prop
  | null : Agree null null
  | bool (b : Bool) : Agree (bool b) (bool b)
  | number {v w : Value} {a b : Numeral} (hv : v.number? = some a) (hw : w.number? = some b) (h : a.equals b) :
      Agree v w
  | text (s : String) : Agree (text s) (text s)
  | sequence {v w : Value} {xs ys : List Value} (hv : v.items? = some xs) (hw : w.items? = some ys)
      (h : List.Forall₂ Agree xs ys) : Agree v w
  | dict {es fs : List (Value × Value)} (hk : es.map Prod.fst = fs.map Prod.fst)
      (h : List.Forall₂ Agree (es.map Prod.snd) (fs.map Prod.snd)) : Agree (dict es) (dict fs)

/-! ### The notation of each kind -/

structure Noted (v : Value) (t : List Char) : Prop where
  jsonLike : v.JsonLike
  notate_eq : v.notate false = some (.ofList t)

inductive NotedEntry : Value × Value → List Char → Prop
  | mk (s : String) {v : Value} {t : List Char} (h : v.Noted t) :
      NotedEntry (.text s, v) ((Text.quoteRendered s).toList ++ ':' :: t)

/-- What a value shows with the first character of its notation. -/
inductive Lead where
  | null
  | boolean (b : Bool)
  | number
  | text
  | sequence
  | mapping

def Lead.ofChar (c : Char) : Lead :=
  if c = 'n' then null
  else if c = 't' then boolean true
  else if c = 'f' then boolean false
  else if c = '"' then text
  else if c = '[' then sequence
  else if c = '\x7b' then mapping
  else number

def joined (ts : List (List Char)) : List Char :=
  [','].intercalate ts

inductive Form : Lead → Value → List Char → Prop
  | null : Form .null null "null".toList
  | bool (b : Bool) : Form (.boolean b) (bool b) (if b then "true" else "false").toList
  | number {v : Value} {a : Numeral} {t : String} (hv : v.number? = some a) (h : a.Rendered t) : Form .number v t.toList
  | text (s : String) : Form .text (text s) (Text.quoteRendered s).toList
  | sequence {v : Value} {xs : List Value} {ts : List (List Char)} (hv : v.items? = some xs)
      (h : List.Forall₂ Noted xs ts) : Form .sequence v ('[' :: (joined ts ++ [']']))
  | mapping {es : List (Value × Value)} {ts : List (List Char)} (h : List.Forall₂ NotedEntry es ts) :
      Form .mapping (dict es) ('\x7b' :: (joined ts ++ ['\x7d']))

theorem Form.lead {lead : Lead} (h : Form lead v t) : ∃ c rest, t = c :: rest ∧ Lead.ofChar c = lead ∧ c ≠ ']' := by
  cases h with
  | null => exact ⟨_, _, rfl, rfl, by decide⟩
  | bool b => cases b <;> exact ⟨_, _, rfl, rfl, by decide⟩
  | number _ h =>
    obtain ⟨-, c, rest, ht, hc⟩ := h.chars
    have hne {d : Char} (hd : d.isDigit = false) (hm : d ≠ '-') : c ≠ d := by
      rintro rfl
      simp_all
    refine ⟨c, rest, ht, ?_, hne rfl (by decide)⟩
    simp [Lead.ofChar, hne]
  | text s => exact ⟨_, _, String.toList_ofList, rfl, by decide⟩
  | sequence => exact ⟨_, _, rfl, rfl, by decide⟩
  | mapping => exact ⟨_, _, rfl, rfl, by decide⟩

theorem JsonLike.noted {s : String} (hv : v.JsonLike) (h : v.notate false = some s) : v.Noted s.toList :=
  ⟨hv, by rw [h, String.ofList_toList]⟩

theorem toList_intercalate_comma (ts : List (List Char)) :
    (",".intercalate (ts.map String.ofList)).toList = joined ts := by
  simp [joined, String.toList_intercalate]

theorem notateItems_of_noted {vs : List Value} {ts : List (List Char)} (h : List.Forall₂ Noted vs ts) :
    notateItems false vs = some (ts.map String.ofList) := by
  rw [notateItems_eq_some_iff, List.forall₂_map_right_iff]
  exact h.imp fun _ _ h => h.notate_eq

theorem notateEntries_of_noted {es : List (Value × Value)} {ts : List (List Char)} (h : List.Forall₂ NotedEntry es ts) :
    notateEntries false es = some (ts.map String.ofList) := by
  rw [notateEntries_eq_some_iff, List.forall₂_map_right_iff]
  refine h.imp fun _ _ h => ?_
  cases h with
  | @mk s v t h =>
    refine ⟨_, _, rfl, h.notate_eq, String.toList_inj.mp ?_⟩
    simp [String.toList_append]

theorem JsonLike.form_sequence {vs : List Value} (h : v.JsonLike) (hv : v.items? = some vs)
    (hnotate : v.notate false = do return "[" ++ ",".intercalate (← notateItems false vs) ++ "]")
    (ih : ∀ w ∈ vs, ∃ lead t, w.Noted t ∧ Form lead w t) : ∃ lead t, v.Noted t ∧ Form lead v t := by
  obtain ⟨ts, hts⟩ : ∃ ts, List.Forall₂ Noted vs ts :=
    Lists.exists_forall₂ fun w hw => (ih w hw).elim fun _ h => h.imp fun _ h => h.1
  have hnoted := h.noted (hnotate.trans (by rw [notateItems_of_noted hts]; rfl))
  simp only [String.toList_append, toList_intercalate_comma] at hnoted
  exact ⟨_, _, hnoted, .sequence hv hts⟩

/-- Every value of this kind has a notation, the parts of a container first. -/
theorem JsonLike.form (h : v.JsonLike) : ∃ lead t, v.Noted t ∧ Form lead v t := by
  induction h with
  | null => exact ⟨_, _, JsonLike.null.noted rfl, .null⟩
  | bool b => exact ⟨_, _, (JsonLike.bool b).noted rfl, .bool b⟩
  | int n => exact ⟨_, _, (JsonLike.int n).noted rfl, .number rfl (Numeral.rendered_int n)⟩
  | float hx => exact ⟨_, _, (JsonLike.float hx).noted rfl, .number rfl (Numeral.rendered_float hx)⟩
  | text s => exact ⟨_, _, (JsonLike.text s).noted rfl, .text s⟩
  | list h ih => exact (JsonLike.list h).form_sequence rfl (by rw [notate]) ih
  | tuple h ih => exact (JsonLike.tuple h).form_sequence rfl (by rw [notate]) ih
  | @dict es hk h ih =>
    obtain ⟨ts, hts⟩ : ∃ ts, List.Forall₂ NotedEntry es ts := by
      refine Lists.exists_forall₂ fun e he => ?_
      obtain ⟨key, v⟩ := e
      obtain ⟨_, t, ht, -⟩ := ih _ he
      cases key with
      | text s => exact ⟨_, .mk s ht⟩
      | _ => cases hk _ he
    have hnoted := (JsonLike.dict hk h).noted (by rw [notate, notateEntries_of_noted hts]; rfl)
    simp only [String.toList_append, toList_intercalate_comma] at hnoted
    exact ⟨_, _, hnoted, .mapping hts⟩

theorem Noted.form (h : v.Noted t) : ∃ lead, Form lead v t := by
  obtain ⟨lead, t', hnoted, hform⟩ := h.jsonLike.form
  have ht : t = t' := String.ofList_injective (Option.some.inj (h.notate_eq.symm.trans hnoted.notate_eq))
  exact ⟨lead, ht ▸ hform⟩

/-! ### Reading the notation back -/

/-- What follows a value within a rendered value starts with a separator or a bracket, if anything follows. -/
def Ends (r : List Char) : Prop :=
  ∀ c ∈ r.head?, c = ',' ∨ c = ']' ∨ c = '\x7d'

theorem ends_nil : Ends [] := nofun

theorem joined_cons (t : List Char) (ts : List (List Char)) : joined (t :: ts) = t ++ ts.flatMap (',' :: ·) := by
  induction ts generalizing t with
  | nil => simp [joined]
  | cons u ts ih =>
    rw [joined, List.intercalate_cons_cons, ← joined, ih]
    simp

theorem ends_closing {close : Char} (hclose : close = ']' ∨ close = '\x7d') (ts : List (List Char)) (r : List Char) :
    Ends (ts.flatMap (',' :: ·) ++ close :: r) := by
  cases ts with
  | nil => simpa [Ends] using .inr hclose
  | cons => simp [Ends]

/-- Texts of two parts that start alike are of related parts, and what follows the two texts is the same. -/
def ReadsBack {α : Type} (P : α → List Char → Prop) (R : α → α → Prop) (a b : α) : Prop :=
  ∀ {t u r r' : List Char}, P a t → P b u → Ends r → Ends r' → t ++ r = u ++ r' → R a b ∧ r = r'

section
variable {α : Type} {P : α → List Char → Prop} {R : α → α → Prop} {as bs : List α} {ts us : List (List Char)}
  {close : Char}

/-- Parts that can be read back, each behind a comma, can be read up to the closing bracket. -/
theorem flatMap_append_inj (hclose : close = ']' ∨ close = '\x7d') (hread : ∀ a ∈ as, ∀ b ∈ bs, ReadsBack P R a b)
    (ht : List.Forall₂ P as ts) (hu : List.Forall₂ P bs us)
    (h : ts.flatMap (',' :: ·) ++ close :: r = us.flatMap (',' :: ·) ++ close :: r') :
    List.Forall₂ R as bs ∧ r = r' := by
  have hcomma : close ≠ ',' := by rcases hclose with rfl | rfl <;> decide
  induction ht generalizing bs us with
  | nil =>
    cases hu with
    | nil => exact ⟨.nil, List.tail_eq_of_cons_eq h⟩
    | cons => exact absurd (List.head_eq_of_cons_eq h) hcomma
  | cons hat _ ih =>
    cases hu with
    | nil => exact absurd (List.head_eq_of_cons_eq h).symm hcomma
    | cons hbu hus =>
      simp only [List.flatMap_cons, List.cons_append, List.append_assoc] at h
      simp only [List.forall_mem_cons] at hread
      obtain ⟨hab, hrest⟩ := hread.1.1 hat hbu (ends_closing hclose _ _) (ends_closing hclose _ _)
        (List.tail_eq_of_cons_eq h)
      obtain ⟨has, hr⟩ := ih (fun a ha => (hread.2 a ha).2) hus hrest
      exact ⟨.cons hab has, hr⟩

/-- The first part has no comma in front of it, but does not start with the closing bracket either. -/
theorem joined_append_inj (hclose : close = ']' ∨ close = '\x7d')
    (hstart : ∀ a t, P a t → ∃ c rest, t = c :: rest ∧ c ≠ close) (hread : ∀ a ∈ as, ∀ b ∈ bs, ReadsBack P R a b)
    (ht : List.Forall₂ P as ts) (hu : List.Forall₂ P bs us)
    (h : joined ts ++ close :: r = joined us ++ close :: r') : List.Forall₂ R as bs ∧ r = r' := by
  have hfirst {a : α} {t rest rest' : List Char} (ha : P a t) : close :: rest ≠ t ++ rest' := by
    obtain ⟨c, t, rfl, hc⟩ := hstart _ _ ha
    exact fun h => hc (List.head_eq_of_cons_eq h).symm
  cases ht with
  | nil =>
    cases hu with
    | nil => exact ⟨.nil, List.tail_eq_of_cons_eq h⟩
    | cons hbu =>
      rw [joined_cons, List.append_assoc] at h
      exact (hfirst hbu h).elim
  | cons hat hts =>
    rw [joined_cons, List.append_assoc] at h
    cases hu with
    | nil => exact (hfirst hat h.symm).elim
    | cons hbu hus =>
      rw [joined_cons, List.append_assoc] at h
      simp only [List.forall_mem_cons] at hread
      obtain ⟨hab, hrest⟩ := hread.1.1 hat hbu (ends_closing hclose _ _) (ends_closing hclose _ _) h
      obtain ⟨has, hr⟩ := flatMap_append_inj hclose (fun a ha => (hread.2 a ha).2) hts hus hrest
      exact ⟨.cons hab has, hr⟩

end

/-- A rendered number ends where a separator, a bracket or nothing follows. -/
theorem rendered_append_inj {a b : Numeral} {s s' : String} (ha : a.Rendered s) (hb : b.Rendered s') (hr : Ends r)
    (hr' : Ends r') (h : s.toList ++ r = s'.toList ++ r') : a.equals b ∧ r = r' := by
  have hstop {r : List Char} (hr : Ends r) : ∀ c ∈ r.head?, ¬Decimal.isNumberChar c := by
    intro c hc
    rcases hr c hc with rfl | rfl | rfl <;> decide
  obtain ⟨hs, hrest⟩ := Lists.append_inj_of_all ha.chars.1 hb.chars.1 (hstop hr) (hstop hr') h
  exact ⟨ha.equals hb (String.toList_inj.mp hs), hrest⟩

theorem Noted.start (h : v.Noted t) : ∃ c rest, t = c :: rest ∧ c ≠ ']' := by
  obtain ⟨_, hform⟩ := h.form
  obtain ⟨c, rest, ht, -, hc⟩ := hform.lead
  exact ⟨c, rest, ht, hc⟩

theorem NotedEntry.start {e : Value × Value} (h : NotedEntry e t) : ∃ c rest, t = c :: rest ∧ c ≠ '\x7d' := by
  obtain ⟨s, -⟩ := h
  exact ⟨'"', _, by rw [Text.quoteRendered, String.toList_ofList]; rfl, by decide⟩

theorem NotedEntry.readsBack {e f : Value × Value} (h : ReadsBack Noted Agree e.2 f.2) :
    ReadsBack NotedEntry (fun e f => e.1 = f.1 ∧ Agree e.2 f.2) e f := by
  rintro _ _ r r' ⟨s, ht⟩ ⟨s', hu⟩ hr hr' heq
  rw [List.append_assoc, List.append_assoc] at heq
  obtain ⟨rfl, hcolon⟩ := Text.quoteRendered_append_inj heq
  obtain ⟨hagree, hrest⟩ := h ht hu hr hr' (List.tail_eq_of_cons_eq hcolon)
  exact ⟨⟨rfl, hagree⟩, hrest⟩

theorem agree_dict {es fs : List (Value × Value)} (h : List.Forall₂ (fun e f => e.1 = f.1 ∧ Agree e.2 f.2) es fs) :
    Agree (dict es) (dict fs) := by
  refine .dict ?_ ?_
  · rw [← List.forall₂_eq_eq_eq, List.forall₂_map_left_iff, List.forall₂_map_right_iff]
    exact h.imp fun _ _ h => h.1
  · rw [List.forall₂_map_left_iff, List.forall₂_map_right_iff]
    exact h.imp fun _ _ h => h.2

/-- What has a notation can be read back from it, up to the agreement of values. The induction is on the parts of the
first value. -/
theorem Noted.readsBack (v w : Value) : ReadsBack Noted Agree v w := by
  induction v using partsInduction generalizing w with
  | step v ih =>
    intro t u r r' hv hw hr hr' h
    obtain ⟨lead, hform⟩ := hv.form
    obtain ⟨lead', hform'⟩ := hw.form
    -- Texts that start alike are of values of one kind, which leaves the cases on the diagonal.
    have hlead : lead = lead' := by
      obtain ⟨c, _, rfl, rfl, -⟩ := hform.lead
      obtain ⟨d, _, rfl, rfl, -⟩ := hform'.lead
      rw [List.head_eq_of_cons_eq h]
    subst hlead
    cases hform with
    | null =>
      cases hform'
      exact ⟨.null, List.append_cancel_left h⟩
    | bool b =>
      cases hform'
      exact ⟨.bool b, List.append_cancel_left h⟩
    | number hnumber ha =>
      cases hform' with
      | number hnumber' hb =>
        obtain ⟨hequal, hrest⟩ := rendered_append_inj ha hb hr hr' h
        exact ⟨.number hnumber hnumber' hequal, hrest⟩
    | text s =>
      cases hform' with
      | text s' =>
        obtain ⟨rfl, hrest⟩ := Text.quoteRendered_append_inj h
        exact ⟨.text s, hrest⟩
    | sequence hitems hxs =>
      cases hform' with
      | sequence hitems' hys =>
        rw [List.cons_append, List.cons_append, List.append_assoc, List.append_assoc] at h
        obtain ⟨hagree, hrest⟩ := joined_append_inj (.inl rfl) (fun _ _ => Noted.start)
          (fun x hx y _ => ih x (mem_parts_of_items hitems hx) y) hxs hys (List.tail_eq_of_cons_eq h)
        exact ⟨.sequence hitems hitems' hagree, hrest⟩
    | mapping hes =>
      cases hform' with
      | mapping hfs =>
        rw [List.cons_append, List.cons_append, List.append_assoc, List.append_assoc] at h
        obtain ⟨hagree, hrest⟩ := joined_append_inj (P := NotedEntry) (.inr rfl) (fun _ _ => NotedEntry.start)
          (fun e he f _ => NotedEntry.readsBack (ih e.2 (mem_parts_of_entries rfl he).2 f.2)) hes hfs
          (List.tail_eq_of_cons_eq h)
        exact ⟨agree_dict hagree, hrest⟩

theorem JsonLike.noted_render (h : v.JsonLike) : v.Noted v.render.toList := by
  obtain ⟨_, t, hnoted, -⟩ := h.form
  have hrender : v.render = (v.notate false).getD v.inspect := by cases h <;> rfl
  rwa [hrender, hnoted.notate_eq, Option.getD_some, String.toList_ofList]

/-- Rendered values are unambiguous: two values of this kind with one rendered form agree. They are equal but for lists
and tuples, which look alike; booleans, numbers and texts are told apart, and numbers are compared by value. -/
theorem agree_of_render_eq (hv : v.JsonLike) (hw : w.JsonLike) (h : v.render = w.render) : Agree v w := by
  have hread : v.render.toList ++ [] = w.render.toList ++ [] := by rw [h]
  exact (Noted.readsBack v w hv.noted_render hw.noted_render ends_nil ends_nil hread).1

/-- A list and a tuple look alike, and so do one and a floating-point one, but the text that holds a comma and a quote is
the same. -/
theorem agree_of_render_eq_nested :
    let half := Double.ofRatio false 1 2
    let v := list [int 1, dict [(text "a,\"", tuple [float half, bool true])]]
    let w := tuple [float (.ofInt 1), dict [(text "a,\"", list [float half, bool true])]]
    v.JsonLike ∧ w.JsonLike ∧ v.render = w.render ∧ Agree v w := by
  intro half v w
  have hone : (Double.ofInt 1).isFinite := by decide +kernel
  have hhalf : half.isFinite := by decide +kernel
  have hinner : ∀ x ∈ [float half, bool true], x.JsonLike := by
    simp only [List.forall_mem_cons]
    exact ⟨.float hhalf, .bool true, nofun⟩
  have hdict {x : Value} (hx : x.JsonLike) : (dict [(text "a,\"", x)]).JsonLike := by
    refine .dict ?_ ?_ <;> rw [List.forall_mem_singleton]
    · rfl
    · exact hx
  have hv : v.JsonLike := by
    refine .list ?_
    simp only [List.forall_mem_cons]
    exact ⟨.int 1, hdict (.tuple hinner), nofun⟩
  have hw : w.JsonLike := by
    refine .tuple ?_
    simp only [List.forall_mem_cons]
    exact ⟨.float hone, hdict (.list hinner), nofun⟩
  have hrender : v.render = w.render := by decide +kernel
  exact ⟨hv, hw, hrender, agree_of_render_eq hv hw hrender⟩

end Value

end Schemata
