import Schemata.Stock
import Schemata.Proofs.Decode.Fuel
import Schemata.Proofs.Text.Integer
import Schemata.Proofs.Value.Literal

/-!
Reading large integers. An integer stands for itself, a boolean for zero or one, a floating-point number for the integer
that it equals, and a text for the integer that is written in it. Nothing else is read, and every integer comes back from
its text, however it is padded, and from itself.
-/
namespace Schemata

namespace Value
variable {v : Value} {n : Int}

/-- The integer that a value stands for where large integers are read. -/
inductive Denotes : Value → Int → Prop
  | integer {v : Value} {n : Int} (h : v.integer? = some n) : Denotes v n
  | boolean {v : Value} {b : Bool} (h : v.boolean? = some b) : Denotes v (if b then 1 else 0)
  | float {v : Value} {x : Double} {n : Int} (h : v.float? = some x) (he : (Numeral.float x).equals (.int n)) :
      Denotes v n
  | text {s : String} {n : Int} (h : Text.Denotes s.toList n) : Denotes (text s) n

theorem bigint?_eq_some_iff : v.bigint? = some n ↔ v.Denotes n := by
  constructor
  · intro h
    unfold bigint? at h
    split at h
    · rename_i b hb
      obtain rfl := Option.some.inj h
      exact .boolean hb
    · split at h
      · rename_i hn
        exact Option.some.inj h ▸ .integer hn
      · rename_i hx
        exact .float hx (Double.integer?_eq_some_iff.mp h)
      · exact .text (Text.readBigint?_eq_some_iff.mp h)
      · cases h
  · intro h
    cases h with
    | integer h =>
      cases v with
      | int m => exact h
      | cell c => cases c <;> first | exact h | cases h
      | _ => cases h
    | boolean h => simp [bigint?, h]
    | float h he =>
      rw [← Double.integer?_eq_some_iff] at he
      cases v with
      | float x =>
        obtain rfl := Option.some.inj h
        exact he
      | cell c =>
        cases c with
        | float32 x | float64 x =>
          obtain rfl := Option.some.inj h
          exact he
        | _ => cases h
      | _ => cases h
    | text h => exact Text.readBigint?_eq_some_iff.mpr h

theorem Denotes.readable (h : v.Denotes n) : v.isText ∨ v.isNumber ∨ v.isBoolean := by
  cases h with
  | integer h =>
    cases v with
    | int m => exact .inr (.inl rfl)
    | cell c => cases c <;> first | exact .inr (.inl rfl) | cases h
    | _ => cases h
  | boolean h => exact .inr (.inr (by simp [isBoolean, h]))
  | float h =>
    cases v with
    | float x => exact .inr (.inl rfl)
    | cell c => cases c <;> first | exact .inr (.inl rfl) | cases h
    | _ => cases h
  | text => exact .inl rfl

end Value

namespace Scope
variable {scope : Scope} {a : Annotations} {v : Value} {n : Int}

/-- What is read from a value that denotes an integer, from a text or number that does not, and from anything else. -/
theorem decodeBigint_eq (scope : Scope) (a : Annotations) (v : Value) :
    (∀ n, v.Denotes n → scope.decodeBigint a v = .success (.int n)) ∧
    ((∀ n, ¬v.Denotes n) → scope.decodeBigint a v =
      if v.isText ∨ v.isNumber then
        .failure [.conversion bigintSource "bigint" v (a.renderMessage scope.message v)]
      else .failure [.mismatch (Problem.isPredicate bigintSource) v (a.renderMessage scope.message v)]) := by
  have hinteger {m : Int} (h : v.integer? = some m) : v.bigint? = some m :=
    Value.bigint?_eq_some_iff.mpr (.integer h)
  constructor
  · intro n hn
    have hread := hn.readable
    rw [← Value.bigint?_eq_some_iff] at hn
    unfold decodeBigint
    split
    · rename_i m hm
      rw [hinteger hm] at hn
      rw [Option.some.inj hn]
    · rw [if_pos (by simpa [or_assoc] using hread), hn]
  · intro hnone
    have hbigint : v.bigint? = none := by
      rw [Option.eq_none_iff_forall_ne_some]
      exact fun n hn => hnone n (Value.bigint?_eq_some_iff.mp hn)
    have hboolean : v.isBoolean = false := by
      rw [Value.isBoolean, Option.isSome_eq_false_iff, Option.isNone_iff_eq_none,
        Option.eq_none_iff_forall_ne_some]
      exact fun b hb => hnone _ (.boolean hb)
    unfold decodeBigint
    split
    · rename_i m hm
      exact absurd (.integer hm) (hnone m)
    · rw [hbigint, hboolean]
      by_cases h : v.isText ∨ v.isNumber
      · rw [if_pos h, if_pos (by simpa using h)]
        rfl
      · rw [if_neg h, if_neg (by simpa using h)]
        rfl

theorem yields_bigint {o : Outcome} : scope.Yields .decode (.keyword a .bigint) v o ↔ o = scope.decodeBigint a v := by
  have hy : scope.Yields .decode (.keyword a .bigint) v (scope.decodeBigint a v) := ⟨0, run_keyword ..⟩
  exact ⟨fun h => h.unique hy, fun h => h ▸ hy⟩

/-- Large integers are read exactly, and reading undoes writing. A value is decoded to an integer if and only if it
denotes this integer; a text or a number that denotes none fails in the conversion, and any other value that denotes none
is of the wrong type. An integer is denoted by its decimal text, be it with blanks around it, with zeros in front of its
digits or with a plus, and it is decoded and encoded to itself. -/
theorem bigint_exact (scope : Scope) (a : Annotations) :
    (∀ v, (∀ n, scope.Yields .decode (.keyword a .bigint) v (.success (.int n)) ↔ v.Denotes n) ∧
      ((∀ n, ¬v.Denotes n) → scope.Yields .decode (.keyword a .bigint) v
        (if v.isText ∨ v.isNumber then
          .failure [.conversion bigintSource "bigint" v (a.renderMessage scope.message v)]
        else .failure [.mismatch (Problem.isPredicate bigintSource) v (a.renderMessage scope.message v)]))) ∧
    ∀ n : Int,
      (∀ front back plus zeros, Text.Blanks front → Text.Blanks back → scope.Yields .decode (.keyword a .bigint)
        (.text (.ofList (front ++ (Text.paddedInteger plus zeros n ++ back)))) (.success (.int n))) ∧
      scope.Yields .decode (.keyword a .bigint) (.text (toString n)) (.success (.int n)) ∧
      ∀ direction, scope.Yields direction (.keyword a .bigint) (.int n) (.success (.int n)) := by
  have yields_iff (v : Value) (n : Int) :
      scope.Yields .decode (.keyword a .bigint) v (.success (.int n)) ↔ v.Denotes n := by
    obtain ⟨hsome, hnone⟩ := scope.decodeBigint_eq a v
    rw [yields_bigint]
    constructor
    · intro h
      by_contra hn
      by_cases hother : ∃ m, v.Denotes m
      · obtain ⟨m, hm⟩ := hother
        rw [hsome m hm] at h
        cases h
        exact hn hm
      · rw [hnone (not_exists.mp hother)] at h
        split at h <;> cases h
    · exact fun h => (hsome n h).symm
  have padded {front back : List Char} (plus : Bool) (zeros : Nat) (n : Int) (hf : Text.Blanks front)
      (hb : Text.Blanks back) : scope.Yields .decode (.keyword a .bigint)
        (.text (.ofList (front ++ (Text.paddedInteger plus zeros n ++ back)))) (.success (.int n)) := by
    rw [yields_iff]
    refine .text ?_
    rw [String.toList_ofList]
    exact .signed hf (Text.signedDigits_paddedInteger plus zeros n) hb
  refine ⟨fun v => ⟨yields_iff v, fun h => ?_⟩, fun n => ⟨fun _ _ plus zeros => padded plus zeros n, ?_, ?_⟩⟩
  · rw [yields_bigint]
    exact ((scope.decodeBigint_eq a v).2 h).symm
  · have hnone : Text.Blanks [] := nofun
    have hplain := padded false 0 n hnone hnone
    rwa [List.nil_append, List.append_nil, Text.paddedInteger_plain, String.ofList_toList] at hplain
  · rintro (_ | _)
    · exact (yields_iff _ n).mpr (.integer rfl)
    · exact ⟨0, run_keyword ..⟩

/-- Minus five with a blank, two zeros and a line feed, and a text that denotes no integer. -/
theorem bigint_exact_minus :
    let scope := Stock.scope []
    Text.Blanks [' '] ∧ Text.Blanks ['\n'] ∧
      scope.Yields .decode (.keyword .empty .bigint) (.text " -005\n") (.success (.int (-5))) ∧
      (∀ n, ¬(Value.text "1e3").Denotes n) ∧
      scope.Yields .decode (.keyword .empty .bigint) (.text "1e3")
        (.failure [.conversion bigintSource "bigint" (.text "1e3") none]) := by
  intro scope
  obtain ⟨hread, hwritten⟩ := bigint_exact scope .empty
  have hnone : ∀ n, ¬(Value.text "1e3").Denotes n := by
    intro n hn
    rw [← Value.bigint?_eq_some_iff] at hn
    have hrefused : (Value.text "1e3").bigint? = none := by decide +kernel
    rw [hrefused] at hn
    cases hn
  have htext : String.ofList ([' '] ++ (Text.paddedInteger false 2 (-5) ++ ['\n'])) = " -005\n" := by decide +kernel
  have hspace : Text.Blanks [' '] := List.forall_mem_singleton.mpr rfl
  have hfeed : Text.Blanks ['\n'] := List.forall_mem_singleton.mpr rfl
  refine ⟨hspace, hfeed, ?_, hnone, ?_⟩
  · rw [← htext]
    exact (hwritten (-5)).1 [' '] ['\n'] false 2 hspace hfeed
  · exact (hread (.text "1e3")).2 hnone

end Scope
end Schemata
