import Schemata.Pattern.Basic

/-!
Reading patterns from their usual written form. Reading fails where the form is not a pattern: an open bracket or
group, a repetition of nothing or of a repetition, a range or a pair of bounds the wrong way round, and an escaped
letter without a meaning. Escaping writes a text as the pattern of just this text.
-/
namespace Schemata.Pattern

def char (c : Char) : Pattern := oneOf [.range c c]

def literally (cs : List Char) (p : Pattern) : Pattern :=
  cs.foldr (fun c p => sequence (char c) p) p

def hexNumber? (ds : List Char) : Option Nat :=
  ds.foldl (fun n? c => do
    let n ← n?
    let d ← if c.isDigit then some (c.toNat - '0'.toNat)
      else if 'a' ≤ c ∧ c ≤ 'f' then some (c.toNat - 'a'.toNat + 10)
      else if 'A' ≤ c ∧ c ≤ 'F' then some (c.toNat - 'A'.toNat + 10)
      else none
    return 16 * n + d) (some 0)

def hexChar? (width : Nat) (s : List Char) : Option (Char × List Char) := do
  if s.length < width then none
  let n ← hexNumber? (s.take width)
  return (Char.ofNat n, s.drop width)

def control? : Char → Option Char
  | 'n' => some '\n'
  | 't' => some '\t'
  | 'r' => some '\r'
  | 'f' => some '\x0c'
  | 'v' => some '\x0b'
  | 'a' => some '\x07'
  | _ => none

def classItem? : Char → Option CharItem
  | 'd' => some (.of .digit)
  | 'D' => some (.notOf .digit)
  | 's' => some (.of .blank)
  | 'S' => some (.notOf .blank)
  | 'w' => some (.of .word)
  | 'W' => some (.notOf .word)
  | _ => none

def anchor? : Char → Option Anchor
  | 'A' => some .start
  | 'Z' => some .finishExact
  | 'b' => some .wordEdge
  | 'B' => some .notWordEdge
  | _ => none

def escapedChar? (s : List Char) : Option (Char × List Char) :=
  match s with
  | [] => none
  | 'x' :: rest => hexChar? 2 rest
  | 'u' :: rest => hexChar? 4 rest
  | 'U' :: rest => hexChar? 8 rest
  | '0' :: rest => some ('\x00', rest)
  | c :: rest =>
    match control? c with
    | some d => some (d, rest)
    -- A letter or a digit without a meaning of its own may not be escaped.
    | none => if c.isAlphanum then none else some (c, rest)

def escape? (s : List Char) : Option (Pattern × List Char) :=
  match s with
  | [] => none
  | c :: rest =>
    match classItem? c, anchor? c with
    | some item, _ => some (oneOf [item], rest)
    | none, some place => some (anchor place, rest)
    | none, none => (escapedChar? s).map fun (d, rest) => (char d, rest)

def setMember? (s : List Char) : Option (CharItem × List Char) :=
  match s with
  | [] => none
  -- In brackets this is a backspace and not the edge of a word.
  | '\\' :: 'b' :: rest => some (.range '\x08' '\x08', rest)
  | '\\' :: c :: rest =>
    match classItem? c with
    | some item => some (item, rest)
    | none => (escapedChar? (c :: rest)).map fun (d, rest) => (.range d d, rest)
  | c :: rest => some (.range c c, rest)

/-- The members of a bracketed set up to its closing bracket. A bracket that comes first is a member. -/
def setItems? : Nat → Bool → List Char → Option (List CharItem × List Char)
  | 0, _, _ => none
  | fuel + 1, first, s =>
    match s with
    | ']' :: rest => if first then member fuel s else some ([], rest)
    | _ => member fuel s
where
  /-- A member, the range it may start, and the members after it. -/
  member (fuel : Nat) (s : List Char) : Option (List CharItem × List Char) := do
    let (item, rest) ← setMember? s
    match item, rest with
    -- A hyphen before the closing bracket is a member itself.
    | _, '-' :: ']' :: _ =>
      let (items, rest) ← setItems? fuel false rest
      return (item :: items, rest)
    | .range low _, '-' :: rest =>
      let (last, rest) ← setMember? rest
      match last with
      | .range high _ =>
        if high < low then none
        let (items, rest) ← setItems? fuel false rest
        return (.range low high :: items, rest)
      | _ => none
    | _, '-' :: _ => none
    | item, rest =>
      let (items, rest) ← setItems? fuel false rest
      return (item :: items, rest)

def set? (s : List Char) : Option (Pattern × List Char) :=
  match s with
  | '^' :: rest => (setItems? (s.length + 1) true rest).map fun (items, rest) => (noneOf items, rest)
  | _ => (setItems? (s.length + 1) true s).map fun (items, rest) => (oneOf items, rest)

/-- A repetition mark as its bounds and what follows. Braces that hold no bounds are ordinary characters. -/
def bounds? (s : List Char) : Option ((Nat × Option Nat) × List Char) :=
  match s with
  | '*' :: rest => some ((0, none), rest)
  | '+' :: rest => some ((1, none), rest)
  | '?' :: rest => some ((0, some 1), rest)
  | '\x7b' :: rest =>
    let low := rest.takeWhile Char.isDigit
    let after := rest.dropWhile Char.isDigit
    let number (ds : List Char) : Option Nat := (String.ofList ds).toNat?
    match after with
    | '\x7d' :: tail => if low.isEmpty then none else some (((number low).getD 0, number low), tail)
    | ',' :: tail =>
      let high := tail.takeWhile Char.isDigit
      match tail.dropWhile Char.isDigit with
      | '\x7d' :: tail => some (((number low).getD 0, number high), tail)
      | _ => none
    | _ => none
  | _ => none

def quantified? (piece : Pattern) (s : List Char) : Option (Pattern × List Char) :=
  match bounds? s with
  | none => some (piece, s)
  | some ((least, most), rest) =>
    match piece with
    | anchor _ => none
    | _ =>
      if most.any (· < least) then none
      else
        -- A mark of how eagerly to repeat is passed over.
        let rest := match rest with
          | '?' :: tail => tail
          | '+' :: tail => tail
          | _ => rest
        if (bounds? rest).isSome then none else some (copies piece least most, rest)

def groupKind? (s : List Char) : Option ((Pattern → Pattern) × List Char) :=
  match s with
  | '?' :: ':' :: rest => some (id, rest)
  | '?' :: '=' :: rest => some (ahead true, rest)
  | '?' :: '!' :: rest => some (ahead false, rest)
  -- Nothing refers to groups, so that a name is dropped.
  | '?' :: 'P' :: '<' :: rest =>
    match rest.dropWhile (fun c => c.isAlphanum || c = '_') with
    | '>' :: tail => some (id, tail)
    | _ => none
  | '?' :: _ => none
  | _ => some (id, s)

mutual

def alternatives? (dotAll : Bool) : Nat → List Char → Option (Pattern × List Char)
  | 0, _ => none
  | fuel + 1, s => do
    let (first, rest) ← pieces? dotAll fuel s
    match rest with
    | '|' :: rest =>
      let (others, rest) ← alternatives? dotAll fuel rest
      return (choice first others, rest)
    | _ => return (first, rest)

def pieces? (dotAll : Bool) : Nat → List Char → Option (Pattern × List Char)
  | 0, _ => none
  | fuel + 1, s =>
    match s with
    | [] => some (empty, s)
    | '|' :: _ => some (empty, s)
    | ')' :: _ => some (empty, s)
    | _ => do
      let (piece, rest) ← piece? dotAll fuel s
      let (piece, rest) ← quantified? piece rest
      let (others, rest) ← pieces? dotAll fuel rest
      return (sequence piece others, rest)

def piece? (dotAll : Bool) : Nat → List Char → Option (Pattern × List Char)
  | 0, _ => none
  | fuel + 1, s =>
    match s with
    | [] => none
    | '(' :: rest => do
      let (wrap, rest) ← groupKind? rest
      let (body, rest) ← alternatives? dotAll fuel rest
      match rest with
      | ')' :: rest => return (wrap (sequence empty body), rest)
      | _ => none
    | '[' :: rest => set? rest
    | '.' :: rest => some (noneOf (if dotAll then [] else [.range '\n' '\n']), rest)
    | '^' :: rest => some (anchor .start, rest)
    | '$' :: rest => some (anchor .finish, rest)
    | '\\' :: rest => escape? rest
    -- A repetition mark must have something before it.
    | c :: rest => if (bounds? s).isSome then none else some (char c, rest)

end

/-- Reads a whole pattern. A point leaves out line feeds unless it is to stand for all characters. Three steps of
recursion per character reach the end. -/
def parse? (s : String) (dotAll : Bool := false) : Option Pattern :=
  match alternatives? dotAll (3 * s.length + 3) s.toList with
  | some (p, []) => some p
  | _ => none

def isSpecial (c : Char) : Bool :=
  c ∈ ['(', ')', '[', ']', '\x7b', '\x7d', '?', '*', '+', '-', '|', '^', '$', '\\', '.', '&', '~', '#', ' ', '\t', '\n',
    '\r', '\x0b', '\x0c']

def escape (s : String) : String :=
  .ofList (s.toList.flatMap fun c => if isSpecial c then ['\\', c] else [c])

end Schemata.Pattern
