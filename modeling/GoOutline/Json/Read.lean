import GoOutline.Json.Basic

/-!
Reading JSON texts. Nothing but blanks may stand around the value, and every escape has to denote a
character.
-/

namespace GoOutline.Json

open Text

namespace Read

def isSpace (c : Char) : Bool := c == ' ' || c == '\n' || c == '\t' || c == '\r'

def skip (s : List Char) : List Char := s.dropWhile isSpace

def simpleEscape? : Char → Option Char
  | '"' => some '"'
  | '\\' => some '\\'
  | '/' => some '/'
  | 'b' => some '\x08'
  | 'f' => some '\x0c'
  | 'n' => some '\n'
  | 'r' => some '\r'
  | 't' => some '\t'
  | _ => none

def unit? (s : List Char) : Option (Nat × List Char) :=
  if s.length < 4 then none else (numeral? 16 (s.take 4)).map (·, s.drop 4)

/-- The character that one or two code units denote. -/
def unicodeEscape? (s : List Char) : Option (Char × List Char) := do
  let (high, rest) ← unit? s
  if 0xD800 ≤ high ∧ high < 0xDC00 then
    match rest with
    | '\\' :: 'u' :: rest =>
      let (low, rest) ← unit? rest
      if 0xDC00 ≤ low ∧ low < 0xE000 then
        let c ← scalar? (0x10000 + (high - 0xD800) * 0x400 + (low - 0xDC00))
        some (c, rest)
      else none
    | _ => none
  else
    let c ← scalar? high
    some (c, rest)

theorem length_of_unit {s rest : List Char} {n : Nat} (h : unit? s = some (n, rest)) :
    rest.length ≤ s.length := by
  simp only [unit?] at h
  split at h
  · contradiction
  · obtain ⟨_, _, he⟩ := Option.map_eq_some_iff.1 h
    cases he
    simp

theorem length_of_unicodeEscape {s rest : List Char} {c : Char}
    (h : unicodeEscape? s = some (c, rest)) : rest.length ≤ s.length := by
  obtain ⟨⟨high, r⟩, hu, h⟩ := Option.bind_eq_some_iff.1 h
  have hr := length_of_unit hu
  dsimp only at h
  split at h
  · split at h
    next r' =>
      obtain ⟨⟨low, q⟩, hl, h⟩ := Option.bind_eq_some_iff.1 h
      have hq := length_of_unit hl
      dsimp only at h
      split at h
      · obtain ⟨d, _, h⟩ := Option.bind_eq_some_iff.1 h
        cases h
        simp only [List.length_cons] at hr
        omega
      · contradiction
    · contradiction
  · obtain ⟨d, _, h⟩ := Option.bind_eq_some_iff.1 h
    cases h
    exact hr

/-- The rest of a string behind its opening quote, and what follows it. -/
def stringRest (s : List Char) : Option (List Char × List Char) :=
  match s with
  | [] => none
  | '"' :: rest => some ([], rest)
  | ['\\'] => none
  | '\\' :: 'u' :: r =>
    match _h : unicodeEscape? r with
    | none => none
    | some (c, rest) => (stringRest rest).map fun (t, rest) => (c :: t, rest)
  | '\\' :: e :: r =>
    match simpleEscape? e with
    | none => none
    | some c => (stringRest r).map fun (t, rest) => (c :: t, rest)
  | c :: r => if c.toNat < 0x20 then none else (stringRest r).map fun (t, rest) => (c :: t, rest)
termination_by s.length
decreasing_by
  · have := length_of_unicodeEscape _h
    simp only [List.length_cons]
    omega
  · simp only [List.length_cons]
    omega
  · simp

def digits (s : List Char) : List Char × List Char :=
  (s.takeWhile Char.isDigit, s.dropWhile Char.isDigit)

def signOf (signs : List Char) : List Char → List Char × List Char
  | c :: s => if signs.contains c then ([c], s) else ([], c :: s)
  | [] => ([], [])

/-- Digits behind a point. -/
def fraction : List Char → Option (List Char × List Char)
  | '.' :: s =>
    let (ds, rest) := digits s
    if ds.isEmpty then none else some ('.' :: ds, rest)
  | s => some ([], s)

/-- A sign and digits behind the letter of an exponent. -/
def exponent : List Char → Option (List Char × List Char)
  | c :: s =>
    if c = 'e' ∨ c = 'E' then
      let (sign, s) := signOf ['+', '-'] s
      let (ds, rest) := digits s
      if ds.isEmpty then none else some (c :: sign ++ ds, rest)
    else some ([], c :: s)
  | [] => some ([], [])

def number (s : List Char) : Option (String × List Char) := do
  let (sign, s) := signOf ['-'] s
  let (whole, s) := digits s
  if whole.isEmpty || (whole.head? == some '0' && whole.length ≠ 1) then failure
  let (part, s) ← fraction s
  let (power, s) ← exponent s
  return (String.ofList (sign ++ whole ++ part ++ power), s)

mutual

/-- The bound is on the depth of the derivation. -/
def value (n : Nat) (s : List Char) : Option (Json × List Char) :=
  match n with
  | 0 => none
  | n + 1 =>
    match skip s with
    | 'n' :: 'u' :: 'l' :: 'l' :: rest => some (.null, rest)
    | 't' :: 'r' :: 'u' :: 'e' :: rest => some (.bool true, rest)
    | 'f' :: 'a' :: 'l' :: 's' :: 'e' :: rest => some (.bool false, rest)
    | '"' :: rest => (stringRest rest).map fun (t, rest) => (.string (String.ofList t), rest)
    | '[' :: rest =>
      match skip rest with
      | ']' :: rest => some (.array [], rest)
      | rest => (items n rest).map fun (js, rest) => (.array js, rest)
    | '{' :: rest =>
      match skip rest with
      | '}' :: rest => some (.object [], rest)
      | rest => (members n rest).map fun (ms, rest) => (.object ms, rest)
    | s => (number s).map fun (text, rest) => (.number text, rest)

def items (n : Nat) (s : List Char) : Option (List Json × List Char) :=
  match n with
  | 0 => none
  | n + 1 => do
    let (j, rest) ← value n s
    match skip rest with
    | ']' :: rest => some ([j], rest)
    | ',' :: rest => (items n rest).map fun (js, rest) => (j :: js, rest)
    | _ => none

def members (n : Nat) (s : List Char) : Option (List (String × Json) × List Char) :=
  match n with
  | 0 => none
  | n + 1 =>
    match skip s with
    | '"' :: rest => do
      let (name, rest) ← stringRest rest
      match skip rest with
      | ':' :: rest =>
        let (j, rest) ← value n rest
        match skip rest with
        | '}' :: rest => some ([(String.ofList name, j)], rest)
        | ',' :: rest =>
          (members n rest).map fun (ms, rest) => ((String.ofList name, j) :: ms, rest)
        | _ => none
      | _ => none
    | _ => none

end

end Read

open Read

def ofText? (s : List Char) : Option Json := do
  let (j, rest) ← value (s.length + 1) s
  if (skip rest).isEmpty then some j else none

end GoOutline.Json
