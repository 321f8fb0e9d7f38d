import GoOutline.Text.Blank
import GoOutline.Text.Numeral

/-!
String literals. A raw literal stands between backquotes and denotes its text without carriage
returns. An interpreted literal stands between double quotes and may hold escapes.
-/

namespace GoOutline.Text.Quoted

/-- Reads `n` characters as one numeral. -/
def fixedWidth (n base : Nat) (s : List Char) : Option (Nat × List Char) :=
  if s.length < n then none else (signedNumeral? base (s.take n)).map (·, s.drop n)

/-- A numeral below 0x80. -/
def asciiEscape (n base : Nat) (s : List Char) : Option (Char × List Char) := do
  let (value, rest) ← fixedWidth n base s
  if value < 0x80 then some (Char.ofNat value, rest) else none

def scalarEscape (n : Nat) (s : List Char) : Option (Char × List Char) := do
  let (value, rest) ← fixedWidth n 16 s
  let c ← scalar? value
  some (c, rest)

def simpleEscape? : Char → Option Char
  | 'a' => some '\x07'
  | 'b' => some '\x08'
  | 'f' => some '\x0c'
  | 'n' => some '\n'
  | 'r' => some '\r'
  | 't' => some '\t'
  | 'v' => some '\x0b'
  | '\\' => some '\\'
  | '"' => some '"'
  | _ => none

/-- The character that an escape denotes, read behind its backslash, and the rest. -/
def escape : List Char → Option (Char × List Char)
  | [] => none
  | c :: s =>
    match simpleEscape? c with
    | some d => some (d, s)
    | none =>
      if c = 'x' then asciiEscape 2 16 s
      else if c = 'u' then scalarEscape 4 s
      else if c = 'U' then scalarEscape 8 s
      else if isDigitOf 8 c then asciiEscape 3 8 (c :: s)
      else none

theorem length_of_fixedWidth {n base : Nat} {s rest : List Char} {value : Nat}
    (h : fixedWidth n base s = some (value, rest)) : rest.length ≤ s.length := by
  simp only [fixedWidth] at h
  split at h
  · contradiction
  · obtain ⟨_, _, he⟩ := Option.map_eq_some_iff.1 h
    cases he
    simp

theorem length_of_asciiEscape {n base : Nat} {s rest : List Char} {c : Char}
    (h : asciiEscape n base s = some (c, rest)) : rest.length ≤ s.length := by
  obtain ⟨⟨value, r⟩, hw, h⟩ := Option.bind_eq_some_iff.1 h
  dsimp only at h
  split at h
  · cases h; exact length_of_fixedWidth hw
  · contradiction

theorem length_of_scalarEscape {n : Nat} {s rest : List Char} {c : Char}
    (h : scalarEscape n s = some (c, rest)) : rest.length ≤ s.length := by
  obtain ⟨⟨value, r⟩, hw, h⟩ := Option.bind_eq_some_iff.1 h
  obtain ⟨d, _, h⟩ := Option.bind_eq_some_iff.1 h
  cases h
  exact length_of_fixedWidth hw

theorem length_of_escape {s rest : List Char} {c : Char} (h : escape s = some (c, rest)) :
    rest.length ≤ s.length := by
  cases s with
  | nil => contradiction
  | cons a s =>
    simp only [escape] at h
    split at h
    · cases h; simp
    · split at h
      · exact Nat.le_succ_of_le (length_of_asciiEscape h)
      · split at h
        · exact Nat.le_succ_of_le (length_of_scalarEscape h)
        · split at h
          · exact Nat.le_succ_of_le (length_of_scalarEscape h)
          · split at h
            · exact length_of_asciiEscape h
            · contradiction

/-- The characters between the double quotes of an interpreted literal. -/
def decode (s : List Char) : Option (List Char) :=
  match s with
  | [] => some []
  | c :: r =>
    if c = '"' ∨ c = '\n' then none
    else if c = '\\' then
      match _h : escape r with
      | none => none
      | some (d, rest) => (decode rest).map (d :: ·)
    else (decode r).map (c :: ·)
termination_by s.length
decreasing_by
  · have := length_of_escape _h
    simp; omega
  · simp

/-- The text that a literal denotes. -/
def unquote (literal : List Char) : Option (List Char) :=
  match (after? "`" literal).bind (before? "`") with
  | some raw => some (raw.filter (· ≠ '\r'))
  | none => ((after? "\"" literal).bind (before? "\"")).bind decode

/-- Cuts a text behind its first double quote, the characters behind backslashes not counting. -/
def throughQuote? : List Char → Option (List Char × List Char)
  | [] => none
  | '"' :: s => some (['"'], s)
  | '\\' :: c :: s => (throughQuote? s).map fun (a, rest) => ('\\' :: c :: a, rest)
  | c :: s => (throughQuote? s).map fun (a, rest) => (c :: a, rest)

/-- The interpreted literal in front of a text, whatever its escapes, and the rest. -/
def literal? : List Char → Option (List Char × List Char)
  | '"' :: s => (throughQuote? s).map fun (a, rest) => ('"' :: a, rest)
  | _ => none

theorem append_of_throughQuote {s a rest : List Char} (h : throughQuote? s = some (a, rest)) :
    a ++ rest = s := by
  fun_induction throughQuote? s generalizing a rest with
  | case1 => contradiction
  | case2 s => cases h; rfl
  | case3 c s ih =>
    obtain ⟨⟨b, r⟩, hb, he⟩ := Option.map_eq_some_iff.1 h
    cases he
    simp [ih hb]
  | case4 c s _ _ ih =>
    obtain ⟨⟨b, r⟩, hb, he⟩ := Option.map_eq_some_iff.1 h
    cases he
    simp [ih hb]

/-- Nothing is lost between the literal and the rest. -/
theorem append_of_literal {s a rest : List Char} (h : literal? s = some (a, rest)) :
    a ++ rest = s := by
  unfold literal? at h
  split at h
  · obtain ⟨⟨b, r⟩, hb, he⟩ := Option.map_eq_some_iff.1 h
    cases he
    simp [append_of_throughQuote hb]
  · contradiction

theorem length_of_literal {s a rest : List Char} (h : literal? s = some (a, rest)) :
    rest.length < s.length := by
  unfold literal? at h
  split at h
  · obtain ⟨⟨b, r⟩, hb, he⟩ := Option.map_eq_some_iff.1 h
    cases he
    have := congrArg List.length (append_of_throughQuote hb)
    simp only [List.length_append, List.length_cons] at this ⊢
    omega
  · contradiction

def encodeChar (c : Char) : List Char :=
  if c = '"' then ['\\', '"']
  else if c = '\\' then ['\\', '\\']
  else if c = '\n' then ['\\', 'n']
  else if c = '\r' then ['\\', 'r']
  else if c = '\t' then ['\\', 't']
  else if isControl c then '\\' :: 'u' :: hex4 c.toNat
  else [c]

/-- Control characters are escaped, all other characters stand for themselves. -/
def encode (s : List Char) : List Char := s.flatMap encodeChar

/-- The interpreted literal that denotes a text. -/
def quote (s : List Char) : List Char := '"' :: encode s ++ ['"']

end GoOutline.Text.Quoted
