import GoOutline.Syntax.Token
import GoOutline.Text.Blank
import GoOutline.Text.Identifier
import GoOutline.Text.Numeral

/-!
From text to tokens. A scanner gives the length of the longest piece of its kind at the front of a
text; the text of a piece is what the text holds there, so nothing is lost and nothing invented.
-/

namespace GoOutline.Syntax.Lexer

open Text

def keywords : List String :=
  ["break", "case", "chan", "const", "continue", "default", "defer", "else", "fallthrough", "for",
   "func", "go", "goto", "if", "import", "interface", "map", "package", "range", "return", "select",
   "struct", "switch", "type", "var"]

/-- Operators and delimiters, those that another one starts with behind that one. -/
def symbols : List String :=
  ["<<=", ">>=", "&^=", "...", "&&", "||", "<-", "++", "--", "==", "!=", "<=", ">=", ":=", "+=",
   "-=", "*=", "/=", "%=", "&=", "|=", "^=", "<<", ">>", "&^", "+", "-", "*", "/", "%", "&", "|",
   "^", "<", ">", "=", "!", "(", ")", "[", "]", lbrace, rbrace, ",", ";", ".", ":", "~", "\x00"]

/-- The characters between tokens. -/
def isSpace (c : Char) : Bool := c == ' ' || ('\t' ≤ c && c ≤ '\x0d')

/-- Digits with single underscores between them. -/
def moreDigits (p : Char → Bool) : List Char → Nat
  | [] => 0
  | '_' :: c :: s => if p c then moreDigits p s + 2 else 0
  | c :: s => if p c then moreDigits p s + 1 else 0

def digits (p : Char → Bool) : List Char → Nat
  | [] => 0
  | c :: s => if p c then moreDigits p s + 1 else 0

def isDecimal : Char → Bool := isDigitOf 10

def isHex : Char → Bool := isDigitOf 16

/-- Digits behind an optional underscore. -/
def spacedDigits (p : Char → Bool) : List Char → Nat
  | '_' :: s => if digits p s = 0 then 0 else digits p s + 1
  | s => digits p s

/-- Digits behind a zero and one of some letters. -/
def baseLengths (letters : List Char) (p : Char → Bool) : List Char → List Nat
  | '0' :: c :: s =>
    if letters.contains c && spacedDigits p s ≠ 0 then [spacedDigits p s + 2] else []
  | _ => []

def octalLengths : List Char → List Nat
  | '0' :: s => if spacedDigits (isDigitOf 8) s = 0 then [] else [spacedDigits (isDigitOf 8) s + 1]
  | _ => []

def decimalLengths : List Char → List Nat
  | '0' :: _ => [1]
  | s => [digits isDecimal s]

def integerLengths (s : List Char) : List Nat :=
  baseLengths ['b', 'B'] (isDigitOf 2) s ++ baseLengths ['o', 'O'] (isDigitOf 8) s ++
    baseLengths ['x', 'X'] isHex s ++ octalLengths s ++ decimalLengths s

/-- An exponent of decimal digits behind one of two letters. -/
def exponent (letters : List Char) : List Char → Nat
  | c :: s =>
    if letters.contains c then
      let sign := if s.head? = some '+' ∨ s.head? = some '-' then 1 else 0
      if digits isDecimal (s.drop sign) = 0 then 0 else digits isDecimal (s.drop sign) + sign + 1
    else 0
  | [] => 0

/-- A length made longer by an exponent, if there is one. -/
def withExponent (letters : List Char) (s : List Char) (n : Nat) : Nat :=
  n + exponent letters (s.drop n)

/-- The lengths of a whole part with a point, a whole part without one, and a fraction alone. -/
def mantissas (whole fraction : List Char → Nat) (s : List Char) : List Nat × List Nat :=
  let n := whole s
  let pointed := match s.drop n with
    | '.' :: t => if n = 0 ∧ fraction t = 0 then [] else [n + 1 + fraction t]
    | _ => []
  (pointed, if n = 0 then [] else [n])

def floatLengths (s : List Char) : List Nat :=
  let (pointed, plain) := mantissas (digits isDecimal) (digits isDecimal) s
  let decimal := pointed.map (withExponent ['e', 'E'] s) ++
    (plain.map (withExponent ['e', 'E'] s)).filter (· > digits isDecimal s)
  let hex := match s with
    | '0' :: c :: t =>
      if c = 'x' ∨ c = 'X' then
        let (pointed, plain) := mantissas (spacedDigits isHex) (digits isHex) t
        ((pointed ++ plain).filter (fun n => exponent ['p', 'P'] (t.drop n) ≠ 0)).map
          (fun n => withExponent ['p', 'P'] t n + 2)
      else []
    | _ => []
  decimal ++ hex

def imaginaryLengths (s : List Char) : List Nat :=
  ((digits isDecimal s :: integerLengths s ++ floatLengths s).filter
    fun n => n ≠ 0 && (s.drop n).head? == some 'i').map (· + 1)

/-- The length of the number at the front of a text, 0 if there is none. -/
def number (s : List Char) : Nat :=
  (integerLengths s ++ floatLengths s ++ imaginaryLengths s).foldl max 0

/-- The digits that an escape must show behind its letter. -/
def escapeComplete (c : Char) (s : List Char) : Bool :=
  let hex (n : Nat) : Bool := (s.take n).length == n && (s.take n).all isHex
  if c = 'x' then hex 2 else if c = 'u' then hex 4 else if c = 'U' then hex 8 else true

/-- The length of an interpreted string behind its first quote. -/
def interpreted : List Char → Option Nat
  | [] => none
  | '"' :: _ => some 1
  | '\n' :: _ => none
  | '\\' :: c :: s => if escapeComplete c s then (interpreted s).map (· + 2) else none
  | '\\' :: [] => none
  | _ :: s => (interpreted s).map (· + 1)

/-- The length of a raw string behind its first backquote. -/
def raw : List Char → Option Nat
  | [] => none
  | c :: s => if c = Char.ofNat 0x60 then some 1 else (raw s).map (· + 1)

/-- The length of a rune behind its first quote. -/
def rune : List Char → Option Nat
  | '\\' :: c :: s =>
    let n :=
      if c = 'x' ∨ c = 'u' ∨ c = 'U' then
        if escapeComplete c s then (if c = 'x' then 2 else if c = 'u' then 4 else 8) + 1 else 0
      else if isDigitOf 8 c then
        if (s.take 2).length = 2 && (s.take 2).all (isDigitOf 8) then 3 else 0
      else if ['a', 'b', 'f', 'n', 'r', 't', 'v', '\\', '\'', '"'].contains c then 1 else 0
    if n ≠ 0 && ((c :: s).drop n).head? == some '\'' then some (n + 2) else none
  | c :: '\'' :: _ => if c = '\'' ∨ c = '\\' then none else some 2
  | _ => none

/-- The length of a block comment behind its first two characters. -/
def blockComment : List Char → Option Nat
  | [] => none
  | '*' :: '/' :: _ => some 2
  | _ :: s => (blockComment s).map (· + 1)

inductive PieceKind where
  | space
  | comment
  | token (kind : TokenKind)
deriving DecidableEq, Repr

def symbolLength (s : List Char) : Option Nat :=
  (symbols.find? fun symbol => symbol.toList.isPrefixOf s).map (·.length)

def comment : List Char → Option Nat
  | '/' :: '/' :: s => some ((s.takeWhile (· ≠ '\n')).length + 2)
  | '/' :: '*' :: s => (blockComment s).map (· + 2)
  | _ => none

def literal : List Char → Option (TokenKind × Nat)
  | [] => none
  | c :: s =>
    if c = '"' then (interpreted s).map fun n => (.string, n + 1)
    else if c = Char.ofNat 0x60 then (raw s).map fun n => (.string, n + 1)
    else if c = '\'' then (rune s).map fun n => (.rune, n + 1)
    else if number (c :: s) ≠ 0 then some (.number, number (c :: s))
    else none

/-- Kind and length of the piece at the front of a text that is not empty. -/
def piece (s : List Char) : PieceKind × Nat :=
  if s.head?.any isSpace then (.space, 1)
  else match comment s with
  | some n => (.comment, n)
  | none =>
    if s.head?.any isIdentifierStart then
      let word := s.takeWhile isIdentifierPart
      (.token (if keywords.contains (String.ofList word) then .fixed else .name), word.length)
    else match literal s with
    | some (kind, n) => (.token kind, n)
    | none =>
      match symbolLength s with
      | some n => (.token .fixed, n)
      | none => (.token .stray, 1)

/-- What a scan knows of the text before it. -/
structure State where
  offset : Nat
  row : Nat
  newline : Bool
  comments : List Comment

/-- The place of a piece of text that starts here. -/
def State.extent (st : State) (text : List Char) : Extent :=
  ⟨⟨st.offset, st.offset + byteLength text⟩, st.row, st.row + text.count '\n'⟩

/-- Behind a piece of text that is no token. -/
def State.pass (st : State) (text : List Char) (newline : Bool) (comments : List Comment) : State :=
  ⟨st.offset + byteLength text, st.row + text.count '\n', newline, comments⟩

def scan (st : State) (s : List Char) : List Token :=
  match s with
  | [] => [⟨.stop, "", st.extent [], st.newline, st.comments⟩]
  | c :: r =>
    let (kind, n) := piece (c :: r)
    let text := c :: r.take (n - 1)
    let rest := r.drop (n - 1)
    match kind with
    | .space => scan (st.pass text (st.newline || c == '\n') st.comments) rest
    | .comment =>
      let comment := ⟨String.ofList text, st.extent text⟩
      scan (st.pass text st.newline (st.comments ++ [comment])) rest
    | .token kind =>
      ⟨kind, String.ofList text, st.extent text, st.newline, st.comments⟩ ::
        scan (st.pass text false []) rest
termination_by s.length
decreasing_by all_goals (simp only [List.length_drop, List.length_cons]; omega)

/-- A byte order mark in front counts as a blank. -/
def tokens (s : List Char) : List Token :=
  match s with
  | '\ufeff' :: rest => scan ⟨byteLength ['\ufeff'], 0, false, []⟩ rest
  | _ => scan ⟨0, 0, false, []⟩ s

end GoOutline.Syntax.Lexer
