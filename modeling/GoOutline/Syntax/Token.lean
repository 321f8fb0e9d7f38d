import GoOutline.Text.Offset

/-!
Tokens of a Go source text. Blanks and comments between two tokens are kept at the second one: the
comments as they stand, of the blanks only whether they break the line.
-/

namespace GoOutline.Syntax

def lbrace : String := "\x7b"

def rbrace : String := "\x7d"

/-- The place of a token, comment or node: its bytes, and the rows of its first and last byte. -/
structure Extent where
  span : Span
  row : Nat
  lastRow : Nat
deriving DecidableEq, Repr, Inhabited

structure Comment where
  text : String
  extent : Extent
deriving DecidableEq, Repr, Inhabited

inductive TokenKind where
  /-- A keyword, operator or delimiter. -/
  | fixed
  | name
  | string
  | number
  | rune
  /-- The end of the text. -/
  | stop
  /-- A character that starts no token. -/
  | stray
deriving DecidableEq, Repr, Inhabited

structure Token where
  kind : TokenKind
  text : String
  extent : Extent
  /-- A line feed stands between the previous token and this one, outside of comments. -/
  newline : Bool
  /-- The comments between the previous token and this one. -/
  comments : List Comment
deriving DecidableEq, Repr, Inhabited

def Token.is (t : Token) (text : String) : Bool := t.kind == .fixed && t.text == text

def Token.isAny (t : Token) (texts : List String) : Bool := t.kind == .fixed && texts.contains t.text

/-- From the start of one extent to the end of another. -/
def Extent.through (a b : Extent) : Extent := ⟨⟨a.span.start, b.span.stop⟩, a.row, b.lastRow⟩

end GoOutline.Syntax
