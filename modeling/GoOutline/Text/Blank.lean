import GoOutline.Text.Ranges

/-!
Blank and control characters, and trimming. Blank is the Unicode property `White_Space`, control
the general category `Cc`.
-/

namespace GoOutline.Text

def blankRanges : Ranges :=
  [(0x09, 0x0D), (0x20, 0x20), (0x85, 0x85), (0xA0, 0xA0), (0x1680, 0x1680), (0x2000, 0x200A),
   (0x2028, 0x2029), (0x202F, 0x202F), (0x205F, 0x205F), (0x3000, 0x3000)]

def isBlank (c : Char) : Bool := blankRanges.contains c.toNat

def isControl (c : Char) : Bool := c.toNat < 0x20 || (0x7F ≤ c.toNat && c.toNat < 0xA0)

def trimStart (s : List Char) : List Char := s.dropWhile isBlank

/-- A blank is dropped when nothing but blanks follows it. -/
def trimEnd : List Char → List Char
  | [] => []
  | c :: s =>
    match trimEnd s with
    | [] => if isBlank c then [] else [c]
    | t => c :: t

def trim (s : List Char) : List Char := trimEnd (trimStart s)

/-- The text up to the first blank, and the rest. -/
def word (s : List Char) : List Char × List Char :=
  (s.takeWhile (!isBlank ·), s.dropWhile (!isBlank ·))

/-- The rest of a text behind a leading string. -/
def after? (lead : String) (s : List Char) : Option (List Char) := lead.toList.isPrefixOf? s

/-- The part of a text before a final string. -/
def before? (tail : String) (s : List Char) : Option (List Char) := tail.toList.isSuffixOf? s

end GoOutline.Text
