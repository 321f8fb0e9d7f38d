import GoOutline.Text.Blank

namespace GoOutline.Text

/-- A line without the carriage return of its line break. -/
def dropReturn (line : List Char) : List Char := (before? "\r" line).getD line

def closeLines : List (List Char) → List (List Char)
  | [] => []
  | [tail] => if tail.isEmpty then [] else [tail]
  | line :: rest => dropReturn line :: closeLines rest

/-- Lines end at a line feed, which takes one carriage return before it along. An empty text after
the last line feed is no line. -/
def lines (s : List Char) : List (List Char) := closeLines (s.splitOn '\n')

end GoOutline.Text
