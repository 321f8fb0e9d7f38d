import GoOutline.Diff.Shortest
import GoOutline.Diff.Slide

/-!
Unified diffs: the changes between two texts, each with three lines around it.
-/

namespace GoOutline.Diff

/-- A line ends behind a line feed, a carriage return, or both of them in this order. -/
def splitFrom (line : List Char) : List Char → List (List Char)
  | [] => if line.isEmpty then [] else [line.reverse]
  | '\r' :: '\n' :: s => ('\n' :: '\r' :: line).reverse :: splitFrom [] s
  | c :: s =>
    if c = '\r' ∨ c = '\n' then (c :: line).reverse :: splitFrom [] s else splitFrom (c :: line) s

/-- The lines of a text with their ends. -/
def linesOf (s : List Char) : Lines := (splitFrom [] s).toArray

/-- How many lines stand around a change. -/
def margin : Nat := 3

/-- Kept lines, or lines that others take the place of. -/
inductive Piece where
  | keep (old new length : Nat)
  | change (old oldLength new newLength : Nat)
deriving DecidableEq, Repr

namespace Piece

def old : Piece → Nat
  | keep o _ _ | change o _ _ _ => o

def new : Piece → Nat
  | keep _ n _ | change _ _ n _ => n

/-- The line behind the piece in the old list. -/
def oldStop : Piece → Nat
  | keep o _ l | change o l _ _ => o + l

/-- The line behind the piece in the new list. -/
def newStop : Piece → Nat
  | keep _ n l | change _ _ n l => n + l

/-- Joins a step to the pieces behind it. -/
def join : Step → List Piece → List Piece
  | .keep o n l, .keep _ _ m :: rest => .keep o n (l + m) :: rest
  | .keep o n l, rest => .keep o n l :: rest
  | .delete o n l, .change _ m n' k :: rest => .change o (l + m) (if k = 0 then n else n') k :: rest
  | .delete o n l, rest => .change o l n 0 :: rest
  | .insert o n l, .change o' m _ k :: rest => .change (if m = 0 then o else o') m n (l + k) :: rest
  | .insert o n l, rest => .change o 0 n l :: rest

/-- A script with one piece for what goes and comes between kept lines. -/
def ofSteps (steps : List Step) : List Piece := steps.foldr join []

/-- Kept lines in front of a change, without those far from it. -/
def cutFront : Piece → Piece
  | keep o n l => keep (o + (l - margin)) (n + (l - margin)) (min l margin)
  | p => p

/-- Kept lines behind a change, without those far from it. -/
def cutBack : Piece → Piece
  | keep o n l => keep o n (min l margin)
  | p => p

def isKeep : Piece → Bool
  | keep .. => true
  | change .. => false

end Piece

/-- Only what is near a change at the ends of a list. -/
def cutEnds : List Piece → List Piece
  | [] => []
  | p :: rest =>
    match (p.cutFront :: rest).reverse with
    | [] => []
    | last :: before => (last.cutBack :: before).reverse

/-- A hunk that is given in reverse, if it has a change. -/
def closeHunk (hunk : List Piece) : List (List Piece) :=
  if hunk.all Piece.isKeep then [] else [hunk.reverse]

/-- Splits pieces where many lines are kept. The hunk that is being read is in reverse. -/
def hunksFrom (hunk : List Piece) : List Piece → List (List Piece)
  | [] => closeHunk hunk
  | .keep o n l :: rest =>
    let p := Piece.keep o n l
    if l > 2 * margin then (p.cutBack :: hunk).reverse :: hunksFrom [p.cutFront] rest
    else hunksFrom (p :: hunk) rest
  | p :: rest => hunksFrom (p :: hunk) rest

def hunks (pieces : List Piece) : List (List Piece) := hunksFrom [] (cutEnds pieces)

/-- Lines counted from one. No lines stand behind the line before. -/
def renderRange (start stop : Nat) : List Char :=
  let length := stop - start
  if length = 1 then (toString (start + 1)).toList
  else
    let first := if length = 0 then start else start + 1
    (toString first).toList ++ ',' :: (toString length).toList

def renderLine (mark : Char) (line : List Char) : List Char :=
  let ended := line.getLast? == some '\n' || line.getLast? == some '\r'
  mark :: line ++ if ended then [] else "\n\\ No newline at end of file\n".toList

def renderLines (mark : Char) (lines : Lines) (start stop : Nat) : List Char :=
  (lines.extract start stop).toList.flatMap (renderLine mark)

/-- What goes stands in front of what comes. -/
def renderPiece (a b : Lines) : Piece → List Char
  | .keep o _ l => renderLines ' ' a o (o + l)
  | .change o l n m => renderLines '-' a o (o + l) ++ renderLines '+' b n (n + m)

def renderHunk (a b : Lines) (hunk : List Piece) : List Char :=
  match hunk, hunk.getLast? with
  | first :: _, some last =>
    "@@ -".toList ++ renderRange first.old last.oldStop ++ " +".toList ++
      renderRange first.new last.newStop ++ " @@\n".toList ++ hunk.flatMap (renderPiece a b)
  | _, _ => []

/-- The changes from one text to another. -/
def unified (oldTitle newTitle : String) (old new : List Char) : List Char :=
  let a := linesOf old
  let b := linesOf new
  match hunks (Piece.ofSteps (slide a b (shortest a b))) with
  | [] => []
  | hs =>
    "--- ".toList ++ oldTitle.toList ++ "\n+++ ".toList ++ newTitle.toList ++ ['\n'] ++
      hs.flatMap (renderHunk a b)

end GoOutline.Diff
