import GoOutline.Syntax.Tree
import GoOutline.Text.Lines

/-!
Doc comments: which comments document a declaration, what they say, and how they are written.
-/

namespace GoOutline.Docs

open Text Syntax

/-- A line of a comment between slash and star, without the star that may stand in front of it. -/
def cleanLine (line : List Char) : List Char :=
  match trim line with
  | '*' :: rest => trim rest
  | rest => rest

/-- Without the empty lines behind the last one that is not empty. -/
def dropEmptyEnd : List (List Char) → List (List Char)
  | [] => []
  | line :: rest =>
    match dropEmptyEnd rest with
    | [] => if line.isEmpty then [] else [line]
    | kept => line :: kept

/-- The lines that a comment says, without delimiters and decoration. -/
def clean (comment : List Char) : List (List Char) :=
  match after? "//" comment with
  | some line => [trim line]
  | none =>
    let body := (after? "/*" comment).getD comment
    let body := (before? "*/" body).getD body
    dropEmptyEnd (((lines body).map cleanLine).dropWhile List.isEmpty)

/-- A comment on the line of a member that ends right before it. -/
def trails {α : Type} (place : α → Extent) (comment : Comment) (before : List (Sibling α)) : Bool :=
  match before with
  | .member a :: _ => (place a).lastRow == comment.extent.row
  | _ => false

/-- The comments on the rows right above a given row, the siblings above it counted upwards. A
comment that trails a member ends the search. -/
def commentsAbove {α : Type} (place : α → Extent) (row : Nat) (before : List (Sibling α)) :
    List Comment :=
  match before with
  | .comment c :: rest =>
    if c.extent.lastRow + 1 ≠ row || trails place c rest then []
    else commentsAbove place c.extent.row rest ++ [c]
  | _ => []

/-- A member of a list with the lines of its doc comments. -/
structure Documented (α : Type) where
  docs : List String
  item : α
deriving Repr

def linesOf (comments : List Comment) : List String :=
  comments.flatMap fun c => (clean c.text.toList).map String.ofList

def attachFrom {α : Type} (place : α → Extent) (before : List (Sibling α)) :
    List (Sibling α) → List (Documented α)
  | [] => []
  | .comment c :: rest => attachFrom place (.comment c :: before) rest
  | .member a :: rest =>
    ⟨linesOf (commentsAbove place (place a).row before), a⟩ ::
      attachFrom place (.member a :: before) rest

/-- The members of a list with the docs among the comments between them. -/
def attach {α : Type} (place : α → Extent) (siblings : List (Sibling α)) : List (Documented α) :=
  attachFrom place [] siblings

theorem map_item_attachFrom {α : Type} (place : α → Extent) (before siblings : List (Sibling α)) :
    (attachFrom place before siblings).map Documented.item = members siblings := by
  fun_induction attachFrom place before siblings with
  | case1 => rfl
  | case2 before c rest ih => simpa [members, List.filterMap_cons, Sibling.member?] using ih
  | case3 before a rest ih => simpa [members, List.filterMap_cons, Sibling.member?] using ih

@[simp] theorem map_item_attach {α : Type} (place : α → Extent) (siblings : List (Sibling α)) :
    (attach place siblings).map Documented.item = members siblings :=
  map_item_attachFrom place [] siblings

theorem mem_of_attach {α : Type} {place : α → Extent} {siblings : List (Sibling α)}
    {d : Documented α} (h : d ∈ attach place siblings) : d.item ∈ members siblings := by
  rw [← map_item_attach place siblings]
  exact List.mem_map_of_mem h

/-- One line comment for each line. -/
def render (docs : List String) : List Char :=
  docs.flatMap fun line =>
    if line.toList.isEmpty then "//\n".toList else "// ".toList ++ line.toList ++ ['\n']

end GoOutline.Docs
