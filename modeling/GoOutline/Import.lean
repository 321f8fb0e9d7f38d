import GoOutline.Text.Quoted

/-!
Imports of packages, and the names that packages go by in a file.
-/

namespace GoOutline

open Text

structure Import where
  localName : Option String
  path : String
  /-- The name that the package gives itself, where it is known. -/
  package : Option String
  dir : Option String
deriving DecidableEq, Repr, Inhabited

namespace Import

def isMajorVersion : List Char → Bool
  | 'v' :: digits => !digits.isEmpty && digits.all Char.isDigit
  | _ => false

def segments (path : List Char) : List (List Char) := (path.splitOn '/').filter (!·.isEmpty)

/-- The last segment of a path that names more than a version. -/
def nameSegment (path : List Char) : List Char :=
  match (segments path).reverse with
  | [] => path
  | [last] => last
  | last :: previous :: _ => if isMajorVersion last then previous else last

/-- Without a version behind the last dot. -/
def dropVersion (segment : List Char) : List Char :=
  match (segment.splitOn '.').reverse with
  | version :: base :: more =>
    if isMajorVersion version then ['.'].intercalate (base :: more).reverse else segment
  | _ => segment

/-- What a package is probably called, going by its path. -/
def guessName (path : String) : String := String.ofList (dropVersion (nameSegment path.toList))

def packageName (i : Import) : String := i.package.getD (guessName i.path)

/-- The name in front of the dot in a qualified name. A blank or dot import has none. -/
def qualifier? (i : Import) : Option String :=
  match i.localName with
  | none => some i.packageName
  | some a => if a = "_" ∨ a = "." then none else some a

/-- The same path under the same name. -/
def sameSpec (i j : Import) : Bool := i.path == j.path && i.localName == j.localName

def render (i : Import) : List Char :=
  (match i.localName with
    | some a => a.toList ++ [' ']
    | none => []) ++ Quoted.quote i.path.toList

end Import

end GoOutline
