import GoOutline.Text.Quoted

/-!
Annotations: lines of documentation that speak to a tool. Such a line has a marker and a colon in
front, then a name, then arguments with blanks between them. An argument between double quotes may
hold blanks and escapes.
-/

namespace GoOutline

open Text

structure Annotation where
  name : String
  args : List String
deriving DecidableEq, Repr, Inhabited

inductive AnnotationFault where
  | missingName
  | badName
  | unterminated
  | badEscape
  | noBlank
deriving DecidableEq, Repr

def AnnotationFault.message : AnnotationFault → String
  | .missingName => "missing annotation name"
  | .badName => "annotation name must be an identifier"
  | .unterminated => "unterminated quoted argument"
  | .badEscape => "invalid escape in quoted argument"
  | .noBlank => "quoted argument must be followed by whitespace"

/-- A line with the marker in front that is no annotation. -/
structure AnnotationError where
  line : String
  fault : AnnotationFault
deriving DecidableEq, Repr

namespace Annotation

def isNameStart (c : Char) : Bool := c.isAlpha || c == '_'

def isNamePart (c : Char) : Bool := isNameStart c || c.isDigit || c == '.' || c == '-'

def isName : List Char → Bool
  | [] => false
  | c :: s => isNameStart c && s.all isNamePart

theorem length_trimStart (s : List Char) : (trimStart s).length ≤ s.length :=
  (List.dropWhile_sublist _).length_le

theorem word_cons_length {c : Char} {s : List Char} (h : isBlank c = false) :
    (word (c :: s)).2.length ≤ s.length := by
  simp only [word, List.dropWhile_cons, h, Bool.not_false, if_true]
  exact (List.dropWhile_sublist _).length_le

theorem not_blank_of_trimStart {c : Char} {s r : List Char} (h : trimStart s = c :: r) :
    isBlank c = false := by
  have := List.head?_dropWhile_not isBlank s
  simp only [trimStart] at h
  simpa [h] using this

/-- The arguments in a text. -/
def readArgs (s : List Char) : Except AnnotationFault (List String) :=
  match _h : trimStart s with
  | [] => .ok []
  | c :: r =>
    if c = '"' then
      match _hl : Quoted.literal? (c :: r) with
      | none => .error .unterminated
      | some (literal, rest) =>
        match Quoted.unquote literal with
        | none => .error .badEscape
        | some value =>
          if rest.head?.any (!isBlank ·) then .error .noBlank
          else (String.ofList value :: ·) <$> readArgs rest
    else
      (String.ofList (word (c :: r)).1 :: ·) <$> readArgs (word (c :: r)).2
termination_by s.length
decreasing_by
  · have := Quoted.length_of_literal _hl
    have := length_trimStart s
    rw [_h] at this
    omega
  · have := word_cons_length (s := r) (not_blank_of_trimStart _h)
    have := length_trimStart s
    rw [_h, List.length_cons] at this
    omega

/-- Name and arguments, behind the marker. -/
def readBody (body : List Char) : Except AnnotationFault Annotation := do
  let (name, rest) := word body
  if name.isEmpty then throw .missingName
  if !isName name then throw .badName
  let args ← readArgs rest
  return ⟨String.ofList name, args⟩

/-- The annotation on a line, if the line starts with the marker and a colon. -/
def ofLine? (marker line : String) : Except AnnotationError (Option Annotation) :=
  let line := trim line.toList
  match (after? marker line).bind (after? ":") with
  | none => .ok none
  | some body =>
    match readBody body with
    | .ok a => .ok (some a)
    | .error fault => .error ⟨String.ofList line, fault⟩

def needsQuotes (arg : List Char) : Bool :=
  arg.isEmpty || arg.head? == some '"' || arg.any isBlank

def renderArg (arg : String) : List Char :=
  if needsQuotes arg.toList then Quoted.quote arg.toList else arg.toList

/-- The line that says an annotation. -/
def render (marker : String) (a : Annotation) : List Char :=
  marker.toList ++ ':' :: a.name.toList ++ a.args.flatMap fun arg => ' ' :: renderArg arg

/-- How annotations are told from other documentation. -/
structure Dialect where
  marker : String
  /-- A line with the marker that is no annotation is an error, and not documentation. -/
  strict : Bool
deriving DecidableEq, Repr

/-- Separates plain documentation from annotations. -/
def partition (dialect : Dialect) : List String →
    Except AnnotationError (List String × List Annotation)
  | [] => .ok ([], [])
  | line :: rest =>
    match ofLine? dialect.marker line with
    | .ok (some a) => (fun (plain, found) => (plain, a :: found)) <$> partition dialect rest
    | .ok none => (fun (plain, found) => (line :: plain, found)) <$> partition dialect rest
    | .error e =>
      if dialect.strict then .error e
      else (fun (plain, found) => (line :: plain, found)) <$> partition dialect rest

end Annotation

end GoOutline
