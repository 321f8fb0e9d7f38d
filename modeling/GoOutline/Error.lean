import GoOutline.Annotation
import GoOutline.Disk
import GoOutline.Syntax.Layout

/-!
What can go wrong with a file, and how it is told.
-/

namespace GoOutline

/-- What an edit names that a file may lack. -/
inductive TargetKind where
  | struct
  | interface
  | function
deriving DecidableEq, Repr

def TargetKind.text : TargetKind → String
  | .struct => "structure"
  | .interface => "interface"
  | .function => "function"

inductive MemberKind where
  | field
  | method
deriving DecidableEq, Repr

def MemberKind.text : MemberKind → String
  | .field => "field"
  | .method => "method"

/-- What a member is a member of. -/
def MemberKind.owner : MemberKind → TargetKind
  | .field => .struct
  | .method => .interface

inductive Error where
  /-- The text does not derive from the grammar. What is found where it goes wrong, with its line and
  byte column, both from one. -/
  | malformed (line column : Nat) (found : String)
  /-- An item out of place, with its line and byte column, both from one. -/
  | misplaced (line column : Nat) (fault : Syntax.LayoutFault)
  | missingPackage
  | notFound (kind : TargetKind) (name : String)
  | memberNotFound (kind : MemberKind) (name owner : String)
  | noBody (function : String)
  | markedLine (e : AnnotationError)
  | unresolved (path reason : String)
  | formatter (text : String)
  | unreadable (cause : ReadError)
  /-- A text that is no value of the wanted kind. -/
  | badJson
deriving DecidableEq, Repr

namespace Error

/-- Text between backquotes. -/
def ticked (text : String) : String :=
  let tick := String.singleton (Char.ofNat 0x60)
  tick ++ text ++ tick

def syntaxMessage (line column : Nat) (text : String) : String :=
  "syntax error at " ++ toString line ++ ":" ++ toString column ++ ": " ++ text

def message : Error → String
  | malformed line column found => syntaxMessage line column ("unexpected " ++ ticked found)
  | misplaced line column fault => syntaxMessage line column fault.message
  | missingPackage => "no package clause found"
  | notFound kind name => "no " ++ kind.text ++ " with name " ++ ticked name ++ " found"
  | memberNotFound kind name owner =>
    kind.text ++ " with name " ++ ticked name ++ " not found in " ++ kind.owner.text ++ " " ++
      ticked owner
  | noBody function => "function " ++ ticked function ++ " has no body"
  | markedLine e => "invalid annotation " ++ ticked e.line ++ ": " ++ e.fault.message
  | unresolved path reason => "cannot resolve import " ++ ticked path ++ ": " ++ reason
  | formatter text => "formatter failed: " ++ text
  | unreadable cause => "IO error: " ++ cause.message
  | badJson => "JSON error"

/-- Whether the target of an edit is missing. -/
def isNotFound : Error → Bool
  | notFound .. | memberNotFound .. => true
  | _ => false

end Error

end GoOutline
