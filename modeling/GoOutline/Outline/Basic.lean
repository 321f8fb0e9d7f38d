import GoOutline.Annotation
import GoOutline.GoType
import GoOutline.Tags
import GoOutline.Text.Offset
import GoOutline.Text.Uppercase

/-!
The outline of a file: its package, imports, structures, interfaces and functions, each with its
place in the text.
-/

namespace GoOutline

open Text

namespace Outline

structure Field where
  name : String
  type : GoType
  embedded : Bool
  tags : Tags
  rawTag : Option String
  docs : List String
  annotations : List Annotation
  span : Span
deriving Repr

structure Structure where
  name : String
  span : Span
  /-- The text between the braces. -/
  inner : Span
  docs : List String
  annotations : List Annotation
  fields : List Field
deriving Repr

structure Method where
  name : String
  params : List Parameter
  results : List Parameter
  docs : List String
  annotations : List Annotation
  span : Span
deriving Repr

structure Interface where
  name : String
  span : Span
  /-- The text between the braces. -/
  inner : Span
  docs : List String
  annotations : List Annotation
  methods : List Method
  embeds : List GoType
deriving Repr

structure Function where
  name : String
  span : Span
  /-- The text between the braces of the body. -/
  inner : Option Span
  /-- The text between the parentheses of the parameter list. -/
  paramsSpan : Span
  /-- The end of the last parameter declaration. -/
  lastParamEnd : Option Nat
  receiver : Option Parameter
  params : List Parameter
  results : List Parameter
  body : Option String
  docs : List String
  annotations : List Annotation
deriving Repr

/-- An import declaration. -/
structure ImportDecl where
  span : Span
  keywordEnd : Nat
  /-- The text between the parentheses of a group. -/
  list : Option Span
  specs : List Span
deriving DecidableEq, Repr

def Structure.exported (s : Structure) : Bool := isExported s.name.toList

def Interface.exported (i : Interface) : Bool := isExported i.name.toList

def Function.exported (f : Function) : Bool := isExported f.name.toList

def Structure.field? (s : Structure) (name : String) : Option Field :=
  s.fields.find? (·.name == name)

def Interface.method? (i : Interface) (name : String) : Option Method :=
  i.methods.find? (·.name == name)

def Function.receiverType? (f : Function) : Option String := f.receiver.bind (·.type.baseName?)

def Function.isMethod (f : Function) : Bool := f.receiver.isSome

/-- The name that a function goes by in a file: a method has its receiver's type in front. -/
def Function.key (f : Function) : String :=
  match f.receiverType? with
  | some receiver => receiver ++ "." ++ f.name
  | none => f.name

end Outline

structure Outline where
  package : String
  /-- The end of the package name. -/
  packageEnd : Nat
  text : List Char
  imports : List Import
  importDecls : List Outline.ImportDecl
  structures : Table Outline.Structure
  interfaces : Table Outline.Interface
  functions : Table Outline.Function
deriving Repr

namespace Outline

def structure? (o : Outline) (name : String) : Option Structure := o.structures.get? name

def interface? (o : Outline) (name : String) : Option Interface := o.interfaces.get? name

def function? (o : Outline) (key : String) : Option Function := o.functions.get? key

def hasImport (o : Outline) (i : Import) : Bool := o.imports.any (·.sameSpec i)

def slice (o : Outline) (span : Span) : String := String.ofList (Text.slice o.text span)

/-- What annotations are put on. -/
inductive EntityKind where
  | struct
  | field
  | interface
  | method
  | function
deriving DecidableEq, Repr

namespace EntityKind

def text : EntityKind → String
  | .struct => "struct"
  | .field => "field"
  | .interface => "interface"
  | .method => "method"
  | .function => "function"

/-- The kind that a word names, in upper or lower case. -/
def ofWord? (word : String) : Option EntityKind :=
  match word.toLower with
  | "struct" | "structure" => some .struct
  | "field" => some .field
  | "interface" => some .interface
  | "method" => some .method
  | "function" | "func" => some .function
  | _ => none

end EntityKind

/-- An annotated part of a file. -/
structure Entity where
  kind : EntityKind
  /-- The name, behind that of the structure or interface it belongs to. -/
  owner : String
  name : String
  span : Span
  annotations : List Annotation
deriving Repr

def Structure.entities (s : Structure) : List Entity :=
  ⟨.struct, s.name, s.name, s.span, s.annotations⟩ ::
    s.fields.map fun f => ⟨.field, s.name ++ "." ++ f.name, f.name, f.span, f.annotations⟩

def Interface.entities (i : Interface) : List Entity :=
  ⟨.interface, i.name, i.name, i.span, i.annotations⟩ ::
    i.methods.map fun m => ⟨.method, i.name ++ "." ++ m.name, m.name, m.span, m.annotations⟩

def Function.entity (f : Function) : Entity := ⟨.function, f.key, f.name, f.span, f.annotations⟩

/-- Structures with their fields, then interfaces with their methods, then functions. -/
def entities (o : Outline) : List Entity :=
  o.structures.values.flatMap Structure.entities ++
    o.interfaces.values.flatMap Interface.entities ++ o.functions.values.map Function.entity

/-- The annotations of a name, each with the entity that has it. -/
def find (o : Outline) (name : String) : List (Entity × Annotation) :=
  o.entities.flatMap fun e => (e.annotations.filter (·.name == name)).map (e, ·)

end Outline

end GoOutline
