import GoOutline.Docs
import GoOutline.GoType
import GoOutline.Tags

/-!
Declarations that are yet to be written into a file, and their text.
-/

namespace GoOutline.Draft

open Text

structure Field where
  /-- An embedded field has no name of its own. -/
  name : Option String
  type : GoType
  tags : Tags
  docs : List String
deriving Repr

structure Method where
  name : String
  params : List Parameter
  results : List Parameter
  docs : List String
deriving Repr

structure Structure where
  name : String
  fields : List Field
  docs : List String
deriving Repr

structure Interface where
  name : String
  methods : List Method
  docs : List String
deriving Repr

structure Function where
  name : String
  receiver : Option Parameter
  params : List Parameter
  results : List Parameter
  body : String
  docs : List String
deriving Repr

/-- One tab in front of each line that is not empty. -/
def indented (code : List Char) : List Char :=
  (lines code).flatMap fun line => (if line.isEmpty then [] else ['\t']) ++ line ++ ['\n']

def Field.render (f : Field) : List Char :=
  Docs.render f.docs ++
  (match f.name with
    | some name => name.toList ++ [' ']
    | none => []) ++
  f.type.render ++ if f.tags.isEmpty then [] else ' ' :: f.tags.literal

def Method.render (m : Method) : List Char :=
  Docs.render m.docs ++ m.name.toList ++ renderParams m.params ++ renderResults m.results

/-- A type declaration with members between braces, those without members on one line. -/
def renderType (name : String) (keyword : String) (members : List (List Char)) : List Char :=
  "type ".toList ++ name.toList ++ ' ' :: keyword.toList ++
    if members.isEmpty then ['{', '}']
    else ' ' :: '{' :: '\n' :: members.flatMap indented ++ ['}']

def Structure.render (s : Structure) : List Char :=
  Docs.render s.docs ++ renderType s.name "struct" (s.fields.map Field.render)

def Interface.render (i : Interface) : List Char :=
  Docs.render i.docs ++ renderType i.name "interface" (i.methods.map Method.render)

def Function.render (f : Function) : List Char :=
  Docs.render f.docs ++ "func ".toList ++
  (match f.receiver with
    | some r => '(' :: r.render ++ [')', ' ']
    | none => []) ++
  f.name.toList ++ renderParams f.params ++ renderResults f.results ++
  ' ' :: '{' :: '\n' :: indented f.body.toList ++ ['}']

end GoOutline.Draft
