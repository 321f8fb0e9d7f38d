import GoOutline.GoType.Resolve
import GoOutline.Syntax.Parser

/-!
Reading a type that stands by itself.
-/

namespace GoOutline

open Syntax

inductive TypeReadError where
  | malformed
  /-- The text makes the definition an alias. -/
  | «alias»
deriving DecidableEq, Repr

namespace GoType

/-- A file in which the type is defined. -/
def definingText (type : List Char) : List Char :=
  "package p\n\ntype T ".toList ++ type ++ ['\n']

def definitions : TypeDecl → List TypeEntry
  | .lone e => [e]
  | .group es => members es

def typesOf? (i : Item) : Option TypeDecl :=
  match i.kind with
  | .types decl => some decl
  | _ => none

def definedType? : TypeEntry → Option TypeExpr
  | .definition spec => some spec.body.type
  | .synonym _ => none

/-- The type of the first definition in the first declaration of types. -/
def firstDefined? (t : Tree) : Option TypeExpr :=
  ((members t.items).findSome? typesOf?).bind fun decl => (definitions decl).findSome? definedType?

def ofText (imports : List Import) (type : List Char) : Except TypeReadError GoType :=
  let text := definingText type
  match Tree.ofText? text with
  | none => .error .malformed
  | some tree =>
    match firstDefined? tree with
    | none => .error .«alias»
    | some e => .ok (Scope.type ⟨text, imports⟩ e)

end GoType

end GoOutline
