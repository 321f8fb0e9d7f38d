import GoOutline.Syntax.Token

/-!
Syntax trees of Go source texts, in as much detail as an outline needs. Expressions and statements
leave no trace but their place. Lists of declarations, fields and interface elements keep the
comments that stand between their members.
-/

namespace GoOutline.Syntax

mutual

inductive TypeExpr where
  | name (span : Span) (id : String)
  | qualified (span : Span) (package id : String)
  | pointer (span : Span) (elem : TypeExpr)
  | slice (span : Span) (elem : TypeExpr)
  | array (span length : Span) (elem : TypeExpr)
  | map (span : Span) (key value : TypeExpr)
  | function (span : Span) (params results : List ParamDecl)
  /-- Channels, structs, interfaces, instances of generic types, types in parentheses and `~T`. -/
  | other (span : Span)
deriving Repr

/-- The names that share one parameter type; a type alone has no name. -/
inductive ParamDecl where
  | mk (span : Span) (names : List String) (type : TypeExpr) (variadic : Bool)
deriving Repr

end

instance : Inhabited TypeExpr := ⟨.other default⟩

def TypeExpr.span : TypeExpr → Span
  | .name s _ | .qualified s _ _ | .pointer s _ | .slice s _ | .array s _ _ | .map s _ _
  | .function s _ _ | .other s => s

def ParamDecl.span : ParamDecl → Span
  | .mk s _ _ _ => s

def ParamDecl.names : ParamDecl → List String
  | .mk _ ns _ _ => ns

def ParamDecl.type : ParamDecl → TypeExpr
  | .mk _ _ t _ => t

def ParamDecl.variadic : ParamDecl → Bool
  | .mk _ _ _ v => v

/-- A member of a list, or a comment between the members. -/
inductive Sibling (α : Type) where
  | comment (c : Comment)
  | member (a : α)
deriving Repr

def Sibling.member? {α : Type} : Sibling α → Option α
  | .comment _ => none
  | .member a => some a

/-- The members of a list without the comments between them. -/
def members {α : Type} (siblings : List (Sibling α)) : List α := siblings.filterMap Sibling.member?

section Members

variable {α : Type}

@[simp] theorem members_nil : members ([] : List (Sibling α)) = [] := rfl

@[simp] theorem members_comment (c : Comment) (s : List (Sibling α)) :
    members (.comment c :: s) = members s := rfl

@[simp] theorem members_member (a : α) (s : List (Sibling α)) :
    members (.member a :: s) = a :: members s := rfl

@[simp] theorem members_append (s t : List (Sibling α)) :
    members (s ++ t) = members s ++ members t := List.filterMap_append

end Members

/-- The places of two delimiters. -/
structure Delimiters where
  opening : Span
  closing : Span
deriving DecidableEq, Repr

/-- The text between the delimiters. -/
def Delimiters.inner (d : Delimiters) : Span := ⟨d.opening.stop, d.closing.start⟩

structure ParamList where
  parens : Delimiters
  decls : List ParamDecl
deriving Repr

inductive FieldHead where
  | named (names : List String)
  /-- A type alone, perhaps behind a star. -/
  | embedded (pointer : Bool)
deriving DecidableEq, Repr

structure FieldDecl where
  extent : Extent
  head : FieldHead
  type : TypeExpr
  /-- The tag as it is written, a string literal. -/
  tag : Option String
deriving Repr

structure StructBody where
  braces : Delimiters
  fields : List (Sibling FieldDecl)
deriving Repr

structure MethodSpec where
  extent : Extent
  name : String
  params : ParamList
  results : List ParamDecl
deriving Repr

inductive InterfaceElem where
  | method (m : MethodSpec)
  /-- A union of types. -/
  | embedding (extent : Extent) (first : TypeExpr) (more : List TypeExpr)
deriving Repr

def InterfaceElem.extent : InterfaceElem → Extent
  | .method m => m.extent
  | .embedding e _ _ => e

structure InterfaceBody where
  braces : Delimiters
  /-- What stands between the keyword and the closing brace. -/
  elems : List (Sibling InterfaceElem)
deriving Repr

/-- The right-hand side of a type definition. -/
inductive TypeBody where
  | struct (span : Span) (body : StructBody)
  | interface (span : Span) (body : InterfaceBody)
  | plain (type : TypeExpr)
deriving Repr

def TypeBody.type : TypeBody → TypeExpr
  | .struct s _ | .interface s _ => .other s
  | .plain t => t

structure TypeSpec where
  extent : Extent
  name : String
  body : TypeBody
deriving Repr

inductive TypeEntry where
  | definition (spec : TypeSpec)
  | synonym (extent : Extent)
deriving Repr

def TypeEntry.extent : TypeEntry → Extent
  | .definition s => s.extent
  | .synonym e => e

inductive TypeDecl where
  | lone (entry : TypeEntry)
  /-- What stands between the keyword and the closing parenthesis. -/
  | group (entries : List (Sibling TypeEntry))
deriving Repr

structure ImportSpec where
  extent : Extent
  name : Option String
  /-- The path as it is written, a string literal. -/
  path : String
deriving Repr

structure ImportDecl where
  keyword : Span
  parens : Option Delimiters
  specs : List ImportSpec
deriving Repr

structure FuncDecl where
  receiver : Option ParamList
  name : String
  params : ParamList
  results : List ParamDecl
  braces : Option Delimiters
deriving Repr

inductive ItemKind where
  | package (name : String) (place : Span)
  | imports (decl : ImportDecl)
  | types (decl : TypeDecl)
  | func (decl : FuncDecl)
  /-- Constants or variables. -/
  | values
  | statement
deriving Repr

/-- A declaration or statement outside of all functions. -/
structure Item where
  extent : Extent
  kind : ItemKind
deriving Repr

structure Tree where
  items : List (Sibling Item)
deriving Repr

end GoOutline.Syntax
