import GoOutline.Docs

/-!
The layout of a file: a package clause, then imports, then declarations.
-/

namespace GoOutline.Syntax

open Docs

inductive LayoutFault where
  | secondPackage
  | beforePackage
  | lateImport
  | looseStatement
deriving DecidableEq, Repr

def LayoutFault.message : LayoutFault → String
  | .secondPackage => "duplicate package clause"
  | .beforePackage => "package clause must come first"
  | .lateImport => "imports must appear before other declarations"
  | .looseStatement => "non-declaration statement outside function body"

inductive LayoutError where
  | missingPackage
  /-- The first item out of place starts at this offset. -/
  | misplaced (fault : LayoutFault) (offset : Nat)
deriving DecidableEq, Repr

/-- The parts of a file in their order. -/
structure Layout where
  package : String
  /-- The place of the package name. -/
  place : Span
  imports : List (Extent × ImportDecl)
  declarations : List (Documented Item)
deriving Repr

namespace Layout

def isPackage (i : Item) : Bool :=
  match i.kind with
  | .package .. => true
  | _ => false

def misplaced {α : Type} (fault : LayoutFault) (i : Item) : Except LayoutError α :=
  .error (.misplaced fault i.extent.span.start)

/-- All items are declarations other than imports. -/
def declarationsOf : List (Documented Item) → Except LayoutError (List (Documented Item))
  | [] => .ok []
  | d :: rest =>
    match d.item.kind with
    | .package .. => misplaced .secondPackage d.item
    | .imports _ => misplaced .lateImport d.item
    | .statement => misplaced .looseStatement d.item
    | .types _ | .func _ | .values => (d :: ·) <$> declarationsOf rest

/-- Imports first, then the other declarations. -/
def partsOf : List (Documented Item) →
    Except LayoutError (List (Extent × ImportDecl) × List (Documented Item))
  | [] => .ok ([], [])
  | d :: rest =>
    match d.item.kind with
    | .imports decl =>
      (fun (is, ds) => ((d.item.extent, decl) :: is, ds)) <$> partsOf rest
    | _ => ([], ·) <$> declarationsOf (d :: rest)

def ofItems (items : List (Documented Item)) : Except LayoutError Layout :=
  match items with
  | [] => .error .missingPackage
  | d :: rest =>
    match d.item.kind with
    | .package name place =>
      (fun (is, ds) => ⟨name, place, is, ds⟩) <$> partsOf rest
    | _ =>
      if items.any (isPackage ·.item) then misplaced .beforePackage d.item
      else .error .missingPackage

def ofTree (t : Tree) : Except LayoutError Layout := ofItems (attach Item.extent t.items)

end Layout

end GoOutline.Syntax
