import GoOutline.Outline.Json

/-!
Outlines as text for people, and the annotations that a search finds.
-/

namespace GoOutline.Outline

def textOf (lines : List (List Char)) : List Char := lines.flatMap (· ++ ['\n'])

/-- A line with blanks in front. -/
def inset (width : Nat) (line : List Char) : List Char := List.replicate width ' ' ++ line

/-- An empty line in front of a heading. -/
def block (heading : List Char) (lines : List (List Char)) : List (List Char) :=
  [] :: heading :: lines

def annotationLines (marker : String) (width : Nat) (annotations : List Annotation) :
    List (List Char) :=
  annotations.map fun a => inset width (a.render marker)

def signature (params results : List Parameter) : List Char :=
  renderParams params ++ renderResults results

def importLine (i : Import) : List Char :=
  inset 2 (i.render ++ match i.dir with
    | some dir => " (".toList ++ dir.toList ++ [')']
    | none => [])

def fieldLine (f : Field) : List Char :=
  inset 2 (f.name.toList ++ ' ' :: f.type.render ++
    if f.tags.isEmpty then [] else ' ' :: f.tags.literal)

def structureLines (marker : String) (s : Structure) : List (List Char) :=
  block ("struct ".toList ++ s.name.toList) <|
    annotationLines marker 2 s.annotations ++
      s.fields.flatMap fun f => fieldLine f :: annotationLines marker 4 f.annotations

def interfaceLines (marker : String) (i : Interface) : List (List Char) :=
  block ("interface ".toList ++ i.name.toList) <|
    annotationLines marker 2 i.annotations ++
      i.embeds.map (fun e => inset 2 e.render) ++
      i.methods.flatMap fun m =>
        inset 2 (m.name.toList ++ signature m.params m.results) ::
          annotationLines marker 4 m.annotations

def functionLines (marker : String) (f : Function) : List (List Char) :=
  inset 2 (f.key.toList ++ signature f.params f.results) :: annotationLines marker 4 f.annotations

/-- A section for things of one kind, if there are any. -/
def listed {α : Type} (heading : String) (lines : α → List (List Char)) (items : List α) :
    List (List Char) :=
  if items.isEmpty then [] else block heading.toList (items.flatMap lines)

def report (marker : String) (o : Outline) : List Char :=
  textOf <|
    ("package ".toList ++ o.package.toList) ::
      listed "Imports" (fun i => [importLine i]) o.imports ++
      o.structures.values.flatMap (structureLines marker) ++
      o.interfaces.values.flatMap (interfaceLines marker) ++
      listed "Functions" (functionLines marker) o.functions.values

def hitLine (marker : String) (hit : Entity × Annotation) : List Char :=
  hit.1.kind.text.toList ++ ' ' :: hit.1.owner.toList ++ ' ' :: hit.2.render marker

def hitToJson (hit : Entity × Annotation) : Json :=
  .object [("kind", .string hit.1.kind.text), ("name", .string hit.1.owner),
    ("annotation", hit.2.toJson)]

end GoOutline.Outline
