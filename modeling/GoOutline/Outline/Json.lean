import GoOutline.GoType.Json
import GoOutline.Outline.Basic

/-!
Outlines as JSON.
-/

namespace GoOutline

open Json

def Span.toJson (s : Span) : Json := .object [("begin", .nat s.start), ("end", .nat s.stop)]

def Tags.toJson (t : Tags) : Json := .object (t.pairs.map fun (key, value) => (key, .string value))

namespace Outline

def annotationsToJson (annotations : List Annotation) : Json :=
  .array (annotations.map Annotation.toJson)

def paramsToJson (params : List Parameter) : Json := .array (params.map Parameter.toJson)

def Field.toJson (f : Field) : Json :=
  objectOf [some ("name", .string f.name), some ("type", f.type.toJson),
    some ("embedded", .bool f.embedded), some ("tags", f.tags.toJson),
    optional "raw_tag" (f.rawTag.map .string), some ("docs", strings f.docs),
    some ("annotations", annotationsToJson f.annotations), some ("span", f.span.toJson)]

def Structure.toJson (s : Structure) : Json :=
  .object [("name", .string s.name), ("exported", .bool s.exported), ("span", s.span.toJson),
    ("inner", s.inner.toJson), ("docs", strings s.docs),
    ("annotations", annotationsToJson s.annotations), ("fields", .array (s.fields.map Field.toJson))]

def Method.toJson (m : Method) : Json :=
  .object [("name", .string m.name), ("params", paramsToJson m.params),
    ("results", paramsToJson m.results), ("docs", strings m.docs),
    ("annotations", annotationsToJson m.annotations), ("span", m.span.toJson)]

def Interface.toJson (i : Interface) : Json :=
  .object [("name", .string i.name), ("exported", .bool i.exported), ("span", i.span.toJson),
    ("inner", i.inner.toJson), ("docs", strings i.docs),
    ("annotations", annotationsToJson i.annotations),
    ("methods", .array (i.methods.map Method.toJson)),
    ("embeds", .array (i.embeds.map GoType.toJson))]

def Function.toJson (f : Function) : Json :=
  objectOf [some ("name", .string f.name), some ("exported", .bool f.exported),
    some ("span", f.span.toJson), some ("inner", (f.inner.map Span.toJson).getD .null),
    some ("params_span", f.paramsSpan.toJson),
    optional "receiver" (f.receiver.map Parameter.toJson),
    some ("params", paramsToJson f.params), some ("results", paramsToJson f.results),
    optional "body" (f.body.map .string), some ("docs", strings f.docs),
    some ("annotations", annotationsToJson f.annotations)]

def tableToJson {α : Type} (toJson : α → Json) (t : Table α) : Json :=
  .object (t.entries.map fun (name, a) => (name, toJson a))

/-- The outline without the text and the places of the imports. -/
def toJson (o : Outline) : Json :=
  .object [("package", .string o.package), ("imports", .array (o.imports.map Import.toJson)),
    ("structures", tableToJson Structure.toJson o.structures),
    ("interfaces", tableToJson Interface.toJson o.interfaces),
    ("functions", tableToJson Function.toJson o.functions)]

end Outline

end GoOutline
