import GoOutline.Annotation
import GoOutline.GoType
import GoOutline.Json.Record

/-!
Types, parameters, imports and annotations as JSON. A type is a kind with a value.
-/

namespace GoOutline

open Json

def Annotation.toJson (a : Annotation) : Json :=
  objectOf [some ("name", .string a.name),
    if a.args.isEmpty then none else some ("args", strings a.args)]

def Annotation.ofJson? (j : Json) : Option Annotation := do
  let r ← Record.ofJson? ["name", "args"] j
  return ⟨← r.required "name" text?, ← r.withDefault "args" [] (listOf? text?)⟩

namespace Import

def toJson (i : Import) : Json :=
  objectOf [optional "alias" (i.localName.map .string), some ("path", .string i.path),
    optional "package" (i.package.map .string), optional "dir" (i.dir.map .string)]

def ofJson? (j : Json) : Option Import := do
  let r ← Record.ofJson? ["alias", "path", "package", "dir"] j
  return ⟨← r.withDefault "alias" none (nullable? text?), ← r.required "path" text?,
    ← r.withDefault "package" none (nullable? text?), ← r.withDefault "dir" none (nullable? text?)⟩

end Import

namespace GoType

def tagged (kind : String) (value : Json) : Json :=
  .object [("kind", .string kind), ("value", value)]

mutual

def toJson : GoType → Json
  | simple name => tagged "simple" (.string name)
  | imported name origin =>
    tagged "imported" (.object [("name", .string name), ("import", origin.toJson)])
  | pointer elem => tagged "pointer" (toJson elem)
  | array length elem =>
    tagged "array" (objectOf [optional "len" (length.map .string), some ("elem", toJson elem)])
  | map key value => tagged "map" (.object [("key", toJson key), ("value", toJson value)])
  | function params results =>
    tagged "function" (.object [("params", .array (listToJson params)),
      ("results", .array (listToJson results))])
  | raw text => tagged "raw" (.string text)

def parameterToJson : Parameter → Json
  | .mk name type variadic =>
    objectOf [optional "name" (name.map .string), some ("type", toJson type),
      if variadic then some ("variadic", .bool true) else none]

def listToJson : List Parameter → List Json
  | [] => []
  | p :: ps => parameterToJson p :: listToJson ps

end

/-- The value of a kind that has several parts. -/
def parts? (names : List String) : Json → Option Record
  | .object members => Record.ofMembers? names members
  | _ => none

mutual

/-- The bound is on the depth of the value. -/
def read (n : Nat) (j : Json) : Option GoType :=
  match n with
  | 0 => none
  | n + 1 => do
    let r ← Record.ofJson? ["kind", "value"] j
    let kind ← r.required "kind" tag?
    let value ← r.get? "value"
    match kind with
    | "simple" => return simple (← text? value)
    | "imported" =>
      let r ← parts? ["name", "import"] value
      return imported (← r.required "name" text?) (← r.required "import" Import.ofJson?)
    | "pointer" => return pointer (← read n value)
    | "array" =>
      let r ← parts? ["len", "elem"] value
      return array (← r.withDefault "len" none (nullable? text?)) (← r.required "elem" (read n))
    | "map" =>
      let r ← parts? ["key", "value"] value
      return map (← r.required "key" (read n)) (← r.required "value" (read n))
    | "function" =>
      let r ← parts? ["params", "results"] value
      return function (← r.required "params" (listOf? (readParameter n)))
        (← r.required "results" (listOf? (readParameter n)))
    | "raw" => return raw (← text? value)
    | _ => failure

def readParameter (n : Nat) (j : Json) : Option Parameter :=
  match n with
  | 0 => none
  | n + 1 => do
    let r ← Record.ofJson? ["name", "type", "variadic"] j
    return .mk (← r.withDefault "name" none (nullable? text?)) (← r.required "type" (read n))
      (← r.withDefault "variadic" false bool?)

end

def ofJson? (j : Json) : Option GoType := read (j.depth + 1) j

end GoType

namespace Parameter

def toJson (p : Parameter) : Json := GoType.parameterToJson p

def ofJson? (j : Json) : Option Parameter := GoType.readParameter (j.depth + 1) j

end Parameter

end GoOutline
