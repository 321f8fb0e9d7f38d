import GoOutline.Edit.Document
import GoOutline.Json.Read
import GoOutline.Json.Record
import GoOutline.Packages.Search

/-!
Configuration files.
-/

namespace GoOutline

open Json

inductive FormatterChoice where
  | verbatim
  | gofmt
deriving DecidableEq, Repr

namespace FormatterChoice

def tag : FormatterChoice → String
  | verbatim => "verbatim"
  | gofmt => "gofmt"

def ofTag? : String → Option FormatterChoice
  | "verbatim" => some verbatim
  | "gofmt" => some gofmt
  | _ => none

def formatter : FormatterChoice → Formatter
  | verbatim => .verbatim
  | gofmt => .program "gofmt"

end FormatterChoice

structure Config where
  marker : String
  strict : Bool
  indent : String
  formatter : FormatterChoice
  goroot : Option String
  gopath : List String
deriving DecidableEq, Repr

namespace Config

/-- What holds where a file says nothing. -/
def standard : Config := ⟨"gen", false, "\t", .verbatim, none, []⟩

def buildToJson (c : Config) : Json :=
  objectOf [optional "goroot" (c.goroot.map .string),
    if c.gopath.isEmpty then none else some ("gopath", strings c.gopath)]

def toJson (c : Config) : Json :=
  .object [("marker", .string c.marker), ("strict_annotations", .bool c.strict),
    ("indent", .string c.indent), ("formatter", .string c.formatter.tag),
    ("build", c.buildToJson)]

def buildOfJson? (j : Json) : Option (Option String × List String) := do
  let r ← Record.ofJson? ["goroot", "gopath"] j
  return (← r.withDefault "goroot" none (nullable? text?),
    ← r.withDefault "gopath" [] (listOf? text?))

def ofJson? (j : Json) : Option Config := do
  let r ← Record.ofJson? ["marker", "strict_annotations", "indent", "formatter", "build"] j
  let marker ← r.withDefault "marker" standard.marker text?
  let strict ← r.withDefault "strict_annotations" standard.strict bool?
  let indent ← r.withDefault "indent" standard.indent text?
  let choice (j : Json) := (tag? j).bind FormatterChoice.ofTag?
  let formatter ← r.withDefault "formatter" standard.formatter choice
  let (goroot, gopath) ← r.withDefault "build" (standard.goroot, standard.gopath) buildOfJson?
  return ⟨marker, strict, indent, formatter, goroot, gopath⟩

/-- The text of a configuration file. -/
def save (c : Config) : List Char := c.toJson.pretty

def load? (text : List Char) : Option Config := (Json.ofText? text).bind ofJson?

def settings (c : Config) : Settings := ⟨⟨c.marker, c.strict⟩, c.indent, c.formatter.formatter⟩

/-- Where packages are looked for, below the home folder if the file names no other place. -/
def workspace (c : Config) (home cwd : String) : Workspace :=
  ⟨c.goroot, if c.gopath.isEmpty then [Path.join home "go"] else c.gopath, cwd⟩

end Config

end GoOutline
