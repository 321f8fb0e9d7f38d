import GoOutline.GoType
import GoOutline.Syntax.Tree

/-!
From type expressions to types. A qualified name refers to the first import that goes by its
qualifier. What has no form of its own, or no import, keeps the text that stands in the file.
-/

namespace GoOutline

open Text Syntax

/-- What the names in a file refer to. -/
structure Scope where
  text : List Char
  imports : List Import

namespace Scope

def slice (s : Scope) (span : Span) : String := String.ofList (Text.slice s.text span)

/-- The first import that goes by a name. -/
def import? (s : Scope) (qualifier : String) : Option Import :=
  s.imports.find? (·.qualifier? == some qualifier)

mutual

def type (s : Scope) : TypeExpr → GoType
  | .name _ id => .simple id
  | .qualified span package id =>
    match s.import? package with
    | some origin => .imported id origin
    | none => .raw (s.slice span)
  | .pointer _ elem => .pointer (s.type elem)
  | .slice _ elem => .array none (s.type elem)
  | .array _ length elem => .array (some (s.slice length)) (s.type elem)
  | .map _ key value => .map (s.type key) (s.type value)
  | .function _ params results => .function (s.params params) (s.params results)
  | .other span => .raw (s.slice span)

/-- A parameter for each name, or one without a name. -/
def param (s : Scope) : ParamDecl → List Parameter
  | .mk _ names type variadic =>
    let t := s.type type
    match names with
    | [] => [.mk none t variadic]
    | names => names.map fun n => .mk (some n) t variadic

def params (s : Scope) : List ParamDecl → List Parameter
  | [] => []
  | d :: ds => s.param d ++ s.params ds

end

end Scope

end GoOutline
