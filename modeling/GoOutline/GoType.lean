import GoOutline.Import

/-!
The types of fields, parameters and results. A type that the other forms do not cover is kept as
its text, so every type can be written again.
-/

namespace GoOutline

mutual

inductive GoType where
  | simple (name : String)
  | imported (name : String) (origin : Import)
  | pointer (elem : GoType)
  /-- A slice, if there is no length. -/
  | array (length : Option String) (elem : GoType)
  | map (key value : GoType)
  | function (params results : List Parameter)
  | raw (text : String)
deriving Repr

inductive Parameter where
  | mk (name : Option String) (type : GoType) (variadic : Bool)
deriving Repr

end

instance : Inhabited GoType := ⟨.raw default⟩

instance : Inhabited Parameter := ⟨.mk none default false⟩

namespace Parameter

def name : Parameter → Option String
  | mk n _ _ => n

def type : Parameter → GoType
  | mk _ t _ => t

def variadic : Parameter → Bool
  | mk _ _ v => v

end Parameter

namespace GoType

def isRaw : GoType → Bool
  | raw _ => true
  | _ => false

/-- The name at the end of a type text, without stars, package and type arguments. -/
def nameInText (text : List Char) : List Char :=
  (((text.dropWhile (· == '*')).takeWhile (· != '[')).splitOn '.').getLastD []

/-- The name of the type that methods on this type belong to. -/
def baseName? : GoType → Option String
  | simple name => some name
  | imported name _ => some name
  | pointer elem => elem.baseName?
  | raw text =>
    let name := nameInText text.toList
    if name.isEmpty then none else some (String.ofList name)
  | _ => none

mutual

def render : GoType → List Char
  | simple name => name.toList
  | imported name origin =>
    match origin.qualifier? with
    | some q => q.toList ++ '.' :: name.toList
    | none => name.toList
  | pointer elem => '*' :: render elem
  | array length elem => '[' :: ((length.getD "").toList ++ ']' :: render elem)
  | map key value => "map[".toList ++ render key ++ ']' :: render value
  | function params results =>
    let results' := renderList results
    "func(".toList ++ [',', ' '].intercalate (renderList params) ++ ')' ::
      (match results, results' with
        | [], _ => []
        | [.mk none _ _], [single] => ' ' :: single
        | _, all => " (".toList ++ [',', ' '].intercalate all ++ [')'])
  | raw text => text.toList

def renderParameter : Parameter → List Char
  | .mk name type variadic =>
    (match name with
      | some n => n.toList ++ [' ']
      | none => []) ++ (if variadic then "...".toList else []) ++ render type

def renderList : List Parameter → List (List Char)
  | [] => []
  | p :: ps => renderParameter p :: renderList ps

end

end GoType

namespace Parameter

def render (p : Parameter) : List Char := GoType.renderParameter p

end Parameter

/-- Parameters between parentheses. -/
def renderParams (params : List Parameter) : List Char :=
  '(' :: [',', ' '].intercalate (params.map Parameter.render) ++ [')']

/-- A single result without a name needs no parentheses. -/
def renderResults : List Parameter → List Char
  | [] => []
  | [.mk none type variadic] => ' ' :: Parameter.render (.mk none type variadic)
  | results => ' ' :: renderParams results

namespace GoType

theorem renderList_eq_map (params : List Parameter) :
    renderList params = params.map Parameter.render := by
  induction params with
  | nil => rfl
  | cons p ps ih => simp [renderList, ih, Parameter.render]

theorem render_function (params results : List Parameter) :
    render (.function params results) =
      "func".toList ++ renderParams params ++ renderResults results := by
  simp only [render, renderList_eq_map, renderParams]
  rcases results with _ | ⟨⟨_ | n, t, v⟩, _ | ⟨q, rest⟩⟩ <;>
    simp [renderResults, renderParams]

end GoType

end GoOutline
