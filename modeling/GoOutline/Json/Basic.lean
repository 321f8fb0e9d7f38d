import GoOutline.Text.Numeral

/-!
JSON values, and their texts with two spaces for each level.
-/

namespace GoOutline

open Text

/-- A number is kept as it is written, an object with its members in order. -/
inductive Json where
  | null
  | bool (b : Bool)
  | number (text : String)
  | string (text : String)
  | array (items : List Json)
  | object (members : List (String × Json))
deriving Repr

instance : Inhabited Json := ⟨.null⟩

namespace Json

def nat (n : Nat) : Json := .number (toString n)

def strings (texts : List String) : Json := .array (texts.map .string)

/-- The members that are there. -/
def objectOf (members : List (Option (String × Json))) : Json := .object (members.filterMap id)

/-- A member that may be missing. -/
def optional (name : String) (value : Option Json) : Option (String × Json) := value.map (name, ·)

mutual

/-- How deep the arrays and objects in a value are nested. -/
def depth : Json → Nat
  | .array items => depthItems items + 1
  | .object members => depthMembers members + 1
  | _ => 0

def depthItems : List Json → Nat
  | [] => 0
  | item :: rest => max (depth item) (depthItems rest)

def depthMembers : List (String × Json) → Nat
  | [] => 0
  | (_, value) :: rest => max (depth value) (depthMembers rest)

end

def renderChar (c : Char) : List Char :=
  match c with
  | '"' => ['\\', '"']
  | '\\' => ['\\', '\\']
  | '\x08' => ['\\', 'b']
  | '\x0c' => ['\\', 'f']
  | '\n' => ['\\', 'n']
  | '\r' => ['\\', 'r']
  | '\t' => ['\\', 't']
  | c => if c.toNat < 0x20 then '\\' :: 'u' :: hex4 c.toNat else [c]

def renderString (s : String) : List Char := '"' :: s.toList.flatMap renderChar ++ ['"']

def newline (level : Nat) : List Char := '\n' :: List.replicate (2 * level) ' '

/-- Items between brackets, each on a line of its own. -/
def bracketed (opening closing : Char) (level : Nat) (items : List (List Char)) : List Char :=
  if items.isEmpty then [opening, closing]
  else
    let breakLine := newline (level + 1)
    opening :: breakLine ++ (',' :: breakLine).intercalate items ++ newline level ++ [closing]

mutual

def render (level : Nat) : Json → List Char
  | .null => "null".toList
  | .bool b => (if b then "true" else "false").toList
  | .number text => text.toList
  | .string text => renderString text
  | .array items => bracketed '[' ']' level (renderItems (level + 1) items)
  | .object members => bracketed '{' '}' level (renderMembers (level + 1) members)

def renderItems (level : Nat) : List Json → List (List Char)
  | [] => []
  | item :: rest => render level item :: renderItems level rest

def renderMembers (level : Nat) : List (String × Json) → List (List Char)
  | [] => []
  | (name, value) :: rest =>
    (renderString name ++ ':' :: ' ' :: render level value) :: renderMembers level rest

end

/-- The text of a value that stands by itself. -/
def pretty (j : Json) : List Char := render 0 j

end Json

end GoOutline
