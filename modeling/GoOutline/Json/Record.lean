import GoOutline.Json.Basic

/-!
Records in JSON: objects with known members, or arrays that hold the same values in order.
-/

namespace GoOutline.Json

/-- Values by name. -/
structure Record where
  members : List (String × Json)

namespace Record

/-- An object with other members as well, but none of the known ones twice. -/
def ofMembers? (names : List String) (members : List (String × Json)) : Option Record :=
  let known := members.filter fun m => names.contains m.1
  if (known.map Prod.fst).eraseDups.length = known.length then some ⟨known⟩ else none

/-- An object, or an array of at most as many values as there are names. -/
def ofJson? (names : List String) : Json → Option Record
  | .object members => ofMembers? names members
  | .array items => if items.length ≤ names.length then some ⟨names.zip items⟩ else none
  | _ => none

def get? (r : Record) (name : String) : Option Json := r.members.lookup name

/-- A value that has to be there. -/
def required {α : Type} (r : Record) (name : String) (read : Json → Option α) : Option α :=
  (r.get? name).bind read

/-- A value with a default. -/
def withDefault {α : Type} (r : Record) (name : String) (default : α) (read : Json → Option α) :
    Option α :=
  match r.get? name with
  | none => some default
  | some j => read j

end Record

def text? : Json → Option String
  | .string s => some s
  | _ => none

def bool? : Json → Option Bool
  | .bool b => some b
  | _ => none

/-- A value, or nothing for null. -/
def nullable? {α : Type} (read : Json → Option α) : Json → Option (Option α)
  | .null => some none
  | j => (read j).map some

def listOf? {α : Type} (read : Json → Option α) : Json → Option (List α)
  | .array items => items.mapM read
  | _ => none

/-- One of several tags: a string, or an object with nothing but the tag and null. -/
def tag? : Json → Option String
  | .string s => some s
  | .object [(s, .null)] => some s
  | _ => none

end GoOutline.Json
