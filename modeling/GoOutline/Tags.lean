import GoOutline.Table
import GoOutline.Text.Quoted

/-!
Struct tags: pairs of a key and a quoted value, with spaces between them.
-/

namespace GoOutline

open Text

structure Tags where
  table : Table String
deriving Repr

namespace Tags

instance : Inhabited Tags := ⟨⟨.empty⟩⟩

def pairs (t : Tags) : List (String × String) := t.table.entries

def isEmpty (t : Tags) : Bool := t.pairs.isEmpty

def isKeyChar (c : Char) : Bool := ' ' < c && c != ':' && c != '"' && c != '\x7f'

/-- The key in front of a text and the text behind its colon, where a value has to start. -/
def key? (s : List Char) : Option (List Char × List Char) :=
  match s.dropWhile isKeyChar with
  | ':' :: rest => if isKeyChar (s.headD ' ') then some (s.takeWhile isKeyChar, rest) else none
  | _ => none

theorem length_of_key {s key rest : List Char} (h : key? s = some (key, rest)) :
    rest.length < s.length := by
  unfold key? at h
  split at h
  next r hr =>
    split at h
    · cases h
      have := (List.dropWhile_sublist isKeyChar (l := s)).length_le
      rw [hr, List.length_cons] at this
      omega
    · contradiction
  · contradiction

/-- The pairs in front of a text, up to the first piece that is none. -/
def scan (s : List Char) : List (String × String) :=
  match _hk : key? (s.dropWhile (· == ' ')) with
  | none => []
  | some (key, behind) =>
    match _hl : Quoted.literal? behind with
    | none => []
    | some (literal, rest) =>
      match Quoted.unquote literal with
      | none => []
      | some value => (String.ofList key, String.ofList value) :: scan rest
termination_by s.length
decreasing_by
  have := length_of_key _hk
  have := Quoted.length_of_literal _hl
  have := (List.dropWhile_sublist (· == ' ') (l := s)).length_le
  omega

/-- The first value of a key counts. -/
def ofText (s : List Char) : Tags := ⟨.ofFirst (scan s)⟩

/-- The last value of a key counts. -/
def ofPairs (pairs : List (String × String)) : Tags := ⟨.ofLast pairs⟩

def renderPair (p : String × String) : List Char :=
  p.1.toList ++ ':' :: Quoted.quote p.2.toList

def render (t : Tags) : List Char := [' '].intercalate (t.pairs.map renderPair)

/-- The literal that denotes the tags: raw, if they hold no backquote. -/
def literal (t : Tags) : List Char :=
  let content := t.render
  let backquote := Char.ofNat 0x60
  if content.contains backquote then Quoted.quote content else backquote :: content ++ [backquote]

/-- The tags in a string literal, none if the literal is broken. -/
def ofLiteral (literal : List Char) : Tags :=
  match Quoted.unquote literal with
  | some content => ofText content
  | none => default

end Tags

end GoOutline
