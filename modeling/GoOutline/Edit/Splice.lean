import GoOutline.Outline.Basic
import GoOutline.Text.Lines

/-!
Splices: a text that takes the place of a span. Each function here finds the place for an addition
and writes it so that it fits in.
-/

namespace GoOutline

open Text

structure Splice where
  span : Span
  text : List Char
deriving DecidableEq, Repr

namespace Splice

def insert (offset : Nat) (text : List Char) : Splice := ⟨⟨offset, offset⟩, text⟩

def apply (s : Splice) (source : List Char) : List Char :=
  takeBytes s.span.start source ++ s.text ++ dropBytes s.span.stop source

/-- Every line with a blank margin in front, blank lines empty. -/
def indentLines (indent code : List Char) : List Char :=
  (lines code).flatMap fun line => (if (trim line).isEmpty then [] else indent ++ line) ++ ['\n']

/-- Puts code on lines of its own behind what stands between two delimiters. -/
def appendToInner (source : List Char) (inner : Span) (code indent : List Char) : Splice :=
  let start := max (byteLength (trimEnd (takeBytes inner.stop source))) inner.start
  ⟨⟨start, inner.stop⟩, '\n' :: indentLines indent code⟩

/-- A text cut behind the first star and slash in it. -/
def throughClose? : List Char → Option (List Char × List Char)
  | [] => none
  | '*' :: '/' :: s => some (['*', '/'], s)
  | c :: s => (throughClose? s).map fun (a, rest) => (c :: a, rest)

theorem length_of_throughClose {s a rest : List Char} (h : throughClose? s = some (a, rest)) :
    rest.length < s.length := by
  fun_induction throughClose? s generalizing a rest with
  | case1 => contradiction
  | case2 s =>
    cases h
    simp only [List.length_cons]
    omega
  | case3 c s _ ih =>
    obtain ⟨⟨b, r⟩, hb, he⟩ := Option.map_eq_some_iff.1 h
    cases he
    have := ih hb
    simp only [List.length_cons]
    omega

/-- The offset of a comma with nothing but blanks and closed comments in front of it. -/
def leadingComma? (s : List Char) : Option Nat :=
  let blanks := byteLength (s.takeWhile isBlank)
  match _hs : s.dropWhile isBlank with
  | ',' :: _ => some blanks
  | '/' :: '*' :: body =>
    match _hb : throughClose? body with
    | none => none
    | some (comment, rest) => (leadingComma? rest).map (blanks + 2 + byteLength comment + ·)
  | _ => none
termination_by s.length
decreasing_by
  have := length_of_throughClose _hb
  have := (List.dropWhile_sublist isBlank (l := s)).length_le
  rw [_hs, List.length_cons, List.length_cons] at this
  omega

/-- The start of the line around an offset. -/
def lineStart (source : List Char) (offset : Nat) : Nat := offset - (position source offset).2

/-- The text from an offset to the end of its line. -/
def lineRest (source : List Char) (offset : Nat) : List Char :=
  (dropBytes offset source).takeWhile (· != '\n')

/-- The end of the line around an offset. -/
def lineEnd (source : List Char) (offset : Nat) : Nat :=
  offset + byteLength (lineRest source offset)

/-- The spaces and tabs in front of the line around an offset. -/
def lineIndent (source : List Char) (offset : Nat) : List Char :=
  (dropBytes (lineStart source offset) source).takeWhile fun c => c == ' ' || c == '\t'

/-- Puts the first parameter into a list, on a line of its own if the list has several lines. -/
def firstParameter (source : List Char) (params : Span) (param indent : List Char) : Splice :=
  if (slice source params).contains '\n' then
    insert params.start ('\n' :: lineIndent source params.start ++ indent ++ param ++ [','])
  else insert params.start param

/-- Puts a parameter behind the last one, on a line of its own if a line ends behind that one. -/
def nextParameter (source : List Char) (params : Span) (last : Nat) (param indent : List Char) :
    Splice :=
  let tail := slice source ⟨last, params.stop⟩
  if tail.contains '\n' then
    let rest := tail.takeWhile (· != '\n')
    let pad :=
      if lineStart source last ≤ params.start then lineIndent source last ++ indent
      else lineIndent source last
    let comma := if (leadingComma? rest).isNone then [','] else []
    ⟨⟨last, last + byteLength rest⟩, comma ++ rest ++ '\n' :: pad ++ param ++ [',']⟩
  else
    match leadingComma? tail with
    | some offset => insert (last + offset + 1) (' ' :: param)
    | none => insert last (',' :: ' ' :: param)

def appendParameter (source : List Char) (params : Span) (last : Option Nat)
    (param indent : List Char) : Splice :=
  match last with
  | none => firstParameter source params param indent
  | some last => nextParameter source params last param indent

/-- Makes a group of an import declaration without parentheses. A line comment behind it moves into
the group. -/
def groupImports (source : List Char) (decl : Outline.ImportDecl) (spec indent : List Char) :
    Splice :=
  let rest := lineRest source decl.span.stop
  let trails := "//".toList.isPrefixOf (trimStart rest)
  let comment := if trails then ' ' :: trim rest else []
  let stop := if trails then decl.span.stop + byteLength rest else decl.span.stop
  let specs := decl.specs.map fun span => indent ++ slice source span
  let specs := ['\n'].intercalate specs ++ (if specs.isEmpty then [] else comment ++ ['\n'])
  ⟨⟨decl.keywordEnd, stop⟩, " (\n".toList ++ specs ++ indent ++ spec ++ "\n)".toList⟩

/-- Puts an import into the last group, or makes one of the last import, or starts anew behind the
package clause. -/
def appendImport (o : Outline) (spec indent : List Char) : Splice :=
  match o.importDecls.reverse.findSome? (·.list) with
  | some list => appendToInner o.text list spec indent
  | none =>
    match o.importDecls.getLast? with
    | some decl => groupImports o.text decl spec indent
    | none => insert (lineEnd o.text o.packageEnd) ("\n\nimport ".toList ++ spec)

/-- Puts a line comment on a line of its own above what starts at an offset. -/
def commentAbove (source : List Char) (start : Nat) (comment : List Char) : Splice :=
  let before := slice source ⟨lineStart source start, start⟩
  if (trim before).isEmpty then insert start ("// ".toList ++ comment ++ '\n' :: before)
  else insert start ("\n// ".toList ++ comment ++ ['\n'])

/-- Puts a declaration behind everything else. -/
def appendDeclaration (source code : List Char) : Splice :=
  ⟨⟨byteLength (trimEnd source), byteLength source⟩,
    '\n' :: '\n' :: trimEnd code ++ ['\n']⟩

end Splice

end GoOutline
