import GoOutline.Syntax.Grammar
import GoOutline.Syntax.Lexer
import GoOutline.Text.Lines

/-!
From text to tree. A text has a tree when its tokens derive from the grammar, with a break behind
each declaration, which a long one may leave out.
-/

namespace GoOutline.Syntax

open Text

namespace Grammar

open Syntax.Parser

/-- The name that an import is given: an identifier or a dot. -/
def importName : Parser (Option Token) := do
  let t ← peek
  if t.kind == .name || t.is "." then
    some <$> advance
  else
    return none

def importSpec : Parser ImportSpec := do
  let (extent, name, path) ← placed do
    let name ← importName
    let path ← ofKind .string
    return (name, path)
  return ⟨extent, name.map (·.text), path.text⟩

def importDecl (n : Nat) : Parser ImportDecl := do
  let keyword ← expect "import"
  let t ← peek
  if t.is "(" then
    let specs ← group .round (memberList ")" importSpec n)
    return ⟨keyword.extent.span, some specs.delimiters, members specs.content⟩
  else
    let spec ← importSpec
    return ⟨keyword.extent.span, none, [spec]⟩

def packageClause : Parser Token := do
  discard (expect "package")
  name

/-- A function without a name is the start of a statement. -/
def itemKind (n : Nat) : Parser ItemKind := do
  let t ← peek
  if t.is "package" then
    let name ← packageClause
    return .package name.text name.extent.span
  else if t.is "import" then
    .imports <$> importDecl n
  else if t.is "type" then
    .types <$> typeDecl n
  else if t.isAny ["const", "var"] then
    valueDecl n
    return .values
  else if t.is "func" then
    let method ← foresee (expect "func" *> paramList n *> name *> peek)
    (.func <$> funcDecl n) <|> (require (!method.any (·.is "(")) *> statement n *> pure .statement)
  else
    statement n
    return .statement

/-- Whether an expression stands inside of a statement. -/
def nestsExpression (tokens : List Token) : Bool :=
  tokens.any (·.isAny assignments) || tokens.head?.any (·.isAny ["go", "defer"]) ||
    (tokens.head?.any (·.is "return") && tokens.length ≠ 1)

/-- Whether the end of the text can end an item. It ends every declaration but that of a type, and
what ends in a nested expression. -/
def endsText (kind : ItemKind) (tokens : List Token) : Bool :=
  match kind with
  | .types _ | .statement => nestsExpression tokens
  | _ => true

def itemList (n : Nat) : Nat → Parser (List (Sibling Item))
  | 0 => failure
  | k + 1 => do
    let t ← peek
    if t.kind == .stop then
      return commentSiblings t
    else
      let (used, kind) ← taking (itemKind n)
      let extent := extentOf used
      let item := commentSiblings t ++ [.member ⟨extent, kind⟩]
      let u ← peek
      if u.newline then
        return item ++ (← itemList n k)
      else if isTerminator u then
        discard advance
        return item ++ commentSiblings u ++ (← itemList n k)
      else
        let ended := u.kind == .stop && endsText kind used
        let skipped ← forgiven extent
        require (skipped || ended)
        return item ++ (← itemList n k)

end Grammar

/-- The tree of a text. The bound is on the depth of the derivation. -/
def Tree.ofText? (text : List Char) : Option Tree :=
  let tokens := Lexer.tokens text
  let n := 16 * (tokens.length + 1)
  ((Grammar.itemList n n).run tokens).map fun (items, _) => ⟨items⟩

/-- How many brackets are open behind a token. One that closes nothing is passed over. -/
def Token.depthBehind (t : Token) (depth : Nat) : Nat :=
  if t.opens?.isSome then depth + 1 else if t.isClosing then depth - 1 else depth

/-- The names in the package clauses among some tokens. A clause stands in no brackets. -/
def clausesAmong : Nat → List Token → List String
  | depth, t :: u :: rest =>
    let found := clausesAmong (t.depthBehind depth) (u :: rest)
    if depth == 0 && t.is "package" && u.kind == .name then u.text :: found else found
  | _, _ => []

/-- What a front end that puts up with errors sees of the package clauses at the top level of a text:
the name in each of them, if it has one. -/
abbrev ClauseReader := List Char → List (Option String)

/-- The package that a text claims to belong to, whatever stands around the claim. -/
def ClauseReader.packageName? (read : ClauseReader) (text : List Char) : Option String :=
  (read text).head?.join

/-- Package clauses by their tokens alone. -/
def packageClauses : ClauseReader := fun text => (clausesAmong 0 (Lexer.tokens text)).map some

def packageName? (text : List Char) : Option String := packageClauses.packageName? text

def excerptLength : Nat := 24

/-- The first line of a text, cut when it is long. -/
def excerpt (text : List Char) : List Char :=
  let line := trim ((lines text).headD [])
  if line.length ≤ excerptLength then line else line.take excerptLength ++ "...".toList

/-- Where a text goes wrong that has no tree, with the text from there on: at the first character that
starts no token, or else at the start. -/
def stray (text : List Char) : Nat × List Char :=
  match (Lexer.tokens text).find? (·.kind == .stray) with
  | some t => (t.extent.span.start, dropBytes t.extent.span.start text)
  | none => (0, text)

end GoOutline.Syntax
