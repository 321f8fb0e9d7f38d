import GoOutline.Syntax.Reading

/-!
The grammar of Go, each rule with a bound on the depth of its derivations. Types, parameters and
members are read into trees, expressions and statements are only recognised.

A line feed ends a statement or declaration wherever one may end, so every rule that can go on
behind a complete piece knows whether lines count where it stands: they do in blocks, in lists of
declarations and outside of functions, they do not between parentheses and brackets.
-/

namespace GoOutline.Syntax.Grammar

open Syntax.Parser

/-- How an expression is read. -/
structure Mode where
  /-- A line feed ends the expression. -/
  lines : Bool
  /-- A brace behind the name of a type starts a literal. -/
  literals : Bool
  /-- The operators that stand behind the expression, and not in it. -/
  stops : List String

/-- In a statement of its own. -/
def Mode.statement : Mode := ⟨true, true, []⟩

/-- Between delimiters. -/
def Mode.inner : Mode := ⟨false, true, []⟩

/-- In front of a block. -/
def Mode.header : Mode := ⟨false, false, []⟩

def countOperators : List String := ["++", "--"]

/-- At the start of a statement, where the expression can be counted up or down, or sent to. -/
def Mode.first (m : Mode) : Mode := { m with stops := "<-" :: countOperators }

/-- At the start of a case, where the expression can be sent to. -/
def Mode.channel : Mode := { Mode.inner with stops := ["<-"] }

/-- Where a type stands. -/
inductive Place where
  /-- A line feed ends the type. -/
  | line
  /-- Between delimiters. -/
  | inner
  /-- In front of type arguments, which the name at the end leaves. -/
  | bare
deriving DecidableEq

/-- Whether type arguments follow a type. -/
def takesArgs (p : Place) (t : Token) : Bool :=
  t.is "[" && p != .bare && !(p == .line && t.newline)

/-- What the part of an expression read so far can be the start of. -/
inductive Shape where
  | value
  | typeName
  /-- A predeclared function that takes a type. -/
  | allocator
  | qualifiedName
  | generic
  /-- A type in parentheses. -/
  | enclosed
  /-- A generic type with a bar between its arguments, which is no value. -/
  | union
  /-- A function with its type arguments, in front of its call. -/
  | called
deriving DecidableEq

/-- Names of values. Where an expression can start, none of them is the name of a type. -/
def predeclared : List String := ["nil", "true", "false", "iota"]

def allocators : List String := ["new", "make"]

def Shape.ofName (text : String) : Shape :=
  if allocators.contains text then .allocator
  else if predeclared.contains text then .value
  else .typeName

/-- A name that is no expression by itself. -/
def isFree (t : Token) : Bool := t.kind == .name && Shape.ofName t.text == .typeName

/-- What the shape becomes behind a dot and a name. -/
def Shape.selected (s : Shape) : Shape := if s == .typeName then .qualifiedName else .value

def Shape.isNamed (s : Shape) : Bool := s == .typeName || s == .qualifiedName

/-- An expression can end here. -/
def Shape.isComplete (s : Shape) : Bool := s != .union && s != .called

/-- How brackets behind an operand read. -/
structure Bracketed where
  index : Bool
  types : Bool
  /-- Types with no bar among them. -/
  plain : Bool

/-- What the shape becomes behind brackets, if they can follow it. -/
def Shape.bracketed? (s : Shape) (b : Bracketed) : Option Shape :=
  if s == .called then none
  else if s == .union then if b.plain then some .value else none
  else if s.isNamed then
    if b.plain || (b.types && b.index) then some .generic
    else if b.types then some .union
    else some .value
  else if b.index || (b.plain && (s == .generic || s == .enclosed)) then some .value
  else some .called

/-- A brace can follow. -/
def Shape.isType (s : Shape) : Bool := s.isNamed || s == .generic || s == .union

/-- Two operators without a blank between them count as one token, also in front of an operand. -/
def unaryOperators : List String :=
  ["+", "-", "!", "^", "*", "&", "<-", "&&", "&^", "--", "++"]

/-- Some of these are two tokens between two operands: an arrow compares with a negated operand, and
a doubled sign is a sum or difference with a signed one. -/
def binaryOperators : List String :=
  ["||", "&&", "==", "!=", "<", "<=", ">", ">=", "+", "-", "|", "^", "*", "/", "%", "<<", ">>", "&",
   "&^", "<-", "++", "--"]

def isBinary (m : Mode) (t : Token) : Bool := t.isAny binaryOperators && !t.isAny m.stops

def assignments : List String :=
  ["=", ":=", "+=", "-=", "*=", "/=", "%=", "&=", "|=", "^=", "<<=", ">>=", "&^="]

/-- The tokens that a type can start with. -/
def startsType (t : Token) : Bool :=
  t.kind == .name || t.isAny ["*", "(", "[", "map", "chan", "<-", "func", "struct", "interface", "~"]

/-- The tokens that end a list of statements. -/
def endsStatements (t : Token) : Bool := t.isAny [rbrace, "case", "default"]

/-- The tokens behind a complete field. -/
def endsField (t : Token) : Bool := t.newline || t.is rbrace || isTerminator t || t.kind == .string

/-- What it costs to drop a piece of text, a line counting for thirty bytes. -/
def dropCost (e : Extent) : Nat := (e.span.stop - e.span.start) + 30 * (e.lastRow - e.row)

def forgivenFrom : Nat := 10

def isCheap (t : Token) : Bool := dropCost t.extent < forgivenFrom

/-- The token before this one stands alone. -/
def endsAlone (t : Token) : Bool :=
  t.newline || isTerminator t || t.is ")" || t.kind == .stop

/-- Whether leaving out the break behind a declaration is forgiven: neither the declaration nor a
lone token behind it is cheap to drop. -/
def forgiven (e : Extent) : Parser Bool := do
  let t ← peek
  let u ← ahead 1
  return forgivenFrom ≤ dropCost e && !(t.kind != .stop && isCheap t && endsAlone u)

/-- What the clauses of a statement ask for. -/
inductive Cases where
  | types
  | values
  | channels
deriving DecidableEq, Repr

/-- An entry of a parameter list, before it is known whether lone names are names or types. -/
inductive ParamEntry where
  | lone (span : Span) (name : String)
  | named (span : Span) (name : String) (type : TypeExpr)
  | complete (decl : ParamDecl)

def unnamedParam (p : Span × String) : ParamDecl := .mk p.1 [] (.name p.1 p.2) false

/-- Lone names right before a name with a type share that type, all others are types. -/
def groupParams (pending : List (Span × String)) : List ParamEntry → List ParamDecl
  | [] => pending.map unnamedParam
  | .lone span name :: rest => groupParams (pending ++ [(span, name)]) rest
  | .named span name type :: rest =>
    let start := (pending.head?.map (·.1.start)).getD span.start
    .mk ⟨start, span.stop⟩ (pending.map (·.2) ++ [name]) type false :: groupParams [] rest
  | .complete decl :: rest => pending.map unnamedParam ++ decl :: groupParams [] rest

/-- The name of a type, perhaps with a package in front, that still has to be told its place. -/
def typeName (p : Place) : Parser (Span → TypeExpr) := do
  let first ← name
  let t ← peek
  if t.is "." && !(p == .line && t.newline) then
    discard advance
    let second ← name
    return (.qualified · first.text second.text)
  else
    return (.name · first.text)

/-- The tag of a field stands on its line. -/
def fieldTag : Parser (Option Token) := do
  let t ← peek
  if t.kind == .string && !t.newline then
    some <$> advance
  else
    return none

mutual

/-- A type. A type in parentheses is one as well. -/
def typeExpr (n : Nat) (p : Place) : Parser TypeExpr :=
  match n with
  | 0 => failure
  | n + 1 => do
    let (e, build) ← placed (typeForm n p)
    return build e.span

/-- A type that still has to be told its place. -/
def typeForm (n : Nat) (p : Place) : Parser (Span → TypeExpr) :=
  match n with
  | 0 => failure
  | n + 1 => do
    let t ← peek
    if t.kind == .name then
      namedType n p
    else if t.is "*" then
      discard advance
      let elem ← typeExpr n p
      return (.pointer · elem)
    else if t.is "(" then
      discard (group .round (typeExpr n .inner))
      return .other
    else if t.is "[" then
      let length ← group .square (arrayLength n)
      let elem ← typeExpr n p
      return match length.content with
        | none => (.slice · elem)
        | some length => (.array · length elem)
    else if t.is "map" then
      discard advance
      let key ← group .square (typeExpr n .inner)
      let value ← typeExpr n p
      return (.map · key.content value)
    else if t.is "chan" then
      discard advance
      discard (accept "<-")
      discard (typeExpr n p)
      return .other
    else if t.is "<-" then
      discard advance
      discard (expect "chan")
      discard (typeExpr n p)
      return .other
    else if t.is "~" then
      discard advance
      discard (typeExpr n p)
      let u ← peek
      if takesArgs p u then
        discard (typeArgs n)
      return .other
    else if t.is "func" then
      discard advance
      let params ← paramList n
      let results ← resultList n p
      return (.function · params.decls results)
    else if t.is "struct" then
      discard (structBody n)
      return .other
    else if t.is "interface" then
      discard (interfaceBody n)
      return .other
    else
      failure

/-- The place of the length of an array. A slice has none. -/
def arrayLength (n : Nat) : Parser (Option Span) :=
  match n with
  | 0 => failure
  | n + 1 => do
    let t ← peek
    if t.is "]" then
      return none
    else
      let (e, _) ← placed (expr n .inner)
      return some e.span

/-- The name of a type, perhaps with type arguments. -/
def namedType (n : Nat) (p : Place) : Parser (Span → TypeExpr) :=
  match n with
  | 0 => failure
  | n + 1 => do
    let form ← typeName p
    let u ← peek
    if takesArgs p u then
      discard (typeArgs n)
      return .other
    else
      return form

/-- Type arguments. The answer is whether no bar stands among them. -/
def typeArgs (n : Nat) : Parser Bool :=
  match n with
  | 0 => failure
  | n + 1 => do
    let args ← group .square (commaList "]" (unionType n .inner) n)
    require (!args.content.isEmpty)
    return args.content.all (·.2.isEmpty)

/-- Types with a bar between any two of them. -/
def unionType (n : Nat) (p : Place) : Parser (TypeExpr × List TypeExpr) :=
  match n with
  | 0 => failure
  | n + 1 => do
    let first ← typeExpr n p
    let t ← peek
    if t.is "|" && !(p == .line && t.newline) then
      discard advance
      let (second, more) ← unionType n p
      return (first, second :: more)
    else
      return (first, [])

def paramList (n : Nat) : Parser ParamList :=
  match n with
  | 0 => failure
  | n + 1 => do
    let entries ← group .round (paramEntries n)
    return ⟨entries.delimiters, groupParams [] entries.content⟩

/-- The entries of a parameter list. A comma may stand alone. -/
def paramEntries (n : Nat) : Parser (List ParamEntry) :=
  match n with
  | 0 => failure
  | n + 1 => do
    let t ← peek
    if t.is "," then
      discard advance
      return []
    else
      commaList ")" (paramEntry n) n

def paramEntry (n : Nat) : Parser ParamEntry :=
  match n with
  | 0 => failure
  | n + 1 => do
    let t ← peek
    let u ← ahead 1
    let span := t.extent.span
    if t.is "..." then
      discard advance
      let type ← typeExpr n .inner
      return .complete (.mk ⟨span.start, type.span.stop⟩ [] type true)
    else if t.kind == .name then
      if u.is "..." then
        discard advance
        discard advance
        let type ← typeExpr n .inner
        return .complete (.mk ⟨span.start, type.span.stop⟩ [t.text] type true)
      else if u.isAny [",", ")"] then
        discard advance
        return .lone span t.text
      else if u.is "." then
        unnamedEntry n
      else if u.is "[" then
        unnamedEntry n <|> namedEntry n
      else
        namedEntry n
    else
      unnamedEntry n

def unnamedEntry (n : Nat) : Parser ParamEntry :=
  match n with
  | 0 => failure
  | n + 1 => do
    let type ← typeExpr n .inner
    let t ← peek
    require (t.isAny [",", ")"])
    return .complete (.mk type.span [] type false)

def namedEntry (n : Nat) : Parser ParamEntry :=
  match n with
  | 0 => failure
  | n + 1 => do
    let t ← name
    let type ← typeExpr n .inner
    return .named ⟨t.extent.span.start, type.span.stop⟩ t.text type

/-- A parameter list, a single type outside of parentheses, or nothing. -/
def resultList (n : Nat) (p : Place) : Parser (List ParamDecl) :=
  match n with
  | 0 => failure
  | n + 1 => do
    let t ← peek
    if p == .line && t.newline then
      return []
    else if t.is "(" then
      let results ← paramList n
      return results.decls
    else if startsType t then
      let type ← typeExpr n p
      return [.mk type.span [] type false]
    else
      return []

def structBody (n : Nat) : Parser StructBody :=
  match n with
  | 0 => failure
  | n + 1 => do
    discard (expect "struct")
    let fields ← group .curly (memberList rbrace (fieldDecl n) n)
    return ⟨fields.delimiters, fields.content⟩

def fieldDecl (n : Nat) : Parser FieldDecl :=
  match n with
  | 0 => failure
  | n + 1 => do
    let (extent, head, type, tag) ← placed do
      let (head, type) ← fieldHead n
      let tag ← fieldTag
      return (head, type, tag.map (·.text))
    return ⟨extent, head, type, tag⟩

def fieldHead (n : Nat) : Parser (FieldHead × TypeExpr) :=
  match n with
  | 0 => failure
  | n + 1 => do
    let t ← peek
    let u ← ahead 1
    if t.is "*" then
      discard advance
      require (u.kind == .name)
      let type ← typeExpr n .line
      return (.embedded true, type)
    else if endsField u || u.is "." then
      embeddedField n
    else if u.is "[" then
      embeddedField n <|> namedFields n
    else
      namedFields n

def embeddedField (n : Nat) : Parser (FieldHead × TypeExpr) :=
  match n with
  | 0 => failure
  | n + 1 => do
    let (e, build) ← placed (namedType n .line)
    let t ← peek
    require (endsField t)
    return (.embedded false, build e.span)

def namedFields (n : Nat) : Parser (FieldHead × TypeExpr) :=
  match n with
  | 0 => failure
  | n + 1 => do
    let names ← commaSep false name n
    let type ← typeExpr n .line
    return (.named (names.map (·.text)), type)

def interfaceBody (n : Nat) : Parser InterfaceBody :=
  match n with
  | 0 => failure
  | n + 1 => do
    discard (expect "interface")
    let elems ← group .curly (memberList rbrace (interfaceElem n) n)
    return ⟨elems.delimiters, commentSiblings elems.opening ++ elems.content⟩

def interfaceElem (n : Nat) : Parser InterfaceElem :=
  match n with
  | 0 => failure
  | n + 1 => do
    let t ← peek
    let u ← ahead 1
    if t.kind == .name && u.is "(" && !u.newline then
      let (extent, name, params, results) ← placed do
        let name ← name
        let params ← paramList n
        let results ← resultList n .line
        return (name.text, params, results)
      return .method ⟨extent, name, params, results⟩
    else
      let (extent, first, more) ← placed (unionType n .line)
      return .embedding extent first more

/-- Names and constraints in brackets. Names without a constraint share the next one. -/
def typeParams (n : Nat) : Parser Unit :=
  match n with
  | 0 => failure
  | n + 1 => do
    let constrained ← group .square (commaList "]" (typeParam n) n)
    require (constrained.content.getLast? == some true)

/-- Whether a constraint follows the name. -/
def typeParam (n : Nat) : Parser Bool :=
  match n with
  | 0 => failure
  | n + 1 => do
    discard name
    let t ← peek
    if t.isAny [",", "]"] then
      return false
    else
      discard (unionType n .inner)
      return true

def typeBody (n : Nat) : Parser TypeBody :=
  match n with
  | 0 => failure
  | n + 1 => do
    let t ← peek
    if t.is "struct" then
      let (e, body) ← placed (structBody n)
      return .struct e.span body
    else if t.is "interface" then
      let (e, body) ← placed (interfaceBody n)
      return .interface e.span body
    else
      return .plain (← typeExpr n .line)

/-- A definition has a body, an alias has none of its own. -/
def typeRight (n : Nat) : Parser (Option TypeBody) :=
  match n with
  | 0 => failure
  | n + 1 => do
    let same ← accept "="
    if same then
      discard (typeExpr n .line)
      return none
    else
      return some (← typeBody n)

def typeEntry (n : Nat) : Parser TypeEntry :=
  match n with
  | 0 => failure
  | n + 1 => do
    let (extent, name, body) ← placed do
      let name ← name
      let body ← typeBehind n
      return (name.text, body)
    return match body with
      | some body => .definition ⟨extent, name, body⟩
      | none => .synonym extent

/-- What stands behind the name of a type. Brackets hold the length of an array if they can, and
type parameters otherwise. -/
def typeBehind (n : Nat) : Parser (Option TypeBody) :=
  match n with
  | 0 => failure
  | n + 1 => do
    let t ← peek
    let u ← ahead 1
    let v ← ahead 2
    if t.is "[" then
      (require (!(isFree u && v.is "<-")) *> typeRight n) <|>
        (require (isFree u) *> typeParams n *> typeRight n)
    else
      typeRight n

def typeDecl (n : Nat) : Parser TypeDecl :=
  match n with
  | 0 => failure
  | n + 1 => do
    discard (expect "type")
    let t ← peek
    if t.is "(" then
      let entries ← group .round (memberList ")" (typeEntry n) n)
      return .group (commentSiblings entries.opening ++ entries.content)
    else
      return .lone (← typeEntry n)

/-- Constants or variables. -/
def valueDecl (n : Nat) : Parser Unit :=
  match n with
  | 0 => failure
  | n + 1 => do
    let keyword ← advance
    require (keyword.isAny ["const", "var"])
    let t ← peek
    if t.is "(" then
      let specs ← group .round (valueSpecs (keyword.is "const") n)
      let u ← peek
      require (!(specs.content && isCheap specs.closing && endsAlone u))
    else
      valueSpec (keyword.is "const") n

/-- Specifications up to the closing parenthesis. The answer is whether the break behind the last
one is left out. -/
def valueSpecs (constant : Bool) (n : Nat) : Parser Bool :=
  match n with
  | 0 => failure
  | n + 1 => do
    let t ← peek
    if t.is ")" then
      return false
    else
      let (extent, _) ← placed (valueSpec constant n)
      let u ← peek
      if u.newline then
        valueSpecs constant n
      else if isTerminator u then
        discard advance
        valueSpecs constant n
      else if u.is ")" then
        require (forgivenFrom ≤ dropCost extent)
        return true
      else
        let skipped ← forgiven extent
        require skipped
        valueSpecs constant n

def valueSpec (constant : Bool) (n : Nat) : Parser Unit :=
  match n with
  | 0 => failure
  | n + 1 => if constant then constSpec n else varSpec n

def constSpec (n : Nat) : Parser Unit :=
  match n with
  | 0 => failure
  | n + 1 => do
    discard (commaSep true name n)
    let t ← peek
    if t.newline then
      return ()
    else if t.is "=" then
      discard advance
      discard (commaSep true (expr n .statement) n)
    else if startsType t then
      discard (typeExpr n .inner)
      discard (expect "=")
      discard (commaSep true (expr n .statement) n)
    else
      return ()

def varSpec (n : Nat) : Parser Unit :=
  match n with
  | 0 => failure
  | n + 1 => do
    discard (commaSep false name n)
    let untyped ← accept "="
    if untyped then
      discard (commaSep true (expr n .statement) n)
    else
      discard (typeExpr n .line)
      let t ← peek
      if t.is "=" && !t.newline then
        discard advance
        discard (commaSep true (expr n .statement) n)
      else
        return ()

/-- A function or method, with or without a body. -/
def funcDecl (n : Nat) : Parser FuncDecl :=
  match n with
  | 0 => failure
  | n + 1 => do
    discard (expect "func")
    let receiver ← receiver n
    let name ← name
    funcTypeParams n receiver.isNone
    let params ← paramList n
    let results ← resultList n .line
    let braces ← body n
    return ⟨receiver, name.text, params, results, braces⟩

def receiver (n : Nat) : Parser (Option ParamList) :=
  match n with
  | 0 => failure
  | n + 1 => do
    let t ← peek
    if t.is "(" then
      some <$> paramList n
    else
      return none

/-- Methods have no type parameters of their own. -/
def funcTypeParams (n : Nat) (allowed : Bool) : Parser Unit :=
  match n with
  | 0 => failure
  | n + 1 => do
    let t ← peek
    if t.is "[" then
      require allowed
      typeParams n
    else
      return ()

/-- The body of a function starts on the line on which its signature ends. -/
def body (n : Nat) : Parser (Option Delimiters) :=
  match n with
  | 0 => failure
  | n + 1 => do
    let t ← peek
    if t.is lbrace && !t.newline then
      some <$> block n
    else
      return none

def block (n : Nat) : Parser Delimiters :=
  match n with
  | 0 => failure
  | n + 1 => do
    let braces ← group .curly (statements n)
    return braces.delimiters

/-- Statements up to the end of their block or clause. The last one can be a label alone. -/
def statements (n : Nat) : Parser Unit :=
  match n with
  | 0 => failure
  | n + 1 => do
    let t ← peek
    let u ← ahead 1
    let v ← ahead 2
    if endsStatements t then
      return ()
    else if isFree t && u.is ":" && !u.newline && endsStatements v then
      discard advance
      discard advance
    else
      statement n
      let w ← peek
      if endsStatements w then
        return ()
      else if w.newline then
        statements n
      else
        require (isTerminator w)
        discard advance
        statements n

def statement (n : Nat) : Parser Unit :=
  match n with
  | 0 => failure
  | n + 1 => do
    let t ← peek
    let u ← ahead 1
    if t.isAny ["const", "var"] then
      valueDecl n
    else if t.is "type" then
      discard (typeDecl n)
    else if t.is "return" then
      discard advance
      let v ← peek
      if v.newline || isTerminator v || endsStatements v || v.kind == .stop then
        return ()
      else
        discard (commaSep true (expr n .statement) n)
    else if t.isAny ["go", "defer"] then
      discard advance
      expr n .statement
    else if t.is "if" then
      ifStatement n
    else if t.is "for" then
      forStatement n
    else if t.is "switch" then
      switchStatement n
    else if t.is "select" then
      discard advance
      discard (group .curly (clauses n .channels))
    else if t.isAny ["break", "continue"] then
      discard advance
      let v ← peek
      if v.kind == .name && !v.newline then
        discard advance
      else
        return ()
    else if t.is "goto" then
      discard advance
      discard name
    else if t.is "fallthrough" || isTerminator t then
      discard advance
    else if t.is lbrace then
      discard (block n)
    else if isFree t && u.is ":" && !u.newline then
      discard advance
      discard advance
      statement n
    else
      discard (simple n .statement .statement)

/-- A statement without a keyword, what stands behind its operator being read in a mode of its own.
The answer is whether it is an expression alone. -/
def simple (n : Nat) (m right : Mode) : Parser Bool :=
  match n with
  | 0 => failure
  | n + 1 => do
    expr n m.first
    let several ← others n m.lines
    let t ← peek
    if m.lines && t.newline && !several then
      return true
    else if t.isAny countOperators then
      discard advance
      require !several
      return false
    else if t.is "<-" then
      discard advance
      require !several
      expr n right
      return false
    else if t.isAny assignments then
      discard advance
      discard (commaSep m.lines (expr n right) n)
      return false
    else
      require !several
      return true

/-- The rest of a list of expressions. The answer is whether there is one. -/
def others (n : Nat) (lines : Bool) : Parser Bool :=
  match n with
  | 0 => failure
  | n + 1 => do
    let several ← acceptComma lines
    onlyIf several (discard (commaSep false (expr n .inner) n))
    return several

def ifStatement (n : Nat) : Parser Unit :=
  match n with
  | 0 => failure
  | n + 1 => do
    discard (expect "if")
    ifHeader n
    discard (block n)
    elseBranch n

def ifHeader (n : Nat) : Parser Unit :=
  match n with
  | 0 => failure
  | n + 1 => do
    let condition ← simple n .header .inner
    let more ← accept ";"
    if more then
      expr n .header
    else
      require condition

def elseBranch (n : Nat) : Parser Unit :=
  match n with
  | 0 => failure
  | n + 1 => do
    let t ← peek
    if t.is "else" && !t.newline then
      discard advance
      let u ← peek
      if u.is "if" then
        ifStatement n
      else
        discard (block n)
    else
      return ()

def forStatement (n : Nat) : Parser Unit :=
  match n with
  | 0 => failure
  | n + 1 => do
    discard (expect "for")
    forHeader n
    discard (block n)

def forHeader (n : Nat) : Parser Unit :=
  match n with
  | 0 => failure
  | n + 1 => do
    let t ← peek
    if t.is lbrace then
      return ()
    else
      rangeClause n <|> forClause n

def rangeClause (n : Nat) : Parser Unit :=
  match n with
  | 0 => failure
  | n + 1 => do
    let bare ← accept "range"
    if bare then
      expr n .header
    else
      expr n Mode.header.first
      discard (others n false)
      let t ← advance
      require (t.isAny ["=", ":="])
      discard (expect "range")
      expr n .header

/-- A condition alone, or two semicolons with a clause around each. -/
def forClause (n : Nat) : Parser Unit :=
  match n with
  | 0 => failure
  | n + 1 => do
    let condition ← forStart n
    let more ← accept ";"
    if more then
      let u ← peek
      onlyIf (!u.is ";") (expr n .inner)
      discard (expect ";")
      let v ← peek
      onlyIf (!v.is lbrace) (discard (simple n .header .header))
    else
      require condition

/-- The answer is whether there is an expression alone. -/
def forStart (n : Nat) : Parser Bool :=
  match n with
  | 0 => failure
  | n + 1 => do
    let t ← peek
    if t.is ";" then
      return false
    else
      simple n .header .inner

def switchStatement (n : Nat) : Parser Unit :=
  match n with
  | 0 => failure
  | n + 1 => do
    discard (expect "switch")
    let cases ← switchHeader n
    discard (group .curly (clauses n cases))

def switchHeader (n : Nat) : Parser Cases :=
  match n with
  | 0 => failure
  | n + 1 => do
    let t ← peek
    if t.is lbrace then
      return .values
    else
      (typeGuard n Mode.header.first *> pure .types) <|> switchValue n

def switchValue (n : Nat) : Parser Cases :=
  match n with
  | 0 => failure
  | n + 1 => do
    let value ← simple n .header .inner
    let more ← accept ";"
    if more then
      switchTag n
    else
      require value
      return .values

/-- What a switch asks for behind its statement. -/
def switchTag (n : Nat) : Parser Cases :=
  match n with
  | 0 => failure
  | n + 1 => do
    let t ← peek
    if t.is lbrace then
      return .values
    else
      (typeGuard n .header *> pure .types) <|> (expr n .header *> pure .values)

/-- A question for the type of an operand, perhaps with names for the value in front. -/
def typeGuard (n : Nat) (m : Mode) : Parser Unit :=
  match n with
  | 0 => failure
  | n + 1 => do
    let named ← attempt (guardNames n m)
    operand n (if named.isSome then .inner else .header)
    discard (expect ".")
    discard (group .round (expect "type"))

def guardNames (n : Nat) (m : Mode) : Parser Unit :=
  match n with
  | 0 => failure
  | n + 1 => do
    expr n m
    discard (others n false)
    discard (expect ":=")

/-- The clauses of a switch or select up to its closing brace. -/
def clauses (n : Nat) (cases : Cases) : Parser Unit :=
  match n with
  | 0 => failure
  | n + 1 => do
    let t ← peek
    if t.is rbrace then
      return ()
    else
      clauseHead n cases
      discard (expect ":")
      statements n
      clauses n cases

def clauseHead (n : Nat) (cases : Cases) : Parser Unit :=
  match n with
  | 0 => failure
  | n + 1 => do
    let listed ← accept "case"
    if listed then
      match cases with
      | .types => discard (commaSep false (typeExpr n .inner) n)
      | .values => discard (commaSep false (expr n .inner) n)
      | .channels => communication n
    else
      discard (expect "default")

/-- A value that is sent or received. -/
def communication (n : Nat) : Parser Unit :=
  match n with
  | 0 => failure
  | n + 1 => do
    expr n .channel
    let several ← others n false
    let t ← peek
    if t.isAny ["=", ":="] then
      discard advance
      expr n .inner
    else
      require !several
      let sent ← accept "<-"
      onlyIf sent (expr n .inner)

def expr (n : Nat) (m : Mode) : Parser Unit :=
  match n with
  | 0 => failure
  | n + 1 => do
    unary n m
    let t ← peek
    if isBinary m t && !(m.lines && t.newline) then
      discard advance
      expr n m
    else
      return ()

def unary (n : Nat) (m : Mode) : Parser Unit :=
  match n with
  | 0 => failure
  | n + 1 => do
    let t ← peek
    if t.isAny unaryOperators then
      discard advance
      unary n m
    else
      operand n m

def operand (n : Nat) (m : Mode) : Parser Unit :=
  match n with
  | 0 => failure
  | n + 1 => do
    let t ← peek
    if t.kind == .number || t.kind == .string || t.kind == .rune then
      discard advance
      postfixes n m .value
    else if t.kind == .name then
      discard advance
      postfixes n m (.ofName t.text)
    else if t.is "(" then
      postfixes n m (← parenthesized n)
    else if t.is "func" then
      (funcLiteral n *> postfixes n m .value) <|> typeOperand n m false
    else if t.is "[" then
      arrayLiteral n m <|> typeOperand n m true
    else
      typeOperand n m (t.isAny ["map", "struct"])

/-- An expression, or a type that is called or has type arguments. -/
def parenthesized (n : Nat) : Parser Shape :=
  match n with
  | 0 => failure
  | n + 1 => do
    let (type, value) ← twice (typeExpr n .inner) (group .round (expr n .inner))
    if value.isSome then
      return if type.isSome then .enclosed else .value
    else
      applied n
      return .value

def funcLiteral (n : Nat) : Parser Unit :=
  match n with
  | 0 => failure
  | n + 1 => do
    discard (expect "func")
    discard (paramList n)
    discard (resultList n .inner)
    discard (block n)

/-- A literal of an array whose length is counted. -/
def arrayLiteral (n : Nat) (m : Mode) : Parser Unit :=
  match n with
  | 0 => failure
  | n + 1 => do
    discard (group .square (expect "..."))
    discard (typeExpr n .inner)
    literalValue n
    postfixes n m .value

/-- A type that is called or has type arguments, or that the braces of a literal follow. The name at
its end may leave the arguments to the whole type. In front of a block, a literal leaves a block to
come if it can. -/
def typeOperand (n : Nat) (m : Mode) (literal : Bool) : Parser Unit :=
  match n with
  | 0 => failure
  | n + 1 =>
    closedType n m literal <|> openType n m <|> do
      require (literal && !m.literals)
      discard (typeExpr n .inner)
      typedLiteral n m

def closedType (n : Nat) (m : Mode) (literal : Bool) : Parser Unit :=
  match n with
  | 0 => failure
  | n + 1 => do
    discard (typeExpr n .inner)
    behindType n m literal

def behindType (n : Nat) (m : Mode) (literal : Bool) : Parser Unit :=
  match n with
  | 0 => failure
  | n + 1 =>
    (require literal *> if m.literals then typedLiteral n m else headerLiteral n m) <|> do
      applied n
      postfixes n m .value

def openType (n : Nat) (m : Mode) : Parser Unit :=
  match n with
  | 0 => failure
  | n + 1 => do
    let type ← foresee (taking (typeExpr n .inner))
    require (type.any fun (used, _) => used.getLast?.any (·.is "]"))
    discard (typeExpr n .bare)
    instantiation n
    postfixes n m .value

def typedLiteral (n : Nat) (m : Mode) : Parser Unit :=
  match n with
  | 0 => failure
  | n + 1 => do
    literalValue n
    postfixes n m .value

/-- What follows a type that is called with one operand, or that has type arguments. -/
def applied (n : Nat) : Parser Unit :=
  match n with
  | 0 => failure
  | n + 1 => do
    let t ← peek
    if t.is "(" then
      discard (group .round (expr n .inner *> accept ","))
    else
      instantiation n

/-- Types in brackets. -/
def instantiation (n : Nat) : Parser Unit :=
  match n with
  | 0 => failure
  | n + 1 => do
    let args ← group .square (commaList "]" (typeExpr n .inner) n)
    require (!args.content.isEmpty)

/-- Selections, indices, calls and the braces of literals behind an operand. -/
def postfixes (n : Nat) (m : Mode) (shape : Shape) : Parser Unit :=
  match n with
  | 0 => failure
  | n + 1 => do
    let t ← peek
    let u ← ahead 1
    let v ← ahead 2
    if m.lines && t.newline && shape.isComplete then
      return ()
    else if t.is "." && !shape.isComplete then
      failure
    else if t.is "." && u.kind == .name then
      discard advance
      discard advance
      postfixes n m shape.selected
    else if t.is "." && u.is "(" && !v.is "type" then
      discard advance
      discard (group .round (typeExpr n .inner))
      postfixes n m .value
    else if t.is "[" then
      let b ← bracketed n
      match shape.bracketed? b with
      | some shape => postfixes n m shape
      | none => failure
    else if t.is "(" then
      discard (group .round (callOperands n (shape == .allocator)))
      postfixes n m .value
    else if t.is lbrace && shape.isType then
      if m.literals then
        literalValue n
        postfixes n m .value
      else if shape == .typeName then
        return ()
      else
        headerLiteral n m <|> require shape.isComplete
    else
      require shape.isComplete

/-- A literal in front of a block: what follows it cannot follow a block. -/
def headerLiteral (n : Nat) (m : Mode) : Parser Unit :=
  match n with
  | 0 => failure
  | n + 1 => do
    literalValue n
    let t ← peek
    require (!t.newline && t.kind != .stop && !isTerminator t &&
      !t.isAny [rbrace, "else", ")", "]"])
    postfixes n m .value

/-- Brackets behind an operand. They end at the same place however they read. -/
def bracketed (n : Nat) : Parser Bracketed :=
  match n with
  | 0 => failure
  | n + 1 => do
    match ← twice (typeArgs n) (group .square (index n)) with
    | (types, some _) => return ⟨true, types.isSome, types == some true⟩
    | (types, none) => return ⟨false, true, types == some true⟩

/-- An index, or two or three bounds of a slice. -/
def index (n : Nat) : Parser Unit :=
  match n with
  | 0 => failure
  | n + 1 => do
    let t ← peek
    onlyIf (!t.is ":") (expr n .inner)
    let sliced ← accept ":"
    onlyIf sliced (upperBounds n)

def upperBounds (n : Nat) : Parser Unit :=
  match n with
  | 0 => failure
  | n + 1 => do
    let t ← peek
    if t.is "]" then
      return ()
    else
      expr n .inner
      let capped ← accept ":"
      onlyIf capped (expr n .inner)

/-- The arguments of a call. -/
def callOperands (n : Nat) (allocates : Bool) : Parser Unit :=
  match n with
  | 0 => failure
  | n + 1 => if allocates then allocation n else discard (commaList ")" (argument n) n)

/-- A type and what its allocation needs to know. -/
def allocation (n : Nat) : Parser Unit :=
  match n with
  | 0 => failure
  | n + 1 => do
    let t ← peek
    if t.is ")" then
      return ()
    else
      discard (typeExpr n .inner)
      let sized ← accept ","
      onlyIf sized (discard (commaList ")" (expr n .inner) n))

def argument (n : Nat) : Parser Unit :=
  match n with
  | 0 => failure
  | n + 1 => do
    expr n .inner
    discard (accept "...")
    let t ← peek
    require (t.isAny [",", ")"])

def literalValue (n : Nat) : Parser Unit :=
  match n with
  | 0 => failure
  | n + 1 => discard (group .curly (literalElements n))

/-- The elements of a literal. A comma may stand alone. -/
def literalElements (n : Nat) : Parser Unit :=
  match n with
  | 0 => failure
  | n + 1 => do
    let empty ← accept ","
    onlyIf (!empty) (discard (commaList rbrace (keyedElement n) n))

def keyedElement (n : Nat) : Parser Unit :=
  match n with
  | 0 => failure
  | n + 1 => do
    literalElement n
    let keyed ← accept ":"
    onlyIf keyed (literalElement n)

def literalElement (n : Nat) : Parser Unit :=
  match n with
  | 0 => failure
  | n + 1 => do
    let t ← peek
    if t.is lbrace then
      literalValue n
    else
      expr n .inner

end

end GoOutline.Syntax.Grammar
