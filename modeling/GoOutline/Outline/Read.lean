import GoOutline.Error
import GoOutline.GoType.Resolve
import GoOutline.Outline.Basic
import GoOutline.Packages.Basic
import GoOutline.Syntax.Parser

/-!
From text to outline: the text is parsed, its layout is checked, its imports are looked up, and
then each declaration is described. Where a name is declared twice the first declaration counts.
-/

namespace GoOutline

open Text Syntax Docs

namespace Outline

/-- What a declaration is read against. -/
structure Context where
  scope : Scope
  dialect : Annotation.Dialect

abbrev Reading := Except AnnotationError

namespace Context

def slice (cx : Context) (span : Span) : String := cx.scope.slice span

/-- A field declaration describes a field for each of its names. -/
def fields (cx : Context) (d : Documented FieldDecl) : Reading (List Field) := do
  let decl := d.item
  let type := cx.scope.type decl.type
  let tags := decl.tag.map fun tag => Tags.ofLiteral tag.toList
  let (docs, annotations) ← Annotation.partition cx.dialect d.docs
  let field (name : String) (type : GoType) (embedded : Bool) : Field :=
    ⟨name, type, embedded, tags.getD default, decl.tag, docs, annotations, decl.extent.span⟩
  return match decl.head with
    | .named names => names.map (field · type false)
    | .embedded pointer =>
      let type := if pointer then .pointer type else type
      [field (type.baseName?.getD (cx.slice decl.type.span)) type true]

def structureOf (cx : Context) (name : String) (span : Span) (docs : List String)
    (body : StructBody) : Reading Structure := do
  let (docs, annotations) ← Annotation.partition cx.dialect docs
  let fields ← (attach FieldDecl.extent body.fields).mapM cx.fields
  return ⟨name, span, body.braces.inner, docs, annotations, fields.flatten⟩

def method? (cx : Context) (d : Documented InterfaceElem) : Reading (Option Method) :=
  match d.item with
  | .embedding .. => return none
  | .method m => do
    let (docs, annotations) ← Annotation.partition cx.dialect d.docs
    return some ⟨m.name, cx.scope.params m.params.decls, cx.scope.params m.results, docs,
      annotations, m.extent.span⟩

/-- A union of types has no form of its own. -/
def embed? (cx : Context) : InterfaceElem → Option GoType
  | .method _ => none
  | .embedding _ first [] => some (cx.scope.type first)
  | .embedding extent _ _ => some (.raw (cx.slice extent.span))

def interfaceOf (cx : Context) (name : String) (span : Span) (docs : List String)
    (body : InterfaceBody) : Reading Interface := do
  let (docs, annotations) ← Annotation.partition cx.dialect docs
  let methods ← (attach InterfaceElem.extent body.elems).mapM cx.method?
  let embeds := (members body.elems).filterMap cx.embed?
  return ⟨name, span, body.braces.inner, docs, annotations, methods.reduceOption, embeds⟩

def functionOf (cx : Context) (span : Span) (docs : List String) (decl : FuncDecl) :
    Reading Function := do
  let (docs, annotations) ← Annotation.partition cx.dialect docs
  let inner := decl.braces.map Delimiters.inner
  return {
    name := decl.name
    span := span
    inner := inner
    paramsSpan := decl.params.parens.inner
    lastParamEnd := decl.params.decls.getLast?.map (·.span.stop)
    receiver := decl.receiver.bind fun list => (cx.scope.params list.decls).head?
    params := cx.scope.params decl.params.decls
    results := cx.scope.params decl.results
    body := inner.map fun span => String.ofList (trim (Text.slice cx.scope.text span))
    docs := docs
    annotations := annotations }

end Context

/-- What a declaration declares. -/
inductive Declared where
  | struct (s : Structure)
  | interface (i : Interface)
  | function (f : Function)
deriving Repr

namespace Declared

def structure? : Declared → Option Structure
  | .struct s => some s
  | _ => none

def interface? : Declared → Option Interface
  | .interface i => some i
  | _ => none

def function? : Declared → Option Function
  | .function f => some f
  | _ => none

end Declared

namespace Context

/-- A type definition describes something if it defines a structure or an interface. The span and
the docs are given: those of a lone definition are those of its declaration. -/
def typeEntry (cx : Context) (span : Span) (docs : List String) (e : TypeEntry) :
    Reading (List Declared) :=
  match e with
  | .synonym _ => return []
  | .definition spec =>
    match spec.body with
    | .struct _ body => return [.struct (← cx.structureOf spec.name span docs body)]
    | .interface _ body => return [.interface (← cx.interfaceOf spec.name span docs body)]
    | .plain _ => return []

def declared (cx : Context) (d : Documented Item) : Reading (List Declared) :=
  match d.item.kind with
  | .types (.lone entry) => cx.typeEntry d.item.extent.span d.docs entry
  | .types (.group entries) =>
    List.flatten <$> (attach TypeEntry.extent entries).mapM fun e =>
      cx.typeEntry e.item.extent.span e.docs e.item
  | .func decl => return [.function (← cx.functionOf d.item.extent.span d.docs decl)]
  | _ => return []

end Context

/-- An import is left out if its path is no literal of a text. -/
def importOf (find : Finder) (spec : ImportSpec) : Option Import :=
  (Quoted.unquote spec.path.toList).map fun path =>
    let path := String.ofList path
    match find path with
    | .ok p => ⟨spec.name, path, some p.name, some p.dir⟩
    | .error _ => ⟨spec.name, path, none, none⟩

def importDeclOf (d : Extent × Syntax.ImportDecl) : ImportDecl :=
  ⟨d.1.span, d.2.keyword.stop, d.2.parens.map Delimiters.inner, d.2.specs.map (·.extent.span)⟩

/-- The error of a text that has no tree. -/
def malformed (text : List Char) : Error :=
  let (offset, found) := Syntax.stray text
  let (row, column) := position text offset
  .malformed (row + 1) (column + 1) (String.ofList (Syntax.excerpt found))

/-- The layout of a text. -/
def layoutOf (text : List Char) : Except Error Layout :=
  match Tree.ofText? text with
  | none => .error (malformed text)
  | some tree =>
    match Layout.ofTree tree with
    | .ok layout => .ok layout
    | .error .missingPackage => .error .missingPackage
    | .error (.misplaced fault offset) =>
      let (row, column) := position text offset
      .error (.misplaced (row + 1) (column + 1) fault)

def importSpecs (layout : Layout) : List ImportSpec := layout.imports.flatMap (·.2.specs)

/-- The paths that an outline of this layout has to look up. -/
def importPaths (layout : Layout) : List String :=
  (importSpecs layout).filterMap fun spec =>
    (Quoted.unquote spec.path.toList).map String.ofList

/-- Describes the declarations of a layout. -/
def ofLayout (dialect : Annotation.Dialect) (find : Finder) (text : List Char) (layout : Layout) :
    Except Error Outline := do
  let imports := (importSpecs layout).filterMap (importOf find)
  let cx : Context := ⟨⟨text, imports⟩, dialect⟩
  let declared ← (layout.declarations.mapM cx.declared).mapError Error.markedLine
  let declared := declared.flatten
  return {
    package := layout.package
    packageEnd := layout.place.stop
    text := text
    imports := imports
    importDecls := layout.imports.map importDeclOf
    structures := .ofFirst ((declared.filterMap Declared.structure?).map fun s => (s.name, s))
    interfaces := .ofFirst ((declared.filterMap Declared.interface?).map fun i => (i.name, i))
    functions := .ofFirst ((declared.filterMap Declared.function?).map fun f => (f.key, f)) }

def ofText (dialect : Annotation.Dialect) (find : Finder) (text : List Char) :
    Except Error Outline := do
  let layout ← layoutOf text
  ofLayout dialect find text layout

end Outline

end GoOutline
