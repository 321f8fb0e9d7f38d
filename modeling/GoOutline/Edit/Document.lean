import GoOutline.Draft
import GoOutline.Edit.Splice
import GoOutline.Format
import GoOutline.Outline.Read

/-!
Documents: a text with its outline, and the edits on it. An edit finds its target in the outline,
splices one piece of text in and reads the new text from the start. A document whose new text cannot
be read stays as it is.
-/

namespace GoOutline

open Text

/-- How a document is read, edited and shown. -/
structure Settings where
  dialect : Annotation.Dialect
  indent : String
  formatter : Formatter
deriving DecidableEq, Repr

inductive Edit where
  | appendField (owner : String) (field : Draft.Field)
  | appendMethod (owner : String) (method : Draft.Method)
  | appendCode (function code : String)
  | appendParameter (function : String) (param : Parameter)
  | appendImport (origin : Import)
  | appendStructure (draft : Draft.Structure)
  | appendInterface (draft : Draft.Interface)
  | appendFunction (draft : Draft.Function)
  | annotateStructure (name : String) (a : Annotation)
  | annotateInterface (name : String) (a : Annotation)
  | annotateFunction (key : String) (a : Annotation)
  | annotateField (owner field : String) (a : Annotation)
  | annotateMethod (owner method : String) (a : Annotation)
deriving Repr

namespace Outline

/-- The structure with a name, which an edit needs. -/
def needStructure (o : Outline) (name : String) : Except Error Structure :=
  match o.structure? name with
  | some s => .ok s
  | none => .error (.notFound .struct name)

def needInterface (o : Outline) (name : String) : Except Error Interface :=
  match o.interface? name with
  | some i => .ok i
  | none => .error (.notFound .interface name)

def needFunction (o : Outline) (key : String) : Except Error Function :=
  match o.function? key with
  | some f => .ok f
  | none => .error (.notFound .function key)

section Needed

variable {o : Outline} {name : String}

theorem needStructure_eq_ok {s : Structure} (h : o.needStructure name = .ok s) :
    o.structure? name = some s := by
  unfold needStructure at h
  split at h
  next t ht => rw [ht, Except.ok.inj h]
  next => cases h

theorem needInterface_eq_ok {i : Interface} (h : o.needInterface name = .ok i) :
    o.interface? name = some i := by
  unfold needInterface at h
  split at h
  next t ht => rw [ht, Except.ok.inj h]
  next => cases h

theorem needFunction_eq_ok {f : Function} (h : o.needFunction name = .ok f) :
    o.function? name = some f := by
  unfold needFunction at h
  split at h
  next t ht => rw [ht, Except.ok.inj h]
  next => cases h

end Needed

def needField (o : Outline) (owner name : String) : Except Error Field := do
  let s ← o.needStructure owner
  match s.field? name with
  | some f => .ok f
  | none => .error (.memberNotFound .field name owner)

def needMethod (o : Outline) (owner name : String) : Except Error Method := do
  let i ← o.needInterface owner
  match i.method? name with
  | some m => .ok m
  | none => .error (.memberNotFound .method name owner)

def needBody (f : Function) (key : String) : Except Error Span :=
  match f.inner with
  | some inner => .ok inner
  | none => .error (.noBody key)

theorem needBody_eq_ok {f : Function} {key : String} {inner : Span}
    (h : needBody f key = .ok inner) : f.inner = some inner := by
  unfold needBody at h
  split at h
  next i hi => rw [hi, Except.ok.inj h]
  next => cases h

end Outline

namespace Edit

open Splice

/-- The comment line of an annotation above a place. -/
def annotate (marker : String) (o : Outline) (span : Span) (a : Annotation) : Splice :=
  commentAbove o.text span.start (a.render marker)

/-- The splice that an edit comes to, if there is anything to do. -/
def splice? (settings : Settings) (o : Outline) (e : Edit) : Except Error (Option Splice) := do
  let indent := settings.indent.toList
  let marker := settings.dialect.marker
  match e with
  | appendField owner field =>
    let s ← o.needStructure owner
    return some (appendToInner o.text s.inner field.render indent)
  | appendMethod owner method =>
    let i ← o.needInterface owner
    return some (appendToInner o.text i.inner method.render indent)
  | appendCode function code =>
    let f ← o.needFunction function
    let inner ← Outline.needBody f function
    return some (appendToInner o.text inner code.toList indent)
  | appendParameter function param =>
    let f ← o.needFunction function
    return some (Splice.appendParameter o.text f.paramsSpan f.lastParamEnd param.render indent)
  | appendImport origin =>
    if o.hasImport origin then return none
    else return some (Splice.appendImport o origin.render indent)
  | appendStructure draft => return some (appendDeclaration o.text draft.render)
  | appendInterface draft => return some (appendDeclaration o.text draft.render)
  | appendFunction draft => return some (appendDeclaration o.text draft.render)
  | annotateStructure name a => return some (annotate marker o (← o.needStructure name).span a)
  | annotateInterface name a => return some (annotate marker o (← o.needInterface name).span a)
  | annotateFunction key a => return some (annotate marker o (← o.needFunction key).span a)
  | annotateField owner field a =>
    return some (annotate marker o (← o.needField owner field).span a)
  | annotateMethod owner method a =>
    return some (annotate marker o (← o.needMethod owner method).span a)

end Edit

structure Document where
  settings : Settings
  /-- The answers on imports so far. -/
  memo : Package.Memo
  outline : Outline

namespace Document

/-- The outline of a text, with the memo that has its imports. A text without a layout asks for
none. -/
def read (settings : Settings) (find : Finder) (memo : Package.Memo) (text : List Char) :
    Except Error Outline × Package.Memo :=
  match Outline.layoutOf text with
  | .error e => (.error e, memo)
  | .ok layout =>
    let memo := memo.askAll find (Outline.importPaths layout)
    (Outline.ofLayout settings.dialect memo.find text layout, memo)

def ofText (settings : Settings) (find : Finder) (text : List Char) : Except Error Document :=
  match read settings find .empty text with
  | (.ok outline, memo) => .ok ⟨settings, memo, outline⟩
  | (.error e, _) => .error e

def text (d : Document) : List Char := d.outline.text

/-- Puts a new text in place of the old one, if it can be read. -/
def commit (d : Document) (find : Finder) (text : List Char) : Except Error Unit × Document :=
  match read d.settings find d.memo text with
  | (.ok outline, memo) => (.ok (), { d with memo := memo, outline := outline })
  | (.error e, memo) => (.error e, { d with memo := memo })

def apply (d : Document) (find : Finder) (e : Edit) : Except Error Unit × Document :=
  match e.splice? d.settings d.outline with
  | .error e => (.error e, d)
  | .ok none => (.ok (), d)
  | .ok (some s) => d.commit find (s.apply d.text)

def rendered (d : Document) (programs : Programs) : Except Error (List Char) :=
  d.settings.formatter.format programs d.text

end Document

end GoOutline
