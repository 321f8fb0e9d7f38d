import Mathlib.Data.List.Infix
import GoOutline.Syntax.Grammar

/-!
Trees and tokens at other places of another text. The other text holds the same tokens in the same
order. Text in front moves everything behind it by the same number of bytes and rows.
-/

namespace GoOutline

open Syntax

/-- Where what starts, stops and stands on a row of a text does so in another one, how string
literals read there and what becomes of comments. -/
structure Motion where
  start : Nat → Nat
  stop : Nat → Nat
  row : Nat → Nat
  literal : String → String
  comment : Comment → Comment

namespace Motion

variable (d : Motion)

def span (s : Span) : Span := ⟨d.start s.start, d.stop s.stop⟩

def extent (e : Extent) : Extent := ⟨d.span e.span, d.row e.row, d.row e.lastRow⟩

/-- Only string literals can read differently. -/
def token (t : Token) : Token :=
  ⟨t.kind, if t.kind = .string then d.literal t.text else t.text, d.extent t.extent, t.newline,
    t.comments.map d.comment⟩

def delimiters (p : Delimiters) : Delimiters := ⟨d.span p.opening, d.span p.closing⟩

mutual

def type : TypeExpr → TypeExpr
  | .name s id => .name (d.span s) id
  | .qualified s package id => .qualified (d.span s) package id
  | .pointer s elem => .pointer (d.span s) (type elem)
  | .slice s elem => .slice (d.span s) (type elem)
  | .array s length elem => .array (d.span s) (d.span length) (type elem)
  | .map s key value => .map (d.span s) (type key) (type value)
  | .function s ps rs => .function (d.span s) (params ps) (params rs)
  | .other s => .other (d.span s)

def param : ParamDecl → ParamDecl
  | .mk s names t variadic => .mk (d.span s) names (type t) variadic

def params : List ParamDecl → List ParamDecl
  | [] => []
  | p :: ps => param p :: params ps

end

theorem params_eq_map (ps : List ParamDecl) : d.params ps = ps.map d.param := by
  induction ps with
  | nil => rfl
  | cons p ps ih => rw [params, ih, List.map_cons]

theorem span_type (t : TypeExpr) : (d.type t).span = d.span t.span := by
  cases t <;> rfl

def paramList (l : ParamList) : ParamList := ⟨d.delimiters l.parens, l.decls.map d.param⟩

def entry : Grammar.ParamEntry → Grammar.ParamEntry
  | .lone s name => .lone (d.span s) name
  | .named s name t => .named (d.span s) name (d.type t)
  | .complete p => .complete (d.param p)

def sibling {α : Type} (f : α → α) : Sibling α → Sibling α
  | .comment c => .comment (d.comment c)
  | .member a => .member (f a)

def field (f : FieldDecl) : FieldDecl :=
  ⟨d.extent f.extent, f.head, d.type f.type, f.tag.map d.literal⟩

def struct (b : StructBody) : StructBody :=
  ⟨d.delimiters b.braces, b.fields.map (d.sibling d.field)⟩

def elem : InterfaceElem → InterfaceElem
  | .method m => .method ⟨d.extent m.extent, m.name, d.paramList m.params, m.results.map d.param⟩
  | .embedding e first more => .embedding (d.extent e) (d.type first) (more.map d.type)

def interface (b : InterfaceBody) : InterfaceBody :=
  ⟨d.delimiters b.braces, b.elems.map (d.sibling d.elem)⟩

def body : TypeBody → TypeBody
  | .struct s b => .struct (d.span s) (d.struct b)
  | .interface s b => .interface (d.span s) (d.interface b)
  | .plain t => .plain (d.type t)

def typeEntry : TypeEntry → TypeEntry
  | .definition spec => .definition ⟨d.extent spec.extent, spec.name, d.body spec.body⟩
  | .synonym e => .synonym (d.extent e)

def typeDecl : TypeDecl → TypeDecl
  | .lone e => .lone (d.typeEntry e)
  | .group es => .group (es.map (d.sibling d.typeEntry))

def importSpec (s : ImportSpec) : ImportSpec := ⟨d.extent s.extent, s.name, d.literal s.path⟩

def importDecl (i : ImportDecl) : ImportDecl :=
  ⟨d.span i.keyword, i.parens.map d.delimiters, i.specs.map d.importSpec⟩

def func (f : FuncDecl) : FuncDecl :=
  ⟨f.receiver.map d.paramList, f.name, d.paramList f.params, f.results.map d.param,
    f.braces.map d.delimiters⟩

def kind : ItemKind → ItemKind
  | .package name place => .package name (d.span place)
  | .imports i => .imports (d.importDecl i)
  | .types t => .types (d.typeDecl t)
  | .func f => .func (d.func f)
  | .values => .values
  | .statement => .statement

def item (i : Item) : Item := ⟨d.extent i.extent, d.kind i.kind⟩

theorem extentOf_token {ts : List Token} (h : ts ≠ []) :
    Parser.extentOf (ts.map d.token) = d.extent (Parser.extentOf ts) := by
  cases ts with
  | nil => exact absurd rfl h
  | cons t ts =>
    have hl : ((t :: ts).map d.token).getLast (by simp) = d.token ((t :: ts).getLast h) :=
      List.getLast_map _
    simp only [List.map_cons] at hl
    simp only [List.map_cons, Parser.extentOf, hl]
    rfl

section Token

variable {d} {t : Token}

theorem text_token (h : t.kind ≠ .string) : (d.token t).text = t.text := if_neg h

theorem text_token_of_string (h : t.kind = .string) : (d.token t).text = d.literal t.text := if_pos h

@[simp] theorem kind_token (t : Token) : (d.token t).kind = t.kind := rfl

@[simp] theorem newline_token (t : Token) : (d.token t).newline = t.newline := rfl

@[simp] theorem extent_token (t : Token) : (d.token t).extent = d.extent t.extent := rfl

@[simp] theorem is_token (t : Token) (text : String) : (d.token t).is text = t.is text := by
  by_cases h : t.kind = .fixed
  · rw [Token.is, Token.is, text_token (by simp [h]), kind_token]
  · simp [Token.is, beq_eq_false_iff_ne.2 h]

@[simp] theorem isAny_token (t : Token) (texts : List String) :
    (d.token t).isAny texts = t.isAny texts := by
  by_cases h : t.kind = .fixed
  · rw [Token.isAny, Token.isAny, text_token (by simp [h]), kind_token]
  · simp [Token.isAny, beq_eq_false_iff_ne.2 h]

@[simp] theorem bracket_token (text : Bracket → String) (t : Token) :
    (d.token t).bracket? text = t.bracket? text := by
  simp [Token.bracket?]

@[simp] theorem isClosing_token (t : Token) : (d.token t).isClosing = t.isClosing := by
  simp [Token.isClosing, Token.closes?]

@[simp] theorem isPlain_token (t : Token) : (d.token t).isPlain = t.isPlain := by
  simp [Token.isPlain, Token.opens?, Token.closes?]

@[simp] theorem isSolid_token (t : Token) : (d.token t).isSolid = t.isSolid := rfl

@[simp] theorem isTerminator_token (t : Token) :
    Parser.isTerminator (d.token t) = Parser.isTerminator t := isAny_token t _

@[simp] theorem takesArgs_token (p : Grammar.Place) (t : Token) :
    Grammar.takesArgs p (d.token t) = Grammar.takesArgs p t := by
  simp [Grammar.takesArgs]

@[simp] theorem isFree_token (t : Token) : Grammar.isFree (d.token t) = Grammar.isFree t := by
  by_cases h : t.kind = .name
  · rw [Grammar.isFree, Grammar.isFree, text_token (by simp [h]), kind_token]
  · simp [Grammar.isFree, beq_eq_false_iff_ne.2 h]

@[simp] theorem isBinary_token (m : Grammar.Mode) (t : Token) :
    Grammar.isBinary m (d.token t) = Grammar.isBinary m t := by
  simp [Grammar.isBinary]

@[simp] theorem startsType_token (t : Token) :
    Grammar.startsType (d.token t) = Grammar.startsType t := by
  simp [Grammar.startsType]

@[simp] theorem endsStatements_token (t : Token) :
    Grammar.endsStatements (d.token t) = Grammar.endsStatements t := isAny_token t _

@[simp] theorem endsField_token (t : Token) : Grammar.endsField (d.token t) = Grammar.endsField t := by
  simp [Grammar.endsField]

@[simp] theorem endsAlone_token (t : Token) : Grammar.endsAlone (d.token t) = Grammar.endsAlone t := by
  simp [Grammar.endsAlone]

end Token

/-- A piece that is too long to be left out is so at its new place as well. -/
def Judges (e : Extent) : Prop :=
  Grammar.forgivenFrom ≤ Grammar.dropCost (d.extent e) ↔ Grammar.forgivenFrom ≤ Grammar.dropCost e

/-- The same pieces of some tokens are too long to be left out. -/
def Fair (ts : List Token) : Prop :=
  ∀ used, used <:+: ts → used ≠ [] → (∀ t ∈ used, t.kind ≠ .stop) → d.Judges (Parser.extentOf used)

section Fair

variable {d} {ts us : List Token} {t : Token}

theorem Fair.infix (h : d.Fair ts) (hu : us <:+: ts) : d.Fair us :=
  fun used hi hne => h used (hi.trans hu) hne

theorem Fair.judges (h : d.Fair ts) (ht : t ∈ ts) (hs : t.kind ≠ .stop) : d.Judges t.extent :=
  h [t] ((List.singleton_infix_iff t ts).2 ht) (List.cons_ne_nil t []) (by simpa using hs)

/-- Nothing is too long or too short at the end of a text. -/
theorem Fair.concat (h : d.Fair ts) (ht : t.kind = .stop) : d.Fair (ts ++ [t]) := by
  intro used hi hne hs
  rcases List.infix_concat_iff.1 hi with ⟨front, hf⟩ | hi
  · obtain ⟨u, v, hv⟩ := (List.eq_nil_or_concat' used).resolve_left hne
    rw [hv, ← List.append_assoc] at hf
    have he : v = t := List.singleton_inj.1 (List.append_inj_right' hf rfl)
    exact absurd (he ▸ ht) (hs v (by simp [hv]))
  · exact h used hi hne hs

/-- Tokens that stay where they are. -/
theorem fair_of_fixed (h : ∀ t ∈ ts, d.token t = t) : d.Fair ts := by
  intro used hi hne _
  have hu : used.map d.token = used :=
    (List.map_congr_left fun t ht => h t (hi.sublist.subset ht)).trans (List.map_id used)
  have he := d.extentOf_token hne
  rw [hu] at he
  rw [Judges, ← he]

theorem Judges.isCheap (h : d.Judges t.extent) : Grammar.isCheap (d.token t) = Grammar.isCheap t := by
  rw [Grammar.isCheap, Grammar.isCheap, decide_eq_decide, ← Nat.not_le, ← Nat.not_le]
  exact not_congr h

end Fair

theorem members_sibling {α : Type} (f : α → α) (s : List (Sibling α)) :
    members (s.map (d.sibling f)) = (members s).map f := by
  induction s with
  | nil => rfl
  | cons a s ih =>
    cases a with
    | comment c => simpa [sibling] using ih
    | member a => simpa [sibling] using ih

theorem member_of_fixed {α : Type} {d : Motion} {f : α → α} {s : List (Sibling α)}
    (h : s.map (d.sibling f) = s) : ∀ a ∈ members s, f a = a := by
  have hm := congrArg members h
  rw [d.members_sibling] at hm
  exact List.map_inj_left.1 (hm.trans (List.map_id _).symm)

theorem commentSiblings_token {α : Type} (f : α → α) (t : Token) :
    Parser.commentSiblings (d.token t) = (Parser.commentSiblings t).map (d.sibling f) := by
  simp [Parser.commentSiblings, token, sibling, Function.comp_def]

section None

/-- Nothing moves. -/
def none : Motion := ⟨id, id, id, id, id⟩

theorem none_judges (e : Extent) : none.Judges e := Iff.rfl

@[simp] theorem none_span (s : Span) : none.span s = s := rfl

@[simp] theorem none_extent (e : Extent) : none.extent e = e := rfl

@[simp] theorem none_comment (c : Comment) : none.comment c = c := rfl

@[simp] theorem none_token (t : Token) : none.token t = t := by
  have hc : t.comments.map none.comment = t.comments := List.map_id _
  have ht : (if t.kind = .string then none.literal t.text else t.text) = t.text := ite_self _
  rw [token, hc, ht]
  rfl

@[simp] theorem none_delimiters (p : Delimiters) : none.delimiters p = p := rfl

mutual

@[simp] theorem none_type : ∀ t, none.type t = t
  | .name _ _ => rfl
  | .qualified _ _ _ => rfl
  | .pointer _ elem => by rw [type, none_type elem, none_span]
  | .slice _ elem => by rw [type, none_type elem, none_span]
  | .array _ _ elem => by rw [type, none_type elem, none_span, none_span]
  | .map _ key value => by rw [type, none_type key, none_type value, none_span]
  | .function _ ps rs => by rw [type, none_params ps, none_params rs, none_span]
  | .other _ => rfl

@[simp] theorem none_param : ∀ p, none.param p = p
  | .mk _ _ t _ => by rw [param, none_type t, none_span]

theorem none_params : ∀ ps, none.params ps = ps
  | [] => rfl
  | p :: ps => by rw [params, none_param p, none_params ps]

end

theorem map_none {α : Type} {f : α → α} (h : ∀ a, f a = a) (l : List α) : l.map f = l :=
  (List.map_congr_left fun a _ => h a).trans (List.map_id l)

@[simp] theorem none_paramList (l : ParamList) : none.paramList l = l := by
  simp [paramList, map_none none_param]

theorem none_sibling {α : Type} {f : α → α} (h : ∀ a, f a = a) (s : Sibling α) :
    none.sibling f s = s := by
  cases s <;> simp [sibling, h]

@[simp] theorem none_field (f : FieldDecl) : none.field f = f := by
  have ht : f.tag.map none.literal = f.tag := Option.map_id'
  simp [field, ht]

@[simp] theorem none_elem (e : InterfaceElem) : none.elem e = e := by
  cases e <;> simp [elem, map_none none_param, map_none none_type]

@[simp] theorem none_body (b : TypeBody) : none.body b = b := by
  cases b <;> simp [body, struct, interface, map_none (none_sibling none_field),
    map_none (none_sibling none_elem)]

@[simp] theorem none_typeEntry (e : TypeEntry) : none.typeEntry e = e := by
  cases e <;> simp [typeEntry]

@[simp] theorem none_typeDecl (t : TypeDecl) : none.typeDecl t = t := by
  cases t <;> simp [typeDecl, map_none (none_sibling none_typeEntry)]

@[simp] theorem none_importDecl (i : ImportDecl) : none.importDecl i = i := by
  have hs : i.specs.map none.importSpec = i.specs := map_none (fun _ => rfl) _
  have hp : i.parens.map none.delimiters = i.parens := by cases i.parens <;> rfl
  rw [importDecl, hs, hp]
  rfl

@[simp] theorem none_func (f : FuncDecl) : none.func f = f := by
  have hr : f.receiver.map none.paramList = f.receiver := by cases f.receiver <;> simp
  have hb : f.braces.map none.delimiters = f.braces := by cases f.braces <;> rfl
  rw [func, hr, hb, none_paramList, map_none none_param]

@[simp] theorem none_item (i : Item) : none.item i = i := by
  obtain ⟨e, k⟩ := i
  cases k <;> simp [item, kind]

end None

end Motion

namespace Syntax

/-- What stands at or behind a place, on its row or below. -/
structure Extent.Beyond (n r : Nat) (e : Extent) : Prop where
  start : n ≤ e.span.start
  stop : n ≤ e.span.stop
  row : r ≤ e.row
  lastRow : r ≤ e.lastRow

/-- What stands in a text that another one starts with. -/
structure Extent.Upto (s : List Char) (e : Extent) : Prop where
  start : Text.IsBoundary s e.span.start
  stop : Text.IsBoundary s e.span.stop
  row : e.row ≤ s.count '\n'
  lastRow : e.lastRow ≤ s.count '\n'

/-- A token with its comments. -/
def Token.Beyond (n r : Nat) (t : Token) : Prop :=
  t.extent.Beyond n r ∧ ∀ c ∈ t.comments, c.extent.Beyond n r

def Token.Upto (s : List Char) (t : Token) : Prop :=
  t.extent.Upto s ∧ ∀ c ∈ t.comments, c.extent.Upto s

end Syntax

/-- So many bytes and rows further on, or back where the numbers are negative. -/
structure Shift where
  bytes : Int
  rows : Int
deriving DecidableEq, Repr

namespace Shift

variable (d : Shift)

def byte (n : Nat) : Nat := (n + d.bytes).toNat

def row (n : Nat) : Nat := (n + d.rows).toNat

def comment (c : Comment) : Comment :=
  ⟨c.text, ⟨⟨d.byte c.extent.span.start, d.byte c.extent.span.stop⟩, d.row c.extent.row,
    d.row c.extent.lastRow⟩⟩

def motion : Motion := ⟨d.byte, d.byte, d.row, id, d.comment⟩

/-- What stands here does not move beyond the start of the text. -/
def Reaches (e : Extent) : Prop := 0 ≤ e.span.start + d.bytes ∧ 0 ≤ e.row + d.rows

variable {d}

theorem reaches_of_beyond {n r : Nat} {e : Extent} (h : e.Beyond n r) (hn : 0 ≤ n + d.bytes)
    (hr : 0 ≤ r + d.rows) : d.Reaches e := by
  have := h.start
  have := h.row
  constructor <;> omega

theorem dropCost_extent {e : Extent} (h : d.Reaches e) :
    Grammar.dropCost (d.motion.extent e) = Grammar.dropCost e := by
  obtain ⟨hb, hr⟩ := h
  simp only [Grammar.dropCost, Motion.extent, Motion.span, motion, byte, row]
  omega

theorem judges {e : Extent} (h : d.Reaches e) : d.motion.Judges e := by
  rw [Motion.Judges, dropCost_extent h]

theorem fair {ts : List Token} (h : ∀ t ∈ ts, d.Reaches t.extent) : d.motion.Fair ts := by
  intro used hu hne _
  obtain ⟨t, used, rfl⟩ := List.exists_cons_of_ne_nil hne
  exact judges (h t (hu.subset List.mem_cons_self))

end Shift

end GoOutline
