import Mathlib.Data.List.ReduceOption
import GoOutline.Proofs.Inventory

/-!
Reading at other places. Where a text shows at other places what another one shows, the declarations
that stand there are read as they are in the other text, each at its new place.
-/

namespace GoOutline

open Text Syntax Docs

/-- The places that bytes go to. -/
def Span.via (b : Nat → Nat) (s : Span) : Span := ⟨b s.start, b s.stop⟩

namespace Motion

/-- Bytes and rows that go elsewhere, and nothing else. -/
def plain (b r : Nat → Nat) : Motion where
  start := b
  stop := b
  row := r
  literal := id
  comment c := ⟨c.text, ⟨c.extent.span.via b, r c.extent.row, r c.extent.lastRow⟩⟩

theorem plain_id : plain id id = none := rfl

/-- What is in no sieve goes one further. -/
def past (p : Nat → Bool) (n : Nat) : Nat := if p n then n else n + 1

theorem past_eq_self {p : Nat → Bool} {n : Nat} : past p n = n ↔ p n := by
  unfold past
  split <;> simp_all

/-- Some bytes and rows stay where they are, and no others. -/
def sieve (p q : Nat → Bool) : Motion := plain (past p) (past q)

end Motion

/-- A text shows at other places what another one shows at the places that are kept. -/
structure Keeps (p q : Nat → Bool) (b r : Nat → Nat) (text text' : List Char) : Prop where
  slice : ∀ s : Span, p s.start → p s.stop → Text.slice text' (s.via b) = Text.slice text s
  row : ∀ i j, q i → q j → (r i = r j ↔ i = j)
  next : ∀ i j, q i → q j → (r i + 1 = r j ↔ i + 1 = j)

section Kept

open Motion

variable {p q : Nat → Bool} {b r : Nat → Nat} {text text' : List Char} {imports : List Import}
  {dialect : Annotation.Dialect}

theorem kept_span {s : Span} (h : (sieve p q).span s = s) : p s.start ∧ p s.stop :=
  ⟨past_eq_self.1 (congrArg Span.start h), past_eq_self.1 (congrArg Span.stop h)⟩

theorem kept_rows {e : Extent} (h : (sieve p q).extent e = e) : q e.row ∧ q e.lastRow :=
  ⟨past_eq_self.1 (congrArg Extent.row h), past_eq_self.1 (congrArg Extent.lastRow h)⟩

theorem Keeps.sieve (text : List Char) : Keeps p q (past p) (past q) text text where
  slice s hs ht := by rw [Span.via, past_eq_self.2 hs, past_eq_self.2 ht]
  row i j hi hj := by rw [past_eq_self.2 hi, past_eq_self.2 hj]
  next i j hi hj := by rw [past_eq_self.2 hi, past_eq_self.2 hj]

theorem Keeps.shows (h : Keeps p q b r text text') (imports : List Import) {s : Span}
    (hs : (Motion.sieve p q).span s = s) :
    Scope.slice ⟨text', imports⟩ ((plain b r).span s) = Scope.slice ⟨text, imports⟩ s :=
  congrArg String.ofList (h.slice s (kept_span hs).1 (kept_span hs).2)

namespace Scope

mutual

/-- A type reads the same. -/
theorem type_kept (imports : List Import) (h : Keeps p q b r text text') :
    ∀ t : TypeExpr, (sieve p q).type t = t →
    Scope.type ⟨text', imports⟩ ((plain b r).type t) = Scope.type ⟨text, imports⟩ t
  | .name _ _, _ => rfl
  | .qualified s package id, ht => by
      have hs := h.shows imports (TypeExpr.qualified.inj ht).1
      have himport : Scope.import? ⟨text', imports⟩ package = Scope.import? ⟨text, imports⟩ package := rfl
      simp only [Motion.type, Scope.type, himport, hs]
  | .pointer _ elem, ht => by
      have he := type_kept imports h elem (TypeExpr.pointer.inj ht).2
      simp only [Motion.type, Scope.type, he]
  | .slice _ elem, ht => by
      have he := type_kept imports h elem (TypeExpr.slice.inj ht).2
      simp only [Motion.type, Scope.type, he]
  | .array _ length elem, ht => by
      have hl := h.shows imports (TypeExpr.array.inj ht).2.1
      have he := type_kept imports h elem (TypeExpr.array.inj ht).2.2
      simp only [Motion.type, Scope.type, hl, he]
  | .map _ key value, ht => by
      have hk := type_kept imports h key (TypeExpr.map.inj ht).2.1
      have hv := type_kept imports h value (TypeExpr.map.inj ht).2.2
      simp only [Motion.type, Scope.type, hk, hv]
  | .function _ params results, ht => by
      have hp := params_kept imports h params (TypeExpr.function.inj ht).2.1
      have hr := params_kept imports h results (TypeExpr.function.inj ht).2.2
      simp only [Motion.type, Scope.type, hp, hr]
  | .other s, ht => by
      have hs := h.shows imports (TypeExpr.other.inj ht)
      simp only [Motion.type, Scope.type, hs]

theorem param_kept (imports : List Import) (h : Keeps p q b r text text') :
    ∀ d : ParamDecl, (sieve p q).param d = d →
    Scope.param ⟨text', imports⟩ ((plain b r).param d) = Scope.param ⟨text, imports⟩ d
  | .mk _ names type variadic, hd => by
      have ht := type_kept imports h type (ParamDecl.mk.inj hd).2.2.1
      simp only [Motion.param, Scope.param, ht]

theorem params_kept (imports : List Import) (h : Keeps p q b r text text') : ∀ ds : List ParamDecl,
    (sieve p q).params ds = ds →
      Scope.params ⟨text', imports⟩ ((plain b r).params ds) = Scope.params ⟨text, imports⟩ ds
  | [], _ => rfl
  | d :: ds, hd => by
      have hone := param_kept imports h d (List.cons.inj hd).1
      have hmore := params_kept imports h ds (List.cons.inj hd).2
      simp only [Motion.params, Scope.params, hone, hmore]

end

/-- Parameters read the same. -/
theorem decls_kept (imports : List Import) (h : Keeps p q b r text text') {ds : List ParamDecl}
    (hd : ds.map (sieve p q).param = ds) :
    Scope.params ⟨text', imports⟩ (ds.map (plain b r).param) = Scope.params ⟨text, imports⟩ ds := by
  rw [← params_eq_map] at hd ⊢
  exact params_kept imports h ds hd

end Scope

section Docs

variable {α : Type} {place : α → Extent} {before before' s : List (Sibling α)}

/-- Siblings that count for the same in the search for docs. -/
inductive Abreast (q : Nat → Bool) (r : Nat → Nat) (place : α → Extent) :
    Sibling α → Sibling α → Prop
  | comment {c c' : Comment} (hq : q c.extent.row ∧ q c.extent.lastRow) (ht : c'.text = c.text)
      (hr : c'.extent.row = r c.extent.row) (hl : c'.extent.lastRow = r c.extent.lastRow) :
      Abreast q r place (.comment c) (.comment c')
  | member {a a' : α} (hq : q (place a).lastRow) (hl : (place a').lastRow = r (place a).lastRow) :
      Abreast q r place (.member a) (.member a')

theorem trails_kept (h : Keeps p q b r text text') {c c' : Comment}
    (hb : List.Forall₂ (Abreast q r place) before before') (hc : q c.extent.row)
    (hr : c'.extent.row = r c.extent.row) : trails place c' before' = trails place c before := by
  cases hb with
  | nil => rfl
  | cons hx _ =>
      cases hx with
      | comment => rfl
      | member hq hl =>
          rw [trails, trails, hl, hr, Bool.eq_iff_iff, beq_iff_eq, beq_iff_eq, h.row _ _ hq hc]

theorem linesOf_commentsAbove_kept (h : Keeps p q b r text text') {row : Nat}
    (hb : List.Forall₂ (Abreast q r place) before before') (hrow : q row) :
    linesOf (commentsAbove place (r row) before') = linesOf (commentsAbove place row before) := by
  induction hb generalizing row with
  | nil => rfl
  | @cons x y before before' hx hb ih =>
      cases hx with
      | member => rfl
      | @comment c c' hq ht hr hl =>
          have hends : (decide (c'.extent.lastRow + 1 ≠ r row) || trails place c' before') =
              (decide (c.extent.lastRow + 1 ≠ row) || trails place c before) := by
            simp only [trails_kept h hb hq.1 hr, hl, ne_eq, h.next _ _ hq.2 hrow]
          rw [commentsAbove, commentsAbove, hr, hends]
          split
          · rfl
          · simp only [linesOf, List.flatMap_append] at ih ⊢
            rw [ih hq.1]
            simp [ht]

variable {f : Motion → α → α}

theorem abreast_of_kept (hf : ∀ d a, place (f d a) = d.extent (place a)) {x : Sibling α}
    (h : (sieve p q).sibling (f (sieve p q)) x = x) :
    Abreast q r place x ((plain b r).sibling (f (plain b r)) x) := by
  cases x with
  | comment c => exact .comment (kept_rows (congrArg Comment.extent (Sibling.comment.inj h))) rfl rfl rfl
  | member a =>
      have ha := congrArg place (Sibling.member.inj h)
      rw [hf] at ha
      exact .member (kept_rows ha).2 (by rw [hf]; rfl)

/-- Members have the docs that they have. -/
theorem attachFrom_kept (h : Keeps p q b r text text')
    (hf : ∀ d a, place (f d a) = d.extent (place a))
    (hb : List.Forall₂ (Abreast q r place) before before')
    (hs : s.map ((sieve p q).sibling (f (sieve p q))) = s) :
    attachFrom place before' (s.map ((plain b r).sibling (f (plain b r)))) =
      (attachFrom place before s).map (documented (f (plain b r))) := by
  induction s generalizing before before' with
  | nil => rfl
  | cons x s ih =>
      obtain ⟨hx, hs⟩ := List.cons.inj hs
      have hrest := ih (.cons (abreast_of_kept (b := b) hf hx) hb) hs
      cases x with
      | comment c => exact hrest
      | member a =>
          have ha := congrArg place (Sibling.member.inj hx)
          rw [hf] at ha
          have hlines := linesOf_commentsAbove_kept h hb (kept_rows ha).1
          rw [List.map_cons, Motion.sibling, attachFrom, attachFrom, List.map_cons]
          refine congrArg₂ List.cons ?_ hrest
          rw [hf]
          exact congrArg₂ Documented.mk hlines rfl

theorem attach_kept (h : Keeps p q b r text text')
    (hf : ∀ d a, place (f d a) = d.extent (place a))
    (hs : s.map ((sieve p q).sibling (f (sieve p q))) = s) :
    attach place (s.map ((plain b r).sibling (f (plain b r)))) =
      (attach place s).map (documented (f (plain b r))) :=
  attachFrom_kept h hf .nil hs

end Docs

end Kept

section Topics

variable (d : Motion)

def Motion.titled {β : Type} (f : β → β) (x : Titled β) : Titled β :=
  ⟨x.name, d.span x.span, x.docs, f x.body⟩

def Motion.topic : Topic → Topic
  | .struct x => .struct (d.titled d.struct x)
  | .interface x => .interface (d.titled d.interface x)
  | .function x => .function (d.titled d.func x)

theorem Motion.none_topic (t : Topic) : Motion.none.topic t = t := by
  rcases t with ⟨name, span, docs, body⟩ | ⟨name, span, docs, body⟩ | ⟨name, span, docs, body⟩
  · exact congrArg (fun b => Topic.struct ⟨name, span, docs, b⟩)
      (TypeBody.struct.inj (Motion.none_body (.struct span body))).2
  · exact congrArg (fun b => Topic.interface ⟨name, span, docs, b⟩)
      (TypeBody.interface.inj (Motion.none_body (.interface span body))).2
  · exact congrArg (fun b => Topic.function ⟨name, span, docs, b⟩) (Motion.none_func body)

theorem topics_typeEntry (span : Span) (docs : List String) (e : TypeEntry) :
    (d.typeEntry e).topics (d.span span) docs = (e.topics span docs).map d.topic := by
  rcases e with ⟨extent, name, _ | _ | _⟩ | extent <;> rfl

/-- The declarations in a group of types, with siblings in front. -/
def entryTopics (before es : List (Sibling TypeEntry)) : List Topic :=
  (attachFrom TypeEntry.extent before es).flatMap fun e =>
    e.item.topics e.item.extent.span e.docs

/-- The declarations in a list of items, with siblings in front. -/
def topicsFrom (before items : List (Sibling Item)) : List Topic :=
  (attachFrom Item.extent before items).flatMap itemTopics

open Motion

variable {p q : Nat → Bool} {b r : Nat → Nat} {text text' : List Char}

theorem entryTopics_kept (h : Keeps p q b r text text') {before before' es : List (Sibling TypeEntry)}
    (hb : List.Forall₂ (Abreast q r TypeEntry.extent) before before')
    (hes : es.map ((sieve p q).sibling (sieve p q).typeEntry) = es) :
    entryTopics before' (es.map ((plain b r).sibling (plain b r).typeEntry)) =
      (entryTopics before es).map (plain b r).topic := by
  have hplace (d : Motion) (e : TypeEntry) : (d.typeEntry e).extent = d.extent e.extent := by
    cases e <;> rfl
  rw [entryTopics, attachFrom_kept h (f := Motion.typeEntry) hplace hb hes, entryTopics,
    List.flatMap_map, List.map_flatMap]
  refine List.flatMap_congr fun e _ => ?_
  rw [← topics_typeEntry]
  simp only [documented, hplace]
  rfl

theorem itemTopics_kept (h : Keeps p q b r text text') {x : Documented Item}
    (hx : (sieve p q).item x.item = x.item) :
    itemTopics (documented (plain b r).item x) = (itemTopics x).map (plain b r).topic := by
  obtain ⟨docs, extent, kind⟩ := x
  have hkind := (Item.mk.inj hx).2
  cases kind with
  | types decl =>
      cases decl with
      | lone e => exact topics_typeEntry _ _ _ e
      | group es =>
          exact entryTopics_kept h .nil (TypeDecl.group.inj (ItemKind.types.inj hkind))
  | package _ _ | imports _ | func _ | values | statement => rfl

theorem topicsFrom_kept (h : Keeps p q b r text text') {before before' items : List (Sibling Item)}
    (hb : List.Forall₂ (Abreast q r Item.extent) before before')
    (hi : items.map ((sieve p q).sibling (sieve p q).item) = items) :
    topicsFrom before' (items.map ((plain b r).sibling (plain b r).item)) =
      (topicsFrom before items).map (plain b r).topic := by
  have hplace (d : Motion) (i : Item) : (d.item i).extent = d.extent i.extent := rfl
  have hmembers := member_of_fixed hi
  rw [topicsFrom, attachFrom_kept h (f := Motion.item) hplace hb hi, topicsFrom, List.flatMap_map,
    List.map_flatMap]
  refine List.flatMap_congr fun x hx => itemTopics_kept h (hmembers x.item ?_)
  rw [← map_item_attachFrom Item.extent before items]
  exact List.mem_map_of_mem hx

/-- What stays is declared where it is declared. -/
theorem entryTopics_fixed {before es : List (Sibling TypeEntry)}
    (hb : List.Forall₂ (Abreast q (past q) TypeEntry.extent) before before)
    (hes : es.map ((sieve p q).sibling (sieve p q).typeEntry) = es) :
    (entryTopics before es).map (sieve p q).topic = entryTopics before es := by
  have h := entryTopics_kept (Keeps.sieve (p := p) []) hb hes
  rw [← sieve, hes] at h
  exact h.symm

theorem topicsFrom_fixed {before items : List (Sibling Item)}
    (hb : List.Forall₂ (Abreast q (past q) Item.extent) before before)
    (hi : items.map ((sieve p q).sibling (sieve p q).item) = items) :
    (topicsFrom before items).map (sieve p q).topic = topicsFrom before items := by
  have h := topicsFrom_kept (Keeps.sieve (p := p) []) hb hi
  rw [← sieve, hi] at h
  exact h.symm

end Topics

namespace Outline

variable (b : Nat → Nat)

def Field.via (f : Field) : Field := { f with span := f.span.via b }

def Structure.via (s : Structure) : Structure :=
  { s with span := s.span.via b, inner := s.inner.via b, fields := s.fields.map (Field.via b) }

def Method.via (m : Method) : Method := { m with span := m.span.via b }

def Interface.via (i : Interface) : Interface :=
  { i with span := i.span.via b, inner := i.inner.via b, methods := i.methods.map (Method.via b) }

def Function.via (f : Function) : Function :=
  { f with
    span := f.span.via b, inner := f.inner.map (Span.via b), paramsSpan := f.paramsSpan.via b,
    lastParamEnd := f.lastParamEnd.map b }

/-- What is declared, at other places. -/
def Declared.via : Declared → Declared
  | .struct s => .struct (s.via b)
  | .interface i => .interface (i.via b)
  | .function f => .function (f.via b)

namespace Context

open Motion

variable {p q : Nat → Bool} {b : Nat → Nat} {r : Nat → Nat} {text text' : List Char}
  {imports : List Import} {dialect : Annotation.Dialect}

/-- Parts that are read the same are read the same together. -/
theorem mapM_kept {α β γ ε : Type} {read : α → Except ε γ} {read' : β → Except ε γ} {v : α → β}
    {g : γ → γ} {as : List α} (h : ∀ a ∈ as, read' (v a) = g <$> read a) :
    (as.map v).mapM read' = List.map g <$> as.mapM read := by
  induction as with
  | nil => rfl
  | cons a as ih =>
      rw [List.map_cons, List.mapM_cons, List.mapM_cons, h a List.mem_cons_self,
        ih fun x hx => h x (List.mem_cons_of_mem a hx)]
      cases read a with
      | error e => rfl
      | ok c => cases as.mapM read <;> rfl

theorem bind_kept {α β ε : Type} {x : Except ε α} {f f' : α → Except ε β} {g : β → β}
    (h : ∀ a, f' a = g <$> f a) : (x >>= f') = g <$> (x >>= f) := by
  cases x with
  | error e => rfl
  | ok a => exact h a

theorem tags_kept (tag : Option String) : tag.map (plain b r).literal = tag := by
  cases tag <;> rfl

theorem fields_kept (imports : List Import) (dialect : Annotation.Dialect)
    (h : Keeps p q b r text text') {d : Documented FieldDecl}
    (hd : (sieve p q).field d.item = d.item) :
    fields ⟨⟨text', imports⟩, dialect⟩ (documented (plain b r).field d) =
      List.map (Field.via b) <$> fields ⟨⟨text, imports⟩, dialect⟩ d := by
  obtain ⟨docs, extent, head, type, tag⟩ := d
  have ht := Scope.type_kept imports h type (FieldDecl.mk.inj hd).2.2.1
  have hs := congrArg TypeExpr.span (FieldDecl.mk.inj hd).2.2.1
  rw [span_type] at hs
  have hspan := h.shows imports hs
  refine bind_kept ?_
  rintro ⟨docs', annotations⟩
  refine congrArg Except.ok ?_
  cases head with
  | named names =>
      simp only [documented, Motion.field, tags_kept, ht, List.map_map]
      rfl
  | embedded pointer =>
      simp only [documented, Motion.field, tags_kept, ht, span_type, slice, hspan]
      rfl

theorem structureOf_kept (imports : List Import) (dialect : Annotation.Dialect) (name : String) (span : Span)
    (docs : List String) (h : Keeps p q b r text text') {body : StructBody}
    (hb : (sieve p q).struct body = body) :
    structureOf ⟨⟨text', imports⟩, dialect⟩ name (span.via b) docs ((plain b r).struct body) =
      Structure.via b <$> structureOf ⟨⟨text, imports⟩, dialect⟩ name span docs body := by
  have hfields := (StructBody.mk.inj hb).2
  have hplace (d : Motion) (f : FieldDecl) : (d.field f).extent = d.extent f.extent := rfl
  have hattach := attach_kept h (f := Motion.field) hplace hfields
  have hmembers := member_of_fixed hfields
  refine bind_kept ?_
  rintro ⟨docs', annotations⟩
  rw [show ((plain b r).struct body).fields =
    body.fields.map ((plain b r).sibling (plain b r).field) from rfl, hattach,
    mapM_kept fun x hx => fields_kept imports dialect h (hmembers x.item (mem_of_attach hx))]
  cases (attach FieldDecl.extent body.fields).mapM (fields ⟨⟨text, imports⟩, dialect⟩) with
  | error e => rfl
  | ok fss =>
      refine congrArg Except.ok ?_
      simp only [Structure.via, List.map_flatten]
      rfl

theorem method?_kept (imports : List Import) (dialect : Annotation.Dialect)
    (h : Keeps p q b r text text') {d : Documented InterfaceElem}
    (hd : (sieve p q).elem d.item = d.item) :
    method? ⟨⟨text', imports⟩, dialect⟩ (documented (plain b r).elem d) =
      Option.map (Method.via b) <$> method? ⟨⟨text, imports⟩, dialect⟩ d := by
  obtain ⟨docs, elem⟩ := d
  cases elem with
  | embedding extent first more => rfl
  | method m =>
      have hm := MethodSpec.mk.inj (InterfaceElem.method.inj hd)
      have hparams := Scope.decls_kept imports h (ParamList.mk.inj hm.2.2.1).2
      have hresults := Scope.decls_kept imports h hm.2.2.2
      refine bind_kept ?_
      rintro ⟨docs', annotations⟩
      refine congrArg Except.ok ?_
      simp only [Motion.paramList, hparams, hresults]
      rfl

theorem embed?_kept (imports : List Import) (dialect : Annotation.Dialect)
    (h : Keeps p q b r text text') {e : InterfaceElem}
    (he : (sieve p q).elem e = e) :
    embed? ⟨⟨text', imports⟩, dialect⟩ ((plain b r).elem e) = embed? ⟨⟨text, imports⟩, dialect⟩ e := by
  cases e with
  | method m => rfl
  | embedding extent first more =>
      obtain ⟨hextent, hfirst, hmore⟩ := InterfaceElem.embedding.inj he
      cases more with
      | nil => exact congrArg some (Scope.type_kept imports h first hfirst)
      | cons second more =>
          exact congrArg (fun t => some (GoType.raw t)) (h.shows imports (congrArg Extent.span hextent))

theorem interfaceOf_kept (imports : List Import) (dialect : Annotation.Dialect) (name : String) (span : Span)
    (docs : List String) (h : Keeps p q b r text text') {body : InterfaceBody}
    (hb : (sieve p q).interface body = body) :
    interfaceOf ⟨⟨text', imports⟩, dialect⟩ name (span.via b) docs ((plain b r).interface body) =
      Interface.via b <$> interfaceOf ⟨⟨text, imports⟩, dialect⟩ name span docs body := by
  have helems := (InterfaceBody.mk.inj hb).2
  have hplace (d : Motion) (e : InterfaceElem) : (d.elem e).extent = d.extent e.extent := by
    cases e <;> rfl
  have hattach := attach_kept h (f := Motion.elem) hplace helems
  have hmembers := member_of_fixed helems
  have hembeds : (members ((plain b r).interface body).elems).filterMap
      (embed? ⟨⟨text', imports⟩, dialect⟩) =
      (members body.elems).filterMap (embed? ⟨⟨text, imports⟩, dialect⟩) := by
    rw [Motion.interface, members_sibling, List.filterMap_map]
    exact List.filterMap_congr fun e he => embed?_kept imports dialect h (hmembers e he)
  refine bind_kept ?_
  rintro ⟨docs', annotations⟩
  rw [hembeds, show ((plain b r).interface body).elems =
    body.elems.map ((plain b r).sibling (plain b r).elem) from rfl, hattach,
    mapM_kept fun x hx => method?_kept imports dialect h (hmembers x.item (mem_of_attach hx))]
  cases (attach InterfaceElem.extent body.elems).mapM (method? ⟨⟨text, imports⟩, dialect⟩) with
  | error e => rfl
  | ok ms =>
      refine congrArg Except.ok ?_
      simp only [Interface.via, List.reduceOption_map]
      rfl

theorem functionOf_kept (imports : List Import) (dialect : Annotation.Dialect) (span : Span)
    (docs : List String) (h : Keeps p q b r text text') {decl : FuncDecl}
    (hf : (sieve p q).func decl = decl) :
    functionOf ⟨⟨text', imports⟩, dialect⟩ (span.via b) docs ((plain b r).func decl) =
      Function.via b <$> functionOf ⟨⟨text, imports⟩, dialect⟩ span docs decl := by
  obtain ⟨receiver, name, params, results, braces⟩ := decl
  obtain ⟨hreceiver, -, hparams, hresults, hbraces⟩ := FuncDecl.mk.inj hf
  have hp := Scope.decls_kept imports h (ParamList.mk.inj hparams).2
  have hr := Scope.decls_kept imports h hresults
  have hrec : ((receiver.map (plain b r).paramList).bind fun list =>
      (Scope.params ⟨text', imports⟩ list.decls).head?) =
      receiver.bind fun list => (Scope.params ⟨text, imports⟩ list.decls).head? := by
    cases receiver with
    | none => rfl
    | some list =>
        have hlist := Scope.decls_kept imports h
          (ParamList.mk.inj (Option.some.inj hreceiver)).2
        exact congrArg List.head? hlist
  have hinner : (braces.map (plain b r).delimiters).map Delimiters.inner =
      (braces.map Delimiters.inner).map (Span.via b) := by
    cases braces <;> rfl
  have hbody : ((braces.map Delimiters.inner).map (Span.via b)).map (fun span =>
      String.ofList (trim (Text.slice text' span))) =
      (braces.map Delimiters.inner).map fun span => String.ofList (trim (Text.slice text span)) := by
    cases braces with
    | none => rfl
    | some d =>
        obtain ⟨ho, hc⟩ := Delimiters.mk.inj (Option.some.inj hbraces)
        have hslice := h.slice d.inner (kept_span ho).2 (kept_span hc).1
        exact congrArg (fun s => some (String.ofList (trim s))) hslice
  have hlast : (params.decls.map (plain b r).param).getLast?.map (·.span.stop) =
      (params.decls.getLast?.map (·.span.stop)).map b := by
    rw [List.getLast?_map, Option.map_map, Option.map_map]
    refine congrArg (Option.map · _) (funext fun d => ?_)
    cases d
    rfl
  refine bind_kept ?_
  rintro ⟨docs', annotations⟩
  refine congrArg Except.ok ?_
  simp only [Motion.func, Motion.paramList, hp, hr, hrec, hinner, hbody, hlast]
  rfl

theorem describe_kept (imports : List Import) (dialect : Annotation.Dialect)
    (h : Keeps p q b r text text') {t : Topic} (ht : (sieve p q).topic t = t) :
    describe ⟨⟨text', imports⟩, dialect⟩ ((plain b r).topic t) =
      Declared.via b <$> describe ⟨⟨text, imports⟩, dialect⟩ t := by
  cases t with
  | struct d =>
      obtain ⟨name, span, docs, body⟩ := d
      have hbody := (Titled.mk.inj (Topic.struct.inj ht)).2.2.2
      have hkept := structureOf_kept imports dialect name span docs h hbody
      refine Eq.trans (congrArg (Declared.struct <$> ·) hkept) ?_
      rw [describe]
      cases structureOf ⟨⟨text, imports⟩, dialect⟩ name span docs body <;> rfl
  | interface d =>
      obtain ⟨name, span, docs, body⟩ := d
      have hbody := (Titled.mk.inj (Topic.interface.inj ht)).2.2.2
      have hkept := interfaceOf_kept imports dialect name span docs h hbody
      refine Eq.trans (congrArg (Declared.interface <$> ·) hkept) ?_
      rw [describe]
      cases interfaceOf ⟨⟨text, imports⟩, dialect⟩ name span docs body <;> rfl
  | function d =>
      obtain ⟨name, span, docs, body⟩ := d
      have hbody := (Titled.mk.inj (Topic.function.inj ht)).2.2.2
      have hkept := functionOf_kept imports dialect span docs h hbody
      refine Eq.trans (congrArg (Declared.function <$> ·) hkept) ?_
      rw [describe]
      cases functionOf ⟨⟨text, imports⟩, dialect⟩ span docs body <;> rfl

/-- What is described by something kept stands at places that are kept. -/
theorem via_of_describe {t : Topic} {d : Declared} (ht : (sieve p q).topic t = t)
    (h : describe ⟨⟨text, imports⟩, dialect⟩ t = .ok d) : d.via (past p) = d := by
  have hk := describe_kept imports dialect (Keeps.sieve (p := p) (q := q) text) ht
  rw [show (plain (past p) (past q)).topic t = t from ht, h] at hk
  exact (Except.ok.inj hk).symm

end Context

section Kept

open Motion

variable {p q : Nat → Bool} {b r : Nat → Nat} {text text' : List Char}

/-- A field of another text that is the same. -/
structure Field.Kept (text text' : List Char) (f g : Field) : Prop where
  name : g.name = f.name
  type : g.type = f.type
  embedded : g.embedded = f.embedded
  tags : g.tags = f.tags
  docs : g.docs = f.docs
  annotations : g.annotations = f.annotations
  text : Text.slice text' g.span = Text.slice text f.span

structure Structure.Kept (text text' : List Char) (s t : Structure) : Prop where
  name : t.name = s.name
  docs : t.docs = s.docs
  annotations : t.annotations = s.annotations
  fields : List.Forall₂ (Field.Kept text text') s.fields t.fields
  text : Text.slice text' t.span = Text.slice text s.span

structure Method.Kept (text text' : List Char) (m n : Method) : Prop where
  name : n.name = m.name
  params : n.params = m.params
  results : n.results = m.results
  docs : n.docs = m.docs
  annotations : n.annotations = m.annotations
  text : Text.slice text' n.span = Text.slice text m.span

structure Interface.Kept (text text' : List Char) (i j : Interface) : Prop where
  name : j.name = i.name
  docs : j.docs = i.docs
  annotations : j.annotations = i.annotations
  methods : List.Forall₂ (Method.Kept text text') i.methods j.methods
  embeds : j.embeds = i.embeds
  text : Text.slice text' j.span = Text.slice text i.span

structure Function.Kept (text text' : List Char) (f g : Function) : Prop where
  name : g.name = f.name
  receiver : g.receiver = f.receiver
  params : g.params = f.params
  results : g.results = f.results
  body : g.body = f.body
  docs : g.docs = f.docs
  annotations : g.annotations = f.annotations
  text : Text.slice text' g.span = Text.slice text f.span

theorem Function.Kept.key {f g : Function} (h : f.Kept text text' g) : g.key = f.key := by
  rw [Function.key, Function.key, Function.receiverType?, Function.receiverType?, h.receiver, h.name]

inductive Declared.Kept (text text' : List Char) : Declared → Declared → Prop
  | struct {s t : Structure} : s.Kept text text' t → Kept text text' (.struct s) (.struct t)
  | interface {i j : Interface} : i.Kept text text' j → Kept text text' (.interface i) (.interface j)
  | function {f g : Function} : f.Kept text text' g → Kept text text' (.function f) (.function g)

/-- A place that stays among the kept ones shows the same. -/
theorem slice_via (h : Keeps p q b r text text') {s : Span} (hs : s.via (past p) = s) :
    Text.slice text' (s.via b) = Text.slice text s :=
  h.slice s (past_eq_self.1 (congrArg Span.start hs)) (past_eq_self.1 (congrArg Span.stop hs))

theorem Field.kept_via (h : Keeps p q b r text text') {f : Field} (hf : f.via (past p) = f) :
    f.Kept text text' (f.via b) :=
  ⟨rfl, rfl, rfl, rfl, rfl, rfl, slice_via h (congrArg Field.span hf)⟩

theorem Method.kept_via (h : Keeps p q b r text text') {m : Method} (hm : m.via (past p) = m) :
    m.Kept text text' (m.via b) :=
  ⟨rfl, rfl, rfl, rfl, rfl, slice_via h (congrArg Method.span hm)⟩

theorem forall₂_via {α : Type} {R : α → α → Prop} {v w : α → α} {as : List α}
    (hv : as.map v = as) (h : ∀ a, v a = a → R a (w a)) : List.Forall₂ R as (as.map w) := by
  have hfix := List.map_inj_left.1 (hv.trans (List.map_id as).symm)
  exact List.forall₂_map_right_iff.2 (List.forall₂_same.2 fun a ha => h a (hfix a ha))

theorem Structure.kept_via (h : Keeps p q b r text text') {s : Structure}
    (hs : s.via (past p) = s) : s.Kept text text' (s.via b) :=
  ⟨rfl, rfl, rfl, forall₂_via (congrArg Structure.fields hs) fun _ => Field.kept_via h,
    slice_via h (congrArg Structure.span hs)⟩

theorem Interface.kept_via (h : Keeps p q b r text text') {i : Interface}
    (hi : i.via (past p) = i) : i.Kept text text' (i.via b) :=
  ⟨rfl, rfl, rfl, forall₂_via (congrArg Interface.methods hi) fun _ => Method.kept_via h, rfl,
    slice_via h (congrArg Interface.span hi)⟩

/-- What stands at places that are kept is the same at its new place. -/
theorem Declared.kept_via (h : Keeps p q b r text text') {x : Declared}
    (hx : x.via (past p) = x) : x.Kept text text' (x.via b) := by
  cases x with
  | struct s => exact .struct (Structure.kept_via h (Declared.struct.inj hx))
  | interface i => exact .interface (Interface.kept_via h (Declared.interface.inj hx))
  | function f =>
      exact .function ⟨rfl, rfl, rfl, rfl, rfl, rfl, rfl,
        slice_via h (congrArg Function.span (Declared.function.inj hx))⟩

/-- Declarations that are kept are described as the same ones at their new places. -/
theorem Context.forall₂_describe {imports : List Import} {dialect : Annotation.Dialect}
    {ts : List Topic} {ds : List Declared} (h : Keeps p q b r text text')
    (ht : ts.map (sieve p q).topic = ts)
    (hd : List.Forall₂ (fun t d => describe ⟨⟨text, imports⟩, dialect⟩ t = .ok d) ts ds) :
    List.Forall₂ (fun t d => describe ⟨⟨text', imports⟩, dialect⟩ t = .ok d)
      (ts.map (plain b r).topic) (ds.map (Declared.via b)) ∧ ∀ d ∈ ds, d.via (past p) = d := by
  induction hd with
  | nil => exact ⟨.nil, by simp⟩
  | @cons t d ts ds hd _ ih =>
      obtain ⟨ht, hts⟩ := List.cons.inj ht
      obtain ⟨hds, hk⟩ := ih hts
      have hone := describe_kept imports dialect h ht
      rw [hd] at hone
      exact ⟨.cons hone hds, List.forall_mem_cons.2 ⟨via_of_describe ht hd, hk⟩⟩

theorem Declared.via_id (d : Declared) : d.via id = d := by
  have hfield : Field.via id = id := rfl
  have hmethod : Method.via id = id := rfl
  cases d with
  | struct s => simp [Declared.via, Structure.via, Span.via, hfield]
  | interface i => simp [Declared.via, Interface.via, Span.via, hmethod]
  | function f =>
      obtain ⟨name, span, inner, params, last, rest⟩ := f
      cases inner <;> simp [Declared.via, Function.via, Span.via]

end Kept

end Outline

end GoOutline
