import GoOutline.Proofs.Literals
import GoOutline.Proofs.Outcomes
import GoOutline.Proofs.Reread

/-!
A formatted text says what the text said. Its outline is that of the text but for places and the
texts of types, as long as no line ends inside of a name.
-/

namespace GoOutline

open Text Syntax Docs

namespace Syntax

/-- No line ends inside of a type, nor inside of what it points to. -/
def TypeExpr.Unbroken (text : List Char) : TypeExpr → Prop
  | .pointer s elem => '\n' ∉ Text.slice text s ∧ elem.Unbroken text
  | t => '\n' ∉ Text.slice text t.span

theorem TypeExpr.Unbroken.span {text : List Char} {t : TypeExpr} (h : t.Unbroken text) :
    '\n' ∉ Text.slice text t.span := by
  cases t with
  | pointer s elem => exact h.1
  | name | qualified | slice | array | map | function | other => exact h

instance TypeExpr.decidableUnbroken (text : List Char) :
    (t : TypeExpr) → Decidable (t.Unbroken text)
  | .pointer s elem =>
      have := decidableUnbroken text elem
      inferInstanceAs (Decidable ('\n' ∉ Text.slice text s ∧ elem.Unbroken text))
  | .name s _ | .qualified s _ _ | .slice s _ | .array s _ _ | .map s _ _ | .function s _ _
  | .other s => inferInstanceAs (Decidable ('\n' ∉ Text.slice text s))

/-- The types of the receiver, which a function has its key from. -/
def FuncDecl.eponyms (f : FuncDecl) : List TypeExpr :=
  (f.receiver.elim [] ParamList.decls).map ParamDecl.type

/-- The embedded types, which fields have their names from. -/
def FieldDecl.eponym? (f : FieldDecl) : Option TypeExpr :=
  match f.head with
  | .named _ => none
  | .embedded _ => some f.type

def TypeEntry.eponyms : TypeEntry → List TypeExpr
  | .definition ⟨_, _, .struct _ body⟩ => (members body.fields).filterMap FieldDecl.eponym?
  | _ => []

def TypeDecl.eponyms : TypeDecl → List TypeExpr
  | .lone entry => entry.eponyms
  | .group entries => (members entries).flatMap TypeEntry.eponyms

def ItemKind.eponyms : ItemKind → List TypeExpr
  | .types decl => decl.eponyms
  | .func decl => decl.eponyms
  | _ => []

/-- The types that names in an outline come from. -/
def Layout.eponyms (l : Layout) : List TypeExpr :=
  l.declarations.flatMap fun d => d.item.kind.eponyms

/-- Nothing stays where it is but what starts and stops where tokens do. -/
def pinned (ts : List Token) : Motion where
  start n := if n ∈ ts.map (·.extent.span.start) then n else n + 1
  stop n := if n ∈ ts.map (·.extent.span.stop) then n else n + 1
  row := id
  literal := id
  comment := id

section Pinned

open Lexer

variable {text : List Char} {ts : List Token} {t : Token} {s : Span}

theorem token_pinned (h : t ∈ ts) : (pinned ts).token t = t := by
  have hstart := List.mem_map_of_mem (f := (·.extent.span.start)) h
  have hstop := List.mem_map_of_mem (f := (·.extent.span.stop)) h
  have hspan : (pinned ts).span t.extent.span = t.extent.span := by
    simp only [Motion.span, pinned, if_pos hstart, if_pos hstop]
  have htext : (if t.kind = .string then (pinned ts).literal t.text else t.text) = t.text :=
    ite_self _
  have hcomments : t.comments.map (pinned ts).comment = t.comments := List.map_id _
  rw [Motion.token, htext, hcomments, Motion.extent, hspan]
  rfl

theorem exists_of_pinned (h : (pinned ts).span s = s) :
    ∃ t ∈ ts, ∃ u ∈ ts, s = ⟨t.extent.span.start, u.extent.span.stop⟩ := by
  have hstart : (pinned ts).start s.start = s.start := congrArg Span.start h
  have hstop : (pinned ts).stop s.stop = s.stop := congrArg Span.stop h
  simp only [pinned, ite_eq_left_iff, Nat.add_eq_left, Nat.one_ne_zero, imp_false, not_not] at hstart hstop
  obtain ⟨t, ht, hts⟩ := List.mem_map.1 hstart
  obtain ⟨u, hu, hus⟩ := List.mem_map.1 hstop
  exact ⟨t, ht, u, hu, by rw [hts, hus]⟩

/-- A piece of one line between tokens reads the same in the settled text. -/
theorem slice_pinned (hs : ∀ t ∈ ts, Seated text t) (h : (pinned ts).span s = s)
    (hn : '\n' ∉ slice text s) :
    slice (settle text ++ ['\n']) ((settling text).span s) = slice text s := by
  obtain ⟨t, ht, u, hu, rfl⟩ := exists_of_pinned h
  rcases Nat.le_total t.extent.span.start u.extent.span.stop with hle | hle
  · obtain ⟨a, m, c, htext, hm, he⟩ := (hs t ht).through (hs u hu) hle
    have hspan : (⟨t.extent.span.start, u.extent.span.stop⟩ : Span) =
        ⟨byteLength a, byteLength (a ++ m)⟩ := congrArg Extent.span he
    rw [hspan] at hn ⊢
    have hold : slice text ⟨byteLength a, byteLength (a ++ m)⟩ = m := by
      rw [htext]
      exact slice_append a m c
    rw [hold] at hn
    rw [slice_settling htext hm, hold, tidy_eq_self hn]
  · have hmoved := settledOffset_mono text hle
    simp only [slice, Motion.span, settling, Nat.sub_eq_zero_of_le hle,
      Nat.sub_eq_zero_of_le hmoved, takeBytes_zero]

end Pinned

end Syntax

/-- Where one computation succeeds the other does, and the results are related. -/
def Carries {ε α β : Type} (R : α → β → Prop) (x : Except ε α) (y : Except ε β) : Prop :=
  ∀ a, x = .ok a → ∃ b, y = .ok b ∧ R a b

namespace Carries

variable {ε α β γ δ : Type} {R : α → β → Prop} {S : γ → δ → Prop} {x : Except ε α} {y : Except ε β}

theorem pure {a : α} {b : β} (h : R a b) : Carries R (.ok a : Except ε α) (.ok b : Except ε β) := by
  rintro _ ⟨⟩
  exact ⟨b, rfl, h⟩

theorem eq (x : Except ε α) : Carries Eq x x := fun a ha => ⟨a, ha, rfl⟩

theorem bind {f : α → Except ε γ} {g : β → Except ε δ} (h : Carries R x y)
    (hf : ∀ a b, R a b → Carries S (f a) (g b)) : Carries S (x >>= f) (y >>= g) := by
  intro c hc
  obtain ⟨a, ha, hc⟩ := bind_eq_ok.1 hc
  obtain ⟨b, hb, hab⟩ := h a ha
  obtain ⟨e, he, hce⟩ := hf a b hab c hc
  exact ⟨e, bind_eq_ok.2 ⟨b, hb, he⟩, hce⟩

theorem mapM {f : α → Except ε γ} {g : β → Except ε δ} {v : α → β} {as : List α}
    (h : ∀ a ∈ as, Carries S (f a) (g (v a))) :
    Carries (List.Forall₂ S) (as.mapM f) ((as.map v).mapM g) := by
  induction as with
  | nil => exact pure .nil
  | cons a as ih =>
      have hrest := ih fun b hb => h b (List.mem_cons_of_mem a hb)
      rw [List.map_cons, List.mapM_cons, List.mapM_cons]
      refine (h a List.mem_cons_self).bind fun c d hcd => hrest.bind fun cs ds hs => ?_
      exact pure (.cons hcd hs)

end Carries

namespace Outline

/-- Fields that differ in nothing but their places and types. -/
structure Field.Matches (f g : Field) : Prop where
  name : f.name = g.name
  embedded : f.embedded = g.embedded
  tags : f.tags = g.tags
  docs : f.docs = g.docs
  annotations : f.annotations = g.annotations

structure Structure.Matches (s t : Structure) : Prop where
  name : s.name = t.name
  docs : s.docs = t.docs
  annotations : s.annotations = t.annotations
  fields : List.Forall₂ Field.Matches s.fields t.fields

structure Method.Matches (m n : Method) : Prop where
  name : m.name = n.name
  docs : m.docs = n.docs
  annotations : m.annotations = n.annotations

structure Interface.Matches (i j : Interface) : Prop where
  name : i.name = j.name
  docs : i.docs = j.docs
  annotations : i.annotations = j.annotations
  methods : List.Forall₂ Method.Matches i.methods j.methods

theorem Function.key_congr {f g : Function} (hr : f.receiverType? = g.receiverType?)
    (hn : f.name = g.name) : f.key = g.key := by
  rw [Function.key, Function.key, hr, hn]

structure Function.Matches (f g : Function) : Prop where
  key : f.key = g.key
  name : f.name = g.name
  isMethod : f.isMethod = g.isMethod
  docs : f.docs = g.docs
  annotations : f.annotations = g.annotations

inductive Declared.Matches : Declared → Declared → Prop
  | struct {s t : Structure} : s.Matches t → Matches (.struct s) (.struct t)
  | interface {i j : Interface} : i.Matches j → Matches (.interface i) (.interface j)
  | function {f g : Function} : f.Matches g → Matches (.function f) (.function g)

namespace Context

/-- The context of the settled text. -/
def settled (cx : Context) : Context :=
  ⟨⟨settle cx.scope.text ++ ['\n'], cx.scope.imports⟩, cx.dialect⟩

variable {cx : Context} {ts : List Token}

theorem raw_settled (hs : ∀ t ∈ ts, Lexer.Seated cx.scope.text t) {s : Span}
    (h : (pinned ts).span s = s) (hn : '\n' ∉ Text.slice cx.scope.text s) :
    cx.settled.scope.slice ((settling cx.scope.text).span s) = cx.scope.slice s :=
  congrArg String.ofList (slice_pinned hs h hn)

/-- The name of a type that no line ends in. -/
theorem baseName?_settled (hs : ∀ t ∈ ts, Lexer.Seated cx.scope.text t) : ∀ t : TypeExpr,
    (pinned ts).type t = t → t.Unbroken cx.scope.text →
      (cx.settled.scope.type ((settling cx.scope.text).type t)).baseName? =
        (cx.scope.type t).baseName?
  | .name _ _, _, _ => rfl
  | .qualified s package id, h, hu => by
      have hspan := raw_settled hs (TypeExpr.qualified.inj h).1 hu
      have himport : cx.settled.scope.import? package = cx.scope.import? package := rfl
      simp only [Motion.type, Scope.type, himport, hspan]
  | .pointer s elem, h, hu => baseName?_settled hs elem (TypeExpr.pointer.inj h).2 hu.2
  | .slice _ _, _, _ => rfl
  | .array _ _ _, _, _ => rfl
  | .map _ _ _, _, _ => rfl
  | .function _ _ _, _, _ => rfl
  | .other s, h, hu => by
      have hspan := raw_settled hs (TypeExpr.other.inj h) hu
      simp only [Motion.type, Scope.type, hspan]

theorem fields_settled (hs : ∀ t ∈ ts, Lexer.Seated cx.scope.text t) {d : Documented FieldDecl}
    (h : (pinned ts).field d.item = d.item)
    (hu : ∀ t ∈ d.item.eponym?, t.Unbroken cx.scope.text) :
    Carries (List.Forall₂ Field.Matches) (cx.fields d)
      (cx.settled.fields (Motion.documented (settling cx.scope.text).field d)) := by
  obtain ⟨docs, extent, head, type, tag⟩ := d
  have htags : (tag.map (settling cx.scope.text).literal).map (fun tag => Tags.ofLiteral tag.toList) =
      tag.map fun tag => Tags.ofLiteral tag.toList := by
    cases tag with
    | none => rfl
    | some tag =>
        have ht := Tags.ofLiteral_tidy tag.toList
        simp only [Option.map_some, settling, String.toList_ofList, ht]
  refine Carries.bind (.eq <| Annotation.partition cx.dialect docs) ?_
  rintro ⟨docs', annotations⟩ _ rfl
  cases head with
  | named names =>
      refine .pure (List.forall₂_map_left_iff.2 (List.forall₂_map_right_iff.2 ?_))
      exact List.forall₂_same.2 fun name _ =>
        ⟨rfl, rfl, congrArg (Option.getD · default) htags.symm, rfl, rfl⟩
  | embedded pointer =>
      have hfix := (FieldDecl.mk.inj h).2.2.1
      have hunbroken := hu type rfl
      have hname := baseName?_settled hs type hfix hunbroken
      have hslice : cx.settled.slice ((settling cx.scope.text).type type).span =
          cx.slice type.span := by
        have hspan := congrArg TypeExpr.span hfix
        rw [Motion.span_type] at hspan ⊢
        exact raw_settled hs hspan hunbroken.span
      refine .pure (.cons ⟨?_, rfl, congrArg (Option.getD · default) htags.symm, rfl, rfl⟩ .nil)
      cases pointer with
      | false => exact congrArg₂ Option.getD hname.symm hslice.symm
      | true => exact congrArg₂ Option.getD hname.symm hslice.symm

/-- What stands in a list of the settled text, where each member is carried over. -/
theorem mapM_settled {α γ : Type} {text : List Char} {place : α → Extent} {f : α → α}
    (hf : ∀ a, place (f a) = (settling text).extent (place a)) {R : γ → γ → Prop}
    {read read' : Documented α → Reading γ} {s : List (Sibling α)}
    (h : ∀ x, x.item ∈ members s → Carries R (read x) (read' (Motion.documented f x))) :
    Carries (List.Forall₂ R) ((attach place s).mapM read)
      ((attach place (s.map ((settling text).sibling f))).mapM read') := by
  rw [attach_settling hf]
  exact .mapM fun x hx => h x (mem_of_attach hx)

theorem structureOf_settled (hs : ∀ t ∈ ts, Lexer.Seated cx.scope.text t) {name : String}
    {span span' : Span} {docs : List String} {body : StructBody}
    (h : (pinned ts).struct body = body)
    (hu : ∀ t ∈ (members body.fields).filterMap FieldDecl.eponym?, t.Unbroken cx.scope.text) :
    Carries Structure.Matches (cx.structureOf name span docs body)
      (cx.settled.structureOf name span' docs ((settling cx.scope.text).struct body)) := by
  refine Carries.bind (.eq <| Annotation.partition cx.dialect docs) ?_
  rintro ⟨docs', annotations⟩ _ rfl
  have hfields : Carries (List.Forall₂ (List.Forall₂ Field.Matches))
      ((attach FieldDecl.extent body.fields).mapM cx.fields)
      ((attach FieldDecl.extent ((settling cx.scope.text).struct body).fields).mapM
        cx.settled.fields) := by
    have hplace (f : FieldDecl) : ((settling cx.scope.text).field f).extent =
        (settling cx.scope.text).extent f.extent := rfl
    refine mapM_settled hplace fun x hx => ?_
    refine fields_settled hs (Motion.member_of_fixed (StructBody.mk.inj h).2 x.item hx) fun t ht => ?_
    exact hu t (List.mem_filterMap.2 ⟨x.item, hx, ht⟩)
  refine hfields.bind fun fss gss hfg => .pure ⟨rfl, rfl, rfl, ?_⟩
  exact List.rel_flatten hfg

theorem method?_settled {d : Documented InterfaceElem} :
    Carries (Option.Rel Method.Matches) (cx.method? d)
      (cx.settled.method? (Motion.documented (settling cx.scope.text).elem d)) := by
  obtain ⟨docs, elem⟩ := d
  cases elem with
  | embedding extent first more => exact .pure .none
  | method m =>
      refine Carries.bind (.eq <| Annotation.partition cx.dialect docs) ?_
      rintro ⟨docs', annotations⟩ _ rfl
      exact .pure (.some ⟨rfl, rfl, rfl⟩)

theorem interfaceOf_settled {name : String} {span span' : Span} {docs : List String}
    {body : InterfaceBody} :
    Carries Interface.Matches (cx.interfaceOf name span docs body)
      (cx.settled.interfaceOf name span' docs ((settling cx.scope.text).interface body)) := by
  refine Carries.bind (.eq <| Annotation.partition cx.dialect docs) ?_
  rintro ⟨docs', annotations⟩ _ rfl
  have helem (e : InterfaceElem) : ((settling cx.scope.text).elem e).extent =
      (settling cx.scope.text).extent e.extent := by cases e <;> rfl
  refine (mapM_settled helem fun x _ => method?_settled).bind fun ms ns hmn => .pure ⟨rfl, rfl, rfl, ?_⟩
  have hid : Relator.LiftFun (Option.Rel Method.Matches) (Option.Rel Method.Matches) id id :=
    fun _ _ h => h
  exact List.rel_filterMap hid hmn

/-- The first of some parameters, by the name of its type. -/
theorem firstName_settled (hs : ∀ t ∈ ts, Lexer.Seated cx.scope.text t) {decls : List ParamDecl}
    (h : decls.map (pinned ts).param = decls)
    (hu : ∀ t ∈ decls.map ParamDecl.type, t.Unbroken cx.scope.text) :
    (cx.settled.scope.params (decls.map (settling cx.scope.text).param)).head?.map
        (·.type.baseName?) = (cx.scope.params decls).head?.map (·.type.baseName?) := by
  rcases decls with _ | ⟨⟨span, names, type, variadic⟩, decls⟩
  · rfl
  · have hfix := (ParamDecl.mk.inj (List.cons.inj h).1).2.2.1
    have hname := baseName?_settled hs type hfix (hu type List.mem_cons_self)
    cases names with
    | nil => exact congrArg some hname
    | cons name names => exact congrArg some hname

theorem functionOf_settled (hs : ∀ t ∈ ts, Lexer.Seated cx.scope.text t) {span span' : Span}
    {docs : List String} {decl : FuncDecl} (h : (pinned ts).func decl = decl)
    (hu : ∀ t ∈ decl.eponyms, t.Unbroken cx.scope.text) :
    Carries Function.Matches (cx.functionOf span docs decl)
      (cx.settled.functionOf span' docs ((settling cx.scope.text).func decl)) := by
  refine Carries.bind (.eq <| Annotation.partition cx.dialect docs) ?_
  rintro ⟨docs', annotations⟩ _ rfl
  obtain ⟨receiver, name, params, results, braces⟩ := decl
  refine .pure ?_
  cases receiver with
  | none => exact ⟨rfl, rfl, rfl, rfl, rfl⟩
  | some list =>
      have hlist := congrArg ParamList.decls (Option.some.inj (FuncDecl.mk.inj h).1)
      have hfirst := firstName_settled hs hlist hu
      have htype := congrArg (Option.bind · id) hfirst
      have hmethod := congrArg Option.isSome hfirst
      simp only [Option.bind_map, Function.comp_def, id_eq, Option.isSome_map] at htype hmethod
      exact ⟨Function.key_congr htype.symm rfl, rfl, hmethod.symm, rfl, rfl⟩

theorem typeEntry_settled (hs : ∀ t ∈ ts, Lexer.Seated cx.scope.text t) {span span' : Span}
    {docs : List String} {e : TypeEntry} (h : (pinned ts).typeEntry e = e)
    (hu : ∀ t ∈ e.eponyms, t.Unbroken cx.scope.text) :
    Carries (List.Forall₂ Declared.Matches) (cx.typeEntry span docs e)
      (cx.settled.typeEntry span' docs ((settling cx.scope.text).typeEntry e)) := by
  cases e with
  | synonym extent => exact .pure .nil
  | definition spec =>
      obtain ⟨extent, name, body⟩ := spec
      have hbody := (TypeSpec.mk.inj (TypeEntry.definition.inj h)).2.2
      cases body with
      | struct s b =>
          refine (structureOf_settled hs (TypeBody.struct.inj hbody).2 hu).bind fun s t hst => ?_
          exact .pure (.cons (.struct hst) .nil)
      | interface s b =>
          refine interfaceOf_settled.bind fun i j hij => ?_
          exact .pure (.cons (.interface hij) .nil)
      | plain t => exact .pure .nil

theorem declared_settled (hs : ∀ t ∈ ts, Lexer.Seated cx.scope.text t) {x : Documented Item}
    (h : (pinned ts).item x.item = x.item)
    (hu : ∀ t ∈ x.item.kind.eponyms, t.Unbroken cx.scope.text) :
    Carries (List.Forall₂ Declared.Matches) (cx.declared x)
      (cx.settled.declared (Motion.documented (settling cx.scope.text).item x)) := by
  obtain ⟨docs, extent, kind⟩ := x
  have hkind := (Item.mk.inj h).2
  cases kind with
  | package name place => exact .pure .nil
  | imports decl => exact .pure .nil
  | values => exact .pure .nil
  | statement => exact .pure .nil
  | func decl =>
      refine (functionOf_settled hs (ItemKind.func.inj hkind) hu).bind fun f g hfg => ?_
      exact .pure (.cons (.function hfg) .nil)
  | types decl =>
      cases decl with
      | lone e => exact typeEntry_settled hs (TypeDecl.lone.inj (ItemKind.types.inj hkind)) hu
      | group es =>
          have hes := Motion.member_of_fixed (TypeDecl.group.inj (ItemKind.types.inj hkind))
          have hentries : Carries (List.Forall₂ (List.Forall₂ Declared.Matches))
              ((attach TypeEntry.extent es).mapM fun e =>
                cx.typeEntry e.item.extent.span e.docs e.item)
              ((attach TypeEntry.extent (es.map ((settling cx.scope.text).sibling
                (settling cx.scope.text).typeEntry))).mapM fun e =>
                cx.settled.typeEntry e.item.extent.span e.docs e.item) := by
            refine mapM_settled (fun e => by cases e <;> rfl) fun e he => ?_
            refine typeEntry_settled hs (hes e.item he) fun t ht => ?_
            exact hu t (List.mem_flatMap.2 ⟨e.item, he, ht⟩)
          intro ds hds
          obtain ⟨dss, hm, rfl⟩ := map_eq_ok.1 hds
          obtain ⟨ess, hm', hmatch⟩ := hentries dss hm
          exact ⟨ess.flatten, map_eq_ok.2 ⟨ess, hm', rfl⟩, List.rel_flatten hmatch⟩

end Context

end Outline

namespace Table

variable {α : Type} {R : α → α → Prop}

/-- The same names with related values. -/
def Matches (R : α → α → Prop) (t u : Table α) : Prop :=
  List.Forall₂ (fun a b => a.1 = b.1 ∧ R a.2 b.2) t.entries u.entries

theorem Matches.names {t u : Table α} (h : t.Matches R u) : t.names = u.names := by
  have hn := List.forall₂_map_left_iff.2 (List.forall₂_map_right_iff.2 (h.imp fun _ _ hab => hab.1))
  rwa [List.forall₂_eq_eq_eq] at hn

theorem Matches.insertNew {t u : Table α} (h : t.Matches R u) {a b : String × α}
    (hab : a.1 = b.1 ∧ R a.2 b.2) : (t.insertNew a.1 a.2).Matches R (u.insertNew b.1 b.2) := by
  have hn : t.entries.map Prod.fst = u.entries.map Prod.fst := h.names
  by_cases hm : a.1 ∈ t.entries.map Prod.fst
  · have hm' : b.1 ∈ u.entries.map Prod.fst := by rwa [← hn, ← hab.1]
    rwa [Table.insertNew, Table.insertNew, dif_pos hm, dif_pos hm']
  · have hm' : b.1 ∉ u.entries.map Prod.fst := by rwa [← hn, ← hab.1]
    rw [Table.insertNew, Table.insertNew, dif_neg hm, dif_neg hm']
    exact List.rel_append h (.cons hab .nil)

theorem matches_ofFirst {es fs : List (String × α)}
    (h : List.Forall₂ (fun a b => a.1 = b.1 ∧ R a.2 b.2) es fs) :
    (ofFirst es).Matches R (ofFirst fs) := by
  have hfold {t u : Table α} (ht : t.Matches R u) :
      (es.foldl (fun t e => t.insertNew e.1 e.2) t).Matches R
        (fs.foldl (fun t e => t.insertNew e.1 e.2) u) := by
    induction h generalizing t u with
    | nil => exact ht
    | cons hab _ ih => exact ih (ht.insertNew hab)
  exact hfold .nil

end Table

namespace Outline

/-- Outlines that differ in nothing but places and types. -/
structure Matches (o p : Outline) : Prop where
  package : o.package = p.package
  imports : o.imports = p.imports
  structures : o.structures.Matches Structure.Matches p.structures
  interfaces : o.interfaces.Matches Interface.Matches p.interfaces
  functions : o.functions.Matches Function.Matches p.functions

/-- Declarations of one kind are related, each under its name. -/
theorem forall₂_view {α : Type} {D : Declared → Declared → Prop} {R : α → α → Prop}
    {view : Declared → Option α} {name : α → String}
    (hv : ∀ d e, D d e → Option.Rel R (view d) (view e))
    (hn : ∀ a b, R a b → name a = name b) {ds es : List Declared} (h : List.Forall₂ D ds es) :
    List.Forall₂ (fun a b => a.1 = b.1 ∧ R a.2 b.2)
      ((ds.filterMap view).map fun a => (name a, a)) ((es.filterMap view).map fun a => (name a, a)) := by
  have hview : Relator.LiftFun D (Option.Rel R) view view := fun d e => hv d e
  refine List.forall₂_map_left_iff.2 (List.forall₂_map_right_iff.2 ?_)
  exact (List.rel_filterMap hview h).imp fun a b hab => ⟨hn a b hab, hab⟩

theorem importOf_settled {find : Finder} {text : List Char} {spec : ImportSpec}
    (h : ∀ i ∈ importOf find spec, '\n' ∉ i.path.toList) :
    importOf find ((settling text).importSpec spec) = importOf find spec := by
  cases hq : Quoted.unquote spec.path.toList with
  | none =>
      have hq' := Quoted.unquote_tidy_eq_none hq
      simp only [importOf, Motion.importSpec, settling, String.toList_ofList, hq, hq', Option.map_none]
  | some path =>
      have hline : '\n' ∉ path := by
        simp only [importOf, hq, Option.map_some, Option.mem_def, Option.some.injEq, forall_eq'] at h
        split at h <;> simpa using h
      have hpath : (settling text).importSpec spec = ⟨(settling text).extent spec.extent, spec.name,
          spec.path⟩ := by
        simp only [Motion.importSpec, settling, Quoted.tidy_of_unquote hq hline, String.ofList_toList]
      rw [hpath]
      rfl

/-- The imports of the settled text. -/
theorem imports_settled {find : Finder} (text : List Char) {layout : Layout}
    (h : ∀ i ∈ (importSpecs layout).filterMap (importOf find), '\n' ∉ i.path.toList) :
    (importSpecs ((settling text).layout layout)).filterMap (importOf find) =
      (importSpecs layout).filterMap (importOf find) := by
  have hspecs : importSpecs ((settling text).layout layout) =
      (importSpecs layout).map (settling text).importSpec := by
    simp only [importSpecs, Motion.layout, Motion.importDecl, List.flatMap_map, List.map_flatMap]
  rw [hspecs, List.filterMap_map]
  refine List.filterMap_congr fun spec hs => importOf_settled fun i hi => ?_
  exact h i (List.mem_filterMap.2 ⟨spec, hs, hi⟩)

/-- Formatting keeps what a text says: the outline of the formatted text has the same declarations
with the same names, docs, annotations and tags. -/
theorem ofText_verbatim {dialect : Annotation.Dialect} {find : Finder} {text : List Char}
    {layout : Layout} {o : Outline} (hl : layoutOf text = .ok layout)
    (hu : ∀ t ∈ layout.eponyms, t.Unbroken text) (ho : ofText dialect find text = .ok o)
    (hp : ∀ i ∈ o.imports, '\n' ∉ i.path.toList) :
    ∃ o', ofText dialect find (Formatter.verbatimText text) = .ok o' ∧ o.Matches o' := by
  have hsettle : settle text ≠ [] := by
    intro hnil
    have hno : (layoutOf ['\n']).isOk = false := by decide +kernel
    have hblank := layoutOf_settle hl
    rw [hnil, List.nil_append] at hblank
    rw [hblank] at hno
    cases hno
  obtain ⟨layout', hl', ho⟩ := bind_eq_ok.1 ho
  rw [hl] at hl'
  cases hl'
  obtain ⟨dss, hdecl, ho⟩ := bind_eq_ok.1 ho
  cases ho
  obtain ⟨tree, htree, -, -⟩ := layoutOf_eq_ok hl
  let ts := (Lexer.tokens text).filter (·.kind != .stop)
  have hseat : ∀ t ∈ ts, Lexer.Seated text t := by
    intro t ht
    obtain ⟨hm, hk⟩ := List.mem_filter.1 ht
    exact seated_of_tree htree t hm (by simpa using hk)
  have hfix := declaration_of_fixed (d := pinned ts) hl fun t ht hk =>
    token_pinned (List.mem_filter.2 ⟨ht, by simpa using hk⟩)
  let cx : Context := ⟨⟨text, (importSpecs layout).filterMap (importOf find)⟩, dialect⟩
  have hcarry : Carries (List.Forall₂ (List.Forall₂ Declared.Matches))
      (layout.declarations.mapM cx.declared)
      ((layout.declarations.map (Motion.documented (settling text).item)).mapM
        cx.settled.declared) := by
    refine .mapM fun x hx => Context.declared_settled hseat (hfix x hx) fun t ht => ?_
    exact hu t (List.mem_flatMap.2 ⟨x, hx, ht⟩)
  obtain ⟨ess, hess, hmatch⟩ := hcarry dss (mapError_eq_ok.1 hdecl)
  have himports := imports_settled text hp
  have hmatches := List.rel_flatten hmatch
  rw [verbatimText_eq hsettle]
  refine ⟨_, bind_eq_ok.2 ⟨_, layoutOf_settle hl, bind_eq_ok.2 ⟨ess, mapError_eq_ok.2 ?_, rfl⟩⟩, ?_⟩
  · rw [himports]
    exact hess
  · refine ⟨rfl, himports.symm, ?_, ?_, ?_⟩
    · refine Table.matches_ofFirst (forall₂_view (R := Structure.Matches) ?_ (fun _ _ h => h.name) hmatches)
      rintro _ _ (h | h | h)
      · exact .some h
      · exact .none
      · exact .none
    · refine Table.matches_ofFirst (forall₂_view (R := Interface.Matches) ?_ (fun _ _ h => h.name) hmatches)
      rintro _ _ (h | h | h)
      · exact .none
      · exact .some h
      · exact .none
    · refine Table.matches_ofFirst (forall₂_view (R := Function.Matches) ?_ (fun _ _ h => h.key) hmatches)
      rintro _ _ (h | h | h)
      · exact .none
      · exact .none
      · exact .some h

/-- Blanks at the ends of lines: in a comment, in a raw tag and behind an embedded type. -/
theorem ofText_verbatim_trailing_blanks :
    let text := "package p \n\n/* T \n a. */\ntype T struct \x7b \n\tB \n".toList ++
      "\tX int `a:\"b\" \n`\n\x7d\n\nfunc (t *T) F() \x7b\x7d \n\n".toList
    let find : Finder := fun _ => .error (.unresolved "no packages")
    ∃ o o', ofText ⟨"gen", false⟩ find text = .ok o ∧
      ofText ⟨"gen", false⟩ find (Formatter.verbatimText text) = .ok o' ∧ o.Matches o' := by
  intro text find
  have hlayout : (layoutOf text).map (fun l => decide (∀ t ∈ l.eponyms, t.Unbroken text)) =
      .ok true := by decide +kernel
  have houtline : (ofText ⟨"gen", false⟩ find text).map
      (fun o => decide (∀ i ∈ o.imports, '\n' ∉ i.path.toList)) = .ok true := by decide +kernel
  obtain ⟨layout, hl, hu⟩ := map_eq_ok.1 hlayout
  obtain ⟨o, ho, hp⟩ := map_eq_ok.1 houtline
  obtain ⟨o', ho', hm⟩ := ofText_verbatim hl (of_decide_eq_true hu) ho (of_decide_eq_true hp)
  exact ⟨o, o', ho, ho', hm⟩

/-- A blank in front of a line feed in an import path is a part of the path, and without it the
package is not found, nor the name of a type that it has. -/
theorem fields_verbatim_broken_path :
    let text := "package p\n\nimport `a \nb`\n\ntype T struct \x7b\n\tfoo. Base\n\x7d\n".toList
    let find := Package.findInTable (.ofFirst [("a \nb", ⟨"/d", "foo"⟩)])
    let fields := fun o : Outline => o.structures.values.map fun s => s.fields.map (·.name)
    (ofText ⟨"gen", false⟩ find text).map fields = .ok [["Base"]] ∧
      (ofText ⟨"gen", false⟩ find (Formatter.verbatimText text)).map fields = .ok [[" Base"]] := by
  decide +kernel

end Outline

end GoOutline
