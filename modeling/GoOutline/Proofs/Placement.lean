import Mathlib.Data.List.Pairwise
import GoOutline.Outline.Read
import GoOutline.Proofs.Layouts
import GoOutline.Proofs.Places
import GoOutline.Proofs.Shapes

/-!
Where the parts of an outline stand. Everything that an outline places can be cut out of its text:
bodies and lists between their delimiters, members inside of their owners and in their order,
declarations apart from one another.
-/

namespace GoOutline

open Text Syntax Syntax.Parser Docs

namespace Outline

/-- Spans in their order, those of one declaration being the same. -/
def InOrder (spans : List Span) : Prop := spans.Pairwise fun s t => s = t ∨ s.Before t

structure Structure.WellPlaced (text : List Char) (s : Structure) : Prop where
  span : s.span.Fits text
  inner : s.inner.Fits text
  within : s.inner.Within s.span
  braces : s.inner.Between text '\x7b' '\x7d'
  fields : ∀ f ∈ s.fields, f.span.Fits text ∧ f.span.Within s.inner
  order : InOrder (s.fields.map (·.span))

structure Interface.WellPlaced (text : List Char) (i : Interface) : Prop where
  span : i.span.Fits text
  inner : i.inner.Fits text
  within : i.inner.Within i.span
  braces : i.inner.Between text '\x7b' '\x7d'
  methods : ∀ m ∈ i.methods, m.span.Fits text ∧ m.span.Within i.inner
  order : InOrder (i.methods.map (·.span))

/-- The last declaration of a parameter list stops here: its tokens are a parameter for the grammar,
and perhaps a comma stands between them and the closing parenthesis. -/
def EndsParameters (text : List Char) (params : Span) (stop : Nat) : Prop :=
  ∃ front seg tail close rest, Lexer.tokens text = front ++ seg ++ tail ++ close :: rest ∧
    DerivesParameter seg (tail ++ [close]) ∧ (extentOf seg).span.Within params ∧
    (extentOf seg).span.stop = stop ∧ (tail = [] ∨ ∃ c, tail = [c] ∧ c.is ",") ∧
    close.is ")" ∧ close.extent.span.start = params.stop

structure Function.WellPlaced (text : List Char) (f : Function) : Prop where
  span : f.span.Fits text
  inner : ∀ s, f.inner = some s →
    s.Fits text ∧ s.Within f.span ∧ s.Between text '\x7b' '\x7d'
  paramsSpan : f.paramsSpan.Fits text
  within : f.paramsSpan.Within f.span
  parens : f.paramsSpan.Between text '(' ')'
  lastParamEnd : ∀ n, f.lastParamEnd = some n →
    IsBoundary text n ∧ f.paramsSpan.start ≤ n ∧ n ≤ f.paramsSpan.stop ∧
      EndsParameters text f.paramsSpan n
  noParam : f.lastParamEnd = none ↔ f.params = []

structure ImportDecl.WellPlaced (text : List Char) (d : ImportDecl) : Prop where
  span : d.span.Fits text
  keywordEnd : IsBoundary text d.keywordEnd ∧ d.span.start ≤ d.keywordEnd ∧
    d.keywordEnd ≤ d.span.stop
  list : ∀ s, d.list = some s → s.Fits text ∧ s.Within d.span ∧ s.Between text '(' ')' ∧
    ∀ spec ∈ d.specs, spec.Within s
  specs : ∀ s ∈ d.specs, s.Fits text ∧ s.Within d.span
  order : d.specs.Pairwise Span.Before

/-- The places of all structures, interfaces and functions. -/
def spans (o : Outline) : List Span :=
  o.structures.values.map (·.span) ++ o.interfaces.values.map (·.span) ++
    o.functions.values.map (·.span)

structure WellPlaced (o : Outline) : Prop where
  /-- The text up to the end of the package name ends with it. -/
  package : ∃ start, Holds o.text ⟨start, o.packageEnd⟩ o.package.toList
  structures : ∀ s ∈ o.structures.values, s.WellPlaced o.text
  interfaces : ∀ i ∈ o.interfaces.values, i.WellPlaced o.text
  functions : ∀ f ∈ o.functions.values, f.WellPlaced o.text
  imports : ∀ d ∈ o.importDecls, d.WellPlaced o.text
  apart : o.spans.Pairwise Span.Apart

variable {text : List Char} {used mid : List Token} {cx : Context} {docs : List String}
  {name : String}

namespace Context

theorem span_fields {d : Documented FieldDecl} {fs : List Field} (h : cx.fields d = .ok fs) :
    ∀ f ∈ fs, f.span = d.item.extent.span := by
  obtain ⟨⟨docs, annotations⟩, _, h⟩ := bind_eq_ok.1 h
  cases h
  cases d.item.head with
  | named names =>
      intro f hf
      obtain ⟨n, _, rfl⟩ := List.mem_map.1 hf
      rfl
  | embedded pointer =>
      intro f hf
      rw [List.mem_singleton.1 hf]

theorem structureOf_eq_ok {span : Span} {body : StructBody} {s : Structure}
    (h : cx.structureOf name span docs body = .ok s) :
    s.span = span ∧ s.inner = body.braces.inner ∧
      ∃ fss, (attach FieldDecl.extent body.fields).mapM cx.fields = .ok fss ∧
        s.fields = fss.flatten := by
  obtain ⟨⟨docs, annotations⟩, _, h⟩ := bind_eq_ok.1 h
  obtain ⟨fss, hf, h⟩ := bind_eq_ok.1 h
  cases h
  exact ⟨rfl, rfl, fss, hf, rfl⟩

theorem span_method {d : Documented InterfaceElem} {m : Method} (h : cx.method? d = .ok (some m)) :
    m.span = d.item.extent.span := by
  unfold method? at h
  cases hi : d.item with
  | embedding e first more => rw [hi] at h; cases h
  | method spec =>
      rw [hi] at h
      obtain ⟨⟨docs, annotations⟩, _, h⟩ := bind_eq_ok.1 h
      cases h
      rfl

theorem interfaceOf_eq_ok {span : Span} {body : InterfaceBody} {i : Interface}
    (h : cx.interfaceOf name span docs body = .ok i) :
    i.span = span ∧ i.inner = body.braces.inner ∧
      ∃ ms, (attach InterfaceElem.extent body.elems).mapM cx.method? = .ok ms ∧
        i.methods = ms.reduceOption := by
  obtain ⟨⟨docs, annotations⟩, _, h⟩ := bind_eq_ok.1 h
  obtain ⟨ms, hm, h⟩ := bind_eq_ok.1 h
  cases h
  exact ⟨rfl, rfl, ms, hm, rfl⟩

theorem functionOf_eq_ok {span : Span} {decl : FuncDecl} {f : Function}
    (h : cx.functionOf span docs decl = .ok f) :
    f.span = span ∧ f.inner = decl.braces.map Delimiters.inner ∧
      f.paramsSpan = decl.params.parens.inner ∧
      f.lastParamEnd = decl.params.decls.getLast?.map (·.span.stop) ∧
      f.params = cx.scope.params decl.params.decls := by
  obtain ⟨⟨docs, annotations⟩, _, h⟩ := bind_eq_ok.1 h
  cases h
  exact ⟨rfl, rfl, rfl, rfl, rfl⟩

end Context

/-- Members of a type stand inside of its braces, in their order. What one run of tokens gives is a
list of members. -/
theorem members_wellPlaced {α : Type} {f : α → Span} {d : Delimiters} {ls : List (List α)}
    (he : Enclosed lbrace rbrace d used mid) (hl : Laid text used)
    (hs : Strewn (fun seg l => seg ≠ [] ∧ ∀ a ∈ l, f a = (extentOf seg).span) mid ls) :
    (∀ a ∈ ls.flatten, (f a).Fits text ∧ (f a).Within d.inner) ∧ InOrder (ls.flatten.map f) := by
  constructor
  · intro a ha
    obtain ⟨l, hm, ha⟩ := List.mem_flatten.1 ha
    obtain ⟨pre, seg, post, rfl, hne, hf⟩ := hs.exists_of_mem hm
    rw [hf a ha]
    exact he.fits_within hl hne
  · refine List.pairwise_map.2 (List.pairwise_flatten.2 ⟨fun l hm => ?_, ?_⟩)
    · obtain ⟨pre, seg, post, _, _, hf⟩ := hs.exists_of_mem hm
      have hp : (l.map f).Pairwise fun s t => s = t ∨ s.Before t := by
        rw [List.map_eq_replicate_iff.2 hf]
        exact List.pairwise_replicate.2 (.inr (.inl rfl))
      exact List.pairwise_map.1 hp
    · refine hs.pairwise (he.laid hl) (fun _ _ h => h.1) fun seg seg' l l' h h' hb a ha b hb' => ?_
      rw [h.2 a ha, h'.2 b hb']
      exact .inr hb

/-- The braces of a type stand at its end, behind a keyword. -/
theorem braces_wellPlaced {front tail : List Token} {k : Token} {d : Delimiters}
    (he : Enclosed lbrace rbrace d tail mid) (hl : Laid text (front ++ k :: tail)) :
    (extentOf (front ++ k :: tail)).span.Fits text ∧ d.inner.Fits text ∧
      d.inner.Within (extentOf (front ++ k :: tail)).span ∧
      d.inner.Between text '\x7b' '\x7d' := by
  have hlt : Laid text tail := hl.right.tail
  exact ⟨hl.fits_extentOf (by simp), he.fits hlt,
    (he.within hlt).trans (hl.within_of_subset he.ne_nil (by simp)), he.between hlt rfl rfl⟩

theorem wellPlaced_structureOf {front body : List Token} {b : StructBody} {s : Structure}
    (hb : b.From body) (hl : Laid text (front ++ body))
    (h : cx.structureOf name (extentOf (front ++ body)).span docs b = .ok s) :
    s.WellPlaced text := by
  obtain ⟨hspan, hinner, fss, hm, hfields⟩ := Context.structureOf_eq_ok h
  obtain ⟨k, tail, mid, rfl, he, hstrewn⟩ := hb
  have hfss : Strewn (fun seg l => seg ≠ [] ∧ ∀ f ∈ l, f.span = (extentOf seg).span) mid fss := by
    refine Strewn.forall₂ (.of_map (by rwa [map_item_attach])) (forall₂_of_mapM hm) ?_
    intro seg d fs hd hfs
    refine ⟨hd.1, fun f hf => ?_⟩
    rw [Context.span_fields hfs f hf, hd.2]
  obtain ⟨hf, hi, hw, hbr⟩ := braces_wellPlaced he hl
  obtain ⟨hin, hord⟩ := members_wellPlaced he hl.right.tail hfss
  rw [← hspan] at hf hw
  rw [← hinner] at hi hw hbr hin
  rw [← hfields] at hin hord
  exact ⟨hf, hi, hw, hbr, hin, hord⟩

theorem reduceOption_eq_flatten {α : Type} (os : List (Option α)) :
    os.reduceOption = (os.map Option.toList).flatten :=
  (List.filterMap_eq_flatMap_toList id os).trans List.flatMap_def

theorem wellPlaced_interfaceOf {front body : List Token} {b : InterfaceBody} {i : Interface}
    (hb : b.From body) (hl : Laid text (front ++ body))
    (h : cx.interfaceOf name (extentOf (front ++ body)).span docs b = .ok i) :
    i.WellPlaced text := by
  obtain ⟨hspan, hinner, ms, hm, hmethods⟩ := Context.interfaceOf_eq_ok h
  obtain ⟨k, tail, mid, rfl, he, hstrewn⟩ := hb
  have hms : Strewn (fun seg l => seg ≠ [] ∧ ∀ m ∈ l, m.span = (extentOf seg).span) mid
      (ms.map Option.toList) := by
    refine .map (Strewn.forall₂ (.of_map (by rwa [map_item_attach])) (forall₂_of_mapM hm) ?_)
      fun _ _ h => h
    intro seg d o hd ho
    refine ⟨hd.1, fun m hmem => ?_⟩
    obtain rfl := Option.mem_toList.1 hmem
    rw [Context.span_method ho, hd.2]
  obtain ⟨hf, hi, hw, hbr⟩ := braces_wellPlaced he hl
  obtain ⟨hin, hord⟩ := members_wellPlaced he hl.right.tail hms
  rw [← hspan] at hf hw
  rw [← hinner] at hi hw hbr hin
  rw [← reduceOption_eq_flatten, ← hmethods] at hin hord
  exact ⟨hf, hi, hw, hbr, hin, hord⟩

/-- Each declaration gives a parameter. -/
theorem params_eq_nil (scope : Scope) (decls : List ParamDecl) :
    scope.params decls = [] ↔ decls = [] := by
  cases decls with
  | nil => simp [Scope.params]
  | cons d ds =>
      obtain ⟨span, names, type, variadic⟩ := d
      cases names <;> simp [Scope.params, Scope.param]

theorem wellPlaced_functionOf {front seg rest : List Token} {decl : FuncDecl} {f : Function}
    (ht : Lexer.tokens text = front ++ seg ++ rest) (hd : decl.From seg)
    (h : cx.functionOf (extentOf seg).span docs decl = .ok f) : f.WellPlaced text := by
  have hl : Laid text seg := by
    have hl := Lexer.laid_tokens text
    rw [ht] at hl
    exact hl.left.right
  obtain ⟨hspan, hinner, hparams, hlast, hps⟩ := Context.functionOf_eq_ok h
  obtain ⟨head, list, mid, gap, body, rfl, hlist, hbody⟩ := hd
  have hll : Laid text list := hl.left.left.right
  have he := hlist.parens
  refine ⟨?_, fun s hs => ?_, ?_, ?_, ?_, fun n hn => ?_, ?_⟩
  · rw [hspan]
    exact hl.fits_extentOf (by simp [he.ne_nil])
  · rw [hinner] at hs
    obtain ⟨d, hd, rfl⟩ := Option.map_eq_some_iff.1 hs
    obtain ⟨inner, heb⟩ := hbody d hd
    rw [hspan]
    exact ⟨heb.fits hl.right,
      (heb.within hl.right).trans (hl.within_of_subset heb.ne_nil (List.subset_append_right _ _)),
      heb.between hl.right rfl rfl⟩
  · rw [hparams]
    exact he.fits hll
  · rw [hspan, hparams]
    exact (he.within hll).trans (hl.within_of_subset he.ne_nil (by simp))
  · rw [hparams]
    exact he.between hll rfl rfl
  · rw [hlast] at hn
    obtain ⟨d, hd, rfl⟩ := Option.map_eq_some_iff.1 hn
    obtain ⟨pre, sg, tail, close, rfl, hclose, hne, hstop, hder, htail⟩ := hlist.last d hd
    obtain ⟨hfits, hwithin⟩ := he.fits_within hll hne
    rw [hparams, hstop]
    refine ⟨hfits.stop, Nat.le_trans hwithin.1 hfits.ordered, hwithin.2, ?_⟩
    obtain ⟨o, c, rfl, -, hc, hp⟩ := he
    rw [List.getLast?_concat] at hclose
    obtain rfl := Option.some.inj hclose
    refine ⟨front ++ head ++ o :: pre, sg, tail, c, gap ++ body ++ rest, ?_, hder, hwithin, rfl,
      htail, hc, ?_⟩
    · rw [ht]
      simp
    · rw [hp]
      rfl
  · rw [hlast, hps, Option.map_eq_none_iff, List.getLast?_eq_none_iff, params_eq_nil]

theorem wellPlaced_importDeclOf {seg : List Token} {d : Extent × Syntax.ImportDecl}
    (hd : d.2.From seg) (he : d.1 = extentOf seg) (hl : Laid text seg) :
    (importDeclOf d).WellPlaced text := by
  obtain ⟨extent, decl⟩ := d
  obtain ⟨k, body, rfl, hk, hspecs⟩ := hd
  obtain rfl : extent = extentOf (k :: body) := he
  have hkf := hl.fits List.mem_cons_self
  have hkw := hl.within_extentOf (t := k) List.mem_cons_self
  obtain ⟨region, hsub, hs⟩ :
      ∃ region, region.Sublist (k :: body) ∧ Strewn ImportSpec.From region decl.specs := by
    cases hp : decl.parens with
    | none =>
        rw [hp] at hspecs
        obtain ⟨spec, hs, hf⟩ := hspecs
        exact ⟨body, List.sublist_cons_self k body, hs ▸ .single hf⟩
    | some p =>
        rw [hp] at hspecs
        obtain ⟨mid, ⟨o, c, rfl, -⟩, hs⟩ := hspecs
        exact ⟨mid, .cons k (.cons o (List.sublist_append_left mid [c])), hs⟩
  refine ⟨hl.fits_extentOf (List.cons_ne_nil k body), ?_, fun s h => ?_, fun s h => ?_, ?_⟩
  · show IsBoundary text decl.keyword.stop ∧ _ ≤ decl.keyword.stop ∧ decl.keyword.stop ≤ _
    rw [hk]
    exact ⟨hkf.stop, Nat.le_trans hkw.1 hkf.ordered, hkw.2⟩
  · obtain ⟨p, hp, rfl⟩ := Option.map_eq_some_iff.1 h
    rw [hp] at hspecs
    obtain ⟨mid, hen, hs⟩ := hspecs
    refine ⟨hen.fits hl.tail, (hen.within hl.tail).trans ?_, hen.between hl.tail rfl rfl, ?_⟩
    · exact hl.within_of_subset hen.ne_nil (List.subset_cons_self k body)
    · intro spec hspec
      obtain ⟨i, hi, rfl⟩ := List.mem_map.1 hspec
      obtain ⟨pre, sg, post, rfl, hc⟩ := hs.exists_of_mem hi
      rw [hc.2]
      exact (hen.fits_within hl.tail hc.1).2
  · obtain ⟨i, hi, rfl⟩ := List.mem_map.1 h
    obtain ⟨pre, sg, post, rfl, hc⟩ := hs.exists_of_mem hi
    rw [hc.2]
    have hsg : sg.Sublist (k :: body) := .trans (by simp) hsub
    exact ⟨(hl.sublist hsg).fits_extentOf hc.1, hl.within_of_subset hc.1 hsg.subset⟩
  · refine List.pairwise_map.2 (hs.pairwise (hl.sublist hsub) (fun _ _ h => h.1) ?_)
    intro sg sg' i i' hi hi' hb
    rwa [hi.2, hi'.2]

/-- What a declaration describes. -/
def Declared.span : Declared → Span
  | .struct s => s.span
  | .interface i => i.span
  | .function f => f.span

def Declared.WellPlaced (text : List Char) : Declared → Prop
  | .struct s => s.WellPlaced text
  | .interface i => i.WellPlaced text
  | .function f => f.WellPlaced text

/-- A description comes from tokens of its own and is well placed. -/
def Declared.From (text : List Char) (seg : List Token) (d : Declared) : Prop :=
  seg ≠ [] ∧ d.span = (extentOf seg).span ∧ d.WellPlaced text

theorem from_typeEntry (front : List Token) {seg : List Token} {e : TypeEntry} {ds : List Declared}
    (he : e.From seg) (hl : Laid text (front ++ seg))
    (h : cx.typeEntry (extentOf (front ++ seg)).span docs e = .ok ds) :
    Strewn (Declared.From text) (front ++ seg) ds := by
  have hne : front ++ seg ≠ [] := by simp [he.1.1]
  cases e with
  | synonym extent =>
      cases h
      exact .nil _
  | definition spec =>
      obtain ⟨gap, body, rfl, hb⟩ := he.2 spec rfl
      rw [← List.append_assoc] at hl h hne ⊢
      obtain ⟨extent, name, kind⟩ := spec
      cases kind with
      | struct span b =>
          obtain ⟨s, hs, h⟩ := bind_eq_ok.1 h
          cases h
          exact .single ⟨hne, (Context.structureOf_eq_ok hs).1, wellPlaced_structureOf hb hl hs⟩
      | interface span b =>
          obtain ⟨i, hi, h⟩ := bind_eq_ok.1 h
          cases h
          exact .single ⟨hne, (Context.interfaceOf_eq_ok hi).1, wellPlaced_interfaceOf hb hl hi⟩
      | plain type =>
          cases h
          exact .nil _

theorem from_declared {front seg rest : List Token} {d : Documented Item} {ds : List Declared}
    (ht : Lexer.tokens text = front ++ seg ++ rest) (hd : d.item.From seg)
    (h : cx.declared d = .ok ds) : Strewn (Declared.From text) seg ds := by
  have hl : Laid text seg := by
    have hl := Lexer.laid_tokens text
    rw [ht] at hl
    exact hl.left.right
  obtain ⟨docs, extent, kind⟩ := d
  obtain ⟨rfl, hk⟩ := hd
  cases kind with
  | package name place => cases h; exact .nil _
  | imports decl => cases h; exact .nil _
  | values => cases h; exact .nil _
  | statement => cases h; exact .nil _
  | types decl =>
      cases decl with
      | lone e =>
          obtain ⟨k, body, rfl, hb⟩ := hk
          exact from_typeEntry [k] hb hl h
      | group es =>
          obtain ⟨k, p, body, mid, rfl, ⟨o, c, rfl, -⟩, hs⟩ := hk
          obtain ⟨dss, hm, rfl⟩ := map_eq_ok.1 h
          have hlm : Laid text mid := hl.tail.left.tail
          have hs' : Strewn (fun seg e => e.From seg ∧ Laid text seg) mid (members es) := by
            refine hs.imp fun pre seg post e hmid he => ⟨he, ?_⟩
            rw [hmid] at hlm
            exact hlm.left.right
          have hds : Strewn (Strewn (Declared.From text)) mid dss := by
            refine .forall₂ (.of_map (by rwa [map_item_attach])) (forall₂_of_mapM hm) ?_
            intro seg e ds he hds
            rw [he.1.1.2] at hds
            exact from_typeEntry [] he.1 he.2 hds
          have hall := (hds.flatten.append (.nil [c])).gap_append [k, o]
          simpa using hall
  | func decl =>
      obtain ⟨f, hf, h⟩ := bind_eq_ok.1 h
      cases h
      refine .single ⟨?_, (Context.functionOf_eq_ok hf).1, wellPlaced_functionOf ht hk hf⟩
      obtain ⟨head, list, mid, gap, body, rfl, hlist, -⟩ := hk
      simp [hlist.parens.ne_nil]

theorem values_sublist {α : Type} (f : α → String) (as : List α) :
    (Table.ofFirst (as.map fun a => (f a, a))).values.Sublist as := by
  have h := (Table.sublist_ofFirst (as.map fun a => (f a, a))).map Prod.snd
  simpa only [Table.values, List.map_map, Function.comp_def, List.map_id'] using h

section Apart

variable {α β : Type} {view : Declared → Option α} {view' : Declared → Option β} {f : α → Span}
  {g : β → Span} {ds : List Declared} {as : List α} {bs : List β}

instance : Std.Symm fun d e : Declared => d.span.Apart e.span := ⟨fun _ _ => Span.Apart.symm⟩

/-- Descriptions of one kind stand apart. -/
theorem apart_of_kind (h : ds.Pairwise fun d e => d.span.Apart e.span)
    (hv : ∀ d a, view d = some a → f a = d.span) (hs : as.Sublist (ds.filterMap view)) :
    (as.map f).Pairwise Span.Apart := by
  refine List.pairwise_map.2 (List.Pairwise.sublist hs (List.pairwise_filterMap.2 ?_))
  refine h.imp fun {d e} hde a ha b hb => ?_
  rw [hv d a ha, hv e b hb]
  exact hde

/-- Descriptions of two kinds stand apart from each other. -/
theorem apart_of_kinds (h : ds.Pairwise fun d e => d.span.Apart e.span)
    (hv : ∀ d a, view d = some a → f a = d.span) (hw : ∀ d b, view' d = some b → g b = d.span)
    (hne : ∀ d a, view d = some a → view' d = none) (hs : as.Sublist (ds.filterMap view))
    (ht : bs.Sublist (ds.filterMap view')) : ∀ s ∈ as.map f, ∀ t ∈ bs.map g, s.Apart t := by
  intro s hsm t htm
  obtain ⟨a, ha, rfl⟩ := List.mem_map.1 hsm
  obtain ⟨b, hb, rfl⟩ := List.mem_map.1 htm
  obtain ⟨d, hd, hda⟩ := List.mem_filterMap.1 (hs.subset ha)
  obtain ⟨e, he, heb⟩ := List.mem_filterMap.1 (ht.subset hb)
  rw [hv d a hda, hw e b heb]
  refine h.forall hd he fun hde => ?_
  rw [hde] at hda
  rw [hne e a hda] at heb
  cases heb

end Apart

theorem eq_of_structure? {d : Declared} {s : Structure} (h : d.structure? = some s) :
    d = .struct s := by
  cases d <;> cases h
  rfl

theorem eq_of_interface? {d : Declared} {i : Interface} (h : d.interface? = some i) :
    d = .interface i := by
  cases d <;> cases h
  rfl

theorem eq_of_function? {d : Declared} {f : Function} (h : d.function? = some f) :
    d = .function f := by
  cases d <;> cases h
  rfl

/-- Tokens of a text that stand one behind the other in it. -/
def Segment (text : List Char) (seg : List Token) : Prop :=
  ∃ front rest, Lexer.tokens text = front ++ seg ++ rest

theorem Segment.laid {seg : List Token} (h : Segment text seg) : Laid text seg := by
  obtain ⟨front, rest, ht⟩ := h
  have hl := Lexer.laid_tokens text
  rw [ht] at hl
  exact hl.left.right

/-- The items of a layout come from the tokens of the text. -/
theorem from_layoutOf {layout : Layout} (h : layoutOf text = .ok layout) :
    ∃ d front used, Segment text used ∧
      Strewn (fun seg (d : Documented Item) => d.item.From seg ∧ Segment text seg) used
        ([d] ++ (front ++ layout.declarations)) ∧
      d.item.kind = .package layout.package layout.place ∧
      List.Forall₂ Layout.Imports front layout.imports := by
  unfold layoutOf at h
  split at h
  · cases h
  next tree ht =>
    split at h
    · next l hl =>
      cases h
      obtain ⟨d, front, hitems, hk, hi⟩ := Layout.ofItems_eq_ok hl
      obtain ⟨⟨items, rest⟩, hrun, rfl⟩ := Option.map_eq_some_iff.1 ht
      obtain ⟨used, hu, hs⟩ := Grammar.from_itemList hrun
      refine ⟨d, front, used, ⟨[], rest, hu⟩, ?_, hk, hi⟩
      have hall : Strewn (fun seg (d : Documented Item) => d.item.From seg) used
          (attach Item.extent items) := .of_map (by rwa [map_item_attach])
      rw [hitems] at hall
      refine hall.imp fun pre seg post d hseg hd => ⟨hd, pre, post ++ rest, ?_⟩
      rw [hu, hseg, List.append_assoc, List.append_assoc]
    · cases h
    · cases h

/-- The name of the package stands right before the end of its clause. -/
theorem holds_package {used : List Token} {d : Documented Item} {name : String} {place : Span}
    (h : Strewn (fun seg (d : Documented Item) => d.item.From seg ∧ Segment text seg) used [d])
    (hk : d.item.kind = .package name place) : Holds text place name.toList := by
  obtain ⟨pre, seg, post, _, hd, hseg⟩ := h.exists_of_mem List.mem_cons_self
  have hfrom : d.item.kind.From seg := hd.2
  rw [hk] at hfrom
  obtain ⟨k, t, rfl, rfl, rfl⟩ := hfrom
  exact hseg.laid.holds t (by simp)

/-- An import declaration comes from tokens of the text. -/
def FromSegment (text : List Char) (d : Extent × Syntax.ImportDecl) : Prop :=
  ∃ seg, d.2.From seg ∧ d.1 = extentOf seg ∧ Segment text seg

theorem from_imports {used : List Token} {front : List (Documented Item)}
    {imports : List (Extent × Syntax.ImportDecl)}
    (h : Strewn (fun seg (d : Documented Item) => d.item.From seg ∧ Segment text seg) used front)
    (hi : List.Forall₂ Layout.Imports front imports) : ∀ d ∈ imports, FromSegment text d := by
  have hs : Strewn (fun seg (d : Extent × Syntax.ImportDecl) =>
      (d.2.From seg ∧ d.1 = extentOf seg) ∧ Segment text seg) used imports := by
    refine h.forall₂ hi fun seg d i hd hdi => ⟨⟨?_, ?_⟩, hd.2⟩
    · have hk : d.item.kind.From seg := hd.1.2
      rw [hdi.2] at hk
      exact hk
    · rw [← hdi.1]
      exact hd.1.1
  intro d hd
  obtain ⟨pre, seg, post, _, hf, hseg⟩ := hs.exists_of_mem hd
  exact ⟨seg, hf.1, hf.2, hseg⟩

/-- The import declarations of an outline are those of its text. -/
theorem importDecls_from {dialect : Annotation.Dialect} {find : Finder} {o : Outline}
    (h : ofText dialect find text = .ok o) :
    ∀ i ∈ o.importDecls, ∃ d, i = importDeclOf d ∧ FromSegment text d := by
  obtain ⟨layout, hlayout, h⟩ := bind_eq_ok.1 h
  obtain ⟨_, _, h⟩ := bind_eq_ok.1 h
  obtain ⟨_, _, _, _, hitems, _, himports⟩ := from_layoutOf hlayout
  obtain ⟨_, _, _, _, hrest⟩ := hitems.of_append
  obtain ⟨_, _, _, hfront, _⟩ := hrest.of_append
  cases h
  intro i hi
  obtain ⟨d, hd, rfl⟩ := List.mem_map.1 hi
  exact ⟨d, rfl, from_imports hfront himports d hd⟩

/-- The parts of an outline come from tokens that stand in its text one behind the other. -/
theorem wellPlaced_of_ofText {dialect : Annotation.Dialect} {find : Finder} {o : Outline}
    (h : ofText dialect find text = .ok o) : o.WellPlaced := by
  obtain ⟨layout, hlayout, h⟩ := bind_eq_ok.1 h
  obtain ⟨dss, hdecl, h⟩ := bind_eq_ok.1 h
  obtain ⟨d, front, used, hused, hitems, hpackage, himports⟩ := from_layoutOf hlayout
  obtain ⟨u, v, rfl, hd, hrest⟩ := hitems.of_append
  obtain ⟨v, w, rfl, hfront, hdecls⟩ := hrest.of_append
  have hdeclared : Strewn (Declared.From text) w dss.flatten := by
    refine Strewn.flatten ?_
    refine hdecls.forall₂ (forall₂_of_mapM (mapError_eq_ok.1 hdecl)) fun seg d ds hd hds => ?_
    obtain ⟨pre, post, ht⟩ := hd.2
    exact from_declared ht hd.1 hds
  have hmem : ∀ d ∈ dss.flatten, d.WellPlaced text := by
    intro d hd
    obtain ⟨_, _, _, _, _, _, hw⟩ := hdeclared.exists_of_mem hd
    exact hw
  have hapart : dss.flatten.Pairwise fun d e => d.span.Apart e.span := by
    refine hdeclared.pairwise hused.laid.right.right (fun _ _ h => h.1) ?_
    intro seg seg' d e hd he hb
    rw [hd.2.1, he.2.1]
    exact .inl hb
  have hs := values_sublist (·.name) (dss.flatten.filterMap Declared.structure?)
  have hi := values_sublist (·.name) (dss.flatten.filterMap Declared.interface?)
  have hf := values_sublist (·.key) (dss.flatten.filterMap Declared.function?)
  have hvs : ∀ (d : Declared) s, d.structure? = some s → s.span = d.span := by
    intro d s h
    rw [eq_of_structure? h]
    rfl
  have hvi : ∀ (d : Declared) i, d.interface? = some i → i.span = d.span := by
    intro d i h
    rw [eq_of_interface? h]
    rfl
  have hvf : ∀ (d : Declared) f, d.function? = some f → f.span = d.span := by
    intro d f h
    rw [eq_of_function? h]
    rfl
  cases h
  constructor
  · exact ⟨layout.place.start, holds_package hd hpackage⟩
  · intro s hsm
    obtain ⟨d, hd, hds⟩ := List.mem_filterMap.1 (hs.subset hsm)
    obtain rfl := eq_of_structure? hds
    exact hmem _ hd
  · intro i him
    obtain ⟨d, hd, hdi⟩ := List.mem_filterMap.1 (hi.subset him)
    obtain rfl := eq_of_interface? hdi
    exact hmem _ hd
  · intro f hfm
    obtain ⟨d, hd, hdf⟩ := List.mem_filterMap.1 (hf.subset hfm)
    obtain rfl := eq_of_function? hdf
    exact hmem _ hd
  · intro i hi
    obtain ⟨d, hd, rfl⟩ := List.mem_map.1 hi
    obtain ⟨seg, hf, he, hseg⟩ := from_imports hfront himports d hd
    exact wellPlaced_importDeclOf hf he hseg.laid
  · refine List.pairwise_append.2 ⟨List.pairwise_append.2 ⟨apart_of_kind hapart hvs hs,
      apart_of_kind hapart hvi hi, ?_⟩, apart_of_kind hapart hvf hf, fun s hsm t htm => ?_⟩
    · refine apart_of_kinds hapart hvs hvi (fun d s h => ?_) hs hi
      rw [eq_of_structure? h]
      rfl
    rcases List.mem_append.1 hsm with hsm | hsm
    · refine apart_of_kinds hapart hvs hvf (fun d s h => ?_) hs hf s hsm t htm
      rw [eq_of_structure? h]
      rfl
    · refine apart_of_kinds hapart hvi hvf (fun d i h => ?_) hi hf s hsm t htm
      rw [eq_of_interface? h]
      rfl

/-- Whatever text is accepted, its outline has everything in its place. -/
theorem ofText_wellPlaced {dialect : Annotation.Dialect} {find : Finder} {o : Outline}
    (h : ofText dialect find text = .ok o) : o.WellPlaced :=
  wellPlaced_of_ofText h

/-- Groups, shared names, an empty interface and a comma behind the last parameter. -/
theorem ofText_wellPlaced_grouped :
    let text := "package p\n\nimport (\n\t\"fmt\"; f \"io\"\n)\n\ntype (\n\tS struct \x7b a, b int; c \x7d
        I interface \x7b\x7d\n)\n\nfunc (s S) F(x int, y ...S,\n) (int) \x7b\x7d\n".toList
    ∃ o, ofText ⟨"gen", false⟩ (fun _ => .error (.unresolved "no packages")) text = .ok o ∧
      o.WellPlaced := by
  intro text
  have hok : (ofText ⟨"gen", false⟩ (fun _ => .error (.unresolved "no packages")) text).isOk := by
    decide +kernel
  cases ho : ofText ⟨"gen", false⟩ (fun _ => .error (.unresolved "no packages")) text with
  | error e =>
      rw [ho] at hok
      cases hok
  | ok o => exact ⟨o, rfl, ofText_wellPlaced ho⟩

end Outline

end GoOutline
