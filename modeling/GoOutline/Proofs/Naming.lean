import GoOutline.Proofs.Collections
import GoOutline.Proofs.ParameterLists
import GoOutline.Proofs.Visible

/-!
How the methods and the embedded fields of a file are named. The receiver of a method and the type
of an embedded field are types, and what these are written by gives the name.
-/

namespace GoOutline

open Text Syntax Docs

namespace Syntax.Grammar

open Syntax.Parser

variable {n : Nat} {ts us : List Token}

theorem ne_nil_of_commaSep {α : Type} {item : Parser α} {lines : Bool} {as : List α}
    (h : (commaSep lines item n).Reads ts as) : as ≠ [] := by
  cases n with
  | zero => exact h.failure.elim
  | succ n =>
      obtain ⟨a, -, h⟩ := h.bind
      obtain ⟨more, -, h⟩ := h.bind
      split at h
      · obtain ⟨_, -, h⟩ := h.bind
        rw [← h.pure]
        exact List.cons_ne_nil _ _
      · rw [← h.pure]
        exact List.cons_ne_nil _ _

theorem named_of_namedFields {head : FieldHead × TypeExpr} (h : (namedFields n).Reads ts head) :
    (∃ names, names ≠ [] ∧ head.1 = .named names) ∧ ∃ n p, (typeExpr n p).Reads ts head.2 := by
  cases n with
  | zero => exact h.failure.elim
  | succ n =>
      obtain ⟨names, hnames, h⟩ := h.bind
      obtain ⟨type, ht, h⟩ := h.bind
      cases h.pure
      have hne : names.map (·.text) ≠ [] := by simpa using ne_nil_of_commaSep hnames
      exact ⟨⟨_, hne, rfl⟩, n, .line, ht⟩

/-- Among some tokens a type is written by its name. -/
def IsNamed (ts : List Token) (type : TypeExpr) : Prop :=
  ∃ w : Named, (∃ rest, w.tokens ++ rest <:+ ts) ∧ type = w.form (extentOf w.tokens).span

theorem isNamed_of_embeddedField {head : FieldHead × TypeExpr}
    (h : (embeddedField n).Reads ts head) :
    (∃ pointer, head.1 = .embedded pointer) ∧ IsNamed ts head.2 := by
  cases n with
  | zero => exact h.failure.elim
  | succ n =>
      obtain ⟨⟨e, build⟩, ⟨us, rest, hs, hp⟩, h⟩ := h.bind
      obtain ⟨_, -, h⟩ := h.bind
      obtain ⟨_, -, h⟩ := h.bind
      cases h.pure
      obtain ⟨used, rfl, hf, rfl⟩ := placed_eq_some.1 hp
      obtain ⟨w, hw, rfl⟩ := Named.exists_of_namedType hf
      obtain rfl := List.append_cancel_right hw
      exact ⟨⟨false, rfl⟩, w, ⟨rest, hs⟩, rfl⟩

theorem isNamed_of_fieldHead {head : FieldHead × TypeExpr} (h : (fieldHead n).Reads ts head) :
    ((∃ names, names ≠ [] ∧ head.1 = .named names) ∧ ∃ n p, (typeExpr n p).Reads ts head.2) ∨
      (∃ pointer, head.1 = .embedded pointer) ∧ IsNamed ts head.2 := by
  cases n with
  | zero => exact h.failure.elim
  | succ n =>
      obtain ⟨us, rest, hs, h⟩ := h
      simp only [fieldHead, bind_eq_some, peek_eq_some, ahead_eq_some] at h
      obtain ⟨t, _, ⟨ht, rfl⟩, u, _, ⟨hu, rfl⟩, h⟩ := h
      split at h
      · simp only [bind_eq_some, discard_eq_some, advance_eq_some, require_eq_some,
          pure_eq_some] at h
        obtain ⟨_, mid, ⟨a, rfl, hsolid, hplain⟩, _, _, ⟨hname, rfl⟩, type, _, htype, rfl, rfl⟩ := h
        rw [hu, lookAt_behind hsolid hplain, beq_iff_eq] at hname
        obtain ⟨w, rfl, rfl⟩ := exists_of_typeExpr htype hname
        exact .inr ⟨⟨true, rfl⟩, w, ⟨_, (List.suffix_cons a _).trans hs⟩, rfl⟩
      split at h
      · exact .inr (isNamed_of_embeddedField ⟨_, _, hs, h⟩)
      split at h
      · rcases orElse_eq_some.1 h with h | ⟨-, h⟩
        · exact .inr (isNamed_of_embeddedField ⟨_, _, hs, h⟩)
        · exact .inl (named_of_namedFields ⟨_, _, hs, h⟩)
      · exact .inl (named_of_namedFields ⟨_, _, hs, h⟩)

/-- Whatever a field without a name embeds is written by its name. -/
theorem isNamed_of_embedded {d : FieldDecl} {pointer : Bool} (h : (fieldDecl n).Reads ts d)
    (hd : d.head = .embedded pointer) : IsNamed ts d.type := by
  cases n with
  | zero => exact h.failure.elim
  | succ n =>
      obtain ⟨⟨e, head, type, tag⟩, hp, h⟩ := h.bind
      cases h.pure
      obtain ⟨⟨head', type'⟩, hh, hp⟩ := hp.placed.bind
      obtain ⟨_, -, hp⟩ := hp.bind
      cases hp.pure
      rcases isNamed_of_fieldHead hh with ⟨⟨names, -, hn⟩, -⟩ | ⟨-, ht⟩
      · cases hn.symm.trans hd
      · exact ht

end Syntax.Grammar

namespace Outline

variable {dialect : Annotation.Dialect} {find : Finder} {text : List Char} {o : Outline}
  {cx : Context}

namespace Context

/-- A method goes by the base of its receiver. -/
theorem key_of_receiver {d : Titled FuncDecl} {f : Function} {list : ParamList}
    {p : ParamDecl} {ps : List ParamDecl} {base : String} (hf : cx.FunctionFor d f)
    (hl : d.body.receiver = some list) (hp : list.decls = p :: ps)
    (hb : (cx.scope.type p.type).baseName? = some base) : f.key = base ++ "." ++ f.name := by
  obtain ⟨⟨docs, annotations⟩, -, hf⟩ := bind_eq_ok.1 hf.2
  have hreceiver : ∃ r, (cx.scope.params list.decls).head? = some r ∧
      r.type = cx.scope.type p.type := by
    obtain ⟨span, names, type, variadic⟩ := p
    rw [hp]
    cases names <;> simp [Scope.params, Scope.param, Parameter.type, ParamDecl.type]
  obtain ⟨r, hr, htype⟩ := hreceiver
  have hbase : f.receiverType? = some base := by
    cases hf
    rw [Function.receiverType?, hl, Option.bind_some, hr, Option.bind_some, htype, hb]
  rw [Function.key, hbase]

/-- An embedded field goes by the base of its type. -/
theorem name_of_embedded {d : Documented FieldDecl} {fs : List Field} {pointer : Bool}
    {base : String} (hf : cx.fields d = .ok fs) (hd : d.item.head = .embedded pointer)
    (hb : (cx.scope.type d.item.type).baseName? = some base) : fs.map (·.name) = [base] := by
  obtain ⟨⟨docs, annotations⟩, -, hf⟩ := bind_eq_ok.1 hf
  cases hf
  rw [hd]
  cases pointer <;> simp [GoType.baseName?, hb]

/-- A method whose receiver is written by a name goes by this name. -/
def NamedByReceiver (cx : Context) (d : Titled FuncDecl) (f : Function) : Prop :=
  ∀ list p ps stars, ∀ w : Named, d.body.receiver = some list → list.decls = p :: ps →
    (∀ t ∈ stars, t.is "*") → p.type.Written cx.scope.text (stars ++ w.tokens) →
    w.Spaced cx.scope.text → f.key = w.called cx.scope ++ "." ++ f.name

/-- The type of an embedded field is written by a name, and the field has this name. -/
def NamedByType (cx : Context) (decl : FieldDecl) (fs : List Field) : Prop :=
  ∀ pointer, decl.head = .embedded pointer →
    (∃ w : Named, decl.type.Written cx.scope.text w.tokens) ∧
    ∀ w : Named, decl.type.Written cx.scope.text w.tokens → w.Spaced cx.scope.text →
      fs.map (·.name) = [w.called cx.scope]

theorem namedByReceiver {tree : Tree} {d : Titled FuncDecl} {f : Function}
    (htree : Tree.ofText? cx.scope.text = some tree) (hd : .function d ∈ tree.topics)
    (hf : cx.FunctionFor d f) : cx.NamedByReceiver d f := by
  intro list p ps stars w hl hp hstars hw hs
  obtain ⟨n, hread⟩ := Tree.among_topics htree _ hd
  obtain ⟨n, place, htype⟩ := (Grammar.readParams_receiver hread hl).types p (by simp [hp])
  exact key_of_receiver hf hl hp (baseName?_written htree htype hw hstars hs)

theorem namedByType {tree : Tree} {d : Titled StructBody} {decl : Documented FieldDecl}
    {fs : List Field} (htree : Tree.ofText? cx.scope.text = some tree)
    (hd : .struct d ∈ tree.topics) (hdecl : decl.item ∈ members d.body.fields)
    (hf : cx.fields decl = .ok fs) : cx.NamedByType decl.item fs := by
  intro pointer hp
  obtain ⟨n, hlist⟩ := Tree.among_topics htree _ hd
  obtain ⟨w, ⟨rest, front, hfront⟩, htype⟩ :=
    Grammar.isNamed_of_embedded (hlist.reads _ hdecl) hp
  have hseg : Segment cx.scope.text w.tokens :=
    ⟨front, rest, by rw [← hfront, List.append_assoc]⟩
  have hspan : decl.item.type.span = (Parser.extentOf w.tokens).span := htype ▸ w.span_form _
  refine ⟨⟨w, hseg, hspan⟩, fun w' hw' hs => ?_⟩
  obtain rfl : w = w' := Named.eq_of_tokens (Segment.unique htree hseg hw'.1 w.solidEnds
    w'.solidEnds (hspan.symm.trans hw'.2))
  refine name_of_embedded hf hp ?_
  rw [htype]
  exact Named.baseName?_segment htree hseg hs

end Context

/-- Whatever text is accepted, each method goes by the name that its receiver is written by, perhaps
behind stars and in front of type parameters, and each embedded field has the name that its type is
written by. Blanks may stand between the parts of a type. None of them is part of the name, but for
those around the name in a type that is kept as its text. -/
theorem ofText_named (h : ofText dialect find text = .ok o) :
    ∃ tree, Tree.ofText? text = some tree ∧
      let cx : Context := ⟨⟨text, o.imports⟩, dialect⟩
      (∀ w : Named, w.called cx.scope = w.name.text ↔
        (w.isKept cx.scope → w.lead text = [] ∧ w.trail text = [])) ∧
      (∀ d ∈ tree.functions, ∃ f, cx.FunctionFor d f ∧ f.key ∈ o.functions.names ∧
        cx.NamedByReceiver d f) ∧
      ∀ d ∈ tree.structs, ∃ s fss, cx.StructureFor d s ∧ s.name ∈ o.structures.names ∧
        s.fields = fss.flatten ∧
        List.Forall₂ cx.NamedByType (members d.body.fields) fss := by
  obtain ⟨tree, ds, htree, hdesc⟩ := describes_of_ofText h
  obtain rfl := text_of_ofText h
  refine ⟨tree, htree, fun w => w.called_eq_name_iff, fun d hd => ?_, fun d hd => ?_⟩
  · obtain ⟨t, ht, htd⟩ := List.mem_filterMap.1 hd
    obtain rfl : t = .function d := by cases t <;> cases htd; rfl
    obtain ⟨e, -, he⟩ := exists_of_forall₂ hdesc.each.flip ht
    obtain ⟨f, hf, -⟩ := map_eq_ok.1 he
    have hfor := Context.functionFor hf
    exact ⟨f, hfor, (hdesc.collects_functions.complete _).2 ⟨d, hd, hfor.1.symm⟩,
      Context.namedByReceiver htree ht hfor⟩
  · obtain ⟨t, ht, htd⟩ := List.mem_filterMap.1 hd
    obtain rfl : t = .struct d := by cases t <;> cases htd; rfl
    obtain ⟨e, -, he⟩ := exists_of_forall₂ hdesc.each.flip ht
    obtain ⟨s, hs, -⟩ := map_eq_ok.1 he
    have hfor := Context.structureFor hs
    obtain ⟨⟨docs, annotations⟩, -, hs⟩ := bind_eq_ok.1 hs
    obtain ⟨fss, hfss, hs⟩ := bind_eq_ok.1 hs
    refine ⟨s, fss, hfor, (hdesc.collects_structures.complete _).2 ⟨d, hd, hfor.1.symm⟩, ?_, ?_⟩
    · cases hs
      rfl
    · rw [← map_item_attach FieldDecl.extent, List.forall₂_map_left_iff]
      have hall : List.Forall₂ (fun c fs => c.item ∈ members d.body.fields ∧
          (Context.mk ⟨o.text, o.imports⟩ dialect).fields c = .ok fs)
          (attach FieldDecl.extent d.body.fields) fss :=
        (List.forall₂_and_left _ _).2 ⟨fun c hc => mem_of_attach hc, forall₂_of_mapM hfss⟩
      refine hall.imp fun decl fs hc => ?_
      exact Context.namedByType htree ht hc.1 hc.2

/-- The blanks in `* List[T]` and in `foo. Base` do not count. -/
theorem ofText_named_spaced :
    let text := "package p\n\nimport \"foo\"\n\ntype T struct \x7b\n\t*foo. Base\n\tA[int]\n\x7d\n
        func (l * List[T]) Len() \x7b\x7d\n".toList
    let find : Finder := fun _ => .error (.unresolved "no packages")
    ∃ o, ofText ⟨"gen", false⟩ find text = .ok o ∧ o.functions.names = ["List.Len"] ∧
      (o.structures.values.flatMap (·.fields)).map (·.name) = ["Base", "A"] ∧
      ∃ tree, Tree.ofText? text = some tree ∧
        let cx : Context := ⟨⟨text, o.imports⟩, ⟨"gen", false⟩⟩
        ∀ d ∈ tree.functions, ∃ f, cx.FunctionFor d f ∧ cx.NamedByReceiver d f := by
  intro text find
  have hm : (fun o : Outline => (o.functions.names,
      (o.structures.values.flatMap (·.fields)).map (·.name))) <$>
      ofText ⟨"gen", false⟩ find text = .ok (["List.Len"], ["Base", "A"]) := by
    decide +kernel
  obtain ⟨o, ho, hnames⟩ := map_eq_ok.1 hm
  obtain ⟨hfunctions, hfields⟩ := Prod.mk.inj hnames
  obtain ⟨tree, htree, -, hkeys, -⟩ := ofText_named ho
  refine ⟨o, ho, hfunctions, hfields, tree, htree, fun d hd => ?_⟩
  obtain ⟨f, hf, -, hkey⟩ := hkeys d hd
  exact ⟨f, hf, hkey⟩

/-- Where the type is kept as its text the blanks become part of the name. -/
theorem names_blank :
    let text := "package p\n\ntype T struct \x7b\n\tfoo. Base\n\tA [int]\n\x7d\n
        func (l *List [T]) Len() \x7b\x7d\n".toList
    let find : Finder := fun _ => .error (.unresolved "no packages")
    ∃ o, ofText ⟨"gen", false⟩ find text = .ok o ∧ o.functions.names = ["List .Len"] ∧
      (o.structures.values.flatMap (·.fields)).map (·.name) = [" Base", "A "] := by
  intro text find
  have hm : (fun o : Outline => (o.functions.names,
      (o.structures.values.flatMap (·.fields)).map (·.name))) <$>
      ofText ⟨"gen", false⟩ find text = .ok (["List .Len"], [" Base", "A "]) := by
    decide +kernel
  obtain ⟨o, ho, hnames⟩ := map_eq_ok.1 hm
  exact ⟨o, ho, (Prod.mk.inj hnames).1, (Prod.mk.inj hnames).2⟩

end Outline

end GoOutline
