import GoOutline.Proofs.MemberNodes
import GoOutline.Proofs.Parameters

/-!
Nothing is lost between a file and its outline. Each name and each type alone that a member is
declared by gives one field, parameter or result, in the order of the source, and each element of an
interface gives one method or embedded type.
-/

namespace GoOutline

open Text Syntax Docs Grammar

namespace Syntax

/-- What stands between the braces of an interface is a method or it is embedded. -/
def InterfaceElem.embedding? : InterfaceElem → Option (Extent × TypeExpr × List TypeExpr)
  | .method _ => none
  | .embedding extent first more => some (extent, first, more)

/-- The method that an element is, with its docs. -/
def methodSpec? : Documented InterfaceElem → Option (Documented MethodSpec)
  | ⟨docs, .method m⟩ => some ⟨docs, m⟩
  | ⟨_, .embedding ..⟩ => none

/-- The methods of an interface, in the order of the source. -/
def InterfaceBody.methods (b : InterfaceBody) : List (Documented MethodSpec) :=
  (attach InterfaceElem.extent b.elems).filterMap methodSpec?

/-- The other elements of an interface, in the order of the source. -/
def InterfaceBody.embeddings (b : InterfaceBody) : List (Extent × TypeExpr × List TypeExpr) :=
  (members b.elems).filterMap InterfaceElem.embedding?

theorem InterfaceBody.length_methods_add_embeddings (b : InterfaceBody) :
    b.methods.length + b.embeddings.length = (members b.elems).length := by
  rw [InterfaceBody.methods, InterfaceBody.embeddings, ← map_item_attach InterfaceElem.extent]
  induction attach InterfaceElem.extent b.elems with
  | nil => rfl
  | cons d ds ih =>
      obtain ⟨docs, x⟩ := d
      cases x with
      | method m =>
          simp only [List.filterMap_cons, methodSpec?, List.map_cons, InterfaceElem.embedding?,
            List.length_cons]
          omega
      | embedding extent first more =>
          simp only [List.filterMap_cons, methodSpec?, List.map_cons, InterfaceElem.embedding?,
            List.length_cons]
          omega

end Syntax

/-- A type is read off its nodes, whichever they are, and the function types within it lack no
parameters. -/
structure Scope.Resolves (s : Scope) (ts : List Token) (e : TypeExpr) : Prop where
  within : List.Forall₂ (s.Matches ts) e.within (s.type e).within
  node : ∃ n, Shows s n e
  nodes : ∀ n, Shows s n e → s.resolve n = .ok (s.type e)

theorem Syntax.TypeExpr.IsRead.resolves {ts : List Token} {e : TypeExpr} (h : e.IsRead ts)
    (s : Scope) : s.Resolves ts e :=
  ⟨matches_within h, ⟨_, shows_node s e⟩, fun _ => resolve_of_shows⟩

namespace Outline

variable {dialect : Annotation.Dialect} {find : Finder} {text : List Char} {o : Outline}

namespace Context

variable {cx : Context} {ts : List Token}

/-- A field has everything but its name from its declaration. -/
structure Declares (cx : Context) (d : Documented FieldDecl) (f : Field) : Prop where
  type : f.type =
    if d.item.head = .embedded true then .pointer (cx.scope.type d.item.type)
    else cx.scope.type d.item.type
  embedded : f.embedded = true ↔ ∃ pointer, d.item.head = .embedded pointer
  rawTag : f.rawTag = d.item.tag
  tags : f.tags = (d.item.tag.map fun tag => Tags.ofLiteral tag.toList).getD default
  docs : Annotation.partition cx.dialect d.docs = .ok (f.docs, f.annotations)
  span : f.span = d.item.extent.span

/-- A declaration declares one field for each of its names, or a single embedded one. The fields are
alike but for their names. -/
structure FieldsFor (cx : Context) (d : Documented FieldDecl) (fs : List Field) : Prop where
  named : ∀ names, d.item.head = .named names → names ≠ [] ∧ fs.map (·.name) = names
  embedded : ∀ pointer, d.item.head = .embedded pointer → fs.length = 1
  declares : ∀ f ∈ fs, cx.Declares d f
  alike : ∀ f ∈ fs, ∀ g ∈ fs, g = { f with name := g.name }

/-- The fields of a structure, declaration by declaration. None is passed over. -/
structure HoldsFields (cx : Context) (ts : List Token) (b : StructBody) (fields : List Field) :
    Prop where
  /-- Nothing but declarations stands between the braces. -/
  listed : ∃ n, (fieldDecl n).Lists ts b.fields
  declared : ∃ fss, fields = fss.flatten ∧
    List.Forall₂ cx.FieldsFor (attach FieldDecl.extent b.fields) fss
  types : ∀ d ∈ members b.fields, cx.scope.Resolves ts d.type
  node : ∃ list, ShowsFields cx.scope list b
  nodes : ∀ list, ShowsFields cx.scope list b →
    cx.scope.fieldsIn list = fields.map fun f => (f.name, f.type, f.embedded)

/-- A method has its parameters and results from its specification. -/
structure MethodFor (cx : Context) (ts : List Token) (d : Documented MethodSpec) (m : Method) :
    Prop where
  name : m.name = d.item.name
  params : cx.scope.OneEach ts d.item.params.decls m.params
  results : cx.scope.OneEach ts d.item.results m.results
  docs : Annotation.partition cx.dialect d.docs = .ok (m.docs, m.annotations)
  span : m.span = d.item.extent.span

/-- A type that is embedded, or the text of a union. -/
def embedded (cx : Context) : Extent × TypeExpr × List TypeExpr → GoType
  | (_, first, []) => cx.scope.type first
  | (extent, _, _ :: _) => .raw (cx.slice extent.span)

/-- The methods and the embedded types of an interface. None is passed over. -/
structure HoldsElems (cx : Context) (ts : List Token) (b : InterfaceBody) (i : Interface) :
    Prop where
  /-- Nothing but elements stands between the braces. -/
  listed : ∃ n, (interfaceElem n).Lists ts b.elems
  methods : List.Forall₂ (cx.MethodFor ts) b.methods i.methods
  embeds : i.embeds = b.embeddings.map cx.embedded
  each : i.methods.length + i.embeds.length = (members b.elems).length
  types : ∀ x ∈ members b.elems, ∀ e ∈ x.typeExprs, cx.scope.Resolves ts e
  node : ∃ body, ShowsElems cx.scope body b
  nodes : ∀ body, ShowsElems cx.scope body b →
    cx.scope.methodsIn body = i.methods.map (fun m => (m.name, m.params, m.results)) ∧
      cx.scope.embedsIn body = i.embeds

/-- The parameters and results of a function. None is passed over. -/
structure HoldsParams (cx : Context) (ts : List Token) (decl : FuncDecl) (f : Function) :
    Prop where
  params : cx.scope.OneEach ts decl.params.decls f.params
  results : cx.scope.OneEach ts decl.results f.results
  types : ∀ e ∈ decl.typeExprs, cx.scope.Resolves ts e
  node : ∃ list cs, ShowsList cx.scope list decl.params.decls ∧
    ShowsResult cx.scope cs decl.results
  nodes : ∀ list cs, ShowsList cx.scope list decl.params.decls →
    ShowsResult cx.scope cs decl.results → cx.scope.parameters list = f.params ∧
      ((cs.find? (·.1 == some "result")).elim [] fun c => cx.scope.results c.2) = f.results

theorem Declares.alike {d : Documented FieldDecl} {f g : Field} (hf : cx.Declares d f)
    (hg : cx.Declares d g) : g = { f with name := g.name } := by
  have hembedded : g.embedded = f.embedded :=
    Bool.eq_iff_iff.2 (hg.embedded.trans hf.embedded.symm)
  obtain ⟨hdocs, hannotations⟩ := Prod.mk.inj (Except.ok.inj (hg.docs.symm.trans hf.docs))
  obtain ⟨name, type, embedded, tags, rawTag, docs, annotations, span⟩ := g
  simp only [Field.mk.injEq, true_and]
  exact ⟨hg.type.trans hf.type.symm, hembedded, hg.tags.trans hf.tags.symm,
    hg.rawTag.trans hf.rawTag.symm, hdocs, hannotations, hg.span.trans hf.span.symm⟩

theorem fieldsFor_of_fields {d : Documented FieldDecl} {fs : List Field}
    (hd : d.item.head ≠ .named []) (h : cx.fields d = .ok fs) : cx.FieldsFor d fs := by
  have hdeclares : ∀ f ∈ fs, cx.Declares d f := by
    obtain ⟨⟨docs, annotations⟩, hdocs, h⟩ := bind_eq_ok.1 h
    cases h
    intro f hf
    cases hhead : d.item.head with
    | named names =>
        rw [hhead] at hf
        obtain ⟨name, -, rfl⟩ := List.mem_map.1 hf
        exact ⟨by simp [hhead], by simp [hhead], rfl, rfl, hdocs, rfl⟩
    | embedded pointer =>
        rw [hhead] at hf
        rw [List.mem_singleton.1 hf]
        refine ⟨?_, by simp [hhead], rfl, rfl, hdocs, rfl⟩
        cases pointer <;> simp [hhead]
  refine ⟨?_, ?_, hdeclares, fun f hf g hg => (hdeclares f hf).alike (hdeclares g hg)⟩
  all_goals
    obtain ⟨⟨docs, annotations⟩, -, h⟩ := bind_eq_ok.1 h
    cases h
  · intro names hhead
    refine ⟨?_, by simp [hhead, Function.comp_def]⟩
    rintro rfl
    exact hd hhead
  · intro pointer hhead
    simp [hhead]

theorem holdsFields {tree : Tree} {d : Titled StructBody} {s : Structure}
    (htree : Tree.ofText? text = some tree) (hd : .struct d ∈ tree.topics)
    (hs : cx.StructureFor d s) : cx.HoldsFields (Lexer.tokens text) d.body s.fields := by
  obtain ⟨n, hlist⟩ := Tree.among_topics htree _ hd
  have hheads : ∀ c ∈ members d.body.fields, c.head ≠ .named [] :=
    fun c hc => (isRead_of_fieldDecl (hlist.reads c hc)).2
  obtain ⟨-, hs⟩ := hs
  obtain ⟨_, -, hs⟩ := bind_eq_ok.1 hs
  obtain ⟨fss, hfss, hs⟩ := bind_eq_ok.1 hs
  cases hs
  refine ⟨⟨n, hlist⟩, ⟨fss, rfl, ?_⟩,
    fun c hc => (isRead_of_fieldDecl (hlist.reads c hc)).1.resolves cx.scope,
    exists_showsFields cx.scope hheads, fun list hlist => fieldsIn_of_shows hlist hfss⟩
  have hall := (List.forall₂_and_left _ _).2
    ⟨fun c hc => hheads c.item (mem_of_attach hc), forall₂_of_mapM hfss⟩
  exact hall.imp fun c fs hc => fieldsFor_of_fields hc.1 hc.2

/-- A method comes from its specification, and the other elements give no method. -/
theorem methodFor_of_method? {d : Documented InterfaceElem} {m : Option Method}
    (hd : d.item.IsRead ts) (h : cx.method? d = .ok m) :
    Option.Rel (cx.MethodFor ts) (methodSpec? d) m := by
  obtain ⟨docs, x⟩ := d
  cases x with
  | embedding extent first more =>
      cases h
      exact .none
  | method spec =>
      obtain ⟨⟨docs, annotations⟩, hdocs, h⟩ := bind_eq_ok.1 h
      cases h
      exact .some ⟨rfl, hd.1.oneEach cx.scope, hd.2.oneEach cx.scope, hdocs, rfl⟩

theorem filterMap_embed? (xs : List InterfaceElem) :
    xs.filterMap cx.embed? = (xs.filterMap InterfaceElem.embedding?).map cx.embedded := by
  rw [List.map_filterMap]
  congr 1
  funext x
  match x with
  | .method m => rfl
  | .embedding extent first [] => rfl
  | .embedding extent first (second :: more) => rfl

theorem holdsElems {tree : Tree} {d : Titled InterfaceBody} {i : Interface}
    (htree : Tree.ofText? text = some tree) (hd : .interface d ∈ tree.topics)
    (hi : cx.InterfaceFor d i) : cx.HoldsElems (Lexer.tokens text) d.body i := by
  obtain ⟨n, hlist⟩ := Tree.among_topics htree _ hd
  obtain ⟨-, hi⟩ := hi
  obtain ⟨_, -, hi⟩ := bind_eq_ok.1 hi
  obtain ⟨ms, hms, hi⟩ := bind_eq_ok.1 hi
  cases hi
  have hread : ∀ x ∈ members d.body.elems, x.IsRead (Lexer.tokens text) :=
    fun x hx => isRead_of_interfaceElem (hlist.reads x hx)
  have hall := (List.forall₂_and_left _ _).2
    ⟨fun x hx => hread x.item (mem_of_attach hx), forall₂_of_mapM hms⟩
  have hmethods : List.Forall₂ (cx.MethodFor (Lexer.tokens text)) d.body.methods ms.reduceOption :=
    List.rel_filterMap (fun x m hx => methodFor_of_method? hx.1 hx.2) hall
  refine ⟨⟨n, hlist⟩, hmethods, filterMap_embed? _, ?_,
    fun x hx e he => ((hread x hx).typeExprs e he).resolves cx.scope,
    exists_showsElems cx.scope d.body,
    fun body hbody => ⟨methodsIn_of_shows hbody hms, embedsIn_of_shows hbody⟩⟩
  rw [← hmethods.length_eq, ← d.body.length_methods_add_embeddings, filterMap_embed?,
    List.length_map]
  rfl

theorem holdsParams {tree : Tree} {d : Titled FuncDecl} {f : Function}
    (htree : Tree.ofText? text = some tree) (hd : .function d ∈ tree.topics)
    (hf : cx.FunctionFor d f) : cx.HoldsParams (Lexer.tokens text) d.body f := by
  obtain ⟨n, hread⟩ := Tree.among_topics htree _ hd
  obtain ⟨hparams, hresults⟩ := readParams_of_funcDecl hread
  obtain ⟨-, hf⟩ := hf
  obtain ⟨_, -, hf⟩ := bind_eq_ok.1 hf
  cases hf
  exact ⟨hparams.oneEach cx.scope, hresults.oneEach cx.scope,
    fun e he => (isRead_of_funcDecl hread e he).resolves cx.scope,
    ⟨_, _, shows_list (shows_nodes cx.scope _), .list (shows_list (shows_nodes cx.scope _))⟩,
    fun list cs hlist hcs => ⟨parameters_of_showsList hlist, results_of_showsResult hcs⟩⟩

end Context

/-- Whatever text is accepted, no member is lost, none comes twice and the order is that of the
source. Each name, or each type alone, between two commas gives one field, parameter or result. Each
element of an interface gives one method or embedded type. All types can be read off the nodes of
any syntax tree of the file, so that nothing is passed over. -/
theorem ofText_complete (h : ofText dialect find text = .ok o) :
    ∃ tree, Tree.ofText? text = some tree ∧
      let cx : Context := ⟨⟨text, o.imports⟩, dialect⟩
      let ts := Lexer.tokens text
      (∀ s ∈ o.structures.values, ∃ d ∈ tree.structs,
        cx.StructureFor d s ∧ cx.HoldsFields ts d.body s.fields) ∧
      (∀ i ∈ o.interfaces.values, ∃ d ∈ tree.interfaces,
        cx.InterfaceFor d i ∧ cx.HoldsElems ts d.body i) ∧
      (∀ f ∈ o.functions.values, ∃ d ∈ tree.functions,
        cx.FunctionFor d f ∧ cx.HoldsParams ts d.body f) ∧
      ∀ e ∈ tree.typeExprs, cx.scope.Resolves ts e := by
  obtain ⟨tree, ds, htree, hdesc⟩ := describes_of_ofText h
  obtain rfl := text_of_ofText h
  refine ⟨tree, htree, fun s hs => ?_, fun i hi => ?_, fun f hf => ?_,
    fun e he => (Tree.isRead_typeExprs htree e he).resolves _⟩
  · obtain ⟨d, hd, hfor⟩ := hdesc.collects_structures.exists_of_mem hs
    exact ⟨d, hd, hfor, Context.holdsFields htree (Tree.mem_topics_of_struct hd) hfor⟩
  · obtain ⟨d, hd, hfor⟩ := hdesc.collects_interfaces.exists_of_mem hi
    exact ⟨d, hd, hfor, Context.holdsElems htree (Tree.mem_topics_of_interface hd) hfor⟩
  · obtain ⟨d, hd, hfor⟩ := hdesc.collects_functions.exists_of_mem hf
    exact ⟨d, hd, hfor, Context.holdsParams htree (Tree.mem_topics_of_function hd) hfor⟩

/-- Names that share a type, an embedded field, and a method with any number of arguments. -/
theorem ofText_complete_shared :
    let text := "package p\n\ntype T struct \x7b A, B func(x, y int) bool; *C \x7d\n
        type I interface \x7b M(a, b int, c ...string); C \x7d\n".toList
    let find : Finder := fun _ => .error (.unresolved "no packages")
    let params (o : Outline) := (o.interfaces.values.flatMap (·.methods)).flatMap (·.params)
    ∃ o, ofText ⟨"gen", false⟩ find text = .ok o ∧
      (o.structures.values.flatMap (·.fields)).map (·.name) = ["A", "B", "C"] ∧
      (params o).map (fun p => (p.name, p.variadic)) =
        [(some "a", false), (some "b", false), (some "c", true)] ∧
      ∃ tree, Tree.ofText? text = some tree ∧
        let cx : Context := ⟨⟨text, o.imports⟩, ⟨"gen", false⟩⟩
        let ts := Lexer.tokens text
        (∀ s ∈ o.structures.values, ∃ d ∈ tree.structs, cx.HoldsFields ts d.body s.fields) ∧
        (∀ i ∈ o.interfaces.values, ∃ d ∈ tree.interfaces, cx.HoldsElems ts d.body i) ∧
        ∀ e ∈ tree.typeExprs, cx.scope.Resolves ts e := by
  intro text find params
  have hm : (fun o : Outline => ((o.structures.values.flatMap (·.fields)).map (·.name),
      (params o).map fun p => (p.name, p.variadic))) <$> ofText ⟨"gen", false⟩ find text =
      .ok (["A", "B", "C"], [(some "a", false), (some "b", false), (some "c", true)]) := by
    decide +kernel
  obtain ⟨o, ho, hvalues⟩ := map_eq_ok.1 hm
  obtain ⟨hfields, hparams⟩ := Prod.mk.inj hvalues
  obtain ⟨tree, htree, hstructs, hinterfaces, -, htypes⟩ := ofText_complete ho
  refine ⟨o, ho, hfields, hparams, tree, htree, fun s hs => ?_, fun i hi => ?_, htypes⟩
  · obtain ⟨d, hd, -, hholds⟩ := hstructs s hs
    exact ⟨d, hd, hholds⟩
  · obtain ⟨d, hd, -, hholds⟩ := hinterfaces i hi
    exact ⟨d, hd, hholds⟩

end Outline

end GoOutline
