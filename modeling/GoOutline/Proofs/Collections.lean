import GoOutline.Proofs.Inventory

/-!
The collections of an outline. Each has the first declaration of every name, and nothing else, in
the order of the source.
-/

namespace GoOutline

open Text Syntax Docs

namespace Table

variable {α β : Type} {t : Table α} {ds seen : List β} {es : List (String × α)}
  {name : β → String} {R : β → α → Prop}

/-- The values of a table come from the first of some declarations with each name, in the order of
the declarations. -/
structure Collects (t : Table α) (ds : List β) (name : β → String) (R : β → α → Prop) : Prop where
  /-- No name is lost, and none is invented. -/
  complete : ∀ k, k ∈ t.names ↔ ∃ d ∈ ds, name d = k
  firsts : ∃ firsts : List β, firsts.Sublist ds ∧
    List.Forall₂ (fun d e => e.1 = name d ∧ R d e.2) firsts t.entries ∧
    ∀ d ∈ firsts, ds.find? (name · == name d) = some d

/-- Each value of a table comes from a declaration. -/
theorem Collects.exists_of_mem (h : t.Collects ds name R) {a : α} (ha : a ∈ t.values) :
    ∃ d ∈ ds, R d a := by
  obtain ⟨firsts, hsub, hall, -⟩ := h.firsts
  obtain ⟨e, he, rfl⟩ := List.mem_map.1 ha
  obtain ⟨d, hd, -, hr⟩ := exists_of_forall₂ hall he
  exact ⟨d, hsub.subset hd, hr⟩

theorem collects_empty (name : β → String) (R : β → α → Prop) :
    (empty : Table α).Collects [] name R :=
  ⟨by simp [names, empty], [], .slnil, .nil, by simp⟩

theorem find?_append_some {d d' : β} {p : β → Bool} (h : ds.find? p = some d) :
    (ds ++ [d']).find? p = some d := by
  rw [List.find?_append, h, Option.some_or]

/-- One declaration more. -/
theorem Collects.insertNew (h : t.Collects seen name R) {d : β} {e : String × α}
    (hn : e.1 = name d) (hr : R d e.2) :
    (t.insertNew e.1 e.2).Collects (seen ++ [d]) name R := by
  obtain ⟨firsts, hsub, hall, hfirst⟩ := h.firsts
  have hold : ∀ c ∈ firsts, (seen ++ [d]).find? (name · == name c) = some c :=
    fun c hc => find?_append_some (hfirst c hc)
  by_cases hm : e.1 ∈ t.names
  · -- The name has come before, so that nothing changes.
    have ht : t.insertNew e.1 e.2 = t := dif_pos hm
    rw [ht]
    refine ⟨fun k => ?_, firsts, hsub.trans (List.sublist_append_left seen [d]), hall, hold⟩
    obtain ⟨c, hc, hcn⟩ := (h.complete e.1).1 hm
    rw [h.complete k]
    constructor
    · rintro ⟨b, hb, rfl⟩
      exact ⟨b, List.mem_append_left [d] hb, rfl⟩
    · rintro ⟨b, hb, rfl⟩
      rcases List.mem_append.1 hb with hb | hb
      · exact ⟨b, hb, rfl⟩
      · rw [List.mem_singleton.1 hb]
        exact ⟨c, hc, hcn.trans hn⟩
  · have hnew : (seen ++ [d]).find? (name · == name d) = some d := by
      have hnone : seen.find? (name · == name d) = none := by
        refine List.find?_eq_none.2 fun c hc hcd => hm ((h.complete e.1).2 ⟨c, hc, ?_⟩)
        rw [hn]
        exact beq_iff_eq.1 hcd
      simp [List.find?_append, hnone]
    have ht : (t.insertNew e.1 e.2).entries = t.entries ++ [e] :=
      congrArg Table.entries (dif_neg hm)
    refine ⟨fun k => ?_, firsts ++ [d], hsub.append (.refl [d]), ?_, fun c hc => ?_⟩
    · have hk : k ∈ t.names ++ [e.1] ↔ (∃ b ∈ seen, name b = k) ∨ name d = k := by
        rw [List.mem_append, h.complete k, List.mem_singleton, hn, eq_comm (a := k)]
      rw [names, ht]
      simpa [names, or_and_right, exists_or] using hk
    · rw [ht]
      exact List.rel_append hall (.cons ⟨hn, hr⟩ .nil)
    · rcases List.mem_append.1 hc with hc | hc
      · exact hold c hc
      · rw [List.mem_singleton.1 hc]
        exact hnew

theorem collects_ofFirst (h : List.Forall₂ (fun d e => e.1 = name d ∧ R d e.2) ds es) :
    (ofFirst es).Collects ds name R := by
  have hfold {t : Table α} {seen : List β} (ht : t.Collects seen name R) :
      (es.foldl (fun t e => t.insertNew e.1 e.2) t).Collects (seen ++ ds) name R := by
    induction h generalizing t seen with
    | nil => simpa using ht
    | cons hde _ ih => simpa using ih (ht.insertNew hde.1 hde.2)
  exact hfold (collects_empty name R)

end Table

namespace Scope

/-- The name that a function goes by in a file. -/
def keyOf (s : Scope) (decl : FuncDecl) : String :=
  let receiver := decl.receiver.bind fun list => (s.params list.decls).head?
  match receiver.bind (·.type.baseName?) with
  | some type => type ++ "." ++ decl.name
  | none => decl.name

end Scope

namespace Outline

variable {dialect : Annotation.Dialect} {find : Finder} {text : List Char} {o : Outline}
  {cx : Context}

namespace Context

/-- The entry for a definition of a structure. -/
def StructureFor (cx : Context) (d : Titled StructBody) (s : Structure) : Prop :=
  s.name = d.name ∧ cx.structureOf d.name d.span d.docs d.body = .ok s

/-- The entry for a definition of an interface. -/
def InterfaceFor (cx : Context) (d : Titled InterfaceBody) (i : Interface) : Prop :=
  i.name = d.name ∧ cx.interfaceOf d.name d.span d.docs d.body = .ok i

/-- The entry for a function or method. -/
def FunctionFor (cx : Context) (d : Titled FuncDecl) (f : Function) : Prop :=
  f.key = cx.scope.keyOf d.body ∧ cx.functionOf d.span d.docs d.body = .ok f

theorem structureFor {d : Titled StructBody} {s : Structure}
    (h : cx.structureOf d.name d.span d.docs d.body = .ok s) : cx.StructureFor d s := by
  refine ⟨?_, h⟩
  obtain ⟨⟨docs, annotations⟩, -, h⟩ := bind_eq_ok.1 h
  obtain ⟨fss, -, h⟩ := bind_eq_ok.1 h
  cases h
  rfl

theorem interfaceFor {d : Titled InterfaceBody} {i : Interface}
    (h : cx.interfaceOf d.name d.span d.docs d.body = .ok i) : cx.InterfaceFor d i := by
  refine ⟨?_, h⟩
  obtain ⟨⟨docs, annotations⟩, -, h⟩ := bind_eq_ok.1 h
  obtain ⟨ms, -, h⟩ := bind_eq_ok.1 h
  cases h
  rfl

theorem functionFor {d : Titled FuncDecl} {f : Function}
    (h : cx.functionOf d.span d.docs d.body = .ok f) : cx.FunctionFor d f := by
  refine ⟨?_, h⟩
  obtain ⟨⟨docs, annotations⟩, -, h⟩ := bind_eq_ok.1 h
  cases h
  rfl

end Context

/-- The declarations of one kind, and the entries for them. -/
theorem forall₂_kind {τ : Type} {α : Type} {view : Topic → Option τ} {entry : Declared → Option α}
    {R : τ → α → Prop} {name : α → String} {key : τ → String} {topics : List Topic}
    {ds : List Declared} (hv : ∀ t d, cx.describe t = .ok d → Option.Rel R (view t) (entry d))
    (hn : ∀ c a, R c a → name a = key c)
    (h : List.Forall₂ (fun t d => cx.describe t = .ok d) topics ds) :
    List.Forall₂ (fun c e => e.1 = key c ∧ R c e.2) (topics.filterMap view)
      ((ds.filterMap entry).map fun a => (name a, a)) := by
  refine List.forall₂_map_right_iff.2 ?_
  exact (List.rel_filterMap (fun t d => hv t d) h).imp fun c a hca => ⟨hn c a hca, hca⟩

section Describes

variable {tree : Tree} {ds : List Declared} (h : o.Describes dialect tree ds)
include h

theorem Describes.collects_structures : o.structures.Collects tree.structs (·.name)
    (Context.mk ⟨o.text, o.imports⟩ dialect).StructureFor := by
  rw [h.structures]
  refine Table.collects_ofFirst (forall₂_kind (fun t d ht => ?_) (fun _ _ hs => hs.1) h.each)
  cases t with
  | struct c =>
      obtain ⟨s, hs, rfl⟩ := map_eq_ok.1 ht
      exact .some (Context.structureFor hs)
  | interface c =>
      obtain ⟨i, -, rfl⟩ := map_eq_ok.1 ht
      exact .none
  | function c =>
      obtain ⟨f, -, rfl⟩ := map_eq_ok.1 ht
      exact .none

theorem Describes.collects_interfaces : o.interfaces.Collects tree.interfaces (·.name)
    (Context.mk ⟨o.text, o.imports⟩ dialect).InterfaceFor := by
  rw [h.interfaces]
  refine Table.collects_ofFirst (forall₂_kind (fun t d ht => ?_) (fun _ _ hi => hi.1) h.each)
  cases t with
  | struct c =>
      obtain ⟨s, -, rfl⟩ := map_eq_ok.1 ht
      exact .none
  | interface c =>
      obtain ⟨i, hi, rfl⟩ := map_eq_ok.1 ht
      exact .some (Context.interfaceFor hi)
  | function c =>
      obtain ⟨f, -, rfl⟩ := map_eq_ok.1 ht
      exact .none

theorem Describes.collects_functions : o.functions.Collects tree.functions
    (fun d => (Scope.mk o.text o.imports).keyOf d.body)
    (Context.mk ⟨o.text, o.imports⟩ dialect).FunctionFor := by
  rw [h.functions]
  refine Table.collects_ofFirst (forall₂_kind (fun t d ht => ?_) (fun _ _ hf => hf.1) h.each)
  cases t with
  | struct c =>
      obtain ⟨s, -, rfl⟩ := map_eq_ok.1 ht
      exact .none
  | interface c =>
      obtain ⟨i, -, rfl⟩ := map_eq_ok.1 ht
      exact .none
  | function c =>
      obtain ⟨f, hf, rfl⟩ := map_eq_ok.1 ht
      exact .some (Context.functionFor hf)

end Describes

/-- The values of a table that keeps the first of each name stand in the order of all. -/
theorem pairwise_values {α : Type} {entry : Declared → Option α} {span : α → Span}
    {ds : List Declared} (name : α → String)
    (h : ds.Pairwise fun d e => d.span.Before e.span)
    (hs : ∀ d a, entry d = some a → span a = d.span) :
    ((Table.ofFirst ((ds.filterMap entry).map fun a => (name a, a))).values.map span).Pairwise
      Span.Before := by
  refine List.pairwise_map.2 (List.Pairwise.sublist (values_sublist name _) ?_)
  refine List.pairwise_filterMap.2 (h.imp fun {d e} hde a ha b hb => ?_)
  rw [hs d a ha, hs e b hb]
  exact hde

/-- Whatever text is accepted, the names of its structures are those that its definitions of
structures have, lone or in a group, likewise for interfaces, and its functions go by the names of
its functions and methods. Each entry has the name that it goes by, it describes the first
declaration with this name, and the entries stand in the order of the source. -/
theorem ofText_collects (h : ofText dialect find text = .ok o) :
    ∃ tree, Tree.ofText? text = some tree ∧
      (let cx : Context := ⟨⟨o.text, o.imports⟩, dialect⟩
      o.structures.Collects tree.structs (·.name) cx.StructureFor ∧
      o.interfaces.Collects tree.interfaces (·.name) cx.InterfaceFor ∧
      o.functions.Collects tree.functions (fun d => cx.scope.keyOf d.body) cx.FunctionFor) ∧
      (o.structures.values.map (·.span)).Pairwise Span.Before ∧
      (o.interfaces.values.map (·.span)).Pairwise Span.Before ∧
      (o.functions.values.map (·.span)).Pairwise Span.Before := by
  obtain ⟨tree, ds, htree, hd⟩ := describes_of_ofText h
  refine ⟨tree, htree, ⟨hd.collects_structures, hd.collects_interfaces, hd.collects_functions⟩,
    ?_, ?_, ?_⟩
  · rw [hd.structures]
    refine pairwise_values _ hd.ordered fun d s h => ?_
    rw [eq_of_structure? h]
    rfl
  · rw [hd.interfaces]
    refine pairwise_values _ hd.ordered fun d i h => ?_
    rw [eq_of_interface? h]
    rfl
  · rw [hd.functions]
    refine pairwise_values _ hd.ordered fun d f h => ?_
    rw [eq_of_function? h]
    rfl

/-- The second `S` and the second `F` are dropped, an alias is no structure, and a method goes by
its receiver as well. -/
theorem ofText_collects_duplicates :
    let text := "package p\n\ntype (\n\tS struct\x7b\x7d; A = S\n)\n\ntype S struct\x7b i int \x7d\n
        func F() \x7b\x7d\n\nfunc (S) F() \x7b\x7d\n\nfunc F() int \x7b\x7d\n".toList
    let find : Finder := fun _ => .error (.unresolved "no packages")
    ∃ o, ofText ⟨"gen", false⟩ find text = .ok o ∧
      (o.structures.names, o.functions.names) = (["S"], ["F", "S.F"]) ∧
      ∃ tree, Tree.ofText? text = some tree ∧
        o.functions.Collects tree.functions (fun d => (Scope.mk o.text o.imports).keyOf d.body)
          (Context.mk ⟨o.text, o.imports⟩ ⟨"gen", false⟩).FunctionFor := by
  intro text find
  have hm : (fun o : Outline => (o.structures.names, o.functions.names)) <$>
      ofText ⟨"gen", false⟩ find text = .ok (["S"], ["F", "S.F"]) := by
    decide +kernel
  obtain ⟨o, ho, hnames⟩ := map_eq_ok.1 hm
  obtain ⟨tree, htree, ⟨-, -, hfunctions⟩, -⟩ := ofText_collects ho
  exact ⟨o, ho, hnames, tree, htree, hfunctions⟩

end Outline

end GoOutline
