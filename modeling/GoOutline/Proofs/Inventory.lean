import GoOutline.Proofs.Placement
import GoOutline.Proofs.Reread

/-!
What a file declares, in the order of the source: its definitions of structures and interfaces, lone
or in a group, and its functions and methods. An outline describes each of them once.
-/

namespace GoOutline

open Text Syntax Docs

namespace Syntax

/-- A declaration by its name, with the place and the docs that it goes by. -/
structure Titled (β : Type) where
  name : String
  span : Span
  docs : List String
  body : β

/-- What an outline has an entry for. -/
inductive Topic where
  | struct (d : Titled StructBody)
  | interface (d : Titled InterfaceBody)
  | function (d : Titled FuncDecl)

namespace Topic

def struct? : Topic → Option (Titled StructBody)
  | .struct d => some d
  | _ => none

def interface? : Topic → Option (Titled InterfaceBody)
  | .interface d => some d
  | _ => none

def function? : Topic → Option (Titled FuncDecl)
  | .function d => some d
  | _ => none

end Topic

/-- A definition of a structure or interface. An alias is none, and neither is a definition by
another type. -/
def TypeEntry.topics (span : Span) (docs : List String) : TypeEntry → List Topic
  | .definition ⟨_, name, .struct _ body⟩ => [.struct ⟨name, span, docs, body⟩]
  | .definition ⟨_, name, .interface _ body⟩ => [.interface ⟨name, span, docs, body⟩]
  | _ => []

/-- A lone definition goes by the place and the docs of its declaration, one in a group by its
own. -/
def itemTopics (d : Documented Item) : List Topic :=
  match d.item.kind with
  | .types (.lone e) => e.topics d.item.extent.span d.docs
  | .types (.group es) =>
    (attach TypeEntry.extent es).flatMap fun e => e.item.topics e.item.extent.span e.docs
  | .func decl => [.function ⟨decl.name, d.item.extent.span, d.docs, decl⟩]
  | _ => []

namespace Tree

/-- What a file declares outside of all functions. -/
def topics (t : Tree) : List Topic := (attach Item.extent t.items).flatMap itemTopics

def structs (t : Tree) : List (Titled StructBody) := t.topics.filterMap Topic.struct?

def interfaces (t : Tree) : List (Titled InterfaceBody) := t.topics.filterMap Topic.interface?

/-- Functions and methods. -/
def functions (t : Tree) : List (Titled FuncDecl) := t.topics.filterMap Topic.function?

theorem mem_topics_of_struct {tree : Tree} {d : Titled StructBody} (h : d ∈ tree.structs) :
    Topic.struct d ∈ tree.topics := by
  obtain ⟨t, ht, htd⟩ := List.mem_filterMap.1 h
  obtain rfl : t = .struct d := by cases t <;> cases htd; rfl
  exact ht

theorem mem_topics_of_interface {tree : Tree} {d : Titled InterfaceBody}
    (h : d ∈ tree.interfaces) : Topic.interface d ∈ tree.topics := by
  obtain ⟨t, ht, htd⟩ := List.mem_filterMap.1 h
  obtain rfl : t = .interface d := by cases t <;> cases htd; rfl
  exact ht

theorem mem_topics_of_function {tree : Tree} {d : Titled FuncDecl} (h : d ∈ tree.functions) :
    Topic.function d ∈ tree.topics := by
  obtain ⟨t, ht, htd⟩ := List.mem_filterMap.1 h
  obtain rfl : t = .function d := by cases t <;> cases htd; rfl
  exact ht

end Tree

theorem Layout.topics_of_imports {front : List (Documented Item)}
    {imports : List (Extent × ImportDecl)} (h : List.Forall₂ Layout.Imports front imports) :
    front.flatMap itemTopics = [] := by
  induction h with
  | nil => rfl
  | cons hd _ ih => rw [List.flatMap_cons, ih, itemTopics, hd.2, List.append_nil]

/-- Whatever a file declares stands behind its imports. -/
theorem Layout.topics_declarations {t : Tree} {layout : Layout}
    (h : Layout.ofItems (attach Item.extent t.items) = .ok layout) :
    layout.declarations.flatMap itemTopics = t.topics := by
  obtain ⟨d, front, hitems, hk, hi⟩ := Layout.ofItems_eq_ok h
  have hd : itemTopics d = [] := by rw [itemTopics, hk]
  rw [Tree.topics, hitems, List.flatMap_cons, List.flatMap_append, hd, topics_of_imports hi]
  rfl

end Syntax

section Traversal

variable {ε α β γ : Type}

/-- A traversal of lists one behind the other is a traversal of each of them. -/
theorem mapM_flatMap (f : α → List β) (g : β → Except ε γ) (as : List α) :
    (as.flatMap f).mapM g = List.flatten <$> as.mapM fun a => (f a).mapM g := by
  induction as with
  | nil => rfl
  | cons a as ih =>
      rw [List.flatMap_cons, List.mapM_append, ih, List.mapM_cons]
      cases (f a).mapM g with
      | error e => rfl
      | ok b => cases as.mapM fun a => (f a).mapM g <;> rfl

theorem mapM_singleton (g : β → Except ε γ) (b : β) : [b].mapM g = (fun c => [c]) <$> g b := by
  rw [List.mapM_cons, List.mapM_nil]
  cases g b <;> rfl

end Traversal

namespace Outline

namespace Context

variable {cx : Context}

def describe (cx : Context) : Topic → Reading Declared
  | .struct d => .struct <$> cx.structureOf d.name d.span d.docs d.body
  | .interface d => .interface <$> cx.interfaceOf d.name d.span d.docs d.body
  | .function d => .function <$> cx.functionOf d.span d.docs d.body

theorem typeEntry_eq (span : Span) (docs : List String) (e : TypeEntry) :
    cx.typeEntry span docs e = (e.topics span docs).mapM cx.describe := by
  cases e with
  | synonym extent => rfl
  | definition spec =>
      obtain ⟨extent, name, body⟩ := spec
      cases body with
      | plain type => rfl
      | struct s b =>
          rw [TypeEntry.topics, mapM_singleton, describe]
          simp only [typeEntry]
          cases cx.structureOf name span docs b <;> rfl
      | interface s b =>
          rw [TypeEntry.topics, mapM_singleton, describe]
          simp only [typeEntry]
          cases cx.interfaceOf name span docs b <;> rfl

theorem declared_eq (d : Documented Item) : cx.declared d = (itemTopics d).mapM cx.describe := by
  rw [declared, itemTopics]
  cases d.item.kind with
  | package name place => rfl
  | imports decl => rfl
  | values => rfl
  | statement => rfl
  | func decl =>
      dsimp only
      rw [mapM_singleton, describe]
      cases cx.functionOf d.item.extent.span d.docs decl <;> rfl
  | types decl =>
      cases decl with
      | lone e => exact typeEntry_eq _ _ e
      | group es =>
          dsimp only
          rw [mapM_flatMap]
          simp only [typeEntry_eq]

/-- The declarations of a layout are described one by one. -/
theorem mapM_declared (cx : Context) (ds : List (Documented Item)) :
    List.flatten <$> ds.mapM cx.declared = (ds.flatMap itemTopics).mapM cx.describe := by
  rw [mapM_flatMap, funext fun d => (declared_eq d).symm]

end Context

/-- What a text with an outline declares, and how the outline has it. -/
structure Describes (o : Outline) (dialect : Annotation.Dialect) (tree : Tree)
    (ds : List Declared) : Prop where
  each : List.Forall₂ (fun t d => (Context.mk ⟨o.text, o.imports⟩ dialect).describe t = .ok d)
    tree.topics ds
  structures : o.structures = .ofFirst ((ds.filterMap Declared.structure?).map fun s => (s.name, s))
  interfaces : o.interfaces = .ofFirst ((ds.filterMap Declared.interface?).map fun i => (i.name, i))
  functions : o.functions = .ofFirst ((ds.filterMap Declared.function?).map fun f => (f.key, f))
  /-- The places of the declarations, in the order of the source. -/
  ordered : ds.Pairwise fun d e => d.span.Before e.span

variable {dialect : Annotation.Dialect} {find : Finder} {text : List Char} {o : Outline}

/-- The places of declarations stand one behind the other. -/
theorem ordered_declared {layout : Layout} {cx : Context} {dss : List (List Declared)}
    (h : layoutOf text = .ok layout) (hd : layout.declarations.mapM cx.declared = .ok dss) :
    dss.flatten.Pairwise fun d e => d.span.Before e.span := by
  obtain ⟨d, front, used, hused, hitems, -, -⟩ := from_layoutOf h
  obtain ⟨u, v, rfl, -, hrest⟩ := hitems.of_append
  obtain ⟨v, w, rfl, -, hdecls⟩ := hrest.of_append
  have hdeclared : Strewn (Declared.From text) w dss.flatten := by
    refine Strewn.flatten (hdecls.forall₂ (forall₂_of_mapM hd) fun seg d ds hf hds => ?_)
    obtain ⟨pre, post, ht⟩ := hf.2
    exact from_declared ht hf.1 hds
  refine hdeclared.pairwise hused.laid.right.right (fun _ _ h => h.1) ?_
  intro seg seg' d e hd he hb
  rwa [hd.2.1, he.2.1]

theorem describes_of_ofText (h : ofText dialect find text = .ok o) :
    ∃ tree ds, Tree.ofText? text = some tree ∧ o.Describes dialect tree ds := by
  obtain ⟨layout, hlayout, h⟩ := bind_eq_ok.1 h
  obtain ⟨dss, hdecl, h⟩ := bind_eq_ok.1 h
  obtain ⟨tree, htree, hitems, -⟩ := layoutOf_eq_ok hlayout
  have hdecl := mapError_eq_ok.1 hdecl
  have htopics := Context.mapM_declared
    ⟨⟨text, (importSpecs layout).filterMap (importOf find)⟩, dialect⟩ layout.declarations
  rw [hdecl, Layout.topics_declarations hitems] at htopics
  cases h
  exact ⟨tree, dss.flatten, htree, forall₂_of_mapM htopics.symm, rfl, rfl, rfl,
    ordered_declared hlayout hdecl⟩

end Outline

end GoOutline
