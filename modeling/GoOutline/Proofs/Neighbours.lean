import GoOutline.Proofs.Bodies
import GoOutline.Proofs.Grown
import GoOutline.Proofs.Pairs
import GoOutline.Proofs.RoundTrip

/-!
What an outline says of the neighbours of a definition that has grown. Of all that stands in front of
it and behind it, it says what it said.
-/

namespace GoOutline

open Text Syntax Docs

/-- What stands at or behind a place stays. -/
def Motion.since (n r : Nat) : Motion := .sieve (fun m => decide (n ≤ m)) fun m => decide (r ≤ m)

theorem token_of_beyond {n r : Nat} {t : Token} (h : t.Beyond n r) :
    (Motion.since n r).token t = t := by
  have hextent {e : Extent} (h : e.Beyond n r) : (Motion.since n r).extent e = e :=
    extent_sieve (decide_eq_true h.start) (decide_eq_true h.stop) (decide_eq_true h.row)
      (decide_eq_true h.lastRow)
  exact token_sieve (hextent h.1) fun c hc => hextent (h.2 c hc)

namespace Hole

open Motion Syntax.Grammar

variable {h : Hole} {x : Addition} {u : List Char} {n r : Nat} {text text' : List Char} {layout : Layout}

/-- A definition grows in a text. What stands in front of the new member stays up to a byte, and what
stands behind the definition stood behind a byte and a row and moves on. -/
structure Grows (h : Hole) (x : Addition) (u : List Char) (n r : Nat) (text text' : List Char) : Prop where
  front : Keeps (fun m => decide (IsBoundary u m)) (fun r => decide (r ≤ u.count '\n')) id id text
    text'
  back : Keeps (fun m => decide (n ≤ m)) (fun m => decide (r ≤ m)) x.shift.byte x.shift.row text text'
  pre : h.pre.map ((upto u).sibling (upto u).item) = h.pre
  before : h.spot.before.map ((upto u).sibling (upto u).typeEntry) = h.spot.before
  members : Stays (upto u) x h.spec.body
  lastRow : r ≤ h.extent.lastRow
  specRow : r ≤ h.spec.extent.lastRow
  after : h.spot.after.map ((since n r).sibling (since n r).typeEntry) = h.spot.after
  suf : h.suf.map ((since n r).sibling (since n r).item) = h.suf

namespace Grows

/-- What is declared in front stays. -/
theorem topic_front (hg : h.Grows x u n r text text') :
    h.front.map (upto u).topic = h.front := by
  rw [Hole.front, List.map_append]
  exact congrArg₂ (· ++ ·) (topicsFrom_fixed .nil hg.pre) (entryTopics_fixed .nil hg.before)

theorem back_grown (hg : h.Grows x u n r text text') :
    (h.grown x).back = h.back.map x.shift.motion.topic :=
  grown_back hg.back (decide_eq_true hg.lastRow) (decide_eq_true hg.specRow) hg.after hg.suf

/-- What is declared behind stays with all that stands there. -/
theorem topic_back (hg : h.Grows x u n r text text') : h.back.map (since n r).topic = h.back := by
  have hrow {m : Nat} (hm : r ≤ m) : past (fun m => decide (r ≤ m)) m = m :=
    past_eq_self.2 (decide_eq_true hm)
  have hentry : List.Forall₂ (Abreast (fun m => decide (r ≤ m)) (past fun m => decide (r ≤ m))
      TypeEntry.extent) [.member (.definition h.spec)] [.member (.definition h.spec)] :=
    .cons (.member (decide_eq_true hg.specRow) (hrow hg.specRow).symm) .nil
  have hitem : List.Forall₂ (Abreast (fun m => decide (r ≤ m)) (past fun m => decide (r ≤ m))
      Item.extent) [.member h.item] [.member h.item] :=
    .cons (.member (decide_eq_true hg.lastRow) (hrow hg.lastRow).symm) .nil
  have hafter := entryTopics_fixed hentry hg.after
  have hsuf := topicsFrom_fixed hitem hg.suf
  simp only [entryTopics, topicsFrom] at hafter hsuf
  simp only [Hole.back, entryTopics, topicsFrom, attachFrom_member, List.map_append]
  exact congrArg₂ (· ++ ·) hafter hsuf

/-- The items around the definition, with the docs that they have. -/
theorem attach_grown (hg : h.Grows x u n r text text') : ∃ front back,
    attach Item.extent h.items = front ++ ⟨h.itemDocs, h.item⟩ :: back ∧
      attach Item.extent (h.grown x).items =
        front ++ ⟨h.itemDocs, (h.grown x).item⟩ :: back.map (documented x.shift.motion.item) ∧
      ∀ d ∈ front, (upto u).item d.item = d.item := by
  obtain ⟨hold, hnew⟩ := attach_around Item.extent h.item (h.grown x).item hg.back
    (fun _ _ => rfl) (decide_eq_true hg.lastRow) rfl hg.suf h.pre
  exact ⟨_, _, hold, hnew, fun d hd => member_of_fixed hg.pre _ (mem_of_attach hd)⟩

end Grows

end Hole

namespace Syntax.Layout

open Motion

variable {front back : List (Documented Item)} {d : Documented Item} {layout : Layout}

/-- A file keeps its layout where a declaration is another one and those behind it move. -/
theorem right_replace (d' : Documented Item) (v : Item → Item)
    (h : Right (front ++ d :: back) (.ok layout)) (hd : isDeclaration d.item)
    (hd' : isDeclaration d'.item) (hv : ∀ i, isDeclaration (v i) = isDeclaration i) :
    ∃ between, layout.declarations = between ++ d :: back ∧
      Right (front ++ d' :: back.map (documented v))
        (.ok { layout with declarations := between ++ d' :: back.map (documented v) }) ∧
      ∀ i ∈ layout.imports, ∃ e ∈ front, Imports e i := by
  obtain ⟨p, imports, hitems, hp, hi, hds⟩ := h
  have hno {e : Documented Item} (he : e ∈ p :: imports) : isDeclaration e.item = false := by
    rcases List.mem_cons.1 he with rfl | he
    · exact not_isDeclaration_of_isPackage (by simp [isPackage, hp])
    · exact not_isDeclaration_of_isImport (isImport_of_imports hi e he)
  have hall : front ++ d :: back = (p :: imports) ++ layout.declarations := hitems
  have hsplit : ∃ between, front = (p :: imports) ++ between ∧
      layout.declarations = between ++ d :: back := by
    rcases List.append_eq_append_iff.1 hall with ⟨w, hw, hdecls⟩ | ⟨between, hfront, hdecls⟩
    · rcases w with _ | ⟨e, w⟩
      · exact ⟨[], by simpa using hw.symm, hdecls.symm⟩
      · obtain ⟨rfl, -⟩ := List.cons.inj hdecls
        have hfalse := hno (e := d) (by rw [hw]; simp)
        rw [hd] at hfalse
        cases hfalse
    · exact ⟨between, hfront, hdecls⟩
  obtain ⟨between, rfl, hdecls⟩ := hsplit
  refine ⟨between, hdecls, ⟨p, imports, by simp, hp, hi, fun e he => ?_⟩, fun i hmem => ?_⟩
  · rw [hdecls] at hds
    rcases List.mem_append.1 he with he | he
    · exact hds e (List.mem_append_left _ he)
    · rcases List.mem_cons.1 he with rfl | he
      · exact hd'
      · obtain ⟨e, hmem, rfl⟩ := List.mem_map.1 he
        exact (hv e.item).trans (hds e (by simp [hmem]))
  · obtain ⟨e, he, himports⟩ := exists_of_forall₂ hi hmem
    exact ⟨e, by simp [he], himports⟩

/-- A file goes on with one declaration more. -/
theorem right_concat {items : List (Documented Item)} (h : Right items (.ok layout))
    (hd : isDeclaration d.item) :
    Right (items ++ [d]) (.ok { layout with declarations := layout.declarations ++ [d] }) ∧
      ∀ i ∈ layout.imports, ∃ e ∈ items, Imports e i := by
  obtain ⟨p, imports, hitems, hp, hi, hds⟩ := h
  refine ⟨⟨p, imports, by simp [hitems], hp, hi, fun e he => ?_⟩, fun i hmem => ?_⟩
  · rcases List.mem_append.1 he with he | he
    · exact hds e he
    · rwa [List.mem_singleton.1 he]
  · obtain ⟨e, he, himports⟩ := exists_of_forall₂ hi hmem
    exact ⟨e, by simp [hitems, he], himports⟩

end Syntax.Layout

namespace Outline

open Motion

variable {dialect : Annotation.Dialect} {find : Finder} {text text' : List Char} {o p : Outline}
  {layout : Layout} {ds es ds' es' : List Declared} {d d' : Declared}

/-- The collections of an outline are made of some declarations. -/
structure Tabulates (o : Outline) (ds : List Declared) : Prop where
  structures : o.structures = .ofFirst ((ds.filterMap Declared.structure?).map fun s => (s.name, s))
  interfaces : o.interfaces = .ofFirst ((ds.filterMap Declared.interface?).map fun i => (i.name, i))
  functions : o.functions = .ofFirst ((ds.filterMap Declared.function?).map fun f => (f.key, f))

/-- Two outlines have the same package and the same imports at the same places. -/
structure SameHead (o p : Outline) : Prop where
  package : p.package = o.package
  packageEnd : p.packageEnd = o.packageEnd
  imports : p.imports = o.imports
  importDecls : p.importDecls = o.importDecls
  importTexts : ∀ i ∈ o.importDecls, Text.slice p.text i.span = Text.slice o.text i.span

/-- A text is laid out, and an outline is read of its layout. -/
structure Shows (dialect : Annotation.Dialect) (find : Finder) (text : List Char) (layout : Layout)
    (o : Outline) : Prop where
  laid : layoutOf text = .ok layout
  read : ofLayout dialect find text layout = .ok o

theorem ofLayout_eq_ok (h : ofLayout dialect find text layout = .ok o) :
    o.package = layout.package ∧ o.packageEnd = layout.place.stop ∧ o.text = text ∧
      o.imports = (importSpecs layout).filterMap (importOf find) ∧
      o.importDecls = layout.imports.map importDeclOf ∧
      ∃ ds, List.Forall₂ (fun t d => (Context.mk ⟨text, o.imports⟩ dialect).describe t = .ok d)
        (layout.declarations.flatMap itemTopics) ds ∧ o.Tabulates ds := by
  obtain ⟨dss, hdecl, h⟩ := bind_eq_ok.1 h
  have htopics := Context.mapM_declared
    ⟨⟨text, (importSpecs layout).filterMap (importOf find)⟩, dialect⟩ layout.declarations
  rw [mapError_eq_ok.1 hdecl] at htopics
  cases h
  exact ⟨rfl, rfl, rfl, rfl, rfl, dss.flatten, forall₂_of_mapM htopics.symm, rfl, rfl, rfl⟩

theorem exists_tabulates (layout : Layout) {imports : List Import}
    (hi : (importSpecs layout).filterMap (importOf find) = imports)
    (h : List.Forall₂ (fun t d => (Context.mk ⟨text, imports⟩ dialect).describe t = .ok d)
      (layout.declarations.flatMap itemTopics) ds) :
    ∃ o, ofLayout dialect find text layout = .ok o ∧ o.Tabulates ds := by
  subst hi
  have htopics := Context.mapM_declared
    ⟨⟨text, (importSpecs layout).filterMap (importOf find)⟩, dialect⟩ layout.declarations
  rw [mapM_eq_ok.2 h] at htopics
  obtain ⟨dss, hdecl, rfl⟩ := map_eq_ok.1 htopics
  exact ⟨_, bind_eq_ok.2 ⟨dss, mapError_eq_ok.2 hdecl, rfl⟩, rfl, rfl, rfl⟩

/-- A name stands for the first declaration that goes by it. -/
theorem get?_view {δ α : Type} {view : δ → Option α} {name : α → String} {ds : List δ} {k : String}
    {a : α} :
    (Table.ofFirst ((ds.filterMap view).map fun a => (name a, a))).get? k = some a ↔
      ∃ front d back, ds = front ++ d :: back ∧ view d = some a ∧ name a = k ∧
        ∀ e ∈ front, ∀ b, view e = some b → name b ≠ k := by
  rw [Table.get?_ofFirst, List.lookup_eq_some_iff]
  constructor
  · rintro ⟨u, v, he, hu⟩
    obtain ⟨us, vs, hs, rfl, hv⟩ := List.map_eq_append_iff.1 he
    obtain ⟨b, ws, rfl, hb, -⟩ := List.map_eq_cons_iff.1 hv
    obtain ⟨rfl, rfl⟩ := Prod.mk.inj hb
    obtain ⟨front, rest, rfl, rfl, hrest⟩ := List.filterMap_eq_append_iff.1 hs
    obtain ⟨gap, d, back, rfl, hgap, hd, -⟩ := List.filterMap_eq_cons_iff.1 hrest
    refine ⟨front ++ gap, d, back, by simp, hd, rfl, fun e he c hc hk => ?_⟩
    rcases List.mem_append.1 he with he | he
    · have hmem : (name c, c) ∈ (front.filterMap view).map fun a => (name a, a) :=
        List.mem_map_of_mem (List.mem_filterMap.2 ⟨e, he, hc⟩)
      simpa [hk] using hu _ hmem
    · rw [hgap e he] at hc
      cases hc
  · rintro ⟨front, d, back, rfl, hd, rfl, hf⟩
    refine ⟨(front.filterMap view).map fun a => (name a, a),
      (back.filterMap view).map fun a => (name a, a), by simp [hd], fun e he => ?_⟩
    obtain ⟨b, hb, rfl⟩ := List.mem_map.1 he
    obtain ⟨e, he, hv⟩ := List.mem_filterMap.1 hb
    exact bne_iff_ne.2 (hf e he b hv).symm

/-- A target of some kind names the first declaration that goes by it. -/
theorem get?_wrap {α : Type} (view : Declared → Option α) (wrap : α → Declared) (name : α → String)
    (kind : TargetKind) (hw : ∀ e a, view e = some a ↔ e = wrap a)
    (ht : ∀ a, (wrap a).target = (kind, name a)) (hk : ∀ e, e.target.1 = kind → ∃ a, e = wrap a)
    (k : String) :
    ((Table.ofFirst ((ds.filterMap view).map fun a => (name a, a))).get? k).map wrap = some d ↔
      ∃ front back, ds = front ++ d :: back ∧ d.target = (kind, k) ∧
        ∀ e ∈ front, e.target ≠ (kind, k) := by
  rw [Option.map_eq_some_iff]
  constructor
  · rintro ⟨a, ha, rfl⟩
    obtain ⟨front, d, back, rfl, hd, rfl, hf⟩ := get?_view.1 ha
    obtain rfl := (hw d a).1 hd
    refine ⟨front, back, rfl, ht a, fun e he hte => ?_⟩
    obtain ⟨b, rfl⟩ := hk e (congrArg Prod.fst hte)
    rw [ht b] at hte
    exact hf _ he b ((hw _ b).2 rfl) (Prod.mk.inj hte).2
  · rintro ⟨front, back, rfl, hd, hf⟩
    obtain ⟨a, rfl⟩ := hk d (congrArg Prod.fst hd)
    rw [ht a] at hd
    refine ⟨a, get?_view.2 ⟨front, wrap a, back, rfl, (hw _ a).2 rfl, (Prod.mk.inj hd).2, ?_⟩, rfl⟩
    rintro e he b hb rfl
    exact hf e he (by rw [(hw e b).1 hb, ht b])

/-- The declaration that a target names. -/
def declared? (o : Outline) : TargetKind × String → Option Declared
  | (.struct, name) => (o.structure? name).map .struct
  | (.interface, name) => (o.interface? name).map .interface
  | (.function, key) => (o.function? key).map .function

theorem declared?_struct {name : String} {s : Structure} :
    o.declared? (.struct, name) = some (.struct s) ↔ o.structure? name = some s := by
  simp [declared?]

theorem declared?_interface {name : String} {i : Interface} :
    o.declared? (.interface, name) = some (.interface i) ↔ o.interface? name = some i := by
  simp [declared?]

theorem declared?_function {key : String} {f : Function} :
    o.declared? (.function, key) = some (.function f) ↔ o.function? key = some f := by
  simp [declared?]

theorem Tabulates.declared?_eq_some (h : o.Tabulates ds) {target : TargetKind × String} :
    o.declared? target = some d ↔ ∃ front back, ds = front ++ d :: back ∧ d.target = target ∧
      ∀ e ∈ front, e.target ≠ target := by
  obtain ⟨kind, name⟩ := target
  cases kind with
  | struct =>
      rw [declared?, structure?, h.structures]
      exact get?_wrap Declared.structure? Declared.struct Structure.name .struct
        (fun e a => by cases e <;> simp [Declared.structure?]) (fun _ => rfl)
        (fun e he => by cases e <;> first | exact ⟨_, rfl⟩ | cases he) name
  | interface =>
      rw [declared?, interface?, h.interfaces]
      exact get?_wrap Declared.interface? Declared.interface Interface.name .interface
        (fun e a => by cases e <;> simp [Declared.interface?]) (fun _ => rfl)
        (fun e he => by cases e <;> first | exact ⟨_, rfl⟩ | cases he) name
  | function =>
      rw [declared?, function?, h.functions]
      exact get?_wrap Declared.function? Declared.function Function.key .function
        (fun e a => by cases e <;> simp [Declared.function?]) (fun _ => rfl)
        (fun e he => by cases e <;> first | exact ⟨_, rfl⟩ | cases he) name

theorem Tabulates.declared?_eq_find? (h : o.Tabulates ds) (target : TargetKind × String) :
    o.declared? target = ds.find? (·.target == target) := by
  refine Option.ext fun d => ?_
  rw [h.declared?_eq_some, List.find?_eq_some_iff_append]
  constructor
  · rintro ⟨front, back, hds, ht, hf⟩
    exact ⟨beq_iff_eq.2 ht, front, back, hds, by simpa using hf⟩
  · rintro ⟨ht, front, back, hds, hf⟩
    exact ⟨front, back, hds, beq_iff_eq.1 ht, by simpa using hf⟩

/-- A text with the head of another one and declarations of its own is laid out and read with this head. -/
theorem exists_redeclared {items : List (Sibling Item)} {front decls : List (Documented Item)}
    {u : List Char} {r : Nat → Bool} (hs : Shows dialect find text layout o)
    (htree : Tree.ofText? text' = some ⟨items⟩)
    (hright : Layout.Right (attach Item.extent items) (.ok { layout with declarations := decls }))
    (himports : ∀ i ∈ layout.imports, ∃ e ∈ front, Layout.Imports e i)
    (hfix : ∀ d ∈ front, (upto u).item d.item = d.item)
    (hk : Keeps (fun m => decide (IsBoundary u m)) r id id text text')
    (hds : List.Forall₂ (fun t d => (Context.mk ⟨text', o.imports⟩ dialect).describe t = .ok d)
      (Tree.mk items).topics ds) :
    ∃ p, Shows dialect find text' { layout with declarations := decls } p ∧ o.SameHead p ∧
      p.Tabulates ds := by
  have hl : layoutOf text' = .ok { layout with declarations := decls } := (layoutOf_ok_iff htree).2 hright
  have htopics : decls.flatMap itemTopics = (Tree.mk items).topics :=
    Layout.topics_declarations (Layout.ofItems_eq_iff.2 hright)
  obtain ⟨hpackage, hend, htext, himp, hdeclOf, -⟩ := ofLayout_eq_ok hs.read
  rw [← htopics] at hds
  obtain ⟨p, hp, htab⟩ := exists_tabulates { layout with declarations := decls } himp.symm hds
  obtain ⟨hpackage', hend', htext', himp', hdeclOf', -⟩ := ofLayout_eq_ok hp
  refine ⟨p, ⟨hl, hp⟩, ⟨by rw [hpackage', hpackage], by rw [hend', hend], by rw [himp', himp]; rfl,
    by rw [hdeclOf', hdeclOf], fun i hi => ?_⟩, htab⟩
  rw [hdeclOf] at hi
  obtain ⟨i, hmem, rfl⟩ := List.mem_map.1 hi
  obtain ⟨e, he, himports⟩ := himports i hmem
  have hspan : (upto u).span i.1.span = i.1.span := by
    rw [← himports.1]
    exact congrArg (fun i : Item => i.extent.span) (hfix e he)
  rw [htext', htext]
  exact hk.slice _ (kept_span hspan).1 (kept_span hspan).2

/-- What stays up to a text is described as it was where the text goes on in another way. -/
theorem Context.forall₂_describe_front {imports : List Import} {ts : List Topic} {q : Nat → Bool}
    {p : Nat → Bool} (h : Keeps p q id id text text') (ht : ts.map (sieve p q).topic = ts)
    (hd : List.Forall₂ (fun t d => (Context.mk ⟨text, imports⟩ dialect).describe t = .ok d) ts ds) :
    List.Forall₂ (fun t d => (Context.mk ⟨text', imports⟩ dialect).describe t = .ok d) ts ds ∧
      ∀ d ∈ ds, d.via (past p) = d := by
  obtain ⟨hds, hstay⟩ := Context.forall₂_describe h ht hd
  have hnone : ts.map (plain id id).topic = ts := by
    rw [plain_id]
    exact map_none none_topic ts
  have hid : ds.map (Declared.via id) = ds :=
    (List.map_congr_left fun d _ => d.via_id).trans (List.map_id ds)
  rw [hnone, hid] at hds
  exact ⟨hds, hstay⟩

/-- A text where one declaration is another one and those behind it move is laid out and read like the
old one. -/
theorem exists_replaced {items items' : List (Sibling Item)} {front back : List (Documented Item)}
    {a a' : Documented Item} {v : Item → Item} {u : List Char} {r : Nat → Bool}
    (hs : Shows dialect find text layout o)
    (htree : Tree.ofText? text = some ⟨items⟩) (htree' : Tree.ofText? text' = some ⟨items'⟩)
    (hitems : attach Item.extent items = front ++ a :: back)
    (hitems' : attach Item.extent items' = front ++ a' :: back.map (documented v))
    (ha : Layout.isDeclaration a.item) (ha' : Layout.isDeclaration a'.item)
    (hv : ∀ i, Layout.isDeclaration (v i) = Layout.isDeclaration i)
    (hfix : ∀ d ∈ front, (upto u).item d.item = d.item)
    (hk : Keeps (fun m => decide (IsBoundary u m)) r id id text text')
    (hds : List.Forall₂ (fun t d => (Context.mk ⟨text', o.imports⟩ dialect).describe t = .ok d)
      (Tree.mk items').topics ds) :
    ∃ layout' p, Shows dialect find text' layout' p ∧ layout'.imports = layout.imports ∧
      o.SameHead p ∧ p.Tabulates ds := by
  have hright := (layoutOf_ok_iff htree).1 hs.laid
  rw [hitems] at hright
  obtain ⟨between, -, hright', himports⟩ := Layout.right_replace a' v hright ha ha' hv
  rw [← hitems'] at hright'
  obtain ⟨p, hs', hhead, htab⟩ := exists_redeclared hs htree' hright' himports hfix hk hds
  exact ⟨_, p, hs', rfl, hhead, htab⟩

/-- An outline where one declaration is another one. What is declared in front of it ends with a text
and stays, and what is declared behind it starts at a byte and moves on. -/
structure Moves (target : TargetKind × String) (d' : Declared) (u : List Char) (n : Nat)
    (b : Nat → Nat) (o p : Outline) : Prop extends SameHead o p where
  declared : ∃ ds d es, o.Tabulates (ds ++ d :: es) ∧
    p.Tabulates (ds ++ d' :: es.map (Declared.via b)) ∧ d.target = target ∧ d'.target = target ∧
    (∀ e ∈ ds, e.target ≠ target) ∧
    (∀ e ∈ ds, e.via (past fun m => decide (IsBoundary u m)) = e) ∧
    ∀ e ∈ es, e.via (past fun m => decide (n ≤ m)) = e

theorem Declared.target_via (b : Nat → Nat) (d : Declared) : (d.via b).target = d.target := by
  cases d <;> rfl

namespace Moves

variable {target : TargetKind × String} {u : List Char} {n : Nat} {b : Nat → Nat}

/-- What stands under a name in the two outlines is looked up in the declarations around, or it is the
one that changes. -/
theorem declared?_eq (h : o.Moves target d' u n b p) : ∃ ds es : List Declared,
    (∀ e ∈ ds, e.via (past fun m => decide (IsBoundary u m)) = e) ∧
    (∀ e ∈ es, e.via (past fun m => decide (n ≤ m)) = e) ∧
    p.declared? target = some d' ∧ ∀ other ≠ target,
      o.declared? other = (ds.find? (·.target == other)).or (es.find? (·.target == other)) ∧
      p.declared? other = (ds.find? (·.target == other)).or
        ((es.find? (·.target == other)).map (Declared.via b)) := by
  obtain ⟨ds, d, es, ho, hp, rfl, htarget, hno, hfront, hback⟩ := h.declared
  have hnone : ds.find? (·.target == d.target) = Option.none := by simpa using hno
  refine ⟨ds, es, hfront, hback, ?_, fun other hne => ⟨?_, ?_⟩⟩
  · simp [hp.declared?_eq_find?, List.find?_append, hnone, htarget]
  · simp [ho.declared?_eq_find?, List.find?_append, hne.symm]
  · have hcarried : (·.target == other) ∘ Declared.via b = (·.target == other) := by
      funext e
      rw [Function.comp_apply, Declared.target_via]
    rw [hp.declared?_eq_find?, List.find?_append, List.find?_cons_of_neg (by simp [htarget, hne.symm]),
      List.find?_map, hcarried]

/-- Every other declaration stays where it is or moves on. -/
theorem declared?_other (h : o.Moves target d' u n b p) {other : TargetKind × String}
    (hne : other ≠ target) {e : Declared} (he : o.declared? other = some e) :
    (p.declared? other = some e ∧ e.via (past fun m => decide (IsBoundary u m)) = e) ∨
      (p.declared? other = some (e.via b) ∧ e.via (past fun m => decide (n ≤ m)) = e) := by
  obtain ⟨ds, es, hfront, hback, -, hother⟩ := h.declared?_eq
  obtain ⟨ho, hp⟩ := hother other hne
  rw [ho] at he
  cases hds : ds.find? (·.target == other) with
  | some x =>
      rw [hds] at he hp
      obtain rfl := Option.some.inj he
      exact .inl ⟨hp, hfront x (List.mem_of_find?_eq_some hds)⟩
  | none =>
      rw [hds, Option.none_or] at he hp
      rw [he] at hp
      exact .inr ⟨hp, hback e (List.mem_of_find?_eq_some he)⟩

end Moves

section Spared

variable (target : TargetKind × String) (text text' : List Char)

/-- The same at another place, or one under the same name as a given one. -/
def Structure.Spared (s t : Structure) : Prop :=
  s.Kept text text' t ∨ target = (.struct, s.name) ∧ target = (.struct, t.name)

def Interface.Spared (i j : Interface) : Prop :=
  i.Kept text text' j ∨ target = (.interface, i.name) ∧ target = (.interface, j.name)

def Function.Spared (f g : Function) : Prop :=
  f.Kept text text' g ∨ target = (.function, f.key) ∧ target = (.function, g.key)

def Declared.Spared (d e : Declared) : Prop :=
  d.Kept text text' e ∨ d.target = target ∧ e.target = target

/-- Two outlines say the same, at other places, of everything but one declaration. -/
structure Spared (o p : Outline) : Prop extends SameHead o p where
  structures : o.structures.Matches (Structure.Spared target o.text p.text) p.structures
  interfaces : o.interfaces.Matches (Interface.Spared target o.text p.text) p.interfaces
  functions : o.functions.Matches (Function.Spared target o.text p.text) p.functions

variable {target text text'}

theorem Structure.Spared.name {s t : Structure} (h : s.Spared target text text' t) :
    s.name = t.name := by
  rcases h with h | ⟨hs, ht⟩
  · exact h.name.symm
  · exact (Prod.mk.inj (hs.symm.trans ht)).2

theorem Interface.Spared.name {i j : Interface} (h : i.Spared target text text' j) :
    i.name = j.name := by
  rcases h with h | ⟨hi, hj⟩
  · exact h.name.symm
  · exact (Prod.mk.inj (hi.symm.trans hj)).2

theorem Function.Spared.key {f g : Function} (h : f.Spared target text text' g) :
    f.key = g.key := by
  rcases h with h | ⟨hf, hg⟩
  · exact h.key.symm
  · exact (Prod.mk.inj (hf.symm.trans hg)).2

namespace Declared.Spared

theorem structure? (h : d.Spared target text text' d') :
    Option.Rel (Structure.Spared target text text') d.structure? d'.structure? := by
  rcases h with ⟨⟨h⟩ | ⟨h⟩ | ⟨h⟩⟩ | ⟨rfl, he⟩
  · exact .some (.inl h)
  · exact .none
  · exact .none
  · cases d <;> cases d' <;> first | exact .none | exact .some (.inr ⟨rfl, he.symm⟩) | cases he

theorem interface? (h : d.Spared target text text' d') :
    Option.Rel (Interface.Spared target text text') d.interface? d'.interface? := by
  rcases h with ⟨⟨h⟩ | ⟨h⟩ | ⟨h⟩⟩ | ⟨rfl, he⟩
  · exact .none
  · exact .some (.inl h)
  · exact .none
  · cases d <;> cases d' <;> first | exact .none | exact .some (.inr ⟨rfl, he.symm⟩) | cases he

theorem function? (h : d.Spared target text text' d') :
    Option.Rel (Function.Spared target text text') d.function? d'.function? := by
  rcases h with ⟨⟨h⟩ | ⟨h⟩ | ⟨h⟩⟩ | ⟨rfl, he⟩
  · exact .none
  · exact .none
  · exact .some (.inl h)
  · cases d <;> cases d' <;> first | exact .none | exact .some (.inr ⟨rfl, he.symm⟩) | cases he

end Declared.Spared

theorem spared_of_forall₂ (hh : o.SameHead p) (ho : o.Tabulates ds) (hp : p.Tabulates ds')
    (h : List.Forall₂ (Declared.Spared target o.text p.text) ds ds') : o.Spared target p := by
  refine ⟨hh, ?_, ?_, ?_⟩
  · rw [ho.structures, hp.structures]
    exact Table.matches_ofFirst (forall₂_view (R := Structure.Spared target o.text p.text)
      (fun _ _ h => h.structure?) (fun _ _ h => h.name) h)
  · rw [ho.interfaces, hp.interfaces]
    exact Table.matches_ofFirst (forall₂_view (R := Interface.Spared target o.text p.text)
      (fun _ _ h => h.interface?) (fun _ _ h => h.name) h)
  · rw [ho.functions, hp.functions]
    exact Table.matches_ofFirst (forall₂_view (R := Function.Spared target o.text p.text)
      (fun _ _ h => h.function?) (fun _ _ h => h.key) h)

theorem Context.target_of_describe {cx : Context} {t : Topic} {d : Declared}
    (h : cx.describe t = .ok d) : t.function? = Option.none ↔ d.target.1 ≠ .function := by
  cases t with
  | struct b =>
      obtain ⟨s, -, rfl⟩ := map_eq_ok.1 h
      simp [Topic.function?, Declared.target]
  | interface b =>
      obtain ⟨i, -, rfl⟩ := map_eq_ok.1 h
      simp [Topic.function?, Declared.target]
  | function b =>
      obtain ⟨f, -, rfl⟩ := map_eq_ok.1 h
      simp [Topic.function?, Declared.target]

/-- What does not change but for its place is spared. -/
theorem Moves.spared {u : List Char} {n : Nat} {b : Nat → Nat} {r r' : Nat → Bool} {i : Nat → Nat}
    (h : o.Moves target d' u n b p)
    (hfront : Keeps (fun m => decide (IsBoundary u m)) r id id o.text p.text)
    (hback : Keeps (fun m => decide (n ≤ m)) r' b i o.text p.text) : o.Spared target p := by
  obtain ⟨ds, d, es, ho, hp, htarget, htarget', -, hstay, hmove⟩ := h.declared
  refine spared_of_forall₂ h.toSameHead ho hp (List.rel_append ?_ (.cons (.inr ⟨htarget, htarget'⟩) ?_))
  · refine List.forall₂_same.2 fun d hd => .inl ?_
    have hkept := d.kept_via hfront (hstay d hd)
    rwa [d.via_id] at hkept
  · exact List.forall₂_map_right_iff.2 (List.forall₂_same.2 fun e he => .inl (e.kept_via hback (hmove e he)))

end Spared

/-- A text gives way to one that is read with another declaration in the place of one. What stands in
front of the blanks at the end of a span stays, and what stands behind the span moves on. -/
structure Turns (target : TargetKind × String) (d' : Declared) (s : Span) (text text' : List Char)
    (o p : Outline) : Prop where
  moves : ∃ b : Nat → Nat, o.Moves target d' (trimEnd (takeBytes s.stop text)) s.stop b p ∧
    ∀ n, s.stop ≤ n → b n + byteLength text = n + byteLength text'
  spared : o.Spared target p

/-- What an outline says of a definition and of all that is declared around it. -/
structure Locates (dialect : Annotation.Dialect) (text : List Char) (o : Outline) (h : Hole)
    (ds : List Declared) (d : Declared) (es : List Declared) : Prop where
  tree : Tree.ofText? text = some ⟨h.items⟩
  front : List.Forall₂ (fun t d => (Context.mk ⟨text, o.imports⟩ dialect).describe t = .ok d) h.front ds
  topic : ∃ t, (TypeEntry.definition h.spec).topics h.span h.docs = [t] ∧
    (Context.mk ⟨text, o.imports⟩ dialect).describe t = .ok d
  back : List.Forall₂ (fun t d => (Context.mk ⟨text, o.imports⟩ dialect).describe t = .ok d) h.back es
  tabulates : o.Tabulates (ds ++ d :: es)
  first : ∀ e ∈ ds, e.target ≠ d.target

/-- What a definition declares is what stands under its name. -/
theorem Locates.declared? {h : Hole} (ha : Locates dialect text o h ds d es) :
    o.declared? d.target = some d :=
  ha.tabulates.declared?_eq_some.2 ⟨ds, es, rfl, rfl, ha.first⟩

/-- What an outline says under a name is what a text declares, with all that it declares around. -/
theorem exists_described {target : TargetKind × String} (hs : Shows dialect find text layout o)
    (hd : o.declared? target = some d) :
    ∃ tree ts t us ds es, Tree.ofText? text = some tree ∧ tree.topics = ts ++ t :: us ∧
      List.Forall₂ (fun t d => (Context.mk ⟨text, o.imports⟩ dialect).describe t = .ok d) ts ds ∧
      (Context.mk ⟨text, o.imports⟩ dialect).describe t = .ok d ∧
      List.Forall₂ (fun t d => (Context.mk ⟨text, o.imports⟩ dialect).describe t = .ok d) us es ∧
      o.Tabulates (ds ++ d :: es) ∧ d.target = target ∧ ∀ e ∈ ds, e.target ≠ target := by
  obtain ⟨hl, ho⟩ := hs
  obtain ⟨-, -, -, -, -, ds, hds, htab⟩ := ofLayout_eq_ok ho
  obtain ⟨tree, htree, hitems, -⟩ := layoutOf_eq_ok hl
  rw [Layout.topics_declarations hitems] at hds
  obtain ⟨front, back, rfl, htarget, hf⟩ := htab.declared?_eq_some.1 hd
  have hfront := List.forall₂_take_append _ _ _ hds
  obtain ⟨t, ts, hd, hback, hdrop⟩ :=
    List.forall₂_cons_right_iff.1 (List.forall₂_drop_append _ _ _ hds)
  have htopics : tree.topics = tree.topics.take front.length ++ t :: ts := by
    rw [← hdrop, List.take_append_drop]
  exact ⟨tree, _, t, ts, front, back, htree, htopics, hfront, hd, hback, htab, htarget, hf⟩

/-- A structure or interface of an outline is described by a definition in the text. -/
theorem exists_owner {target : TargetKind × String} (hs : Shows dialect find text layout o)
    (hd : o.declared? target = some d) (hk : target.1 ≠ .function) :
    ∃ h ds es, Locates dialect text o h ds d es ∧ d.target = target := by
  obtain ⟨tree, _, t, _, ds, es, htree, htopics, hfront, ht, hback, htab, rfl, hf⟩ := exists_described hs hd
  obtain ⟨h, hitems, rfl, rfl, hone⟩ := exists_hole htopics ((Context.target_of_describe ht).2 hk)
  exact ⟨h, ds, es, ⟨hitems ▸ htree, hfront, ⟨t, hone, ht⟩, hback, htab, hf⟩, rfl⟩

/-- Where a definition grows, the outline says the same of everything else. -/
theorem Locates.grown {h : Hole} {x : Addition} {u : List Char} {n r : Nat} {t : Topic}
    (ha : Locates dialect text o h ds d es) (hs : Shows dialect find text layout o)
    (hg : h.Grows x u n r text text')
    (htree' : Tree.ofText? text' = some ⟨(h.grown x).items⟩)
    (hone : (TypeEntry.definition (h.grown x).spec).topics (h.grown x).span (h.grown x).docs = [t])
    (ht : (Context.mk ⟨text', o.imports⟩ dialect).describe t = .ok d') (hd : d'.target = d.target) :
    ∃ layout' p, Shows dialect find text' layout' p ∧ layout'.imports = layout.imports ∧
      Locates dialect text' p (h.grown x) ds d' (es.map (Declared.via x.shift.byte)) ∧
      o.Moves d.target d' u n x.shift.byte p ∧ o.Spared d.target p := by
  obtain ⟨front, back, hitems, hitems', hfix⟩ := hg.attach_grown
  obtain ⟨hds, hstay⟩ := Context.forall₂_describe_front hg.front hg.topic_front ha.front
  obtain ⟨hes, hmove⟩ := Context.forall₂_describe hg.back hg.topic_back ha.back
  have heach : List.Forall₂ (fun t d => (Context.mk ⟨text', o.imports⟩ dialect).describe t = .ok d)
      (Tree.mk (h.grown x).items).topics (ds ++ d' :: es.map (Declared.via x.shift.byte)) := by
    rw [Hole.topics_items, Hole.grown_front, hg.back_grown, List.append_assoc, hone]
    exact List.rel_append hds (.cons ht hes)
  obtain ⟨layout', p, hs', himports, hhead, htab'⟩ := exists_replaced hs ha.tree htree' hitems
    hitems' rfl rfl (fun i => by rcases i with ⟨e, _ | _ | _ | _ | _ | _⟩ <;> rfl) hfix hg.front heach
  have hmoves : o.Moves d.target d' u n x.shift.byte p :=
    ⟨hhead, ds, d, es, ha.tabulates, htab', rfl, hd, ha.first, hstay, hmove⟩
  have hfront' := hg.front
  have hback' := hg.back
  rw [← (ofLayout_eq_ok hs.read).2.2.1, ← (ofLayout_eq_ok hs'.read).2.2.1] at hfront' hback'
  refine ⟨layout', p, hs', himports, ⟨htree', ?_, ⟨t, hone, ?_⟩, ?_, htab', ?_⟩, hmoves,
    hmoves.spared hfront' hback'⟩
  · rwa [Hole.grown_front, hhead.imports]
  · rwa [hhead.imports]
  · rwa [hg.back_grown, hhead.imports]
  · rw [hd]
    exact ha.first

end Outline

end GoOutline
