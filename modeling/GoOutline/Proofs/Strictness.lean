import GoOutline.Proofs.Inventory

/-!
What becomes of a line with the marker that is no annotation. A strict reading stops at the first
of them; a lenient one, which never fails, keeps them as documentation. Both go through the doc
lines of a file in the same order, so that they agree where there is none.
-/

namespace GoOutline

open Text Syntax Docs

namespace Annotation

variable {marker line : String} {docs : List String} {e : AnnotationError}

/-- The line starts with the marker and a colon, and the rest is no annotation. -/
def Malformed (marker line : String) (fault : AnnotationFault) : Prop :=
  ∃ body, trim line.toList = marker.toList ++ ':' :: body ∧ readBody body = .error fault

/-- What a strict reading says about a line. -/
def error? (marker line : String) : Option AnnotationError :=
  match ofLine? marker line with
  | .error e => some e
  | .ok _ => none

/-- What a lenient reading takes for the annotation on a line. -/
def found? (marker line : String) : Option Annotation :=
  match ofLine? marker line with
  | .error _ => none
  | .ok a => a

/-- Plain lines and annotations, each in order. -/
def split (marker : String) (docs : List String) : List String × List Annotation :=
  (docs.filter fun line => (found? marker line).isNone, docs.filterMap (found? marker))

theorem after?_marker {s body : List Char} :
    (after? marker s).bind (after? ":") = some body ↔ s = marker.toList ++ ':' :: body := by
  rw [Option.bind_eq_some_iff]
  simp only [after?, List.isPrefixOf?_eq_some_iff_append_eq]
  constructor
  · rintro ⟨rest, rfl, rfl⟩
    rfl
  · rintro rfl
    exact ⟨_, rfl, rfl⟩

theorem ofLine?_eq_error : ofLine? marker line = .error e ↔
    ∃ fault, Malformed marker line fault ∧ e = ⟨String.ofList (trim line.toList), fault⟩ := by
  simp only [ofLine?, Malformed, ← after?_marker]
  cases (after? marker (trim line.toList)).bind (after? ":") with
  | none => simp
  | some body =>
      cases hr : readBody body with
      | ok a => simp [hr]
      | error fault => simp [hr, eq_comm]

theorem error?_eq_some : error? marker line = some e ↔
    ∃ fault, Malformed marker line fault ∧ e = ⟨String.ofList (trim line.toList), fault⟩ := by
  rw [← ofLine?_eq_error, error?]
  cases ofLine? marker line <;> simp

theorem error?_eq_none : error? marker line = none ↔ ∀ fault, ¬ Malformed marker line fault := by
  simp only [Option.eq_none_iff_forall_ne_some, ne_eq, error?_eq_some]
  grind

/-- A line that a strict reading refuses stays documentation in a lenient one. -/
theorem Malformed.mem_split {fault : AnnotationFault} (h : Malformed marker line fault)
    (hl : line ∈ docs) : line ∈ (split marker docs).1 := by
  have he := ofLine?_eq_error.2 ⟨fault, h, rfl⟩
  exact List.mem_filter.2 ⟨hl, by simp [found?, he]⟩

theorem partition_lenient (marker : String) (docs : List String) :
    partition ⟨marker, false⟩ docs = .ok (split marker docs) := by
  induction docs with
  | nil => rfl
  | cons line docs ih =>
      rw [partition, ih]
      rcases h : ofLine? marker line with e | _ | a <;>
        simp [split, found?, h, Functor.map, Except.map]

end Annotation

section Refuses

variable {ε ε' α β : Type} {es es' : List ε} {x y : Except ε α}

/-- The one computation succeeds, and the other stops with the first of some errors. It agrees with
the one if there is none. -/
def Refuses (es : List ε) (x y : Except ε α) : Prop :=
  ∃ a, x = .ok a ∧ y = es.head?.elim (.ok a) .error

namespace Refuses

theorem ok (a : α) : Refuses ([] : List ε) (.ok a) (.ok a) := ⟨a, rfl, rfl⟩

theorem bind (h : Refuses es x y) {f g : α → Except ε β} (hf : ∀ a, Refuses es' (f a) (g a)) :
    Refuses (es ++ es') (x >>= f) (y >>= g) := by
  obtain ⟨a, rfl, rfl⟩ := h
  obtain ⟨b, hb, hg⟩ := hf a
  refine ⟨b, hb, ?_⟩
  cases es with
  | nil => exact hg
  | cons e es => rfl

theorem map (h : Refuses es x y) (f : α → β) : Refuses es (f <$> x) (f <$> y) := by
  obtain ⟨a, rfl, rfl⟩ := h
  refine ⟨f a, rfl, ?_⟩
  cases es <;> rfl

theorem mapError (h : Refuses es x y) (f : ε → ε') :
    Refuses (es.map f) (x.mapError f) (y.mapError f) := by
  obtain ⟨a, rfl, rfl⟩ := h
  refine ⟨a, rfl, ?_⟩
  cases es <;> rfl

theorem mapM {f g : α → Except ε β} {errors : α → List ε}
    (h : ∀ a, Refuses (errors a) (f a) (g a)) (as : List α) :
    Refuses (as.flatMap errors) (as.mapM f) (as.mapM g) := by
  induction as with
  | nil => exact ok []
  | cons a as ih =>
      rw [List.mapM_cons, List.mapM_cons, List.flatMap_cons]
      exact (h a).bind fun b => ih.map (b :: ·)

end Refuses

end Refuses

namespace Syntax

/-- The docs of a method. Those of an embedded interface are not read. -/
def methodDocs (d : Documented InterfaceElem) : List (List String) :=
  match d.item with
  | .method _ => [d.docs]
  | .embedding .. => []

/-- The lists of doc lines that belong to a declaration and to what stands in it, in the order in
which they are read. -/
def Topic.docGroups : Topic → List (List String)
  | .struct d => d.docs :: (attach FieldDecl.extent d.body.fields).map Documented.docs
  | .interface d => d.docs :: (attach InterfaceElem.extent d.body.elems).flatMap methodDocs
  | .function d => [d.docs]

namespace Tree

def docGroups (t : Tree) : List (List String) := t.topics.flatMap Topic.docGroups

/-- The doc lines of all that is described, whether or not its name has come before. -/
def docLines (t : Tree) : List String := t.docGroups.flatten

end Tree

end Syntax

namespace Outline

open Annotation

variable {marker : String} {scope : Scope} {find : Finder} {text : List Char} {o : Outline}

/-- The errors in some lists of doc lines. -/
def errorsIn (marker : String) (groups : List (List String)) : List AnnotationError :=
  groups.flatMap fun docs => docs.filterMap (error? marker)

theorem errorsIn_cons (marker : String) (docs : List String) (groups : List (List String)) :
    errorsIn marker (docs :: groups) =
      docs.filterMap (error? marker) ++ errorsIn marker groups :=
  List.flatMap_cons

theorem errorsIn_map {α : Type} (marker : String) (docs : α → List String) (as : List α) :
    errorsIn marker (as.map docs) = as.flatMap fun a => errorsIn marker [docs a] := by
  simp [errorsIn, List.flatMap_map]

theorem errorsIn_flatMap {α : Type} (marker : String) (groups : α → List (List String))
    (as : List α) : errorsIn marker (as.flatMap groups) =
      as.flatMap fun a => errorsIn marker (groups a) :=
  List.flatMap_assoc

theorem head?_errorsIn (marker : String) (groups : List (List String)) :
    (errorsIn marker groups).head? = groups.flatten.findSome? (error? marker) := by
  rw [← List.head?_filterMap, List.filterMap_flatten, errorsIn, List.flatMap_def]

namespace Context

theorem refuses_partition (marker : String) (docs : List String) :
    Refuses (docs.filterMap (error? marker))
      (partition ⟨marker, false⟩ docs) (partition ⟨marker, true⟩ docs) := by
  refine ⟨_, partition_lenient marker docs, ?_⟩
  induction docs with
  | nil => rfl
  | cons line docs ih =>
      rw [partition]
      rcases h : Annotation.ofLine? marker line with e | _ | a
      · simp [error?, h]
      · simp only [ih, h, error?, split, found?,
          List.filterMap_cons, List.filter_cons]
        cases docs.filterMap (error? marker) <;> rfl
      · simp only [ih, h, error?, split, found?,
          List.filterMap_cons, List.filter_cons]
        cases docs.filterMap (error? marker) <;> rfl

variable (marker : String) (scope : Scope)

theorem refuses_fields (d : Documented FieldDecl) :
    Refuses (errorsIn marker [d.docs])
      (fields ⟨scope, ⟨marker, false⟩⟩ d) (fields ⟨scope, ⟨marker, true⟩⟩ d) :=
  (refuses_partition marker d.docs).bind fun ⟨_, _⟩ => .ok _

theorem refuses_structureOf (d : Titled StructBody) :
    Refuses (errorsIn marker (Topic.struct d).docGroups)
      (structureOf ⟨scope, ⟨marker, false⟩⟩ d.name d.span d.docs d.body)
      (structureOf ⟨scope, ⟨marker, true⟩⟩ d.name d.span d.docs d.body) := by
  rw [Topic.docGroups, errorsIn_cons, errorsIn_map]
  refine (refuses_partition marker d.docs).bind fun ⟨_, _⟩ => ?_
  exact (Refuses.mapM (refuses_fields marker scope) _).map _

theorem refuses_method? (d : Documented InterfaceElem) :
    Refuses (errorsIn marker (methodDocs d))
      (method? ⟨scope, ⟨marker, false⟩⟩ d) (method? ⟨scope, ⟨marker, true⟩⟩ d) := by
  rw [method?, method?, methodDocs]
  cases d.item with
  | embedding extent first rest => exact .ok none
  | method m => exact (refuses_partition marker d.docs).bind fun ⟨_, _⟩ => .ok _

theorem refuses_interfaceOf (d : Titled InterfaceBody) :
    Refuses (errorsIn marker (Topic.interface d).docGroups)
      (interfaceOf ⟨scope, ⟨marker, false⟩⟩ d.name d.span d.docs d.body)
      (interfaceOf ⟨scope, ⟨marker, true⟩⟩ d.name d.span d.docs d.body) := by
  rw [Topic.docGroups, errorsIn_cons, errorsIn_flatMap]
  refine (refuses_partition marker d.docs).bind fun ⟨_, _⟩ => ?_
  exact (Refuses.mapM (refuses_method? marker scope) _).map _

theorem refuses_functionOf (d : Titled FuncDecl) :
    Refuses (errorsIn marker (Topic.function d).docGroups)
      (functionOf ⟨scope, ⟨marker, false⟩⟩ d.span d.docs d.body)
      (functionOf ⟨scope, ⟨marker, true⟩⟩ d.span d.docs d.body) :=
  (refuses_partition marker d.docs).bind fun ⟨_, _⟩ => .ok _

theorem refuses_describe (t : Topic) :
    Refuses (errorsIn marker t.docGroups)
      (describe ⟨scope, ⟨marker, false⟩⟩ t) (describe ⟨scope, ⟨marker, true⟩⟩ t) := by
  cases t with
  | struct d => exact (refuses_structureOf marker scope d).map _
  | interface d => exact (refuses_interfaceOf marker scope d).map _
  | function d => exact (refuses_functionOf marker scope d).map _

theorem refuses_mapM_declared (ds : List (Documented Item)) :
    Refuses (errorsIn marker ((ds.flatMap itemTopics).flatMap Topic.docGroups))
      (ds.mapM (declared ⟨scope, ⟨marker, false⟩⟩)) (ds.mapM (declared ⟨scope, ⟨marker, true⟩⟩)) := by
  rw [List.flatMap_assoc, errorsIn_flatMap]
  refine Refuses.mapM (fun d => ?_) ds
  rw [declared_eq, declared_eq, errorsIn_flatMap]
  exact Refuses.mapM (refuses_describe marker scope) _

end Context

theorem refuses_ofLayout (marker : String) (find : Finder) (text : List Char) {layout : Layout}
    {tree : Tree} (h : layout.declarations.flatMap itemTopics = tree.topics) :
    Refuses ((errorsIn marker tree.docGroups).map Error.markedLine)
      (ofLayout ⟨marker, false⟩ find text layout) (ofLayout ⟨marker, true⟩ find text layout) := by
  have hd := (Context.refuses_mapM_declared marker ⟨text, (importSpecs layout).filterMap
    (importOf find)⟩ layout.declarations).mapError Error.markedLine
  rw [h] at hd
  exact hd.map _

/-- Doc lines and annotations of something that an outline describes. -/
abbrev Notes := List String × List Annotation

def Structure.notes (s : Structure) : List Notes :=
  (s.docs, s.annotations) :: s.fields.map fun f => (f.docs, f.annotations)

def Interface.notes (i : Interface) : List Notes :=
  (i.docs, i.annotations) :: i.methods.map fun m => (m.docs, m.annotations)

def Function.notes (f : Function) : Notes := (f.docs, f.annotations)

def notes (o : Outline) : List Notes :=
  o.structures.values.flatMap Structure.notes ++ o.interfaces.values.flatMap Interface.notes ++
    o.functions.values.map Function.notes

def Declared.notes : Declared → List Notes
  | .struct s => s.notes
  | .interface i => i.notes
  | .function f => [f.notes]

variable {n : Notes}

namespace Context

theorem notes_of_fields {d : Documented FieldDecl} {fs : List Field} {f : Field}
    (h : fields ⟨scope, ⟨marker, false⟩⟩ d = .ok fs) (hf : f ∈ fs) :
    (f.docs, f.annotations) = split marker d.docs := by
  obtain ⟨p, hp, h⟩ := bind_eq_ok.1 h
  cases (partition_lenient marker d.docs).symm.trans hp
  cases h
  cases hd : d.item.head with
  | named names =>
      rw [hd] at hf
      obtain ⟨name, -, rfl⟩ := List.mem_map.1 hf
      rfl
  | embedded pointer =>
      rw [hd] at hf
      cases List.mem_singleton.1 hf
      rfl

theorem notes_of_structureOf {d : Titled StructBody} {s : Structure}
    (h : structureOf ⟨scope, ⟨marker, false⟩⟩ d.name d.span d.docs d.body = .ok s)
    (hn : n ∈ s.notes) : ∃ docs ∈ (Topic.struct d).docGroups, n = split marker docs := by
  obtain ⟨p, hp, h⟩ := bind_eq_ok.1 h
  cases (partition_lenient marker d.docs).symm.trans hp
  obtain ⟨fss, hfss, h⟩ := bind_eq_ok.1 h
  cases h
  rcases List.mem_cons.1 hn with rfl | hn
  · exact ⟨d.docs, List.mem_cons_self, rfl⟩
  · obtain ⟨f, hf, rfl⟩ := List.mem_map.1 hn
    obtain ⟨fs, hfs, hf⟩ := List.mem_flatten.1 hf
    obtain ⟨field, hfield, h⟩ := exists_of_mapM hfss hfs
    exact ⟨field.docs, List.mem_cons_of_mem _ (List.mem_map_of_mem hfield), notes_of_fields h hf⟩

theorem notes_of_method? {d : Documented InterfaceElem} {m : Method}
    (h : method? ⟨scope, ⟨marker, false⟩⟩ d = .ok (some m)) :
    methodDocs d = [d.docs] ∧ (m.docs, m.annotations) = split marker d.docs := by
  rw [method?] at h
  rw [methodDocs]
  cases hd : d.item with
  | embedding extent first rest =>
      rw [hd] at h
      cases h
  | method spec =>
      rw [hd] at h
      obtain ⟨p, hp, h⟩ := bind_eq_ok.1 h
      cases (partition_lenient marker d.docs).symm.trans hp
      cases h
      exact ⟨rfl, rfl⟩

theorem notes_of_interfaceOf {d : Titled InterfaceBody} {i : Interface}
    (h : interfaceOf ⟨scope, ⟨marker, false⟩⟩ d.name d.span d.docs d.body = .ok i)
    (hn : n ∈ i.notes) :
    ∃ docs ∈ (Topic.interface d).docGroups, n = split marker docs := by
  obtain ⟨p, hp, h⟩ := bind_eq_ok.1 h
  cases (partition_lenient marker d.docs).symm.trans hp
  obtain ⟨ms, hms, h⟩ := bind_eq_ok.1 h
  cases h
  rcases List.mem_cons.1 hn with rfl | hn
  · exact ⟨d.docs, List.mem_cons_self, rfl⟩
  · obtain ⟨m, hm, rfl⟩ := List.mem_map.1 hn
    obtain ⟨m, hm, rfl⟩ := List.mem_filterMap.1 hm
    obtain ⟨elem, helem, h⟩ := exists_of_mapM hms hm
    obtain ⟨hdocs, hnotes⟩ := notes_of_method? h
    refine ⟨elem.docs, List.mem_cons_of_mem _ (List.mem_flatMap.2 ⟨elem, helem, ?_⟩), hnotes⟩
    rw [hdocs]
    exact List.mem_singleton_self _

theorem notes_of_functionOf {d : Titled FuncDecl} {f : Function}
    (h : functionOf ⟨scope, ⟨marker, false⟩⟩ d.span d.docs d.body = .ok f) :
    f.notes = split marker d.docs := by
  obtain ⟨p, hp, h⟩ := bind_eq_ok.1 h
  cases (partition_lenient marker d.docs).symm.trans hp
  cases h
  rfl

theorem notes_of_describe {t : Topic} {d : Declared}
    (h : describe ⟨scope, ⟨marker, false⟩⟩ t = .ok d) (hn : n ∈ d.notes) :
    ∃ docs ∈ t.docGroups, n = split marker docs := by
  cases t with
  | struct c =>
      obtain ⟨s, hs, rfl⟩ := map_eq_ok.1 h
      exact notes_of_structureOf hs hn
  | interface c =>
      obtain ⟨i, hi, rfl⟩ := map_eq_ok.1 h
      exact notes_of_interfaceOf hi hn
  | function c =>
      obtain ⟨f, hf, rfl⟩ := map_eq_ok.1 h
      exact ⟨c.docs, List.mem_singleton_self _,
        (List.mem_singleton.1 hn).trans (notes_of_functionOf hf)⟩

end Context

theorem Describes.mem_notes {dialect : Annotation.Dialect} {tree : Tree} {ds : List Declared}
    (h : o.Describes dialect tree ds) (hn : n ∈ o.notes) : ∃ d ∈ ds, n ∈ d.notes := by
  rw [notes, h.structures, h.interfaces, h.functions] at hn
  rcases List.mem_append.1 hn with hn | hn
  · rcases List.mem_append.1 hn with hn | hn
    · obtain ⟨s, hs, hn⟩ := List.mem_flatMap.1 hn
      obtain ⟨d, hd, he⟩ := List.mem_filterMap.1 ((values_sublist _ _).subset hs)
      exact ⟨d, hd, eq_of_structure? he ▸ hn⟩
    · obtain ⟨i, hi, hn⟩ := List.mem_flatMap.1 hn
      obtain ⟨d, hd, he⟩ := List.mem_filterMap.1 ((values_sublist _ _).subset hi)
      exact ⟨d, hd, eq_of_interface? he ▸ hn⟩
  · obtain ⟨f, hf, rfl⟩ := List.mem_map.1 hn
    obtain ⟨d, hd, he⟩ := List.mem_filterMap.1 ((values_sublist _ _).subset hf)
    exact ⟨d, hd, eq_of_function? he ▸ List.mem_singleton_self _⟩

theorem Describes.notes_eq_split {tree : Tree} {ds : List Declared}
    (h : o.Describes ⟨marker, false⟩ tree ds) (hn : n ∈ o.notes) :
    ∃ docs ∈ tree.docGroups, n = split marker docs := by
  obtain ⟨d, hd, hn⟩ := h.mem_notes hn
  obtain ⟨t, ht, hdesc⟩ := exists_of_forall₂ h.each hd
  obtain ⟨docs, hdocs, hn⟩ := Context.notes_of_describe hdesc hn
  exact ⟨docs, List.mem_flatMap.2 ⟨t, ht, hdocs⟩, hn⟩

/-- A strict reading of a text only refuses. It fails where a lenient one fails, in the same way,
and where a lenient one succeeds it gives the same outline, unless some doc line of what is
described has the marker in front and is no annotation: then it says what is wrong with the first
of these lines. A lenient reading keeps such lines, and no reading loses a line. -/
theorem ofText_strict (marker : String) (find : Finder) (text : List Char) :
    (∀ e, ofText ⟨marker, false⟩ find text = .error e →
      ofText ⟨marker, true⟩ find text = .error e) ∧
    (∀ o, ofText ⟨marker, false⟩ find text = .ok o → ∃ tree, Tree.ofText? text = some tree ∧
      ((∀ line ∈ tree.docLines, ∀ fault, ¬ Malformed marker line fault) ∧
          ofText ⟨marker, true⟩ find text = .ok o ∨
        ∃ front line back fault, tree.docLines = front ++ line :: back ∧
          (∀ l ∈ front, ∀ fault, ¬ Malformed marker l fault) ∧
          Malformed marker line fault ∧
          ofText ⟨marker, true⟩ find text =
            .error (.markedLine ⟨String.ofList (trim line.toList), fault⟩)) ∧
      ∀ n ∈ o.notes, ∃ docs ∈ tree.docGroups, n = split marker docs) ∧
    ∀ docs, partition ⟨marker, false⟩ docs = .ok (split marker docs) ∧
      (∀ p, partition ⟨marker, true⟩ docs = .ok p → p = split marker docs) ∧
      ∀ line ∈ docs, ∀ fault, Malformed marker line fault →
        line ∈ (split marker docs).1 := by
  refine ⟨fun e he => ?_, fun o ho => ?_, fun docs => ?_⟩
  · rcases bind_eq_error.1 he with he | ⟨layout, hlayout, he⟩
    · exact bind_eq_error.2 (.inl he)
    · -- A lenient reading does not fail behind the layout.
      obtain ⟨tree, -, hitems, -⟩ := layoutOf_eq_ok hlayout
      obtain ⟨o, ho, -⟩ := refuses_ofLayout marker find text (Layout.topics_declarations hitems)
      rw [ho] at he
      cases he
  · obtain ⟨tree, ds, htree, hd⟩ := describes_of_ofText ho
    obtain ⟨layout, hlayout, ho⟩ := bind_eq_ok.1 ho
    obtain ⟨tree', htree', hitems, -⟩ := layoutOf_eq_ok hlayout
    cases htree.symm.trans htree'
    refine ⟨tree, htree, ?_, fun n hn => hd.notes_eq_split hn⟩
    obtain ⟨o', ho', hs⟩ := refuses_ofLayout marker find text (Layout.topics_declarations hitems)
    cases ho.symm.trans ho'
    have hstrict : ofText ⟨marker, true⟩ find text = ofLayout ⟨marker, true⟩ find text layout := by
      rw [ofText, hlayout]
      rfl
    rw [hstrict, hs, List.head?_map, head?_errorsIn, ← Tree.docLines]
    cases hfirst : tree.docLines.findSome? (error? marker) with
    | none =>
        have hplain := List.findSome?_eq_none_iff.1 hfirst
        exact .inl ⟨fun line hl => error?_eq_none.1 (hplain line hl), rfl⟩
    | some e =>
        obtain ⟨front, line, back, hlines, he, hfront⟩ := List.findSome?_eq_some_iff.1 hfirst
        obtain ⟨fault, hfault, rfl⟩ := error?_eq_some.1 he
        exact .inr ⟨front, line, back, fault, hlines,
          fun l hl => error?_eq_none.1 (hfront l hl), hfault, rfl⟩
  · refine ⟨partition_lenient marker docs, fun p hp => ?_,
      fun line hl fault h => h.mem_split hl⟩
    obtain ⟨q, hq, hs⟩ := Context.refuses_partition marker docs
    cases (partition_lenient marker docs).symm.trans hq
    rw [hp] at hs
    cases h : (docs.filterMap (error? marker)).head? with
    | none =>
        rw [h] at hs
        exact Except.ok.inj hs
    | some e =>
        rw [h] at hs
        cases hs

/-- Of the two lines with the marker in front one is an annotation. -/
theorem ofText_strict_missing_name :
    let find : Finder := fun _ => .error (.unresolved "no packages")
    let text := "package p\n\n// m:a\n// m:\nfunc f()\n".toList
    ∃ (o : Outline) (tree : Tree) (front back : List String) (line : String)
      (fault : AnnotationFault), ofText ⟨"m", false⟩ find text = .ok o ∧
      o.notes = [(["m:"], [⟨"a", []⟩])] ∧ Tree.ofText? text = some tree ∧
      tree.docLines = front ++ line :: back ∧ Malformed "m" line fault ∧
      ofText ⟨"m", true⟩ find text =
        .error (.markedLine ⟨String.ofList (trim line.toList), fault⟩) := by
  intro find text
  have hm : notes <$> ofText ⟨"m", false⟩ find text = .ok [(["m:"], [⟨"a", []⟩])] := by
    decide +kernel
  have hs : (ofText ⟨"m", true⟩ find text).isOk = false := by
    decide +kernel
  obtain ⟨o, ho, hnotes⟩ := map_eq_ok.1 hm
  obtain ⟨tree, htree, hfirst, -⟩ := (ofText_strict "m" find text).2.1 o ho
  rcases hfirst with ⟨-, h⟩ | ⟨front, line, back, fault, hlines, -, hfault, h⟩
  · rw [h] at hs
    cases hs
  · exact ⟨o, tree, front, back, line, fault, ho, hnotes, htree, hlines, hfault,
      h⟩

end Outline

end GoOutline
