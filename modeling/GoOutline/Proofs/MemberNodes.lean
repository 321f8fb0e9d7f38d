import Mathlib.Data.List.Forall2
import GoOutline.Proofs.Nodes
import GoOutline.Proofs.Outcomes

/-!
Members read off the nodes of a raw syntax tree. A member is passed over if one of its parts is
missing or its type cannot be read. In the body of a structure or interface none is.
-/

namespace GoOutline

open Syntax Docs Outline RawNode

namespace Scope

/-- The names and types of the fields of a declaration, and whether they are embedded. There are none
without a type that can be read. -/
def fieldsOf (s : Scope) (decl : RawNode) : List (String × GoType × Bool) :=
  match decl.child? "type" with
  | none => []
  | some type =>
    match s.resolve type.val with
    | .error _ => []
    | .ok t =>
      match decl.texts "name" with
      | [] =>
        let t := if decl.marks.contains "*" then .pointer t else t
        [(t.baseName?.getD type.val.text, t, true)]
      | names => names.map fun name => (name, t, false)

def fieldsIn (s : Scope) (list : RawNode) : List (String × GoType × Bool) :=
  list.children.flatMap fun c => if c.2.kind == "field_declaration" then s.fieldsOf c.2 else []

/-- A method needs a name and parameters. -/
def methodOf? (s : Scope) (elem : RawNode) : Option (String × List Parameter × List Parameter) :=
  match elem.child? "name", elem.child? "parameters" with
  | some name, some params =>
    some (name.val.text, s.parameters params.val,
      (elem.child? "result").elim [] fun r => s.results r.val)
  | _, _ => none

def methodsIn (s : Scope) (body : RawNode) : List (String × List Parameter × List Parameter) :=
  body.children.filterMap fun c =>
    if c.2.kind == "method_elem" || c.2.kind == "method_spec" then s.methodOf? c.2 else none

/-- A single type needs to be read, a union is kept as its text. -/
def embedOf? (s : Scope) (elem : RawNode) : Option GoType :=
  match (elem.children.map (·.2)).filter (·.kind != "comment") with
  | [single] => (s.resolve single).toOption
  | _ => some (.raw elem.text)

def embedsIn (s : Scope) (body : RawNode) : List GoType :=
  body.children.filterMap fun c => if c.2.kind == "type_elem" then s.embedOf? c.2 else none

end Scope

/-- A node is that of a declaration of fields. -/
inductive ShowsField (s : Scope) : RawNode → FieldDecl → Prop where
  | named {n m : RawNode} {ids : List RawNode} {tag : List (Option String × RawNode)}
      {d : FieldDecl} (hkind : n.kind = "field_declaration") (hne : ids ≠ [])
      (hcs : n.bare = ids.map (fun i => (some "name", i)) ++ (some "type", m) :: tag)
      (htag : ∀ c ∈ tag, c.1 = some "tag") (hhead : d.head = .named (ids.map RawNode.text))
      (h : Shows s m d.type) : ShowsField s n d
  | embedded {n m : RawNode} {tag : List (Option String × RawNode)} {d : FieldDecl}
      (hkind : n.kind = "field_declaration") (hcs : n.bare = (some "type", m) :: tag)
      (htag : ∀ c ∈ tag, c.1 = some "tag") (hhead : d.head = .embedded (n.marks.contains "*"))
      (h : Shows s m d.type) : ShowsField s n d

/-- A node is that of an element of an interface. -/
inductive ShowsElem (s : Scope) : RawNode → InterfaceElem → Prop where
  | method {n name list : RawNode} {result : List (Option String × RawNode)} {m : MethodSpec}
      (hkind : n.kind = "method_elem")
      (hcs : n.bare = (some "name", name) :: (some "parameters", list) :: result)
      (hname : name.text = m.name) (hparams : ShowsList s list m.params.decls)
      (hresults : ShowsResult s result m.results) : ShowsElem s n (.method m)
  | embedding {n : RawNode} {extent : Extent} {first : TypeExpr} {more : List TypeExpr}
      (hkind : n.kind = "type_elem") (htext : n.text = s.slice extent.span)
      (h : List.Forall₂ (fun c e => Shows s c.2 e) n.bare (first :: more)) :
      ShowsElem s n (.embedding extent first more)

/-- A node is that of a list of field declarations. -/
def ShowsFields (s : Scope) (list : RawNode) (b : StructBody) : Prop :=
  List.Forall₂ (fun c d => ShowsField s c.2 d) list.bare (members b.fields)

/-- A node is that of an interface. -/
def ShowsElems (s : Scope) (body : RawNode) (b : InterfaceBody) : Prop :=
  List.Forall₂ (fun c x => ShowsElem s c.2 x) body.bare (members b.elems)

section Reading

variable {s : Scope} {n : RawNode} {e : TypeExpr}

/-- The text of a type is what stands in its place, or its name. -/
theorem Shows.text_cases (h : Shows s n e) :
    (∃ span id, e = .name span id) ∨ n.text = s.slice e.span := by
  cases h with
  | name hkind hn => exact .inl ⟨_, _, rfl⟩
  | other hkind hn => exact .inr hn.text
  | qualified hn | pointer hn | slice hn | array hn | map hn | function hn => exact .inr hn.text

theorem Shows.getD_baseName? (h : Shows s n e) :
    (s.type e).baseName?.getD n.text = (s.type e).baseName?.getD (s.slice e.span) := by
  rcases h.text_cases with ⟨span, id, rfl⟩ | htext
  · rfl
  · rw [htext]

theorem find?_names (ids : List RawNode) {field : String} (hf : field ≠ "name")
    (cs : List (Option String × RawNode)) :
    (ids.map (fun i => (some "name", i)) ++ cs).find? (·.1 == some field) =
      cs.find? (·.1 == some field) := by
  have hnone : (ids.map fun i => (some "name", i)).find? (·.1 == some field) = none := by
    simp [hf.symm]
  rw [List.find?_append, hnone, Option.none_or]

theorem texts_names {m : RawNode} {ids : List RawNode} {tag : List (Option String × RawNode)}
    (hcs : n.bare = ids.map (fun i => (some "name", i)) ++ (some "type", m) :: tag)
    (htag : ∀ c ∈ tag, c.1 = some "tag") : n.texts "name" = ids.map RawNode.text := by
  have hrest : ((some "type", m) :: tag).filter (·.1 == some "name") = [] := by
    refine List.filter_eq_nil_iff.2 (List.forall_mem_cons.2 ⟨by simp, fun c hc => ?_⟩)
    simp [htag c hc]
  rw [texts_eq, hcs, List.filter_append, List.filter_eq_self.2 (by simp), hrest, List.append_nil,
    List.map_map]
  rfl

theorem child?_type {m : RawNode} {ids : List RawNode} {tag : List (Option String × RawNode)}
    (hcs : n.bare = ids.map (fun i => (some "name", i)) ++ (some "type", m) :: tag) :
    ∃ hm, n.child? "type" = some ⟨m, hm⟩ := by
  refine child?_eq_some "type" (o := some "type") ?_
  rw [hcs, find?_names ids (by decide)]
  rfl

/-- A declaration of fields is not passed over. -/
theorem fieldsOf_of_shows {cx : Context} {d : Documented FieldDecl} {fs : List Field}
    (h : ShowsField cx.scope n d.item) (hf : cx.fields d = .ok fs) :
    cx.scope.fieldsOf n = fs.map fun f => (f.name, f.type, f.embedded) := by
  obtain ⟨⟨docs, annotations⟩, -, hf⟩ := bind_eq_ok.1 hf
  cases hf
  cases h with
  | @named m ids _ _ hkind hne hcs htag hhead h =>
      obtain ⟨hm, htype⟩ := child?_type hcs
      rw [Scope.fieldsOf, htype, texts_names hcs htag, hhead]
      simp only [resolve_of_shows h]
      obtain ⟨i, ids, rfl⟩ := List.exists_cons_of_ne_nil hne
      simp
  | @embedded m tag _ hkind hcs htag hhead h =>
      have hcs : n.bare = [].map (fun i => (some "name", i)) ++ (some "type", m) :: tag := hcs
      obtain ⟨hm, htype⟩ := child?_type hcs
      rw [Scope.fieldsOf, htype, texts_names hcs htag, hhead]
      simp only [resolve_of_shows h, List.map_nil]
      cases n.marks.contains "*" with
      | true => simp [GoType.baseName?, h.getD_baseName?, Context.slice]
      | false => simp [h.getD_baseName?, Context.slice]

theorem elim_child? {α : Type} (field : String) (a : α) (f : RawNode → α) :
    ((n.child? field).elim a fun c => f c.val) =
      (n.bare.find? (·.1 == some field)).elim a fun c => f c.2 := by
  have hval := val_child? n field
  cases hc : n.child? field with
  | none =>
      rw [hc] at hval
      rw [Option.map_eq_none_iff.1 hval.symm]
      rfl
  | some c =>
      rw [hc] at hval
      obtain ⟨c', hc', he⟩ := Option.map_eq_some_iff.1 hval.symm
      rw [hc', Option.elim_some, Option.elim_some, he]

/-- A method is not passed over. -/
theorem methodOf?_of_shows {m : MethodSpec} (h : ShowsElem s n (.method m)) :
    s.methodOf? n = some (m.name, s.params m.params.decls, s.params m.results) := by
  cases h with
  | @method name list result _ hkind hcs hname hparams hresults =>
      obtain ⟨hltn, hn⟩ := child?_eq_some "name" (by rw [hcs]; rfl)
      obtain ⟨hltp, hp⟩ := child?_eq_some "parameters" (by rw [hcs]; rfl)
      have hfind : n.bare.find? (·.1 == some "result") = result.find? (·.1 == some "result") := by
        rw [hcs]
        rfl
      rw [Scope.methodOf?, hn, hp, elim_child? "result" [] s.results, hfind,
        results_of_showsResult hresults]
      simp only [parameters_of_showsList hparams, hname]

/-- An embedded element is not passed over. -/
theorem embedOf?_of_shows {cx : Context} {extent : Extent} {first : TypeExpr}
    {more : List TypeExpr} (h : ShowsElem cx.scope n (.embedding extent first more)) :
    cx.scope.embedOf? n = cx.embed? (.embedding extent first more) := by
  cases h with
  | embedding hkind htext h =>
      have hsolid : n.children.filter (fun c => c.2.kind != "comment") = n.bare := by
        refine (filter_bare not_solid_of_isComment n).symm.trans (List.filter_eq_self.2 fun c hc => ?_)
        obtain ⟨e, -, he⟩ := exists_of_forall₂ h.flip hc
        simpa using he.kind_ne.1
      have hparts : (n.children.map (·.2)).filter (·.kind != "comment") = n.bare.map (·.2) := by
        rw [List.filter_map]
        exact congrArg (List.map (·.2)) hsolid
      rw [Scope.embedOf?, hparts]
      generalize n.bare = cs at h
      cases h with
      | @cons c _ cs _ hfirst hmore =>
          cases hmore with
          | nil =>
              rw [List.map_singleton]
              simp only [resolve_of_shows hfirst]
              rfl
          | cons hsecond hmore =>
              simp only [List.map_cons, htext]
              rfl

end Reading

section Bodies

variable {cx : Context} {s : Scope} {body : RawNode}

theorem kind_of_showsField {n : RawNode} {d : FieldDecl} (h : ShowsField s n d) :
    n.kind = "field_declaration" := by
  cases h with
  | named hkind | embedded hkind => exact hkind

theorem kind_of_showsElem {n : RawNode} {x : InterfaceElem} (h : ShowsElem s n x) :
    n.kind = match x with
      | .method _ => "method_elem"
      | .embedding .. => "type_elem" := by
  cases h with
  | method hkind | embedding hkind => exact hkind

/-- In the body of a structure nothing is passed over. -/
theorem fieldsIn_of_shows {b : StructBody} {fss : List (List Field)}
    (h : ShowsFields cx.scope body b)
    (hf : (attach FieldDecl.extent b.fields).mapM cx.fields = .ok fss) :
    cx.scope.fieldsIn body = fss.flatten.map fun f => (f.name, f.type, f.embedded) := by
  rw [Scope.fieldsIn, ← flatMap_bare fun c hc => by simp [kind_of_isComment hc]]
  rw [ShowsFields, ← map_item_attach FieldDecl.extent, List.forall₂_map_right_iff] at h
  replace hf := forall₂_of_mapM hf
  generalize attach FieldDecl.extent b.fields = ds at h hf
  generalize body.bare = cs at h
  induction hf generalizing cs with
  | nil =>
      cases h
      rfl
  | cons hd _ ih =>
      cases h with
      | cons hc h =>
          rw [List.flatMap_cons, kind_of_showsField hc, if_pos (by rfl), fieldsOf_of_shows hc hd,
            ih _ h, List.flatten_cons, List.map_append]

/-- In an interface no method is passed over. -/
theorem methodsIn_of_shows {b : InterfaceBody} {ms : List (Option Method)}
    (h : ShowsElems cx.scope body b)
    (hm : (attach InterfaceElem.extent b.elems).mapM cx.method? = .ok ms) :
    cx.scope.methodsIn body = ms.reduceOption.map fun m => (m.name, m.params, m.results) := by
  rw [Scope.methodsIn, ← filterMap_bare fun c hc => by simp [kind_of_isComment hc]]
  rw [ShowsElems, ← map_item_attach InterfaceElem.extent, List.forall₂_map_right_iff] at h
  replace hm := forall₂_of_mapM hm
  generalize attach InterfaceElem.extent b.elems = ds at h hm
  generalize body.bare = cs at h
  induction hm generalizing cs with
  | nil =>
      cases h
      rfl
  | @cons d o _ _ hd _ ih =>
      cases h with
      | cons hc h =>
          obtain ⟨docs, x⟩ := d
          cases x with
          | embedding extent first more =>
              cases hd
              rw [List.filterMap_cons, kind_of_showsElem hc, ih _ h]
              rfl
          | method m =>
              obtain ⟨⟨docs, annotations⟩, -, hd⟩ := bind_eq_ok.1 hd
              cases hd
              rw [List.filterMap_cons, kind_of_showsElem hc, methodOf?_of_shows hc, ih _ h]
              rfl

/-- In an interface no embedded element is passed over. -/
theorem embedsIn_of_shows {b : InterfaceBody} (h : ShowsElems cx.scope body b) :
    cx.scope.embedsIn body = (members b.elems).filterMap cx.embed? := by
  rw [Scope.embedsIn, ← filterMap_bare fun c hc => by simp [kind_of_isComment hc]]
  rw [ShowsElems] at h
  generalize members b.elems = xs at h
  generalize body.bare = cs at h
  induction h with
  | nil => rfl
  | @cons c x _ _ hc _ ih =>
      cases x with
      | embedding extent first more =>
          rw [List.filterMap_cons, kind_of_showsElem hc, ih, List.filterMap_cons,
            ← embedOf?_of_shows hc]
          rfl
      | method m =>
          rw [List.filterMap_cons, kind_of_showsElem hc, ih]
          rfl

end Bodies

section Nodes

variable {s : Scope}

/-- A node of a declaration of fields, with no comments in it and no tag. -/
def Scope.fieldNode (s : Scope) (d : FieldDecl) : RawNode :=
  match d.head with
  | .named names =>
    .mk "field_declaration" "" false []
      ((names.map (word "field_identifier")).map (fun i => (some "name", i)) ++
        [(some "type", s.node d.type)])
  | .embedded pointer =>
    .mk "field_declaration" "" false (if pointer then ["*"] else [])
      [(some "type", s.node d.type)]

/-- A node of an element of an interface, with no comments in it. -/
def Scope.elemNode (s : Scope) : InterfaceElem → RawNode
  | .method m =>
    .mk "method_elem" "" false []
      [(some "name", .word "field_identifier" m.name),
        (some "parameters", .list (s.nodes m.params.decls)),
        (some "result", .list (s.nodes m.results))]
  | .embedding extent first more =>
    .mk "type_elem" (s.slice extent.span) false []
      ((first :: more).map fun e => (none, s.node e))

theorem shows_fieldNode {d : FieldDecl} (h : d.head ≠ .named []) :
    ShowsField s (s.fieldNode d) d := by
  rw [Scope.fieldNode]
  split
  next names hhead =>
    refine @ShowsField.named _ _ _ (names.map (word "field_identifier")) [] _ rfl ?_ ?_ (by simp) ?_
      (shows_node s d.type)
    · rintro hnil
      exact h (by rw [hhead, List.map_eq_nil_iff.1 hnil])
    · exact bare_of_fields (isSome_names (by simp))
    · simp [hhead, Function.comp_def, word, RawNode.text]
  next pointer hhead =>
    refine @ShowsField.embedded _ _ _ [] _ rfl rfl (by simp) ?_ (shows_node s d.type)
    cases pointer <;> exact hhead

/-- Nodes one behind the other, in no field. -/
theorem forall₂_loose {α : Type} {R : RawNode → α → Prop} {as : List α} {f : α → RawNode}
    (hkind : ∀ a ∈ as, (f a).kind ≠ "comment") (hR : ∀ a ∈ as, R (f a) a) (kind text : String) :
    List.Forall₂ (fun c a => R c.2 a)
      (RawNode.mk kind text false [] (as.map fun a => (none, f a))).bare as := by
  rw [bare, RawNode.children, List.filter_eq_self.2 fun c hc => ?_, List.forall₂_map_left_iff,
    List.forall₂_same]
  · exact hR
  · obtain ⟨a, ha, rfl⟩ := List.mem_map.1 hc
    simpa [isComment] using hkind a ha

theorem shows_elemNode (s : Scope) (x : InterfaceElem) : ShowsElem s (s.elemNode x) x := by
  cases x with
  | method m =>
      exact .method rfl rfl rfl (shows_list (shows_nodes s _)) (.list (shows_list (shows_nodes s _)))
  | embedding extent first more =>
      exact .embedding rfl rfl (forall₂_loose (fun e _ => (shows_node s e).kind_ne.1)
        (fun e _ => shows_node s e) _ _)

/-- Each body of a structure has a list of nodes. -/
theorem exists_showsFields (s : Scope) {b : StructBody}
    (h : ∀ d ∈ members b.fields, d.head ≠ .named []) : ∃ list, ShowsFields s list b := by
  refine ⟨_, forall₂_loose (f := s.fieldNode) (fun d hd => ?_)
    (fun d hd => shows_fieldNode (h d hd)) "field_declaration_list" ""⟩
  simp [kind_of_showsField (shows_fieldNode (s := s) (h d hd))]

/-- Each interface has a node. -/
theorem exists_showsElems (s : Scope) (b : InterfaceBody) : ∃ body, ShowsElems s body b := by
  refine ⟨_, forall₂_loose (f := s.elemNode) (fun x hx => ?_) (fun x hx => shows_elemNode s x)
    "interface_type" ""⟩
  rw [kind_of_showsElem (shows_elemNode s x)]
  cases x <;> simp

end Nodes

end GoOutline
