import GoOutline.Proofs.Neighbours

/-!
What a structure or an interface says of its members where its definition gets one more. Those it had
are as they were, and the new one is behind them.
-/

namespace GoOutline

open Text Syntax Docs Motion
open Syntax.Parser (commentSiblings)

theorem Addition.kept_append {α : Type} {x : Addition} {c : Token} (h : x.passed = c.comments.length)
    (front : List (Sibling α)) : x.kept (front ++ commentSiblings c) = front := by
  simp [Addition.kept, h, commentSiblings]

section Members

variable {α : Type} (place : α → Extent)

theorem attachFrom_comments (before : List (Sibling α)) (cs : List Comment) (s : List (Sibling α)) :
    attachFrom place before (cs.map .comment ++ s) =
      attachFrom place ((cs.map .comment).reverse ++ before) s := by
  induction cs generalizing before with
  | nil => rfl
  | cons c cs ih => simpa [attachFrom] using ih (.comment c :: before)

/-- The docs of a member behind the members of a body. -/
def Addition.docs (x : Addition) (a : α) (s : List (Sibling α)) : List String :=
  linesOf (commentsAbove place (place a).row ((x.comments.map .comment).reverse ++ (x.kept s).reverse))

/-- The members of a body and the one that is added to it, with its docs. -/
theorem attach_siblings {x : Addition} {c : Token} {front s : List (Sibling α)}
    (hs : s = front ++ commentSiblings c) (hc : x.passed = c.comments.length) (a : α) :
    x.kept s = front ∧ attach place s = attach place front ∧
      attach place (x.siblings a s) = attach place front ++ [⟨x.docs place a s, a⟩] := by
  subst hs
  have hkept := Addition.kept_append hc front
  refine ⟨hkept, attach_commentSiblings front c, ?_⟩
  rw [Addition.siblings, Addition.docs, hkept, attach, attachFrom_append, attachFrom_comments,
    List.append_nil]
  rfl

end Members

namespace Outline.Context

variable {p q : Nat → Bool} {text text' : List Char} {imports : List Import}
  {dialect : Annotation.Dialect} {x : Addition} {c : Token} {name : String} {span : Span}
  {docs : List String}

theorem fields_id (imports : List Import) (dialect : Annotation.Dialect)
    (hk : Keeps p q id id text text') {d : Documented FieldDecl}
    (hd : (sieve p q).field d.item = d.item) :
    fields ⟨⟨text', imports⟩, dialect⟩ d = fields ⟨⟨text, imports⟩, dialect⟩ d := by
  have h := fields_kept imports dialect hk hd
  have hsame : documented (plain id id).field d = d := by
    rw [plain_id, documented, none_field]
  have hid : List.map (Field.via id) = id := funext fun fs => List.map_id fs
  rwa [hsame, hid, id_map] at h

theorem mapM_concat {α β ε : Type} {f g : α → Except ε β} {as : List α} {bs : List β} {a : α} {b : β}
    (h : as.mapM f = .ok bs) (hg : ∀ x ∈ as, g x = f x) (hb : g a = .ok b) :
    (as ++ [a]).mapM g = .ok (bs ++ [b]) := by
  rw [← mapM_congr hg, mapM_eq_ok] at h
  exact mapM_eq_ok.2 (List.rel_append h (.cons hb .nil))

/-- A structure with one field declaration more has the fields that it had, and those more. -/
theorem structureOf_siblings (hk : Keeps p q id id text text') {b : StructBody} (f : FieldDecl)
    {front : List (Sibling FieldDecl)} (hb : b.fields = front ++ commentSiblings c)
    (hc : x.passed = c.comments.length)
    (hs : (x.kept b.fields).map ((sieve p q).sibling (sieve p q).field) = x.kept b.fields)
    {s : Structure} (h : structureOf ⟨⟨text, imports⟩, dialect⟩ name span docs b = .ok s) :
    ∀ fs span' braces,
      fields ⟨⟨text', imports⟩, dialect⟩ ⟨x.docs FieldDecl.extent f b.fields, f⟩ = .ok fs →
      structureOf ⟨⟨text', imports⟩, dialect⟩ name span' docs ⟨braces, x.siblings f b.fields⟩ =
        .ok { s with span := span', inner := braces.inner, fields := s.fields ++ fs } := by
  obtain ⟨hfront, hattach, hnew⟩ := attach_siblings FieldDecl.extent hb hc f
  rw [hfront] at hs
  obtain ⟨⟨docs', annotations⟩, hpart, h⟩ := bind_eq_ok.1 h
  obtain ⟨fss, hfields, h⟩ := bind_eq_ok.1 h
  cases h
  rw [hattach] at hfields
  have hmembers := member_of_fixed hs
  have hsame : ∀ d ∈ attach FieldDecl.extent front,
      fields ⟨⟨text', imports⟩, dialect⟩ d = fields ⟨⟨text, imports⟩, dialect⟩ d :=
    fun d hd => fields_id _ _ hk (hmembers d.item (mem_of_attach hd))
  refine fun fs span' braces hf => bind_eq_ok.2 ⟨_, hpart, bind_eq_ok.2 ⟨fss ++ [fs], ?_, ?_⟩⟩
  · rw [hnew]
    exact mapM_concat hfields hsame hf
  · simp
    rfl

theorem method?_id (imports : List Import) (dialect : Annotation.Dialect)
    (hk : Keeps p q id id text text') {d : Documented InterfaceElem}
    (hd : (sieve p q).elem d.item = d.item) :
    method? ⟨⟨text', imports⟩, dialect⟩ d = method? ⟨⟨text, imports⟩, dialect⟩ d := by
  have h := method?_kept imports dialect hk hd
  have hsame : documented (plain id id).elem d = d := by
    rw [plain_id, documented, none_elem]
  have hid : Option.map (Method.via id) = id := funext fun m => Option.map_id'
  rwa [hsame, hid, id_map] at h

theorem embed?_id (imports : List Import) (dialect : Annotation.Dialect)
    (hk : Keeps p q id id text text') {e : InterfaceElem} (he : (sieve p q).elem e = e) :
    embed? ⟨⟨text', imports⟩, dialect⟩ e = embed? ⟨⟨text, imports⟩, dialect⟩ e := by
  have h := embed?_kept imports dialect hk he
  rwa [plain_id, none_elem] at h

/-- An interface with one method more has the methods that it had, and this one more. -/
theorem interfaceOf_siblings (hk : Keeps p q id id text text') {b : InterfaceBody} (m : MethodSpec)
    {front : List (Sibling InterfaceElem)} (hb : b.elems = front ++ commentSiblings c)
    (hc : x.passed = c.comments.length)
    (hs : (x.kept b.elems).map ((sieve p q).sibling (sieve p q).elem) = x.kept b.elems)
    {i : Interface} (h : interfaceOf ⟨⟨text, imports⟩, dialect⟩ name span docs b = .ok i) :
    ∀ n span' braces, method? ⟨⟨text', imports⟩, dialect⟩
        ⟨x.docs InterfaceElem.extent (.method m) b.elems, .method m⟩ = .ok (some n) →
      interfaceOf ⟨⟨text', imports⟩, dialect⟩ name span' docs
          ⟨braces, x.siblings (.method m) b.elems⟩ =
        .ok { i with span := span', inner := braces.inner, methods := i.methods ++ [n] } := by
  obtain ⟨hfront, hattach, hnew⟩ := attach_siblings InterfaceElem.extent hb hc (.method m)
  rw [hfront] at hs
  obtain ⟨⟨docs', annotations⟩, hpart, h⟩ := bind_eq_ok.1 h
  obtain ⟨ms, hmethods, h⟩ := bind_eq_ok.1 h
  cases h
  have hmembers := member_of_fixed hs
  have hall := congrArg (List.map Documented.item) hnew
  have hold := congrArg (List.map Documented.item) hattach
  simp only [List.map_append, map_item_attach] at hall hold
  have hembeds : (members (x.siblings (.method m) b.elems)).filterMap
      (embed? ⟨⟨text', imports⟩, dialect⟩) =
      (members b.elems).filterMap (embed? ⟨⟨text, imports⟩, dialect⟩) := by
    rw [hall, hold, List.filterMap_append]
    simp only [List.map_cons, List.map_nil, List.filterMap_cons, embed?, List.filterMap_nil,
      List.append_nil]
    exact List.filterMap_congr fun e he => embed?_id _ _ hk (hmembers e he)
  rw [hattach] at hmethods
  have hsame : ∀ d ∈ attach InterfaceElem.extent front,
      method? ⟨⟨text', imports⟩, dialect⟩ d = method? ⟨⟨text, imports⟩, dialect⟩ d :=
    fun d hd => method?_id _ _ hk (hmembers d.item (mem_of_attach hd))
  refine fun n span' braces hn =>
    bind_eq_ok.2 ⟨_, hpart, bind_eq_ok.2 ⟨ms ++ [some n], ?_, ?_⟩⟩
  · rw [hnew]
    exact mapM_concat hmethods hsame hn
  · rw [hembeds]
    simp [List.reduceOption_append]
    rfl

end Outline.Context

namespace Outline

variable {dialect : Annotation.Dialect} {find : Finder} {text : List Char} {o : Outline}
  {layout : Layout} {owner : String}

theorem struct_of_describe {cx : Context} {spec : TypeSpec} {span : Span} {docs : List String}
    {t : Topic} {s : Structure} (ht : (TypeEntry.definition spec).topics span docs = [t])
    (hd : cx.describe t = .ok (.struct s)) : ∃ e b, spec.body = .struct e b ∧
      cx.structureOf spec.name span docs b = .ok s ∧ s.inner = b.braces.inner := by
  obtain ⟨extent, name, ⟨e, b⟩ | ⟨e, b⟩ | b⟩ := spec
  · obtain ⟨rfl, -⟩ := List.cons.inj ht
    obtain ⟨s', hs, he⟩ := map_eq_ok.1 hd
    cases he
    exact ⟨e, b, rfl, hs, (Context.structureOf_eq_ok hs).2.1⟩
  · obtain ⟨rfl, -⟩ := List.cons.inj ht
    obtain ⟨i, -, he⟩ := map_eq_ok.1 hd
    cases he
  · cases ht

theorem interface_of_describe {cx : Context} {spec : TypeSpec} {span : Span} {docs : List String}
    {t : Topic} {i : Interface} (ht : (TypeEntry.definition spec).topics span docs = [t])
    (hd : cx.describe t = .ok (.interface i)) : ∃ e b, spec.body = .interface e b ∧
      cx.interfaceOf spec.name span docs b = .ok i ∧ i.inner = b.braces.inner := by
  obtain ⟨extent, name, ⟨e, b⟩ | ⟨e, b⟩ | b⟩ := spec
  · obtain ⟨rfl, -⟩ := List.cons.inj ht
    obtain ⟨s, -, he⟩ := map_eq_ok.1 hd
    cases he
  · obtain ⟨rfl, -⟩ := List.cons.inj ht
    obtain ⟨i', hi, he⟩ := map_eq_ok.1 hd
    cases he
    exact ⟨e, b, rfl, hi, (Context.interfaceOf_eq_ok hi).2.1⟩
  · cases ht

variable {h : Hole} {ds es : List Declared}

/-- Where the definition of a structure gets one field declaration more, the structure has its fields
as well, and everything else is as it was. -/
theorem Locates.structure_grown {s : Structure} (ha : Locates dialect text o h ds (.struct s) es)
    (hs : Shows dialect find text layout o) :
    ∃ e b, h.spec.body = .struct e b ∧ s.inner = b.braces.inner ∧
      ∀ {x : Addition} {f : FieldDecl} {c : Token} {u : List Char} {n r : Nat} {text' : List Char}
        {fs : List Field}, x.member = .inl f → Addition.Closed h.spec.body c →
        x.passed = c.comments.length → h.Grows x u n r text text' →
        Tree.ofText? text' = some ⟨(h.grown x).items⟩ →
        (Context.mk ⟨text', o.imports⟩ dialect).fields ⟨x.docs FieldDecl.extent f b.fields, f⟩ =
          .ok fs →
        ∃ layout' p span, let s' : Structure := { s with
            span := span
            inner := ⟨s.inner.start, x.shift.byte s.inner.stop⟩
            fields := s.fields ++ fs }
          Shows dialect find text' layout' p ∧ layout'.imports = layout.imports ∧
          Locates dialect text' p (h.grown x) ds (.struct s') (es.map (Declared.via x.shift.byte)) ∧
          o.Moves (.struct, s.name) (.struct s') u n x.shift.byte p ∧ o.Spared (.struct, s.name) p := by
  obtain ⟨t, hone, hdesc⟩ := ha.topic
  obtain ⟨e, b, hbody, hstruct, hinner⟩ := struct_of_describe hone hdesc
  refine ⟨e, b, hbody, hinner, fun {x f c u n r text' fs} hx hclosed hpassed hg htree' hfs => ?_⟩
  have hmembers := hg.members
  rw [hbody] at hclosed hmembers
  obtain ⟨-, -, front, hfront⟩ := hclosed
  have hnew := Context.structureOf_siblings hg.front f hfront hpassed hmembers hstruct fs
    (h.grown x).span (x.braces b.braces) hfs
  have hone' : (TypeEntry.definition (h.grown x).spec).topics (h.grown x).span (h.grown x).docs =
      [.struct ⟨h.spec.name, (h.grown x).span, h.docs, ⟨x.braces b.braces, x.siblings f b.fields⟩⟩] := by
    rw [Hole.grown_docs, Hole.grown_spec, hbody]
    simp only [Addition.body, hx, TypeEntry.topics]
  obtain ⟨layout', p, hgrown⟩ :=
    ha.grown hs hg htree' hone' (map_eq_ok.2 ⟨_, hnew, rfl⟩) rfl
  rw [hinner]
  exact ⟨layout', p, _, hgrown⟩

/-- Where the definition of an interface gets one method more, the interface has it as well, and
everything else is as it was. -/
theorem Locates.interface_grown {i : Interface} (ha : Locates dialect text o h ds (.interface i) es)
    (hs : Shows dialect find text layout o) :
    ∃ e b, h.spec.body = .interface e b ∧ i.inner = b.braces.inner ∧
      ∀ {x : Addition} {m : MethodSpec} {c : Token} {u : List Char} {k r : Nat} {text' : List Char}
        {n : Method}, x.member = .inr (.method m) → Addition.Closed h.spec.body c →
        x.passed = c.comments.length → h.Grows x u k r text text' →
        Tree.ofText? text' = some ⟨(h.grown x).items⟩ →
        (Context.mk ⟨text', o.imports⟩ dialect).method?
          ⟨x.docs InterfaceElem.extent (.method m) b.elems, .method m⟩ = .ok (some n) →
        ∃ layout' p span, let i' : Interface := { i with
            span := span
            inner := ⟨i.inner.start, x.shift.byte i.inner.stop⟩
            methods := i.methods ++ [n] }
          Shows dialect find text' layout' p ∧ layout'.imports = layout.imports ∧
          Locates dialect text' p (h.grown x) ds (.interface i')
            (es.map (Declared.via x.shift.byte)) ∧
          o.Moves (.interface, i.name) (.interface i') u k x.shift.byte p ∧
          o.Spared (.interface, i.name) p := by
  obtain ⟨t, hone, hdesc⟩ := ha.topic
  obtain ⟨e, b, hbody, hi, hinner⟩ := interface_of_describe hone hdesc
  refine ⟨e, b, hbody, hinner, fun {x m c u k r text' n} hx hclosed hpassed hg htree' hn => ?_⟩
  have hmembers := hg.members
  rw [hbody] at hclosed hmembers
  obtain ⟨-, -, front, hfront⟩ := hclosed
  have hnew := Context.interfaceOf_siblings hg.front m hfront hpassed hmembers hi n
    (h.grown x).span (x.braces b.braces) hn
  have hone' : (TypeEntry.definition (h.grown x).spec).topics (h.grown x).span (h.grown x).docs =
      [.interface ⟨h.spec.name, (h.grown x).span, h.docs,
        ⟨x.braces b.braces, x.siblings (.method m) b.elems⟩⟩] := by
    rw [Hole.grown_docs, Hole.grown_spec, hbody]
    simp only [Addition.body, hx, TypeEntry.topics]
  obtain ⟨layout', p, hgrown⟩ :=
    ha.grown hs hg htree' hone' (map_eq_ok.2 ⟨_, hnew, rfl⟩) rfl
  rw [hinner]
  exact ⟨layout', p, _, hgrown⟩

end Outline

end GoOutline
