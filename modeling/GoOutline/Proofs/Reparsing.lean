import GoOutline.Proofs.RoundTrip
import GoOutline.Proofs.Strictness

/-!
Reading a text that has been formatted. Formatting leaves the doc lines of all declarations as they
are, so that a formatted text is read wherever the text is, by a strict reading as well.
-/

namespace GoOutline

open Text Syntax Docs

namespace Syntax

theorem methodDocs_settled (text : List Char) (x : Documented InterfaceElem) :
    methodDocs (Motion.documented (settling text).elem x) = methodDocs x := by
  obtain ⟨docs, elem⟩ := x
  cases elem <;> rfl

theorem docGroups_typeEntry (text : List Char) (span span' : Span) (docs : List String)
    (e : TypeEntry) :
    (((settling text).typeEntry e).topics span' docs).flatMap Topic.docGroups =
      (e.topics span docs).flatMap Topic.docGroups := by
  cases e with
  | synonym extent => rfl
  | definition spec =>
      obtain ⟨extent, name, body⟩ := spec
      cases body with
      | plain t => rfl
      | struct s b =>
          have hplace (f : FieldDecl) : ((settling text).field f).extent =
              (settling text).extent f.extent := rfl
          have hfields : (attach FieldDecl.extent
                (b.fields.map ((settling text).sibling (settling text).field))).map Documented.docs =
              (attach FieldDecl.extent b.fields).map Documented.docs := by
            rw [attach_settling hplace, List.map_map]
            rfl
          exact congrArg (fun groups => docs :: groups ++ []) hfields
      | interface s b =>
          have hplace (e : InterfaceElem) : ((settling text).elem e).extent =
              (settling text).extent e.extent := by cases e <;> rfl
          have helems : (attach InterfaceElem.extent
                (b.elems.map ((settling text).sibling (settling text).elem))).flatMap methodDocs =
              (attach InterfaceElem.extent b.elems).flatMap methodDocs := by
            rw [attach_settling hplace, List.flatMap_map]
            exact List.flatMap_congr fun x _ => methodDocs_settled text x
          exact congrArg (fun groups => docs :: groups ++ []) helems

theorem docGroups_settled (text : List Char) (x : Documented Item) :
    (itemTopics (Motion.documented (settling text).item x)).flatMap Topic.docGroups =
      (itemTopics x).flatMap Topic.docGroups := by
  obtain ⟨docs, extent, kind⟩ := x
  cases kind with
  | package name place | imports decl | func decl | values | statement => rfl
  | types decl =>
      cases decl with
      | lone e => exact docGroups_typeEntry text _ _ docs e
      | group es =>
          have hplace (e : TypeEntry) : ((settling text).typeEntry e).extent =
              (settling text).extent e.extent := by cases e <;> rfl
          show ((attach TypeEntry.extent (es.map ((settling text).sibling
              (settling text).typeEntry))).flatMap _).flatMap _ = (List.flatMap _ _).flatMap _
          rw [attach_settling hplace, List.flatMap_map, List.flatMap_assoc, List.flatMap_assoc]
          exact List.flatMap_congr fun e _ => docGroups_typeEntry text _ _ e.docs e.item

end Syntax

namespace Outline

variable {dialect : Annotation.Dialect} {find : Finder} {text : List Char} {o : Outline}

/-- Whether a layout can be read shows in its doc lines. -/
theorem exists_ofLayout {text' : List Char} {layout layout' : Layout}
    (hl : layoutOf text = .ok layout) (hl' : layoutOf text' = .ok layout')
    (hdocs : (layout'.declarations.flatMap itemTopics).flatMap Topic.docGroups =
      (layout.declarations.flatMap itemTopics).flatMap Topic.docGroups)
    (ho : ofLayout dialect find text layout = .ok o) (find' : Finder) :
    ∃ o', ofLayout dialect find' text' layout' = .ok o' := by
  obtain ⟨marker, strict⟩ := dialect
  obtain ⟨tree, -, hitems, -⟩ := layoutOf_eq_ok hl
  obtain ⟨tree', -, hitems', -⟩ := layoutOf_eq_ok hl'
  have ht := Layout.topics_declarations hitems
  have ht' := Layout.topics_declarations hitems'
  obtain ⟨p, hp, hs⟩ := refuses_ofLayout marker find text ht
  obtain ⟨p', hp', hs'⟩ := refuses_ofLayout marker find' text' ht'
  cases strict with
  | false => exact ⟨p', hp'⟩
  | true =>
      -- A strict reading that succeeds finds no fault.
      have hgroups : tree'.docGroups = tree.docGroups := by
        rw [Tree.docGroups, Tree.docGroups, ← ht, ← ht']
        exact hdocs
      rw [ho] at hs
      rw [hgroups] at hs'
      cases hf : ((errorsIn marker tree.docGroups).map Error.markedLine).head? with
      | none =>
          rw [hf] at hs'
          exact ⟨p', hs'⟩
      | some e =>
          rw [hf] at hs
          cases hs

theorem settle_ne_nil {layout : Layout} (hl : layoutOf text = .ok layout) : settle text ≠ [] := by
  intro hnil
  have hno : (layoutOf ['\n']).isOk = false := by decide +kernel
  have hblank := layoutOf_settle hl
  rw [hnil, List.nil_append] at hblank
  rw [hblank] at hno
  cases hno

/-- What formatting makes of a text that can be read can be read. -/
theorem exists_ofText_verbatimText (h : ofText dialect find text = .ok o) (find' : Finder) :
    ∃ o', ofText dialect find' (Formatter.verbatimText text) = .ok o' := by
  obtain ⟨layout, hl, ho⟩ := bind_eq_ok.1 h
  have hl' := layoutOf_settle hl
  have hdocs : (((settling text).layout layout).declarations.flatMap itemTopics).flatMap
      Topic.docGroups = (layout.declarations.flatMap itemTopics).flatMap Topic.docGroups := by
    rw [Motion.layout, List.flatMap_map, List.flatMap_assoc, List.flatMap_assoc]
    exact List.flatMap_congr fun x _ => docGroups_settled text x
  obtain ⟨o', ho'⟩ := exists_ofLayout hl hl' hdocs ho find'
  rw [verbatimText_eq (settle_ne_nil hl)]
  exact ⟨o', bind_eq_ok.2 ⟨_, hl', ho'⟩⟩

end Outline

end GoOutline
