import GoOutline.Edit.Document
import GoOutline.Proofs.Inventory

/-!
The bodies that edits write into. Those of different structures, interfaces and functions stand
apart, with at least a brace between any two of them.
-/

namespace GoOutline

open Text Syntax Syntax.Parser Docs

namespace Syntax

variable {text : List Char} {seg used mid : List Token}

theorem Enclosed.stop_lt {opening closing : String} {d : Delimiters}
    (h : Enclosed opening closing d used mid) (hl : Laid text used) (hc : closing.toList ≠ []) :
    d.inner.stop < (extentOf used).span.stop := by
  obtain ⟨o, c, rfl, _, hclose, rfl⟩ := h
  refine Nat.lt_of_lt_of_le ?_ (hl.within_extentOf (t := c) (by simp)).2
  obtain ⟨a, r, -, hspan⟩ := hl.holds c (by simp)
  obtain ⟨x, s, hx⟩ := List.exists_cons_of_ne_nil hc
  have hx' := x.utf8Size_pos
  simp only [Delimiters.inner, hspan, Token.toList_of_is hclose, hx, byteLength_append, byteLength]
  omega

namespace Topic

def span : Topic → Span
  | .struct d => d.span
  | .interface d => d.span
  | .function d => d.span

/-- The braces around the body. -/
def braces? : Topic → Option Delimiters
  | .struct d => some d.body.braces
  | .interface d => some d.body.braces
  | .function d => d.body.braces

/-- The declaration goes on behind its body. -/
def Holds (t : Topic) : Prop :=
  ∀ b, t.braces? = some b → b.inner.Within t.span ∧ b.inner.stop < t.span.stop

end Topic

/-- A body at the end of some tokens. -/
theorem Enclosed.holds {front : List Token} {d : Delimiters}
    (h : Enclosed lbrace rbrace d used mid) (hl : Laid text (front ++ used)) :
    d.inner.Within (extentOf (front ++ used)).span ∧
      d.inner.stop < (extentOf (front ++ used)).span.stop := by
  have hw := hl.within_of_subset h.ne_nil (List.subset_append_right front used)
  exact ⟨(h.within hl.right).trans hw,
    Nat.lt_of_lt_of_le (h.stop_lt hl.right (by decide)) hw.2⟩

theorem TypeEntry.From.holds (front : List Token) {e : TypeEntry} (h : e.From seg)
    (hl : Laid text (front ++ seg)) (docs : List String) :
    ∀ t ∈ e.topics (extentOf (front ++ seg)).span docs, t.Holds := by
  intro t ht b hb
  cases e with
  | synonym extent => cases ht
  | definition spec =>
      obtain ⟨gap, body, rfl, hfrom⟩ := h.2 spec rfl
      obtain ⟨extent, name, kind⟩ := spec
      cases kind with
      | plain type => cases ht
      | struct span body' | interface span body' =>
          obtain rfl := List.mem_singleton.1 ht
          obtain ⟨k, tail, mid, rfl, henclosed, -⟩ := hfrom
          cases hb
          have hfront : front ++ (gap ++ k :: tail) = front ++ gap ++ [k] ++ tail := by simp
          rw [hfront] at hl
          have hholds := henclosed.holds hl
          rw [← hfront] at hholds
          exact hholds

theorem Item.From.holds {d : Documented Item} (h : d.item.From seg) (hl : Laid text seg) :
    ∀ t ∈ itemTopics d, t.Holds := by
  intro t ht
  obtain ⟨docs, extent, kind⟩ := d
  obtain ⟨rfl, hk⟩ := h
  cases kind with
  | package name place => cases ht
  | imports decl => cases ht
  | values => cases ht
  | statement => cases ht
  | types decl =>
      cases decl with
      | lone e =>
          obtain ⟨k, body, rfl, hb⟩ := hk
          exact TypeEntry.From.holds [k] hb hl docs t ht
      | group es =>
          obtain ⟨k, p, body, mid, rfl, ⟨o, c, rfl, -⟩, hs⟩ := hk
          obtain ⟨e, he, ht⟩ := List.mem_flatMap.1 ht
          have hmem : e.item ∈ members es := by
            rw [← map_item_attach TypeEntry.extent]
            exact List.mem_map_of_mem he
          obtain ⟨pre, sg, post, hmid, hfrom⟩ := hs.exists_of_mem hmem
          have hlm : Laid text mid := hl.tail.left.tail
          rw [hmid] at hlm
          rw [hfrom.1.2] at ht
          exact TypeEntry.From.holds [] hfrom hlm.left.right e.docs t ht
  | func decl =>
      obtain rfl := List.mem_singleton.1 ht
      intro b hb
      obtain ⟨head, list, mid, gap, body, rfl, -, hbody⟩ := hk
      obtain ⟨inner, henclosed⟩ := hbody b hb
      exact henclosed.holds hl

end Syntax

namespace Outline

variable {dialect : Annotation.Dialect} {find : Finder} {text : List Char} {o : Outline}

theorem holds_of_layoutOf {layout : Layout} (h : layoutOf text = .ok layout) :
    ∀ t ∈ layout.declarations.flatMap itemTopics, t.Holds := by
  intro t ht
  obtain ⟨d, hd, ht⟩ := List.mem_flatMap.1 ht
  obtain ⟨_, front, used, _, hitems, -, -⟩ := from_layoutOf h
  obtain ⟨_, seg, _, -, hfrom, hseg⟩ := hitems.exists_of_mem
    (List.mem_append_right _ (List.mem_append_right front hd))
  exact hfrom.holds hseg.laid t ht

namespace Declared

/-- What stands between the braces. -/
def inner? : Declared → Option Span
  | .struct s => some s.inner
  | .interface i => some i.inner
  | .function f => f.inner

/-- What an edit calls a declaration. -/
def target : Declared → TargetKind × String
  | .struct s => (.struct, s.name)
  | .interface i => (.interface, i.name)
  | .function f => (.function, f.key)

end Declared

theorem Context.inner?_of_describe {cx : Context} {t : Topic} {d : Declared}
    (h : cx.describe t = .ok d) :
    d.span = t.span ∧ d.inner? = t.braces?.map Delimiters.inner := by
  cases t with
  | struct c =>
      obtain ⟨s, hs, rfl⟩ := map_eq_ok.1 h
      obtain ⟨hspan, hinner, -⟩ := Context.structureOf_eq_ok hs
      exact ⟨hspan, congrArg some hinner⟩
  | interface c =>
      obtain ⟨i, hi, rfl⟩ := map_eq_ok.1 h
      obtain ⟨hspan, hinner, -⟩ := Context.interfaceOf_eq_ok hi
      exact ⟨hspan, congrArg some hinner⟩
  | function c =>
      obtain ⟨f, hf, rfl⟩ := map_eq_ok.1 h
      obtain ⟨hspan, hinner, -⟩ := Context.functionOf_eq_ok hf
      exact ⟨hspan, hinner⟩

end Outline

theorem Table.mem_of_get?_ofFirst {α : Type} {name : α → String} {as : List α} {k : String} {a : α}
    (h : (ofFirst (as.map fun a => (name a, a))).get? k = some a) : a ∈ as ∧ name a = k := by
  obtain ⟨front, back, he, -⟩ := List.lookup_eq_some_iff.1 h
  have hmem : (k, a) ∈ as.map fun a => (name a, a) :=
    (sublist_ofFirst _).subset (he ▸ List.mem_append_right front List.mem_cons_self)
  obtain ⟨b, hb, hka⟩ := List.mem_map.1 hmem
  cases hka
  exact ⟨hb, rfl⟩

namespace Edit

/-- The entity that an edit writes into the body of. -/
def target? : Edit → Option (TargetKind × String)
  | .appendField owner _ => some (.struct, owner)
  | .appendMethod owner _ => some (.interface, owner)
  | .appendCode function _ => some (.function, function)
  | _ => none

/-- The body that an edit writes into. -/
def body? (o : Outline) : Edit → Option Span
  | .appendField owner _ => (o.structure? owner).map (·.inner)
  | .appendMethod owner _ => (o.interface? owner).map (·.inner)
  | .appendCode function _ => (o.function? function).bind (·.inner)
  | _ => none

/-- What an edit writes into a body. -/
def fragment : Edit → List Char
  | .appendField _ field => field.render
  | .appendMethod _ method => method.render
  | .appendCode _ code => code.toList
  | _ => []

variable {o : Outline} {e : Edit} {inner : Span}

theorem splice?_of_body? (settings : Settings) (h : e.body? o = some inner) :
    e.splice? settings o =
      .ok (some (Splice.appendToInner o.text inner e.fragment settings.indent.toList)) := by
  cases e with
  | appendField owner field =>
      obtain ⟨s, hs, rfl⟩ := Option.map_eq_some_iff.1 h
      simp only [splice?, Outline.needStructure, hs]
      rfl
  | appendMethod owner method =>
      obtain ⟨i, hi, rfl⟩ := Option.map_eq_some_iff.1 h
      simp only [splice?, Outline.needInterface, hi]
      rfl
  | appendCode function code =>
      obtain ⟨f, hf, hinner⟩ := Option.bind_eq_some_iff.1 h
      simp only [splice?, Outline.needFunction, hf, bind, Except.bind, Outline.needBody, hinner]
      rfl
  | appendParameter | appendImport | appendStructure | appendInterface | appendFunction
  | annotateStructure | annotateInterface | annotateFunction | annotateField | annotateMethod =>
      cases h

theorem fits_body? (hw : o.WellPlaced) (h : e.body? o = some inner) : inner.Fits o.text := by
  cases e with
  | appendField owner field =>
      obtain ⟨s, hs, rfl⟩ := Option.map_eq_some_iff.1 h
      exact (hw.structures s (Table.mem_values hs)).inner
  | appendMethod owner method =>
      obtain ⟨i, hi, rfl⟩ := Option.map_eq_some_iff.1 h
      exact (hw.interfaces i (Table.mem_values hi)).inner
  | appendCode function code =>
      obtain ⟨f, hf, hinner⟩ := Option.bind_eq_some_iff.1 h
      exact ((hw.functions f (Table.mem_values hf)).inner inner hinner).1
  | appendParameter | appendImport | appendStructure | appendInterface | appendFunction
  | annotateStructure | annotateInterface | annotateFunction | annotateField | annotateMethod =>
      cases h

/-- The body belongs to the target. -/
theorem exists_declared {dialect : Annotation.Dialect} {tree : Tree} {ds : List Outline.Declared}
    (hd : o.Describes dialect tree ds) (h : e.body? o = some inner) :
    ∃ d ∈ ds, d.inner? = some inner ∧ e.target? = some d.target := by
  cases e with
  | appendField owner field =>
      obtain ⟨s, hs, rfl⟩ := Option.map_eq_some_iff.1 h
      rw [Outline.structure?, hd.structures] at hs
      obtain ⟨hmem, rfl⟩ := Table.mem_of_get?_ofFirst hs
      obtain ⟨d, hd, hds⟩ := List.mem_filterMap.1 hmem
      obtain rfl := Outline.eq_of_structure? hds
      exact ⟨_, hd, rfl, rfl⟩
  | appendMethod owner method =>
      obtain ⟨i, hi, rfl⟩ := Option.map_eq_some_iff.1 h
      rw [Outline.interface?, hd.interfaces] at hi
      obtain ⟨hmem, rfl⟩ := Table.mem_of_get?_ofFirst hi
      obtain ⟨d, hd, hds⟩ := List.mem_filterMap.1 hmem
      obtain rfl := Outline.eq_of_interface? hds
      exact ⟨_, hd, rfl, rfl⟩
  | appendCode function code =>
      obtain ⟨f, hf, hinner⟩ := Option.bind_eq_some_iff.1 h
      rw [Outline.function?, hd.functions] at hf
      obtain ⟨hmem, rfl⟩ := Table.mem_of_get?_ofFirst hf
      obtain ⟨d, hd, hds⟩ := List.mem_filterMap.1 hmem
      obtain rfl := Outline.eq_of_function? hds
      exact ⟨_, hd, hinner, rfl⟩
  | appendParameter | appendImport | appendStructure | appendInterface | appendFunction
  | annotateStructure | annotateInterface | annotateFunction | annotateField | annotateMethod =>
      cases h

end Edit

namespace Outline

variable {dialect : Annotation.Dialect} {find : Finder} {text : List Char} {o : Outline}

/-- Of two bodies one stands behind the other, and not right behind it. -/
theorem bodies_apart (h : ofText dialect find text = .ok o) {e e' : Edit} {s s' : Span}
    (hs : e.body? o = some s) (hs' : e'.body? o = some s') (hne : e.target? ≠ e'.target?) :
    s.stop < s'.start ∨ s'.stop < s.start := by
  obtain ⟨tree, ds, htree, hd⟩ := describes_of_ofText h
  obtain ⟨layout, hlayout, -⟩ := bind_eq_ok.1 h
  obtain ⟨tree', htree', hitems, -⟩ := layoutOf_eq_ok hlayout
  cases htree.symm.trans htree'
  have hholds := holds_of_layoutOf hlayout
  rw [Layout.topics_declarations hitems] at hholds
  have hbody : ∀ d ∈ ds, ∀ s, d.inner? = some s → d.span.start ≤ s.start ∧ s.stop < d.span.stop := by
    intro d hdm s hs
    obtain ⟨t, ht, hdesc⟩ := exists_of_forall₂ hd.each hdm
    obtain ⟨hspan, hinner⟩ := Context.inner?_of_describe hdesc
    rw [hinner] at hs
    obtain ⟨b, hb, rfl⟩ := Option.map_eq_some_iff.1 hs
    rw [hspan]
    exact ⟨(hholds t ht b hb).1.1, (hholds t ht b hb).2⟩
  obtain ⟨d, hdm, hinner, htarget⟩ := Edit.exists_declared hd hs
  obtain ⟨d', hdm', hinner', htarget'⟩ := Edit.exists_declared hd hs'
  have hapart : ds.Pairwise fun d e => d.span.Apart e.span := hd.ordered.imp .inl
  have hdne : d ≠ d' := by
    rintro rfl
    exact hne (htarget.trans htarget'.symm)
  have hb := hbody d hdm s hinner
  have hb' := hbody d' hdm' s' hinner'
  rcases hapart.forall hdm hdm' hdne with ha | ha
  · exact .inl (Nat.lt_of_lt_of_le hb.2 (Nat.le_trans ha hb'.1))
  · exact .inr (Nat.lt_of_lt_of_le hb'.2 (Nat.le_trans ha hb.1))

end Outline

end GoOutline
