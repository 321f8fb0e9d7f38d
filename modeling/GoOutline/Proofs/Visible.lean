import GoOutline.Proofs.History
import GoOutline.Proofs.Placement

/-!
What can be seen of a text under edits. Most splices insert, some replace a piece of the text; what
they replace they write again, up to blanks.
-/

namespace GoOutline

namespace Text

/-- The characters of a text that are not blank. -/
def visible (s : List Char) : List Char := s.filter fun c => !isBlank c

@[simp] theorem visible_nil : visible [] = [] := rfl

@[simp] theorem visible_append (s t : List Char) : visible (s ++ t) = visible s ++ visible t :=
  List.filter_append s t

theorem visible_cons_of_isBlank {c : Char} (h : isBlank c) (s : List Char) :
    visible (c :: s) = visible s := by
  simp [visible, h]

theorem exists_trimEnd (s : List Char) : ∃ w, s = trimEnd s ++ w ∧ visible w = [] := by
  induction s with
  | nil => exact ⟨[], rfl, rfl⟩
  | cons c s ih =>
      obtain ⟨w, hs, hw⟩ := ih
      cases ht : trimEnd s with
      | nil =>
          rw [ht, List.nil_append] at hs
          by_cases hc : isBlank c
          · refine ⟨c :: s, by simp [trimEnd, ht, hc], ?_⟩
            rw [visible_cons_of_isBlank hc, hs, hw]
          · exact ⟨w, by simp [trimEnd, ht, hc, ← hs], hw⟩
      | cons a t =>
          have htrim : trimEnd (c :: s) = c :: trimEnd s := by simp [trimEnd, ht]
          exact ⟨w, by rw [htrim, List.cons_append, ← hs], hw⟩

theorem visible_trimEnd (s : List Char) : visible (trimEnd s) = visible s := by
  obtain ⟨w, hs, hw⟩ := exists_trimEnd s
  have h := congrArg visible hs
  rw [visible_append, hw, List.append_nil] at h
  exact h.symm

theorem visible_trimStart (s : List Char) : visible (trimStart s) = visible s := by
  induction s with
  | nil => rfl
  | cons c s ih =>
      by_cases hc : isBlank c
      · have ht : trimStart (c :: s) = trimStart s := by simp [trimStart, hc]
        rw [ht, ih, visible_cons_of_isBlank hc]
      · have ht : trimStart (c :: s) = c :: s := by simp [trimStart, hc]
        rw [ht]

theorem visible_trim (s : List Char) : visible (trim s) = visible s := by
  rw [trim, visible_trimEnd, visible_trimStart]

/-- A cut behind the last visible character leaves nothing to see. -/
theorem visible_eq_nil_of_trimEnd {p q : List Char}
    (h : byteLength (trimEnd (p ++ q)) ≤ byteLength p) : visible q = [] := by
  obtain ⟨w, hs, hw⟩ := exists_trimEnd (p ++ q)
  have hp : trimEnd (p ++ q) <+: p :=
    prefix_of_byteLength_le ⟨w, hs.symm⟩ (List.prefix_append p q) h
  obtain ⟨v, hv⟩ := hp
  have hw' : w = v ++ q := by
    have he : trimEnd (p ++ q) ++ w = trimEnd (p ++ q) ++ (v ++ q) := by
      rw [← hs, ← List.append_assoc, hv]
    exact List.append_cancel_left he
  rw [hw', visible_append] at hw
  exact (List.append_eq_nil_iff.1 hw).2

end Text

open Text Syntax Syntax.Parser

namespace Splice

variable {source : List Char}

/-- A splice writes everything again that can be seen of what it replaces. -/
def Keeps (source : List Char) (s : Splice) : Prop :=
  ∃ old, source = takeBytes s.span.start source ++ old ++ dropBytes s.span.stop source ∧
    (visible old).Sublist (visible s.text)

theorem Keeps.visible_sublist {s : Splice} (h : s.Keeps source) :
    (visible source).Sublist (visible (s.apply source)) := by
  obtain ⟨old, hs, hold⟩ := h
  have hsource := congrArg visible hs
  rw [visible_append, visible_append] at hsource
  rw [hsource, apply, visible_append, visible_append]
  exact ((List.Sublist.refl _).append hold).append (.refl _)

theorem keeps_insert (offset : Nat) (text : List Char) : (insert offset text).Keeps source :=
  ⟨[], by simp [insert, takeBytes_append_dropBytes], List.nil_sublist _⟩

/-- A splice between two cuts of a text. -/
theorem keeps_between {a old c text : List Char} (h : (visible old).Sublist (visible text)) :
    Keeps (a ++ old ++ c) ⟨⟨byteLength a, byteLength (a ++ old)⟩, text⟩ := by
  refine ⟨old, ?_, h⟩
  have ha : takeBytes (byteLength a) (a ++ old ++ c) = a := by
    rw [List.append_assoc, takeBytes_byteLength]
  have hc : dropBytes (byteLength (a ++ old)) (a ++ old ++ c) = c := dropBytes_byteLength _ c
  show a ++ old ++ c = takeBytes (byteLength a) _ ++ old ++ dropBytes (byteLength (a ++ old)) _
  rw [ha, hc]

/-- The place of an addition is a boundary of what stands in front of the closing delimiter. -/
theorem isBoundary_keptEnd {inner : Span} (h : inner.Fits source) :
    IsBoundary (takeBytes inner.stop source)
      (max (byteLength (trimEnd (takeBytes inner.stop source))) inner.start) := by
  obtain ⟨p, ⟨c, rfl⟩, hp⟩ := h.stop
  have htake : takeBytes inner.stop (p ++ c) = p := hp ▸ takeBytes_byteLength p c
  obtain ⟨w, hw, _⟩ := exists_trimEnd p
  rw [htake]
  rcases Nat.le_total inner.start (byteLength (trimEnd p)) with hle | hle
  · rw [Nat.max_eq_left hle]
    exact ⟨trimEnd p, ⟨w, hw.symm⟩, rfl⟩
  · obtain ⟨b, hb, hbs⟩ := h.start
    rw [Nat.max_eq_right hle]
    refine ⟨b, prefix_of_byteLength_le hb (List.prefix_append p c) ?_, hbs⟩
    rw [hbs, hp]
    exact h.ordered

theorem keeps_appendToInner {inner : Span} (h : inner.Fits source) (code indent : List Char) :
    (appendToInner source inner code indent).Keeps source := by
  have hkept := isBoundary_keptEnd h
  obtain ⟨p, ⟨c, rfl⟩, hp⟩ := h.stop
  have htake : takeBytes inner.stop (p ++ c) = p := hp ▸ takeBytes_byteLength p c
  rw [htake] at hkept
  obtain ⟨a, ⟨q, hq⟩, ha⟩ := hkept
  have hq' : visible q = [] := by
    apply visible_eq_nil_of_trimEnd (p := a)
    rw [hq, ha]
    exact Nat.le_max_left _ _
  have hsub : (visible q).Sublist (visible ('\n' :: indentLines indent code)) := by
    rw [hq']
    exact List.nil_sublist _
  have hk := keeps_between (a := a) (c := c) hsub
  rw [hq, ha, hp] at hk
  unfold appendToInner
  rw [htake]
  exact hk

theorem keeps_appendDeclaration (code : List Char) :
    (appendDeclaration source code).Keeps source := by
  obtain ⟨w, hs, hw⟩ := exists_trimEnd source
  have hsub : (visible w).Sublist (visible ('\n' :: '\n' :: trimEnd code ++ ['\n'])) := by
    rw [hw]
    exact List.nil_sublist _
  have hk := keeps_between (a := trimEnd source) (c := []) hsub
  rw [← hs, List.append_nil] at hk
  exact hk

/-- A prefix of what stands behind a boundary, and the cuts around it. -/
theorem exists_between {n : Nat} {rest : List Char} (hn : IsBoundary source n)
    (hr : rest <+: dropBytes n source) :
    ∃ a c, source = a ++ rest ++ c ∧ n = byteLength a ∧
      n + byteLength rest = byteLength (a ++ rest) := by
  obtain ⟨a, ⟨b, rfl⟩, rfl⟩ := hn
  rw [dropBytes_byteLength] at hr
  obtain ⟨c, rfl⟩ := hr
  exact ⟨a, c, (List.append_assoc a rest c).symm, rfl, (byteLength_append a rest).symm⟩

theorem takeBytes_isPrefix (n : Nat) (s : List Char) : takeBytes n s <+: s :=
  ⟨dropBytes n s, takeBytes_append_dropBytes n s⟩

theorem keeps_nextParameter {params : Span} {last : Nat} (h : IsBoundary source last)
    (param indent : List Char) : (nextParameter source params last param indent).Keeps source := by
  unfold nextParameter
  dsimp only
  split
  · -- The rest of the line moves in front of the parameter.
    generalize hr : (slice source ⟨last, params.stop⟩).takeWhile (· != '\n') = rest
    have hrest : rest <+: dropBytes last source := by
      rw [← hr]
      exact (List.takeWhile_prefix _).trans (takeBytes_isPrefix _ _)
    obtain ⟨a, c, hs, ha, hstop⟩ := exists_between h hrest
    rw [hstop, ha, hs]
    apply keeps_between
    simp only [visible_append, List.append_assoc]
    exact (List.sublist_append_left _ _).trans (List.sublist_append_right _ _)
  · split
    · exact keeps_insert _ _
    · exact keeps_insert _ _

theorem keeps_firstParameter (params : Span) (param indent : List Char) :
    (firstParameter source params param indent).Keeps source := by
  unfold firstParameter
  split
  · exact keeps_insert _ _
  · exact keeps_insert _ _

theorem keeps_appendParameter {params : Span} {last : Option Nat}
    (h : ∀ n, last = some n → IsBoundary source n) (param indent : List Char) :
    (appendParameter source params last param indent).Keeps source := by
  cases last with
  | none => exact keeps_firstParameter params param indent
  | some n => exact keeps_nextParameter (h n rfl) param indent

theorem keeps_commentAbove (start : Nat) (comment : List Char) :
    (commentAbove source start comment).Keeps source := by
  unfold commentAbove
  dsimp only
  split
  · exact keeps_insert _ _
  · exact keeps_insert _ _

theorem keeps_groupImports {a gap body tail : List Char} {d : Outline.ImportDecl}
    (hk : d.keywordEnd = byteLength a)
    (hs : d.specs = [⟨byteLength (a ++ gap), byteLength (a ++ gap ++ body)⟩])
    (hstop : d.span.stop = byteLength (a ++ gap ++ body)) (hgap : visible gap = [])
    (spec indent : List Char) :
    (groupImports (a ++ gap ++ body ++ tail) d spec indent).Keeps (a ++ gap ++ body ++ tail) := by
  have hslice : slice (a ++ gap ++ body ++ tail)
      ⟨byteLength (a ++ gap), byteLength (a ++ gap ++ body)⟩ = body := slice_append _ _ _
  have hline : lineRest (a ++ gap ++ body ++ tail) (byteLength (a ++ gap ++ body)) =
      tail.takeWhile (· != '\n') := by rw [lineRest, dropBytes_byteLength]
  obtain ⟨far, hfar⟩ : tail.takeWhile (· != '\n') <+: tail := List.takeWhile_prefix _
  unfold groupImports
  simp only [hs, List.map_cons, List.map_nil, hslice, hk, hstop, hline]
  generalize tail.takeWhile (· != '\n') = rest at hfar
  subst hfar
  generalize "//".toList.isPrefixOf (trimStart rest) = trails
  have hone : ['\n'].intercalate [indent ++ body] = indent ++ body := by simp [List.intercalate]
  simp only [hone, List.isEmpty_cons, Bool.false_eq_true, if_false]
  cases trails with
  | true =>
      -- A line comment is part of what is replaced, and written behind the spec.
      have hsub (t : List Char) : (visible (gap ++ body ++ rest)).Sublist (visible
          (" (\n".toList ++ (indent ++ body ++ (' ' :: trim rest ++ ['\n'])) ++ t)) := by
        have hblank : visible (' ' :: trim rest) = visible rest := by
          rw [visible_cons_of_isBlank (by decide), visible_trim]
        simp only [visible_append, hgap, hblank, List.nil_append, List.append_assoc]
        apply List.Sublist.trans _ (List.sublist_append_right _ _)
        apply List.Sublist.trans _ (List.sublist_append_right _ _)
        apply List.Sublist.append_left
        exact List.sublist_append_left _ _
      have hkeep := keeps_between (a := a) (c := far) (hsub (indent ++ spec ++ "\n)".toList))
      simpa only [if_true, List.append_assoc, byteLength_append, Nat.add_assoc] using hkeep
  | false =>
      have hsub (t : List Char) : (visible (gap ++ body)).Sublist (visible
          (" (\n".toList ++ (indent ++ body ++ ([] ++ ['\n'])) ++ t)) := by
        simp only [visible_append, hgap, List.nil_append, List.append_assoc]
        apply List.Sublist.trans _ (List.sublist_append_right _ _)
        apply List.Sublist.trans _ (List.sublist_append_right _ _)
        exact List.sublist_append_left _ _
      have hkeep := keeps_between (a := a) (c := rest ++ far)
        (hsub (indent ++ spec ++ "\n)".toList))
      simpa only [Bool.false_eq_true, if_false, List.append_assoc] using hkeep

end Splice

namespace Outline

/-- No comment stands between the keyword of an import without parentheses and its spec. -/
def ImportsPlain (o : Outline) : Prop :=
  ∀ d ∈ o.importDecls, d.list = none →
    ∀ spec ∈ d.specs, visible (Text.slice o.text ⟨d.keywordEnd, spec.start⟩) = []

instance (o : Outline) : Decidable o.ImportsPlain :=
  inferInstanceAs (Decidable (∀ d ∈ o.importDecls, d.list = none → ∀ spec ∈ d.specs,
    visible (Text.slice o.text ⟨d.keywordEnd, spec.start⟩) = []))

variable {dialect : Annotation.Dialect} {find : Finder} {text : List Char} {o : Outline}

/-- An import declaration without parentheses has one spec, and ends with it. -/
theorem lone_importDecl (h : ofText dialect find text = .ok o) {d : ImportDecl}
    (hd : d ∈ o.importDecls) (hl : d.list = none) :
    ∃ spec, d.specs = [spec] ∧ spec.stop = d.span.stop ∧ d.keywordEnd ≤ spec.start := by
  obtain ⟨⟨extent, decl⟩, rfl, seg, ⟨k, body, rfl, hk, hspecs⟩, he, hseg⟩ :=
    importDecls_from h d hd
  have hp : decl.parens = none := by simpa [importDeclOf] using hl
  rw [hp] at hspecs
  obtain ⟨spec, hs, hb, hc⟩ := hspecs
  refine ⟨spec.extent.span, congrArg (List.map fun i : ImportSpec => i.extent.span) hs, ?_, ?_⟩
  · show spec.extent.span.stop = extent.span.stop
    rw [hc, show extent = extentOf (k :: body) from he]
    exact (stop_extentOf_append [k] hb).symm
  · show decl.keyword.stop ≤ spec.extent.span.start
    cases body with
    | nil => exact absurd rfl hb
    | cons t body =>
        have ho := (List.pairwise_cons.1 hseg.laid.ordered).1 t List.mem_cons_self
        rw [hk, hc]
        exact ho

theorem text_of_ofText (h : ofText dialect find text = .ok o) : o.text = text := by
  obtain ⟨layout, _, h⟩ := bind_eq_ok.1 h
  exact text_of_ofLayout h

/-- A comment between keyword and spec is all that is lost when an import joins a group. -/
theorem keeps_groupImports (h : ofText dialect find text = .ok o) {d : ImportDecl}
    (hd : d ∈ o.importDecls) (hl : d.list = none) (hplain : o.ImportsPlain)
    (spec indent : List Char) : (Splice.groupImports o.text d spec indent).Keeps o.text := by
  obtain ⟨s, hs, hstop, hstart⟩ := lone_importDecl h hd hl
  have hw := (wellPlaced_of_ofText h).imports d hd
  have hfit := (hw.specs s (by simp [hs])).1
  obtain ⟨p, ⟨tail, htext⟩, hp⟩ := hfit.stop
  obtain ⟨q, hq, hqs⟩ := hfit.start
  obtain ⟨a, ha, has⟩ := hw.keywordEnd.1
  obtain ⟨body, rfl⟩ : q <+: p := by
    apply prefix_of_byteLength_le hq ⟨tail, htext⟩
    rw [hqs, hp]
    exact hfit.ordered
  obtain ⟨gap, rfl⟩ : a <+: q := by
    apply prefix_of_byteLength_le ha hq
    rw [has, hqs]
    exact hstart
  have hspan : s = ⟨byteLength (a ++ gap), byteLength (a ++ gap ++ body)⟩ := by rw [hqs, hp]
  have hgap : visible gap = [] := by
    have hg := hplain d hd hl s (by simp [hs])
    rw [← has, ← hqs, ← htext, List.append_assoc (a ++ gap), Text.slice_append] at hg
    exact hg
  rw [← htext]
  exact Splice.keeps_groupImports has.symm (hspan ▸ hs) (hstop ▸ hp.symm) hgap spec indent

theorem keeps_appendImport (h : ofText dialect find text = .ok o) (hplain : o.ImportsPlain)
    (spec indent : List Char) : (Splice.appendImport o spec indent).Keeps o.text := by
  unfold Splice.appendImport
  split
  next list hlist =>
    obtain ⟨d, hd, hl⟩ := List.exists_of_findSome?_eq_some hlist
    have hw := (wellPlaced_of_ofText h).imports d (List.mem_reverse.1 hd)
    exact Splice.keeps_appendToInner (hw.list list hl).1 spec indent
  next hnone =>
    split
    next d hd =>
      have hmem := List.mem_of_getLast? hd
      have hl := List.findSome?_eq_none_iff.1 hnone d (List.mem_reverse.2 hmem)
      exact keeps_groupImports h hmem hl hplain spec indent
    next => exact Splice.keeps_insert _ _

end Outline

namespace Document

variable {settings : Settings} {find : Finder} {text : List Char} {d : Document}

/-- Every splice that an edit of a document comes to keeps what can be seen. -/
theorem keeps_splice {o : Outline} (h : Outline.ofText settings.dialect find text = .ok o)
    {e : Edit} (hplain : ∀ origin, e = .appendImport origin → o.ImportsPlain) {s : Splice}
    (hs : e.splice? settings o = .ok (some s)) : s.Keeps o.text := by
  have hw := Outline.wellPlaced_of_ofText h
  cases e with
  | appendField owner field =>
      obtain ⟨t, ht, hs⟩ := bind_eq_ok.1 hs
      cases hs
      have ht := hw.structures t (Table.mem_values (Outline.needStructure_eq_ok ht))
      exact Splice.keeps_appendToInner ht.inner _ _
  | appendMethod owner method =>
      obtain ⟨t, ht, hs⟩ := bind_eq_ok.1 hs
      cases hs
      have ht := hw.interfaces t (Table.mem_values (Outline.needInterface_eq_ok ht))
      exact Splice.keeps_appendToInner ht.inner _ _
  | appendCode function code =>
      obtain ⟨f, hf, hs⟩ := bind_eq_ok.1 hs
      obtain ⟨inner, hi, hs⟩ := bind_eq_ok.1 hs
      cases hs
      have hf := hw.functions f (Table.mem_values (Outline.needFunction_eq_ok hf))
      exact Splice.keeps_appendToInner (hf.inner inner (Outline.needBody_eq_ok hi)).1 _ _
  | appendParameter function param =>
      obtain ⟨f, hf, hs⟩ := bind_eq_ok.1 hs
      cases hs
      have hf := hw.functions f (Table.mem_values (Outline.needFunction_eq_ok hf))
      exact Splice.keeps_appendParameter (fun n hn => (hf.lastParamEnd n hn).1) _ _
  | appendImport origin =>
      simp only [Edit.splice?] at hs
      split at hs
      · cases hs
      · cases hs
        exact Outline.keeps_appendImport h (hplain origin rfl) _ _
  | appendStructure draft | appendInterface draft | appendFunction draft =>
      cases hs
      exact Splice.keeps_appendDeclaration _
  | annotateStructure name a | annotateInterface name a | annotateFunction name a
  | annotateField owner name a | annotateMethod owner name a =>
      obtain ⟨t, _, hs⟩ := bind_eq_ok.1 hs
      cases hs
      exact Splice.keeps_commentAbove _ _

theorem text_commit (d : Document) (find : Finder) (text : List Char) :
    (d.commit find text).2.text = text ∨ (d.commit find text).2.text = d.text := by
  cases hr : read d.settings find d.memo text with
  | mk answer memo =>
      cases answer with
      | ok o =>
          have ht : o.text = text := text_of_read (by rw [hr])
          exact .inl (by simp only [commit, hr]; exact ht)
      | error e => exact .inr (by simp only [commit, hr]; rfl)

/-- Nothing that can be seen of a text is lost by a request, whatever requests came before, with one
exception: a comment between the keyword and the spec of an import that is made part of a group. -/
theorem visible_apply (h : ofText settings find text = .ok d) (requests : List Request)
    (r : Request) (hplain : ∀ origin, r.edit = .appendImport origin →
      (d.run requests).outline.ImportsPlain) :
    (visible (d.run requests).text).Sublist
      (visible ((d.run requests).apply r.find r.edit).2.text) := by
  have hread := ofText_run h requests
  have hset := settings_run d requests
  cases hs : r.edit.splice? (d.run requests).settings (d.run requests).outline with
  | error e => simp only [apply, hs, List.Sublist.refl]
  | ok s =>
      cases s with
      | none => simp only [apply, hs, List.Sublist.refl]
      | some s =>
          rw [hset] at hs
          have hk := keeps_splice hread hplain hs
          simp only [apply, hset, hs]
          rcases text_commit (d.run requests) r.find (s.apply (d.run requests).text) with ht | ht
          · rw [ht]
            exact hk.visible_sublist
          · rw [ht]

/-- A line comment behind an import moves into the group. -/
theorem visible_apply_trailing_comment :
    let settings : Settings := ⟨⟨"gen", false⟩, "\t", .verbatim⟩
    let find : Finder := fun _ => .error (.unresolved "no packages")
    let r : Request := ⟨find, .appendImport ⟨none, "fmt", none, none⟩⟩
    ∃ d, ofText settings find "package p\n\nimport \"a\" // c\n".toList = .ok d ∧
      (d.run []).outline.ImportsPlain ∧
      (visible (d.run []).text).Sublist (visible ((d.run []).apply r.find r.edit).2.text) := by
  intro settings find r
  have hm : (ofText settings find "package p\n\nimport \"a\" // c\n".toList).map
      (fun d => decide (d.run []).outline.ImportsPlain) = .ok true := by
    decide +kernel
  cases hd : ofText settings find "package p\n\nimport \"a\" // c\n".toList with
  | error e => simp only [hd, Except.map, reduceCtorEq] at hm
  | ok d =>
      simp only [hd, Except.map, Except.ok.injEq, decide_eq_true_eq] at hm
      exact ⟨d, rfl, hm, visible_apply hd [] r fun _ _ => hm⟩

/-- The comment between keyword and spec is not written again. -/
theorem not_visible_apply_inner_comment :
    let settings : Settings := ⟨⟨"gen", false⟩, "\t", .verbatim⟩
    let find : Finder := fun _ => .error (.unresolved "no packages")
    let edit : Edit := .appendImport ⟨none, "fmt", none, none⟩
    ∃ d, ofText settings find "package p\n\nimport /* c */ \"a\"\n".toList = .ok d ∧
      (d.apply find edit).1 = .ok () ∧
      ¬ (visible d.text).Sublist (visible (d.apply find edit).2.text) := by
  intro settings find edit
  have hm : (ofText settings find "package p\n\nimport /* c */ \"a\"\n".toList).map
      (fun d => decide ((d.apply find edit).1 = .ok () ∧
        ¬ (visible d.text).Sublist (visible (d.apply find edit).2.text))) = .ok true := by
    decide +kernel
  cases hd : ofText settings find "package p\n\nimport /* c */ \"a\"\n".toList with
  | error e => simp only [hd, Except.map, reduceCtorEq] at hm
  | ok d =>
      simp only [hd, Except.map, Except.ok.injEq, decide_eq_true_eq] at hm
      exact ⟨d, rfl, hm⟩

end Document

end GoOutline
