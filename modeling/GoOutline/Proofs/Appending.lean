import GoOutline.Proofs.Drafted
import GoOutline.Proofs.Leading
import GoOutline.Proofs.Whole

/-!
Members that are appended. A field or a method that is written into the body of its owner comes back
behind the members that the owner had, and nothing else in the file changes.
-/

namespace GoOutline

open Text Syntax Syntax.Lexer Syntax.Grammar
open Syntax.Parser (commentSiblings)

variable {m indent code : List Char} {docs : List String} {lead : List Piece}

section Tidy

variable {α : Type} {place : α → Extent} {s front : List (Sibling α)} {x : Addition} {a : α}

/-- Siblings without a comment at the end. -/
def Tidy (s : List (Sibling α)) : Prop := ∀ c, .comment c ∉ s.getLast?

theorem tidy_siblings (x : Addition) (a : α) (s : List (Sibling α)) : Tidy (x.siblings a s) := by
  intro c
  simp [Addition.siblings, ← List.append_assoc]

namespace Tidy

theorem comments_eq_nil (h : Tidy s) {c : Token} (hs : s = front ++ commentSiblings c) :
    c.comments = [] := by
  rcases List.eq_nil_or_concat' c.comments with hc | ⟨cs, d, hc⟩
  · exact hc
  · exact absurd (by simp [hs, commentSiblings, hc, ← List.append_assoc]) (h d)

theorem clear (h : Tidy s) {r : Nat} (hr : ∀ a ∈ members s, (place a).lastRow < r) :
    Docs.Clear place r s.reverse := by
  rcases List.eq_nil_or_concat' s with rfl | ⟨front, ⟨c⟩ | ⟨a⟩, rfl⟩
  · trivial
  · exact absurd (by simp) (h c)
  · rw [List.reverse_append]
    exact hr a (by simp)

/-- A member that is written below siblings has its own comments for its docs. -/
theorem docs_eq (h : Tidy s) {c : Token} (hs : s = front ++ commentSiblings c)
    (hp : x.passed = c.comments.length) {f : α → α} {u : List Char}
    (hf : ∀ a, place (f a) = (Motion.upto u).extent (place a))
    (hkept : (x.kept s).map ((Motion.upto u).sibling f) = x.kept s) {lines : List String}
    (hnotes : x.passed = 0 → Docs.Fills (u.count '\n' + 1) x.comments (place a).row ∧
      Docs.linesOf x.comments = lines) : x.docs place a s = lines := by
  have hnone : x.passed = 0 := by rw [hp, h.comments_eq_nil hs, List.length_nil]
  have hall : x.kept s = s := by simp [Addition.kept, hnone]
  obtain ⟨hfills, hsaid⟩ := hnotes hnone
  have hrows : ∀ b ∈ members s, (place b).lastRow < u.count '\n' + 1 := by
    intro b hb
    have hfix := congrArg place (Motion.member_of_fixed (hall ▸ hkept) b hb)
    rw [hf] at hfix
    exact Nat.lt_succ_of_le (of_decide_eq_true (kept_rows hfix).2)
  rw [Addition.docs, hall, Docs.commentsAbove_fills (h.clear hrows) hfills, hsaid]

end Tidy

/-- The body of a definition has no comment behind its last member. -/
def Hole.Tidy (h : Hole) : Prop :=
  match h.spec.body with
  | .struct _ b => GoOutline.Tidy b.fields
  | .interface _ b => GoOutline.Tidy b.elems
  | .plain _ => False

end Tidy

section Texts

variable {text a y : List Char} {inner : Span}

/-- Code that goes between braces is written on lines behind all that stands in front of the closing
one. -/
theorem apply_appendToInner_lined (ht : text = a ++ y) (hb : inner.Between text '\x7b' '\x7d')
    (hstop : inner.stop = byteLength a)
    (hcode : Splice.indentLines indent code = flat lead ++ (m ++ ['\n'])) :
    (Splice.appendToInner text inner code indent).apply text = Lexer.lined a lead m ++ y := by
  obtain ⟨s, body, back, htext, rfl⟩ := hb
  have hcut : text = s ++ ['\x7b'] ++ body ++ '\x7d' :: back := by simp [htext]
  have hspan : (⟨byteLength (s ++ ['\x7b']), byteLength (s ++ '\x7b' :: body)⟩ : Span) =
      ⟨byteLength (s ++ ['\x7b']), byteLength (s ++ ['\x7b'] ++ body)⟩ := by simp
  have hfront : a = s ++ ['\x7b'] ++ body := by
    have hleft := takeBytes_byteLength a y
    rw [← ht, ← hstop, congrArg Span.stop hspan, hcut, takeBytes_byteLength] at hleft
    exact hleft.symm
  have hback : y = '\x7d' :: back := by
    rw [ht, hfront] at hcut
    exact List.append_cancel_left hcut
  rw [hspan, hcut, Splice.apply_appendToInner, Splice.grown, hcode, hback, Lexer.lined, hfront,
    trimEnd_brace]
  simp

/-- A line below its docs, written between the braces of a definition, is a member more of it. -/
theorem Hole.exists_appended {h : Hole} {layout : Layout} {s : Span}
    (hl : Outline.layoutOf text = .ok layout) (htree : Tree.ofText? text = some ⟨h.items⟩)
    (hclose : Closes (pieces text) []) (hs : Addition.closing? h.spec.body = some s)
    (hb : inner.Between text '\x7b' '\x7d') (hinner : inner.stop = s.start)
    (hindent : ∀ c ∈ indent, isSpace c) (hdocs : ∀ line ∈ docs, '\n' ∉ line.toList) (hm : Phrase m)
    (hfirst : ∀ t ∈ (words m).head?, t.is rbrace = false) :
    let text' := (Splice.appendToInner text inner (Docs.render docs ++ m) indent).apply text
    let w := trimEnd (takeBytes inner.stop text)
    ∃ u v st c, text' = u ++ m ++ v ∧ byteLength u = State.offset st ∧ Addition.Closed h.spec.body c ∧
      Closes (pieces text') [] ∧
      ∀ member, (∀ x : Addition, x.member = member → x.Fits h.spec.body) → Reads member st m →
        ∃ x : Addition, x.member = member ∧ x.passed = c.comments.length ∧
          Tree.ofText? text' = some ⟨(h.grown x).items⟩ ∧ (∃ r, h.Grows x w inner.stop r text text') ∧
          (∀ n, inner.stop ≤ n → x.shift.byte n + byteLength text = n + byteLength text') ∧
          ('\n' ∉ indent → x.passed = 0 → Docs.Fills (w.count '\n' + 1) x.comments st.row ∧
            Docs.linesOf x.comments = docs.map Docs.said) := by
  have hne : trimEnd m ≠ [] := by
    rw [hm.trimEnd_eq]
    exact hm.ne_nil
  obtain ⟨lead, hlead, hcode, hnotes⟩ := exists_leading hindent hdocs hm.line hne
  obtain ⟨a, y, cs, c, ha, hstart, hc, hcs, hclosed, hlined⟩ :=
    Hole.exists_lined hl htree hclose hs hlead.gap hlead.cut hm hfirst
  have hstop : inner.stop = byteLength a := hinner.trans hstart.symm
  have hfront : takeBytes inner.stop text = a := by rw [ha, hstop, takeBytes_byteLength]
  have hline : Lexer.lined a lead m ++ y = trimEnd a ++ '\n' :: flat lead ++ m ++ '\n' :: y := by
    simp [Lexer.lined]
  rw [apply_appendToInner_lined ha hb hstop hcode, hfront]
  refine ⟨trimEnd a ++ '\n' :: flat lead, '\n' :: y, outset a cs lead, c, hline, ?_, hc, hclosed,
    fun member hfits hreads => ?_⟩
  · have hnewline : byteLength ['\n'] = 1 := by decide
    rw [offset_outset, ← List.singleton_append, byteLength_append, byteLength_append, hnewline]
    omega
  · obtain ⟨htree', hgrows⟩ := hlined member _ rfl (hfits _ rfl) hreads
    rw [hstop]
    refine ⟨_, rfl, rfl, htree', ⟨_, hgrows⟩, fun n hn => ?_, fun hi hpassed => ?_⟩
    · rw [ha]
      simp only [Addition.lined, Shift.byte, shiftOf, byteLength_append]
      omega
    · obtain ⟨cs', hcomments, hrows, hsaid⟩ := hnotes hi (below (trimEnd a) cs)
      have hnil : c.comments = [] := List.length_eq_zero_iff.1 hpassed
      rw [hnil, List.forall₂_nil_left_iff] at hcs
      subst hcs
      have hcomments : (outset a [] lead).comments = cs' := hcomments
      simp only [Addition.lined, hcomments]
      exact ⟨hrows, hsaid⟩

end Texts

namespace Outline

/-- One outline with a field more in a structure, and nothing else changed. -/
def GainsField (o p : Outline) (owner : String) (f : Draft.Field) (T : GoType) : Prop :=
  o.Spared (.struct, owner) p ∧ ∃ s span inner g, o.structure? owner = some s ∧
    p.structure? owner = some { s with span := span, inner := inner, fields := s.fields ++ [g] } ∧
    f.Says p.text T g

/-- One outline with a method more in an interface, and nothing else changed. -/
def GainsMethod (o p : Outline) (owner : String) (m : Draft.Method) (params results : List Parameter) :
    Prop :=
  o.Spared (.interface, owner) p ∧ ∃ i span inner n, o.interface? owner = some i ∧
    p.interface? owner = some { i with span := span, inner := inner, methods := i.methods ++ [n] } ∧
    m.Says p.text params results n

variable {find : Finder} {text : List Char} {o : Outline} {layout : Layout} {owner marker : String}

end Outline

namespace Document

open Outline

/-- A field on one line below its docs goes into a structure of a whole document. Behind members with no
comment below them it is the same field in any document, but for its place. -/
theorem exists_append_field {imports : List Import} {f : Draft.Field} {T : GoType}
    (hf : f.ReadAs imports T) (hdocs : ∀ line ∈ f.docs, '\n' ∉ line.toList) (marker : String) :
    ∃ g₀ : Outline.Field, ∀ {d : Document} {layout hole ds s es}, d.Whole layout →
      d.settings.dialect.marker = marker → d.outline.imports = imports →
      Locates ⟨marker, false⟩ d.text d.outline hole ds (.struct s) es →
      let e : Edit := .appendField s.name f
      ∃ layout' p hole' es' span stop g,
        let s' : Outline.Structure := { s with
          span := span, inner := ⟨s.inner.start, stop⟩, fields := s.fields ++ [g] }
        (∀ find, d.apply find e = (.ok (), { d with outline := p })) ∧
        p.text = (d.bodySplice s.inner e).apply d.text ∧
        ({ d with outline := p } : Document).Whole layout' ∧
        Locates ⟨marker, false⟩ p.text p hole' ds (.struct s') es' ∧
        d.outline.Turns (.struct, s.name) (.struct s') s.inner d.text p.text p ∧
        stop + byteLength d.text = s.inner.stop + byteLength p.text ∧ f.Says p.text T g ∧
        ('\n' ∉ d.settings.indent.toList → hole.Tidy → g.unplaced = g₀ ∧ hole'.Tidy) := by
  obtain ⟨g₀, hreads⟩ := hf.exists_reads marker
  refine ⟨g₀, fun {d layout h ds s es} hd hmarker himp ha => ?_⟩
  subst hmarker himp
  intro edit
  have hs : d.outline.structure? s.name = some s := declared?_struct.1 ha.declared?
  have hbody : edit.body? d.outline = some s.inner := by simp [edit, Edit.body?, hs]
  obtain ⟨e, b, hkind, hinner, hgrown⟩ := ha.structure_grown hd.shows
  have hclosing : Addition.closing? h.spec.body = some b.braces.closing := by rw [hkind]; rfl
  obtain ⟨_, hfirst, -⟩ := hreads (.bare 0 0)
  obtain ⟨u, v, st, c, htext, hu, hc, hclosed, hadd⟩ := Hole.exists_appended hd.shows.laid ha.tree
    hd.closed hclosing (hd.wellPlaced.structures s (Table.mem_values hs)).braces
    (congrArg Span.stop hinner) hd.indent hdocs hf.phrase (hfirst.first hf.phrase)
  rw [← Draft.Field.render_eq] at htext hclosed hadd
  obtain ⟨decl, hread, hrow, hsays⟩ := hreads st
  obtain ⟨x, hmember, hpassed, htree', ⟨r, hgrows⟩, hshift, hnotes⟩ := hadd (.inl decl)
    (fun x hx => by rw [hkind, Addition.Fits, hx]; rfl) hread
  obtain ⟨g, hg, hsays, hsame⟩ := hsays u v (x.docs FieldDecl.extent decl b.fields) hu
  rw [← htext] at hg hsays
  obtain ⟨layout', p, span, hs', himports, hlocates, hmoves, hspared⟩ :=
    hgrown hmember hc hpassed hgrows htree' hg
  obtain ⟨happly, hp, hwhole⟩ := hd.apply hbody hs' himports hclosed
  have hnew : (Splice.appendToInner d.text s.inner f.render d.settings.indent.toList).apply d.text =
    p.text := hp.symm
  rw [hnew] at hlocates hshift hsays
  refine ⟨layout', p, _, _, span, _, g, happly, hp, hwhole, hlocates, ⟨⟨_, hmoves, hshift⟩, hspared⟩,
    hshift _ (Nat.le_refl _), hsays, fun hi htidy => ?_⟩
  have hmembers := hgrows.members
  rw [Hole.Tidy, hkind] at htidy
  rw [hkind] at hmembers hc
  obtain ⟨-, -, front, hfront⟩ := hc
  constructor
  · exact hsame (htidy.docs_eq hfront hpassed (fun _ => rfl) hmembers (hrow ▸ hnotes hi))
  · rw [Hole.Tidy, Hole.grown_spec, hkind]
    simp only [Addition.body, hmember]
    exact tidy_siblings x decl b.fields

/-- A method on one line below its docs goes into an interface of a whole document. Behind members with
no comment below them it is the same method in any document, but for its place. -/
theorem exists_append_method {imports : List Import} {m : Draft.Method} {params results : List Parameter}
    (hm : m.ReadAs imports params results) (hdocs : ∀ line ∈ m.docs, '\n' ∉ line.toList)
    (marker : String) :
    ∃ n₀ : Outline.Method, ∀ {d : Document} {layout hole ds i es}, d.Whole layout →
      d.settings.dialect.marker = marker → d.outline.imports = imports →
      Locates ⟨marker, false⟩ d.text d.outline hole ds (.interface i) es →
      let e : Edit := .appendMethod i.name m
      ∃ layout' p hole' es' span stop n,
        let i' : Outline.Interface := { i with
          span := span, inner := ⟨i.inner.start, stop⟩, methods := i.methods ++ [n] }
        (∀ find, d.apply find e = (.ok (), { d with outline := p })) ∧
        p.text = (d.bodySplice i.inner e).apply d.text ∧
        ({ d with outline := p } : Document).Whole layout' ∧
        Locates ⟨marker, false⟩ p.text p hole' ds (.interface i') es' ∧
        d.outline.Turns (.interface, i.name) (.interface i') i.inner d.text p.text p ∧
        stop + byteLength d.text = i.inner.stop + byteLength p.text ∧
        m.Says p.text params results n ∧
        ('\n' ∉ d.settings.indent.toList → hole.Tidy → n.unplaced = n₀ ∧ hole'.Tidy) := by
  obtain ⟨n₀, hreads⟩ := hm.exists_reads marker
  refine ⟨n₀, fun {d layout h ds i es} hd hmarker himp ha => ?_⟩
  subst hmarker himp
  intro edit
  have hi : d.outline.interface? i.name = some i := declared?_interface.1 ha.declared?
  have hbody : edit.body? d.outline = some i.inner := by simp [edit, Edit.body?, hi]
  obtain ⟨e, b, hkind, hinner, hgrown⟩ := ha.interface_grown hd.shows
  have hclosing : Addition.closing? h.spec.body = some b.braces.closing := by rw [hkind]; rfl
  obtain ⟨_, hfirst, -⟩ := hreads (.bare 0 0)
  obtain ⟨u, v, st, c, htext, hu, hc, hclosed, hadd⟩ := Hole.exists_appended hd.shows.laid ha.tree
    hd.closed hclosing (hd.wellPlaced.interfaces i (Table.mem_values hi)).braces
    (congrArg Span.stop hinner) hd.indent hdocs hm.phrase (hfirst.first hm.phrase)
  rw [← Draft.Method.render_eq] at htext hclosed hadd
  obtain ⟨spec, hread, hrow, hsays⟩ := hreads st
  obtain ⟨x, hmember, hpassed, htree', ⟨r, hgrows⟩, hshift, hnotes⟩ := hadd (.inr (.method spec))
    (fun x hx => by rw [hkind, Addition.Fits, hx]; rfl) hread
  obtain ⟨n, hn, hsays, hsame⟩ := hsays u v (x.docs InterfaceElem.extent (.method spec) b.elems) hu
  rw [← htext] at hn hsays
  obtain ⟨layout', p, span, hs', himports, hlocates, hmoves, hspared⟩ :=
    hgrown hmember hc hpassed hgrows htree' hn
  obtain ⟨happly, hp, hwhole⟩ := hd.apply hbody hs' himports hclosed
  have hnew : (Splice.appendToInner d.text i.inner m.render d.settings.indent.toList).apply d.text =
    p.text := hp.symm
  rw [hnew] at hlocates hshift hsays
  refine ⟨layout', p, _, _, span, _, n, happly, hp, hwhole, hlocates, ⟨⟨_, hmoves, hshift⟩, hspared⟩,
    hshift _ (Nat.le_refl _), hsays, fun hi htidy => ?_⟩
  have hmembers := hgrows.members
  rw [Hole.Tidy, hkind] at htidy
  rw [hkind] at hmembers hc
  obtain ⟨-, -, front, hfront⟩ := hc
  constructor
  · exact hsame (htidy.docs_eq hfront hpassed (fun e => by cases e <;> rfl) hmembers (hrow ▸ hnotes hi))
  · rw [Hole.Tidy, Hole.grown_spec, hkind]
    simp only [Addition.body, hmember]
    exact tidy_siblings x (.method spec) b.elems

variable {settings : Settings} {find : Finder} {text : List Char} {d : Document}

/-- In any document that can be come to, with lenient annotations and no comment left open, a field
or a method on one line below its docs becomes the last member of its owner, with what its text says.
The other members and everything else in the file are as they were. -/
theorem append_member (h : ofText settings find text = .ok d) (requests : List Request)
    (hlenient : d.settings.dialect.strict = false) (hindent : ∀ c ∈ d.settings.indent.toList, isSpace c)
    (hclosed : Closes (pieces (d.run requests).text) []) :
    let e := d.run requests
    (∀ owner s f T find', e.outline.structure? owner = some s →
      Draft.Field.ReadAs e.outline.imports f T → (∀ line ∈ f.docs, '\n' ∉ line.toList) →
      ∃ p, e.apply find' (.appendField owner f) = (.ok (), { e with outline := p }) ∧
        e.outline.GainsField p owner f T) ∧
    ∀ owner i m params results find', e.outline.interface? owner = some i →
      Draft.Method.ReadAs e.outline.imports m params results → (∀ line ∈ m.docs, '\n' ∉ line.toList) →
      ∃ p, e.apply find' (.appendMethod owner m) = (.ok (), { e with outline := p }) ∧
        e.outline.GainsMethod p owner m params results := by
  intro e
  obtain ⟨layout, hd⟩ := exists_whole h requests hlenient hindent hclosed
  constructor
  · intro owner s f T find' hs hf hdocs
    obtain ⟨hole, ds, es, hlocates, howner⟩ :=
      exists_owner hd.shows (declared?_struct.2 hs) (TargetKind.noConfusion)
    obtain rfl : s.name = owner := congrArg Prod.snd howner
    obtain ⟨_, hadd⟩ := exists_append_field hf hdocs e.settings.dialect.marker
    obtain ⟨layout', p, hole', es', span, stop, g, happly, -, -, hlocates', hturns, -, hsays, -⟩ :=
      hadd hd rfl rfl hlocates
    exact ⟨p, happly find', hturns.spared, s, span, _, g, hs, declared?_struct.1 hlocates'.declared?, hsays⟩
  · intro owner i m params results find' hi hm hdocs
    obtain ⟨hole, ds, es, hlocates, howner⟩ :=
      exists_owner hd.shows (declared?_interface.2 hi) (TargetKind.noConfusion)
    obtain rfl : i.name = owner := congrArg Prod.snd howner
    obtain ⟨_, hadd⟩ := exists_append_method hm hdocs e.settings.dialect.marker
    obtain ⟨layout', p, hole', es', span, stop, n, happly, -, -, hlocates', hturns, -, hsays, -⟩ :=
      hadd hd rfl rfl hlocates
    exact ⟨p, happly find', hturns.spared, i, span, _, n, hi, declared?_interface.1 hlocates'.declared?, hsays⟩

/-- A field with docs and a tag, and a method with a result. -/
theorem append_member_struct_and_interface :
    let settings : Settings := ⟨⟨"gen", false⟩, "\t", .verbatim⟩
    let find : Finder := fun _ => .error (.unresolved "no packages")
    let f : Draft.Field := ⟨some "Y", .simple "string", ⟨⟨[("json", "y")], by decide⟩⟩, ["second"]⟩
    let m : Draft.Method := ⟨"Close", [], [.mk none (.simple "error") false], []⟩
    ∃ d p q, ofText settings find
        "package p\n\ntype T struct \x7b\n\tX int\n\x7d\n\ntype I interface \x7b\x7d\n".toList = .ok d ∧
      d.apply find (.appendField "T" f) = (.ok (), { d with outline := p }) ∧
      d.outline.GainsField p "T" f (.simple "string") ∧
      d.apply find (.appendMethod "I" m) = (.ok (), { d with outline := q }) ∧
      d.outline.GainsMethod q "I" m [] [.mk none (.simple "error") false] := by
  intro settings find f m
  have hm : (ofText settings find
      "package p\n\ntype T struct \x7b\n\tX int\n\x7d\n\ntype I interface \x7b\x7d\n".toList).map
      (fun d => decide ((d.outline.structure? "T").isSome ∧ (d.outline.interface? "I").isSome ∧
        d.settings = settings ∧ ∀ p ∈ pieces d.text, p.text ≠ ['/'])) = .ok true := by
    decide +kernel
  cases hd : ofText settings find
      "package p\n\ntype T struct \x7b\n\tX int\n\x7d\n\ntype I interface \x7b\x7d\n".toList with
  | error e => simp only [hd, Except.map, reduceCtorEq] at hm
  | ok d =>
      simp only [hd, Except.map, Except.ok.injEq, decide_eq_true_eq] at hm
      obtain ⟨hs, hi, hsettings, hslash⟩ := hm
      obtain ⟨s, hs⟩ := Option.isSome_iff_exists.1 hs
      obtain ⟨i, hi⟩ := Option.isSome_iff_exists.1 hi
      have hclosed : Closes (pieces d.text) [] := fun l p r he ht =>
        absurd ht (hslash p (by simp [he]))
      obtain ⟨hfield, hmethod⟩ := append_member hd [] (by rw [hsettings])
        (by rw [hsettings]; exact List.all_eq_true.1 (by decide)) hclosed
      have hstring := denotes_name (s := "string".toList) (by decide +kernel) d.outline.imports
      have herror := denotes_name (s := "error".toList) (by decide +kernel) d.outline.imports
      have hf : f.ReadAs d.outline.imports (.simple "string") :=
        ⟨by rintro n ⟨⟩; decide +kernel, hstring, fun hn => absurd hn (Option.some_ne_none "Y"),
          by decide +kernel⟩
      have hm : m.ReadAs d.outline.imports [] [.mk none (.simple "error") false] :=
        ⟨by decide +kernel, .nil, .cons (.mk false (by simp) herror) .nil,
          ⟨.inl (by simp [m]), .inl (by simp [m, Parameter.name])⟩,
          ⟨by simp [m, Parameter.variadic], by simp [m, Parameter.type, GoType.render]⟩⟩
      obtain ⟨p, hp, hgains⟩ := hfield "T" s f _ find hs hf (by decide)
      obtain ⟨q, hq, hgains'⟩ := hmethod "I" i m _ _ find hi hm (by decide)
      exact ⟨d, p, q, rfl, hp, hgains, hq, hgains'⟩

/-- A doc line that ends a comment, where a slash and a star stand without an end. -/
theorem not_append_member_open_comment :
    let settings : Settings := ⟨⟨"gen", false⟩, "\t", .verbatim⟩
    let find : Finder := fun _ => .error (.unresolved "no packages")
    let f : Draft.Field := ⟨some "Y", .simple "int", default, ["*/ ]int"]⟩
    let names (d : Document) := (d.outline.structure? "T").map fun s => s.fields.map (·.name)
    ∃ d, ofText settings find
        "package p\n\ntype T struct \x7b\n\tX [2 /*p]int\n\tZ int\n\x7d\n".toList = .ok d ∧
      f.ReadAs d.outline.imports (.simple "int") ∧ (∀ line ∈ f.docs, '\n' ∉ line.toList) ∧
      names d = some ["X", "Z"] ∧ (d.apply find (.appendField "T" f)).1 = .ok () ∧
      names (d.apply find (.appendField "T" f)).2 = some ["X", "Y"] := by
  intro settings find f names
  have hm : (ofText settings find
      "package p\n\ntype T struct \x7b\n\tX [2 /*p]int\n\tZ int\n\x7d\n".toList).map
      (fun d => decide (names d = some ["X", "Z"] ∧ (d.apply find (.appendField "T" f)).1 = .ok () ∧
        names (d.apply find (.appendField "T" f)).2 = some ["X", "Y"])) = .ok true := by
    decide +kernel
  cases hd : ofText settings find
      "package p\n\ntype T struct \x7b\n\tX [2 /*p]int\n\tZ int\n\x7d\n".toList with
  | error e => simp only [hd, Except.map, reduceCtorEq] at hm
  | ok d =>
      simp only [hd, Except.map, Except.ok.injEq, decide_eq_true_eq] at hm
      have hint := denotes_name (s := "int".toList) (by decide +kernel) d.outline.imports
      have hf : f.ReadAs d.outline.imports (.simple "int") :=
        ⟨by rintro n ⟨⟩; decide +kernel, hint, fun hn => absurd hn (Option.some_ne_none "Y"),
          by decide +kernel⟩
      exact ⟨d, rfl, hf, by decide, hm⟩

end Document

end GoOutline
