import GoOutline.Proofs.Appending
import GoOutline.Proofs.Refilling

/-!
Edits of different bodies in either order. Each of them rewrites its body alone and puts the other one
where its splice has carried it, so that the two go well in either order and come to the same.
-/

namespace GoOutline

open Text Syntax Syntax.Lexer

namespace Splice

variable {text code indent : List Char} {s t : Span}

/-- A body that a splice leaves alone holds what it held. -/
theorem slice_carry (hs : s.Fits text) (ht : t.Fits text) (h : s.stop < t.start ∨ t.stop < s.start)
    (code indent : List Char) :
    let p := appendToInner text s code indent
    slice (p.apply text) (p.carry t) = slice text t := by
  rcases h with h | h
  · obtain ⟨a, b, m, b', c, rfl, hm, rfl, rfl⟩ := exists_around hs ht h
    have hbehind : a ++ b ++ m ++ b' ++ c = a ++ b ++ (m ++ b' ++ c) := by simp
    have hafter : a ++ grown indent code b ++ (m ++ b' ++ c) =
        a ++ grown indent code b ++ m ++ b' ++ c := by simp
    simp only
    rw [slice_append, hbehind, carry_behind hm, apply_appendToInner, hafter, slice_append]
  · obtain ⟨a, b, m, b', c, rfl, -, rfl, rfl⟩ := exists_around ht hs h
    have hfront : a ++ b ++ m ++ b' ++ c = a ++ b ++ (m ++ b' ++ c) := by simp
    have hafter : a ++ b ++ m ++ grown indent code b' ++ c =
        a ++ b ++ (m ++ grown indent code b' ++ c) := by simp
    simp only
    rw [carry_front, apply_appendToInner, hafter, slice_append, hfront, slice_append]

/-- A splice puts what stands behind a body as far on as the text gets longer. -/
theorem carry_eq_via {b : Nat → Nat} (hs : s.Fits text) (ht : t.Fits text) (h : s.stop < t.start)
    (hb : ∀ n, s.stop ≤ n → b n + byteLength text =
      n + byteLength ((appendToInner text s code indent).apply text)) :
    (appendToInner text s code indent).carry t = t.via b := by
  obtain ⟨a, c, m, c', y, rfl, hm, rfl, rfl⟩ := exists_around hs ht h
  have hbehind : a ++ c ++ m ++ c' ++ y = a ++ c ++ (m ++ c' ++ y) := by simp
  rw [hbehind, apply_appendToInner] at hb
  have hstart := hb (byteLength (a ++ c ++ m)) (by simp)
  have hstop := hb (byteLength (a ++ c ++ m ++ c')) (by simp)
  rw [hbehind, carry_behind hm, Span.via]
  simp only [byteLength_append] at hstart hstop ⊢
  congr 1 <;> omega

theorem carry_eq_self (hs : s.Fits text) (ht : t.Fits text) (h : t.stop < s.start) :
    (appendToInner text s code indent).carry t = t := by
  obtain ⟨a, b, m, b', c, rfl, -, rfl, rfl⟩ := exists_around ht hs h
  exact carry_front

end Splice

theorem Outline.Declared.inner?_via (b : Nat → Nat) (x : Declared) :
    (x.via b).inner? = x.inner?.map (Span.via b) := by
  cases x <;> rfl

namespace Edit

variable {o p : Outline} {e : Edit} {s s' : Span} {t : TargetKind × String}

/-- The body that an edit writes into is the one of its target. -/
theorem body?_eq (h : e.target? = some t) : e.body? o = (o.declared? t).bind Outline.Declared.inner? := by
  cases e with
  | appendField owner field =>
      cases h
      simp only [body?, Outline.declared?]
      cases o.structure? owner <;> rfl
  | appendMethod owner method =>
      cases h
      simp only [body?, Outline.declared?]
      cases o.interface? owner <;> rfl
  | appendCode function code =>
      cases h
      simp only [body?, Outline.declared?]
      cases o.function? function <;> rfl
  | appendParameter | appendImport | appendStructure | appendInterface | appendFunction
  | annotateStructure | annotateInterface | annotateFunction | annotateField | annotateMethod =>
      cases h

theorem exists_target (h : e.body? o = some s) : ∃ t, e.target? = some t := by
  cases e <;> first | exact ⟨_, rfl⟩ | cases h

/-- Where a text is written into one body, any other body stands where the splice has carried it. -/
theorem body?_of_turns {x : Outline.Declared} {text code indent : List Char}
    (h : o.Turns t x s text ((Splice.appendToInner text s code indent).apply text) p)
    (hs : s.Fits text) (hs' : s'.Fits text) (hapart : s.stop < s'.start ∨ s'.stop < s.start)
    (hbody : e.body? o = some s') (hne : e.target? ≠ some t) :
    e.body? p = some ((Splice.appendToInner text s code indent).carry s') := by
  obtain ⟨⟨b, hmoves, hshift⟩, -⟩ := h
  obtain ⟨t', ht'⟩ := exists_target hbody
  rw [body?_eq ht'] at hbody ⊢
  obtain ⟨y, hy, hinner⟩ := Option.bind_eq_some_iff.1 hbody
  have hvia (b : Nat → Nat) : (y.via b).inner? = some (s'.via b) := by
    rw [Outline.Declared.inner?_via, hinner, Option.map_some]
  have hkept {q : Nat → Bool} (hq : y.via (Motion.past q) = y) : q s'.start ∧ q s'.stop := by
    have hsame := hvia (Motion.past q)
    rw [hq, hinner, Option.some_inj] at hsame
    exact kept_span (q := q) hsame.symm
  have hfront := hs.ordered
  have hordered := hs'.ordered
  rcases hmoves.declared?_other (fun he => hne (by rw [ht', he])) hy with ⟨hp, hstay⟩ | ⟨hp, hmove⟩
  · -- What stays ends where the text in front of the body does.
    have hboundary : IsBoundary (takeBytes s.stop text) s'.stop := by
      obtain ⟨w, hw, -⟩ := exists_trimEnd_append (takeBytes s.stop text)
      exact IsBoundary.of_prefix (of_decide_eq_true (hkept hstay).2) ⟨w, hw.symm⟩
    have hle := hboundary.le
    rw [isBoundary_iff.1 hs.stop] at hle
    rw [hp, Option.bind_some, hinner, Splice.carry_eq_self hs hs' (by omega)]
  · have hle := of_decide_eq_true (hkept hmove).1
    rw [hp, Option.bind_some, hvia, Splice.carry_eq_via hs hs' (by omega) hshift]

/-- What an edit writes into a body of a document is complete: a member that is read on a line below its
docs, or code that makes a list of statements with what the function does already. -/
def Complete (d : Document) (s : Span) : Edit → Prop
  | .appendField _ f =>
      (∃ T, Draft.Field.ReadAs d.outline.imports f T) ∧ ∀ line ∈ f.docs, '\n' ∉ line.toList
  | .appendMethod _ m =>
      (∃ params results, Draft.Method.ReadAs d.outline.imports m params results) ∧
        ∀ line ∈ m.docs, '\n' ∉ line.toList
  | .appendCode _ code =>
      BodyText (Splice.grown d.settings.indent.toList code.toList (slice d.text s))
  | _ => False

/-- Whether code is complete in a function that does nothing is a question about the code alone. -/
theorem complete_of_blank {d : Document} {function code : String} (h : ∀ c ∈ slice d.text s, isBlank c) :
    (Edit.appendCode function code).Complete d s ↔
      BodyText ('\n' :: Splice.indentLines d.settings.indent.toList code.toList) := by
  have hnone : trimEnd (slice d.text s) = [] := by
    rw [← List.nil_append (slice d.text s), trimEnd_append_blanks h]
    rfl
  rw [Complete, Splice.grown, hnone, List.nil_append]

/-- What is complete stays complete where the imports and what the body holds stay. -/
theorem Complete.congr {d d' : Document} (h : e.Complete d s) (hsettings : d'.settings = d.settings)
    (himports : d'.outline.imports = d.outline.imports) (hslice : slice d'.text s' = slice d.text s) :
    e.Complete d' s' := by
  cases e with
  | appendField _ f | appendMethod _ m => rwa [Complete, himports]
  | appendCode _ code => rwa [Complete, hsettings, hslice]
  | appendParameter | appendImport | appendStructure | appendInterface | appendFunction
  | annotateStructure | annotateInterface | annotateFunction | annotateField | annotateMethod => exact h

end Edit

/-- A text shows one outline. -/
theorem Outline.Shows.unique {dialect : Annotation.Dialect} {find : Finder} {text : List Char}
    {layout layout' : Layout} {o p : Outline} (h : Shows dialect find text layout o)
    (h' : Shows dialect find text layout' p) : o = p := by
  obtain rfl : layout = layout' := Except.ok.inj (h.laid.symm.trans h'.laid)
  exact Except.ok.inj (h.read.symm.trans h'.read)

namespace Document

open Outline

variable {settings : Settings} {find₀ : Finder} {text : List Char} {d : Document} {layout layout' : Layout}
  {e e' : Edit} {s s' : Span} {p q : Outline}

/-- An edit that puts a complete fragment into a body of a whole document goes well, and the document has
another declaration in the place of its target and is else as it was. -/
theorem Whole.exists_apply (hd : d.Whole layout) (hs : e.body? d.outline = some s) (hc : e.Complete d s) :
    ∃ layout' p t x, (∀ find, d.apply find e = (.ok (), { d with outline := p })) ∧
      p.text = (d.bodySplice s e).apply d.text ∧ ({ d with outline := p } : Document).Whole layout' ∧
      e.target? = some t ∧ d.outline.Turns t x s d.text p.text p := by
  cases e with
  | appendField owner f =>
      obtain ⟨s₀, hs₀, rfl⟩ := Option.map_eq_some_iff.1 hs
      obtain ⟨⟨T, hf⟩, hdocs⟩ := hc
      obtain ⟨hole, ds, es, hlocates, howner⟩ :=
        exists_owner hd.shows (declared?_struct.2 hs₀) (TargetKind.noConfusion)
      obtain rfl : s₀.name = owner := congrArg Prod.snd howner
      obtain ⟨_, hadd⟩ := exists_append_field hf hdocs d.settings.dialect.marker
      obtain ⟨layout', p, -, -, span, stop, g, happly, htext, hwhole, -, hturns, -⟩ :=
        hadd hd rfl rfl hlocates
      exact ⟨layout', p, _, _, happly, htext, hwhole, rfl, hturns⟩
  | appendMethod owner m =>
      obtain ⟨i, hi, rfl⟩ := Option.map_eq_some_iff.1 hs
      obtain ⟨⟨params, results, hm⟩, hdocs⟩ := hc
      obtain ⟨hole, ds, es, hlocates, howner⟩ :=
        exists_owner hd.shows (declared?_interface.2 hi) (TargetKind.noConfusion)
      obtain rfl : i.name = owner := congrArg Prod.snd howner
      obtain ⟨_, hadd⟩ := exists_append_method hm hdocs d.settings.dialect.marker
      obtain ⟨layout', p, -, -, span, stop, n, happly, htext, hwhole, -, hturns, -⟩ :=
        hadd hd rfl rfl hlocates
      exact ⟨layout', p, _, _, happly, htext, hwhole, rfl, hturns⟩
  | appendCode key code =>
      obtain ⟨f, hf, hinner⟩ := Option.bind_eq_some_iff.1 hs
      obtain ⟨layout', p, span, stop, hshows, himports, hclosed, hturns⟩ :=
        exists_coded hd.shows hd.closed hf hinner hc
      obtain ⟨happly, htext, hwhole⟩ := hd.apply hs hshows himports hclosed
      have hnew : (Splice.appendToInner d.text s code.toList d.settings.indent.toList).apply d.text =
        p.text := htext.symm
      rw [hnew] at hturns
      exact ⟨layout', p, _, _, happly, htext, hwhole, rfl, hturns⟩
  | appendParameter | appendImport | appendStructure | appendInterface | appendFunction
  | annotateStructure | annotateInterface | annotateFunction | annotateField | annotateMethod => cases hs

/-- After one edit another one goes well in its own body, which stands where the splice has carried it. -/
theorem Whole.exists_apply_next (hd : d.Whole layout) (hs : e.body? d.outline = some s)
    (hs' : e'.body? d.outline = some s') (hne : e.target? ≠ e'.target?) (hc : e.Complete d s)
    (hc' : e'.Complete d s') :
    let b := d.bodySplice s e
    ∃ layout' p, (∀ find find', (d.apply find e).1 = .ok () ∧
        (d.apply find e).2.apply find' e' = (.ok (), { d with outline := p })) ∧
      p.text = (Splice.appendToInner (b.apply d.text) (b.carry s') e'.fragment d.settings.indent.toList).apply
        (b.apply d.text) ∧
      ({ d with outline := p } : Document).Whole layout' := by
  intro b
  have hapart := bodies_apart hd.ofText_eq hs hs' hne
  have hfits := Edit.fits_body? hd.wellPlaced hs
  have hfits' := Edit.fits_body? hd.wellPlaced hs'
  obtain ⟨layout₁, p₁, t, x, happly, htext, hwhole, ht, hturns⟩ := hd.exists_apply hs hc
  rw [htext] at hturns
  have hbody : e'.body? p₁ = some (b.carry s') :=
    Edit.body?_of_turns hturns hfits hfits' hapart hs' (by rw [← ht]; exact hne.symm)
  have hslice : slice p₁.text (b.carry s') = slice d.text s' := by
    rw [htext]
    exact Splice.slice_carry hfits hfits' hapart _ _
  have hcomplete : e'.Complete { d with outline := p₁ } (b.carry s') :=
    hc'.congr rfl hturns.spared.imports hslice
  obtain ⟨layout₂, p₂, -, -, happly', htext', hwhole', -, -⟩ := hwhole.exists_apply hbody hcomplete
  refine ⟨layout₂, p₂, fun find find' => ?_, ?_, hwhole'⟩
  · rw [happly find]
    exact ⟨rfl, happly' find'⟩
  · rw [htext', ← htext]
    rfl

/-- Edits that put complete fragments into the bodies of two entities go well in either order and come to the
same text and the same outline, whatever edits came before, where annotations are lenient, blanks indent
and no comment is left open. -/
theorem apply_comm (h : ofText settings find₀ text = .ok d) (requests : List Request)
    (hlenient : d.settings.dialect.strict = false) (hindent : ∀ c ∈ d.settings.indent.toList, isSpace c)
    (hclosed : Closes (pieces (d.run requests).text) []) (hs : e.body? (d.run requests).outline = some s)
    (hs' : e'.body? (d.run requests).outline = some s') (hne : e.target? ≠ e'.target?)
    (hc : e.Complete (d.run requests) s) (hc' : e'.Complete (d.run requests) s') :
    let c := d.run requests
    ∃ p, ∀ find find', (c.apply find e).1 = .ok () ∧ (c.apply find' e').1 = .ok () ∧
      (c.apply find e).2.apply find' e' = (.ok (), { c with outline := p }) ∧
      (c.apply find' e').2.apply find e = (.ok (), { c with outline := p }) := by
  intro c
  obtain ⟨layout, hd⟩ := exists_whole h requests hlenient hindent hclosed
  obtain ⟨layout₁, p, hfirst, htext, hwhole⟩ := hd.exists_apply_next hs hs' hne hc hc'
  obtain ⟨layout₂, q, hsecond, htext', hwhole'⟩ := hd.exists_apply_next hs' hs hne.symm hc' hc
  have hfits := Edit.fits_body? hd.wellPlaced hs
  have hfits' := Edit.fits_body? hd.wellPlaced hs'
  have hsame : p.text = q.text := by
    rw [htext, htext']
    exact Splice.apply_swap hfits hfits' (bodies_apart hd.ofText_eq hs hs' hne) _ _ _
  have hshows : Outline.Shows ⟨c.settings.dialect.marker, false⟩ c.memo.find p.text layout₂ q :=
    hsame ▸ hwhole'.shows
  obtain rfl : p = q := hwhole.shows.unique hshows
  exact ⟨p, fun find find' => ⟨(hfirst find find').1, (hsecond find' find).1, (hfirst find find').2,
    (hsecond find' find).2⟩⟩

/-- Both bodies stand on one line, and the splice in front moves the one behind. -/
theorem apply_comm_on_one_line :
    let settings : Settings := ⟨⟨"gen", false⟩, "\t", .verbatim⟩
    let find : Finder := fun _ => .error (.unresolved "no packages")
    let e : Edit := .appendField "T" ⟨some "X", .simple "int", default, []⟩
    let e' : Edit := .appendCode "f" "x()"
    ∃ d p, ofText settings find "package p\n\ntype T struct\x7b\x7d; func f() \x7b\x7d\n".toList = .ok d ∧
      (d.apply find e).1 = .ok () ∧ (d.apply find e').1 = .ok () ∧
      (d.apply find e).2.apply find e' = (.ok (), { d with outline := p }) ∧
      (d.apply find e').2.apply find e = (.ok (), { d with outline := p }) := by
  intro settings find e e'
  have hm : (ofText settings find "package p\n\ntype T struct\x7b\x7d; func f() \x7b\x7d\n".toList).map
      (fun d : Document => decide ((e.body? d.outline).isSome ∧
        (e'.body? d.outline).map (Text.slice d.text) = some [] ∧ d.settings = settings ∧
        ∀ p ∈ pieces d.text, p.text ≠ ['/'])) = .ok true := by
    decide +kernel
  cases hd : ofText settings find "package p\n\ntype T struct\x7b\x7d; func f() \x7b\x7d\n".toList with
  | error e => simp only [hd, Except.map, reduceCtorEq] at hm
  | ok d =>
      simp only [hd, Except.map, Except.ok.injEq, decide_eq_true_eq] at hm
      obtain ⟨hs, hs', hsettings, hslash⟩ := hm
      obtain ⟨s, hs⟩ := Option.isSome_iff_exists.1 hs
      obtain ⟨s', hs', hempty⟩ := Option.map_eq_some_iff.1 hs'
      have hclosed : Closes (pieces d.text) [] := fun l p r he ht =>
        absurd ht (hslash p (by simp [he]))
      have hint := denotes_name (s := "int".toList) (by decide +kernel) d.outline.imports
      have hc : e.Complete d s :=
        ⟨⟨.simple "int", by rintro n ⟨⟩; decide +kernel, hint,
          fun hn => absurd hn (Option.some_ne_none "X"), by decide +kernel⟩, by decide⟩
      have hc' : e'.Complete d s' := by
        have hcode : BodyText ('\n' :: Splice.indentLines settings.indent.toList "x()".toList) :=
          .of_read (by decide +kernel) (by decide +kernel) (by decide +kernel)
        rw [Edit.complete_of_blank (by simp [hempty]), hsettings]
        exact hcode
      obtain ⟨p, hp⟩ := apply_comm hd [] (by rw [hsettings])
        (by rw [hsettings]; exact List.all_eq_true.1 (by decide)) hclosed hs hs' (by decide) hc hc'
      exact ⟨d, p, rfl, hp find find⟩

/-- A slash and a star that nothing closes are two operators. A comment in the code for one function
closes them and takes the function along, so that the order of two edits shows. -/
theorem not_apply_comm_open_comment :
    let settings : Settings := ⟨⟨"gen", false⟩, "\t", .verbatim⟩
    let find : Finder := fun _ => .error (.unresolved "no packages")
    let e : Edit := .appendCode "g" "y() /* nop */"
    let e' : Edit := .appendCode "f" "x()"
    ∃ d, ofText settings find ("package p\n\nfunc f(a int, p *int) int \x7b\n\treturn a /*p\n\x7d\n\n".toList ++
        "func g() \x7b\n\x7d\n".toList) = .ok d ∧
      (d.apply find e).1 = .ok () ∧ ((d.apply find e).2.apply find e').1 = .ok () ∧
      (d.apply find e').1 = .ok () ∧ ((d.apply find e').2.apply find e).1 = .ok () ∧
      ((d.apply find e).2.apply find e').2.text ≠ ((d.apply find e').2.apply find e).2.text := by
  intro settings find e e'
  have hm : (fun d : Document => decide ((d.apply find e).1 = .ok () ∧
      ((d.apply find e).2.apply find e').1 = .ok () ∧ (d.apply find e').1 = .ok () ∧
      ((d.apply find e').2.apply find e).1 = .ok () ∧
      ((d.apply find e).2.apply find e').2.text ≠ ((d.apply find e').2.apply find e).2.text)) <$>
        ofText settings find ("package p\n\nfunc f(a int, p *int) int \x7b\n\treturn a /*p\n\x7d\n\n".toList ++
          "func g() \x7b\n\x7d\n".toList) = .ok true := by
    decide +kernel
  obtain ⟨d, hd, h⟩ := map_eq_ok.1 hm
  exact ⟨d, hd, of_decide_eq_true h⟩

end Document

end GoOutline
