import GoOutline.Proofs.Insertion
import GoOutline.Proofs.Leading
import GoOutline.Proofs.Pairs
import GoOutline.Proofs.Unplaced
import GoOutline.Proofs.Written

/-!
Members as texts. The text of a field or of a method that is yet to be written is read as this field
or this method wherever it stands on a line of its own in a body.
-/

namespace GoOutline

open Text Syntax Syntax.Lexer Syntax.Grammar Syntax.Parser

section Literals

open Quoted

variable {s : List Char} {c : Char}

theorem isHex_hexDigit : ∀ n < 16, isHex (hexDigit n) := by decide

theorem interpreted_hexDigit {n : Nat} (hn : n < 16) (s : List Char) :
    interpreted (hexDigit n :: s) = (interpreted s).map (· + 1) := by
  obtain ⟨hq, hb, -, hcontrol⟩ := hexDigit_ne n hn
  refine interpreted_cons hq ?_ hb s
  intro hl
  rw [hl] at hcontrol
  cases hcontrol

theorem interpreted_encodeChar (c : Char) (s : List Char) :
    interpreted (encodeChar c ++ s) = (interpreted s).map (· + (encodeChar c).length) := by
  rcases encodeChar_cases c with ⟨d, he, hd, -⟩ | ⟨he, -⟩ | ⟨he, hq, hb, hcontrol⟩
  · have hplain : escapeComplete d s = true := by
      have hx : d ≠ 'x' := by rintro rfl; cases hd
      have hu : d ≠ 'u' := by rintro rfl; cases hd
      have hU : d ≠ 'U' := by rintro rfl; cases hd
      simp [escapeComplete, hx, hu, hU]
    rw [he, List.cons_append, List.cons_append, List.nil_append, interpreted.eq_4, if_pos hplain]
    rfl
  · have hmod (n : Nat) : n % 16 < 16 := Nat.mod_lt n (by decide)
    have hdigits : escapeComplete 'u' (hex4 c.toNat ++ s) = true := by
      simp [escapeComplete, hex4, isHex_hexDigit _ (hmod _)]
    rw [he, List.cons_append, List.cons_append, interpreted.eq_4, if_pos hdigits]
    simp only [hex4, List.cons_append, List.nil_append, interpreted_hexDigit (hmod _), Option.map_map,
      List.length_cons, List.length_nil]
    rfl
  · have hl : c ≠ '\n' := by
      rintro rfl
      cases hcontrol
    rw [he, List.cons_append, List.nil_append, interpreted_cons hq hl hb]
    rfl

theorem interpreted_encode (s rest : List Char) :
    interpreted (encode s ++ '"' :: rest) = some ((encode s).length + 1) := by
  induction s with
  | nil => rfl
  | cons c s ih =>
      have hcons : encode (c :: s) = encodeChar c ++ encode s := rfl
      rw [hcons, List.append_assoc, interpreted_encodeChar, ih]
      simp
      omega

theorem piece_quote (s : List Char) : piece (quote s) = (.token .string, (quote s).length) := by
  have hspace : isSpace '"' = false := by decide
  have hstart : isIdentifierStart '"' = false := by decide +kernel
  have hcomment : comment (quote s) = none := rfl
  have hsymbol : symbolLength (quote s) = none := symbolLength_quote (by decide) _
  have hliteral : literal (quote s) = some (.string, (quote s).length) := by
    have hread := interpreted_encode s []
    simp only [quote, List.cons_append, literal, if_true, hread, Option.map_some, List.length_cons,
      List.length_append, List.length_nil]
  rw [piece, hcomment, hliteral]
  simp [quote, hspace, hstart]

theorem raw_append (h : Char.ofNat 0x60 ∉ s) (rest : List Char) :
    raw (s ++ Char.ofNat 0x60 :: rest) = some (s.length + 1) := by
  induction s with
  | nil => simp [raw]
  | cons c s ih =>
      rw [List.mem_cons, not_or] at h
      rw [List.cons_append, raw, if_neg (Ne.symm h.1), ih h.2]
      rfl

/-- The literal of tags is one token, in either form. -/
theorem pieces_literal (t : Tags) : pieces t.literal = [⟨.token .string, t.literal⟩] := by
  have hpiece : piece t.literal = (.token .string, t.literal.length) := by
    rw [Tags.literal]
    split
    next => exact piece_quote t.render
    next h =>
      have hfree : Char.ofNat 0x60 ∉ t.render := by simpa using h
      rw [List.cons_append, piece_backquote, raw_append hfree]
      simp
  have hne : t.literal ≠ [] := by
    intro he
    rw [he] at hpiece
    cases hpiece
  have hps := pieces_append_piece (s := []) (by rwa [List.append_nil]) hne
  rwa [List.append_nil, pieces] at hps

end Literals

namespace Syntax.Grammar

variable {t t' w z : Token} {l seg rest : List Token} {e : TypeExpr} {k : Nat} {p : Place}

theorem endsField_eq_false_of_startsType (h : startsType t) (hn : t.newline = false) :
    endsField t = false := by
  have hkind : (t.kind == .string) = false := by
    rw [← Bool.not_eq_true]
    intro hk
    simp [startsType, Token.isAny, eq_of_beq hk] at h
  have hterminator : isTerminator t = false := by
    rw [← Bool.not_eq_true]
    intro ht
    obtain ⟨text, hmem, ht⟩ := Token.exists_is_of_isAny ht
    have hall : ∀ text ∈ [";", "\x00"], text ∉ ["*", "(", "[", "map", "chan", "<-", "func", "struct",
      "interface", "~"] := by decide
    rw [is_eq_false_of_startsType h (hall text hmem)] at ht
    cases ht
  have hbrace : t.is rbrace = false := is_eq_false_of_startsType h (by decide)
  simp [endsField, hn, hkind, hterminator, hbrace]

theorem run_acceptComma {lines : Bool} (hw : (lookAt 0 l).is "," = false) :
    (acceptComma lines).run l = some (false, l) := by
  refine bind_eq_some.2 ⟨lookAt 0 l, l, peek_eq_some.2 ⟨rfl, rfl⟩, ?_⟩
  rw [hw, Bool.false_and, if_neg Bool.false_ne_true]
  rfl

/-- A name in front of its type is the head of a field. -/
theorem run_fieldHead_named (ht : t.kind = .name)
    (h : (typeExpr (k + 1) .line).run (w :: seg ++ z :: rest) = some (e, z :: rest))
    (hline : ∀ x ∈ w :: seg, x.newline = false) :
    (fieldHead (k + 3)).run (t :: w :: seg ++ z :: rest) = some ((.named [t.text], e), z :: rest) := by
  have hstarts := startsType_of_typeExpr h
  have hstar : t.is "*" = false := by simp [Token.is, ht]
  have hw (text : String) (htext : text ∉ ["*", "(", "[", "map", "chan", "<-", "func", "struct",
      "interface", "~"]) : w.is text = false := is_eq_false_of_startsType hstarts htext
  have hends := endsField_eq_false_of_startsType hstarts (hline w List.mem_cons_self)
  have hnamed : (namedFields (k + 2)).run (t :: w :: seg ++ z :: rest) =
      some ((.named [t.text], e), z :: rest) := by
    refine bind_eq_some.2 ⟨[t], w :: seg ++ z :: rest, ?_, bind_eq_some.2 ⟨e, z :: rest, h, rfl⟩⟩
    exact bind_eq_some.2 ⟨t, _, name_eq_some.2 ⟨rfl, ht⟩,
      bind_eq_some.2 ⟨false, _, run_acceptComma (hw "," (by decide)), rfl⟩⟩
  rw [List.cons_append, List.cons_append] at hnamed ⊢
  rw [fieldHead, run_peek_ahead_name ht]
  simp only [hstar, hends, hw "." (by decide), Bool.false_eq_true, if_false, Bool.or_false]
  by_cases hb : w.is "["
  · -- What stands behind the brackets is the type of the elements and ends no field.
    rw [if_pos hb]
    refine orElse_eq_some.2 (.inr ⟨?_, hnamed⟩)
    rw [Option.eq_none_iff_forall_ne_some]
    rintro ⟨x, left⟩ hx
    obtain ⟨⟨extent, build⟩, mid, hplaced, hx⟩ := bind_eq_some.1 hx
    obtain ⟨used, -, hform, -⟩ := placed_eq_some.1 hplaced
    have htakes : takesArgs .line w := by simp [takesArgs, hb, hline w List.mem_cons_self]
    obtain ⟨_, q, g, hg⟩ := bracketed_namedType hform hb htakes
    obtain ⟨taken, v, tail, htaken, rfl, hv⟩ := exists_behind_brackets h hb hg
    have hmem : v ∈ w :: seg := by
      have hall : w :: seg ++ z :: rest = taken ++ v :: tail ++ z :: rest := by simpa using htaken
      have hlist : w :: seg = taken ++ v :: tail := List.append_cancel_right hall
      rw [hlist]
      simp
    rw [List.cons_append, run_peek_cons] at hx
    obtain ⟨_, _, hrequire, -⟩ := bind_eq_some.1 hx
    rw [endsField_eq_false_of_startsType hv (hline v hmem)] at hrequire
    exact absurd (require_eq_some.1 hrequire).1 Bool.false_ne_true
  · rw [if_neg hb]
    exact hnamed

/-- What stands in front of the first token of a named type makes no difference. -/
theorem namedType_first {build : Span → TypeExpr} (hkind : t'.kind = t.kind) (htext : t'.text = t.text)
    (h : (namedType k p).run (t :: l) = some (build, rest)) :
    (namedType k p).run (t' :: l) = some (build, rest) := by
  rcases k with _ | k
  · cases h
  obtain ⟨form, mid, hname, hargs⟩ := bind_eq_some.1 h
  obtain ⟨first, _, hfirst, hbehind⟩ := bind_eq_some.1 hname
  obtain ⟨hlist, hkind'⟩ := name_eq_some.1 hfirst
  obtain ⟨rfl, rfl⟩ := List.cons.inj hlist
  refine bind_eq_some.2 ⟨form, mid, bind_eq_some.2 ⟨t', l, name_eq_some.2 ⟨rfl, by rw [hkind, hkind']⟩,
    ?_⟩, hargs⟩
  rwa [htext]

/-- A named type alone is the head of a field, whatever stands in front of it. -/
theorem run_fieldHead_embedded (ht : t.kind = .name) (hkind : t'.kind = t.kind)
    (htext : t'.text = t.text) (hextent : t'.extent = t.extent)
    (h : (typeExpr k .line).run (t :: seg ++ z :: rest) = some (e, z :: rest)) (hz : endsField z) :
    (fieldHead k).run (t' :: seg ++ z :: rest) = some ((.embedded false, e), z :: rest) := by
  rw [List.cons_append] at h ⊢
  have hbehind := typeExpr_name h ht
  obtain ⟨j, build, used, rfl, hform, hused, rfl⟩ := namedType_of_typeExpr h ht
  obtain rfl : t :: seg = used := List.append_cancel_right hused
  have hembedded : (embeddedField (j + 1)).run (t' :: (seg ++ z :: rest)) =
      some ((.embedded false, build (extentOf (t :: seg)).span), z :: rest) := by
    refine bind_eq_some.2 ⟨(extentOf (t :: seg), build), z :: rest, ?_, ?_⟩
    · exact placed_eq_some.2 ⟨t' :: seg, rfl, namedType_first hkind htext hform,
        (extentOf_first hextent).symm⟩
    · rw [run_peek_cons]
      exact bind_eq_some.2 ⟨(), _, require_eq_some.2 ⟨hz, rfl⟩, rfl⟩
  have ht' : t'.kind = .name := hkind.trans ht
  have hstar : t'.is "*" = false := by simp [Token.is, ht']
  obtain ⟨u, us, hu⟩ : ∃ u us, seg ++ z :: rest = u :: us := by cases seg <;> simp
  have hgo : endsField u = true ∨ u.is "." = true ∨ u.is "[" = true := by
    rw [hu] at hbehind
    rcases hbehind with ⟨-, hrest⟩ | ⟨w, l, hl, hw⟩
    · rw [← (List.cons.inj hrest).1]
      exact .inl hz
    · rw [(List.cons.inj hl).1]
      exact .inr hw
  rw [hu] at hembedded ⊢
  rw [fieldHead, run_peek_ahead_name ht', if_neg (by simp [hstar])]
  by_cases hfirst : (endsField u || u.is ".") = true
  · rw [if_pos hfirst]
    exact hembedded
  · have hbracket : u.is "[" = true := by
      simp only [Bool.or_eq_true, not_or] at hfirst
      rcases hgo with h | h | h
      · exact absurd h hfirst.1
      · exact absurd h hfirst.2
      · exact h
    rw [if_neg hfirst, if_pos hbracket]
    exact orElse_eq_some.2 (.inl hembedded)

/-- A star in front of a named type is the head of a field. -/
theorem run_fieldHead_pointer (ht : t.is "*") (ht' : t'.is "*") (hw : w.kind = .name)
    (h : (typeExpr (k + 1) .line).run (t :: w :: l) = some (e, rest)) :
    ∃ span elem, e = .pointer span elem ∧
      (fieldHead k).run (t' :: w :: l) = some ((.embedded true, elem), rest) := by
  obtain ⟨⟨extent, build⟩, _, hplaced, hend⟩ := bind_eq_some.1 h
  obtain ⟨rfl, rfl⟩ := pure_eq_some.1 hend
  obtain ⟨used, -, hform, -⟩ := placed_eq_some.1 hplaced
  rcases k with _ | k
  · cases hform
  have hkind : (t.kind == .name) = false := by
    rw [eq_of_beq (Bool.and_eq_true_iff.1 ht).1]
    rfl
  have hadvance {x : Token} (hx : x.is "*") : (discard advance).run (x :: w :: l) = some (⟨⟩, w :: l) :=
    run_discard_is hx fun b => by cases b <;> decide
  rw [typeForm, run_peek_cons, if_neg (by simp [hkind]), if_pos ht] at hform
  obtain ⟨_, _, hfirst, hform⟩ := bind_eq_some.1 hform
  obtain ⟨-, rfl⟩ := Prod.mk.inj (Option.some.inj ((hadvance ht).symm.trans hfirst))
  obtain ⟨elem, _, helem, hbuild⟩ := bind_eq_some.1 hform
  obtain ⟨rfl, rfl⟩ := pure_eq_some.1 hbuild
  refine ⟨_, elem, rfl, ?_⟩
  have hclosing : t'.isClosing = false := by
    simpa using Token.not_isClosing_of_isPlain (Token.isPlain_of_is ht' fun b => by cases b <;> decide)
  rw [fieldHead, run_peek_ahead (Token.isSolid_of_is ht') hclosing, if_pos ht']
  exact bind_eq_some.2 ⟨⟨⟩, _, hadvance ht', bind_eq_some.2 ⟨(), _,
    require_eq_some.2 ⟨by simp [hw], rfl⟩, bind_eq_some.2 ⟨elem, _, helem, rfl⟩⟩⟩

/-- A string literal on its line is a tag. -/
theorem run_fieldTag {tag : Option Token} (htag : ∀ x ∈ tag, x.kind = .string ∧ x.newline = false)
    (hz : z.kind ≠ .string) : fieldTag.run (tag.toList ++ z :: rest) = some (tag, z :: rest) := by
  cases tag with
  | none =>
      rw [Option.toList_none, List.nil_append, fieldTag, run_peek_cons, if_neg (by simp [hz])]
      rfl
  | some x =>
      obtain ⟨hkind, hnewline⟩ := htag x rfl
      rw [Option.toList_some, List.singleton_append, fieldTag, run_peek_cons,
        if_pos (by simp [hkind, hnewline])]
      exact map_eq_some.2 ⟨x, advance_eq_some.2 ⟨rfl, by simp [Token.isSolid, hkind],
        Token.isPlain_of_kind (by simp [hkind])⟩, rfl⟩

/-- Behind the head of a field stands its tag, or the brace that closes the fields. -/
theorem run_fieldDecl {head : FieldHead} {tag : Option Token}
    (h : (fieldHead k).run (seg ++ (tag.toList ++ z :: rest)) =
      some ((head, e), tag.toList ++ z :: rest))
    (htag : ∀ x ∈ tag, x.kind = .string ∧ x.newline = false) (hz : z.kind ≠ .string) :
    (fieldDecl (k + 1)).run (seg ++ (tag.toList ++ z :: rest)) =
      some (⟨extentOf (seg ++ tag.toList), head, e, tag.map (·.text)⟩, z :: rest) :=
  bind_eq_some.2 ⟨(extentOf (seg ++ tag.toList), head, e, tag.map (·.text)), z :: rest,
    placed_eq_some.2 ⟨seg ++ tag.toList, by rw [List.append_assoc], bind_eq_some.2 ⟨(head, e), _, h,
      bind_eq_some.2 ⟨tag, _, run_fieldTag htag hz, rfl⟩⟩, rfl⟩, rfl⟩

theorem exists_behind_fieldHead {tag : Option Token} (htag : ∀ x ∈ tag, x.kind = .string)
    (hz : z.newline) (rest : List Token) :
    ∃ w more, tag.toList ++ z :: rest = w :: more ∧ endsField w ∧ Passive .line w := by
  cases tag with
  | none => exact ⟨z, rest, rfl, by simp [endsField, hz], .inl ⟨rfl, hz⟩⟩
  | some x =>
      have hkind : x.kind = .string := htag x rfl
      exact ⟨x, z :: rest, rfl, by simp [endsField, hkind],
        .inr (by simp [startsType, Token.isAny, Token.is, hkind])⟩

/-- A name in front of a parameter list is a method. -/
theorem run_interfaceElem_method {ts us : List Token} {l : ParamList} {ds : List ParamDecl}
    (ht : t.kind = .name) (hw : w.is "(") (hline : w.newline = false)
    (hl : (paramList k).run (w :: ts ++ (us ++ rest)) = some (l, us ++ rest))
    (hds : (resultList k .line).run (us ++ rest) = some (ds, rest)) :
    (interfaceElem (k + 1)).run (t :: (w :: ts ++ us) ++ rest) =
      some (.method ⟨extentOf (t :: (w :: ts ++ us)), t.text, l, ds⟩, rest) := by
  have hspec : (placed do
      let name ← name
      let params ← paramList k
      let results ← resultList k .line
      return (name.text, params, results)).run (t :: (w :: ts ++ us) ++ rest) =
        some ((extentOf (t :: (w :: ts ++ us)), t.text, l, ds), rest) := by
    refine placed_eq_some.2 ⟨_, rfl, ?_, rfl⟩
    rw [List.cons_append, List.append_assoc]
    exact bind_eq_some.2 ⟨t, _, name_eq_some.2 ⟨rfl, ht⟩, bind_eq_some.2 ⟨l, _, hl,
      bind_eq_some.2 ⟨ds, _, hds, rfl⟩⟩⟩
  simp only [List.cons_append] at hspec ⊢
  rw [interfaceElem, run_peek_ahead_name ht, if_pos (by simp [ht, hw, hline])]
  exact bind_eq_some.2 ⟨_, _, hspec, rfl⟩

end Syntax.Grammar

section Reads

variable {st : State} {m : List Char} {c : Token} {post : List Token} {n : Nat} {e : InterfaceElem}
  {member : FieldDecl ⊕ InterfaceElem}

/-- What is read as an element in front of one brace is read so in front of any. -/
theorem reads_elem (h : (interfaceElem n).run (emit st (pieces m) ++ c :: post) = some (e, c :: post))
    (hn : Covered n (emit st (pieces m) ++ c :: post)) (hc : c.is rbrace) :
    Reads (.inr e) st m := by
  have hrank : (Rule.interfaceElem).rank = 4 := rfl
  intro k d rest hd _ hk
  refine ⟨fun f hf => absurd hf (by simp), fun e' he' => ?_⟩
  obtain rfl := Sum.inr.inj he'
  have hbound := hn.bound
  have hbound' := hk.bound
  obtain ⟨e₁, h₁, hmoves⟩ := run_of_covered (m := n + k) .interfaceElem h hn.ended (by omega) (by omega)
  obtain rfl : e₁ = e := hmoves.trans (Motion.none_elem e)
  have h₂ := follows_interfaceElem (n + k) (fun _ _ => trivial)
    (.inr ⟨.inr (.inl hc), .inr (.inl hd)⟩) h₁ rest
  obtain ⟨e₃, h₃, hmoves⟩ := run_of_covered (m := k) .interfaceElem h₂ hk.ended (by omega) (by omega)
  obtain rfl : e₃ = e₁ := hmoves.trans (Motion.none_elem e₁)
  exact h₃

/-- A member does not start with the brace that closes its body. -/
theorem Reads.first (h : Reads member st m) (hm : Phrase m) :
    ∀ t ∈ (words m).head?, t.is rbrace = false := by
  obtain ⟨t, ts, hwords, hemit⟩ := hm.emit_first st
  intro x hx
  rw [hwords] at hx
  obtain rfl : t = x := by simpa using hx
  set brace : Token := ⟨.fixed, rbrace, default, true, []⟩
  have hclosing : Token.isClosing ⟨t.kind, t.text, (Shift.onward st.offset st.row).motion.extent t.extent,
      st.newline, st.comments⟩ = false := by
    have hreads := h (16 * (emit st (pieces m)).length + 64) brace [endOf m] rfl rfl
      ⟨⟨endOf m, by simp, rfl⟩, by simp; omega⟩
    rw [hemit] at hreads
    cases member with
    | inl f => exact (first_of_run (hreads.1 f rfl)).2
    | inr e => exact (first_of_run (hreads.2 e rfl)).2
  rw [← Bool.not_eq_true]
  intro hbrace
  have hcloses : Token.isClosing ⟨t.kind, t.text, (Shift.onward st.offset st.row).motion.extent t.extent,
      st.newline, st.comments⟩ := Token.isClosing_of_closes (b := .curly) hbrace
  rw [hclosing] at hcloses
  cases hcloses

end Reads

namespace Draft

variable {imports : List Import} {T : GoType} {f : Field} {m : Method} {s : List Char} {st : State}

/-- The text of a field below its docs, without its tag. -/
def Field.front (f : Field) : List Char :=
  (match f.name with
    | some name => name.toList ++ [' ']
    | none => []) ++ f.type.render

/-- The text of a field below its docs. -/
def Field.line (f : Field) : List Char :=
  f.front ++ if f.tags.isEmpty then [] else ' ' :: f.tags.literal

theorem Field.render_eq (f : Field) : f.render = Docs.render f.docs ++ f.line := by
  rw [render, line, front]
  cases f.name <;> simp

/-- A type that can be embedded is a name, perhaps behind a star. -/
def Embeddable (s : List Char) : Prop :=
  ∃ t ts, words s = t :: ts ∧
    (t.kind = .name ∨ (t.is "*" ∧ ∃ u us, ts = u :: us ∧ u.kind = .name))

/-- A field that can be written, and what its type is read as. -/
structure Field.ReadAs (imports : List Import) (f : Field) (T : GoType) : Prop where
  name : ∀ n ∈ f.name, IsName n.toList
  type : Denotes imports f.type.render T
  embedded : f.name = none → Embeddable f.type.render
  keys : ∀ key ∈ f.tags.table.names, Tags.IsKey key

/-- A field with what a draft says, at the place of its line. -/
structure Field.Says (text : List Char) (f : Field) (T : GoType) (g : Outline.Field) : Prop where
  name : ∀ n ∈ f.name, g.name = n
  base : f.name = none → ∀ b ∈ T.baseName?, g.name = b
  embedded : g.embedded = f.name.isNone
  type : g.type = T
  tags : g.tags = f.tags
  slice : Text.slice text g.span = f.line

/-- The tag of a field at a place, if it has one. -/
def Field.tag? (f : Field) (n row : Nat) : Option Token :=
  if f.tags.isEmpty then none else some (tokenAt n row .string f.tags.literal)

namespace Field.ReadAs

theorem phrase_literal (h : f.ReadAs imports T) : Phrase f.tags.literal :=
  .of_token (pieces_literal f.tags) (by decide) (Tags.not_newline_mem_literal h.keys)

theorem phrase_front (h : f.ReadAs imports T) : Phrase f.front := by
  obtain ⟨e, he, -⟩ := h.type
  rw [front]
  cases hn : f.name with
  | none => exact he.toPhrase
  | some name =>
      have hspaced := (h.name name hn).phrase.spaced he.toPhrase
      simpa using hspaced

theorem phrase (h : f.ReadAs imports T) : Phrase f.line := by
  rw [line]
  split
  · rw [List.append_nil]
    exact h.phrase_front
  · exact h.phrase_front.spaced h.phrase_literal

/-- The tokens of a field, its tag behind the others. -/
theorem emit_line (h : f.ReadAs imports T) (st : State) : emit st (pieces f.line) =
    emit st (pieces f.front) ++ (f.tag? (st.offset + byteLength f.front + 1) st.row).toList := by
  rw [line, tag?]
  split
  · simp
  · have hnil : f.tags.literal = f.tags.literal ++ [] := (List.append_nil _).symm
    rw [h.phrase_front.emit_spaced, hnil, wordsAt_token (by simpa [pieces] using pieces_literal f.tags)
      (Tags.not_newline_mem_literal h.keys), List.append_nil]
    simp [wordsAt, pieces, emit]

/-- The type of a field, told whether a star stands in front. -/
def headType : FieldHead → GoType → GoType
  | .embedded true, T => .pointer T
  | _, T => T

/-- The head of a named field. -/
theorem exists_fieldHead_named (h : f.ReadAs imports T) {name : String} (hn : f.name = some name)
    (st : State) : ∃ e, (∀ z k rest, Passive .line z →
        16 * (emit st (pieces f.front)).length + 20 < k →
        (fieldHead k).run (emit st (pieces f.front) ++ z :: rest) =
          some ((.named [name], e), z :: rest)) ∧
      ∀ u v, byteLength u = st.offset → Scope.type ⟨u ++ f.front ++ v, imports⟩ e = T := by
  obtain ⟨e, he, hT⟩ := h.type
  have hname := h.name name hn
  have hfront : f.front = name.toList ++ ' ' :: f.type.render := by simp [front, hn]
  set n := st.offset + byteLength name.toList + 1 with hoffset
  refine ⟨(Shift.onward n st.row).motion.type e, fun z k rest hp hk => ?_, fun u v hu => ?_⟩
  · rw [hfront, hname.phrase.emit_spaced, hname.emit_eq, String.ofList_toList, ← hoffset] at hk ⊢
    simp only [List.length_append, List.length_cons, List.length_nil] at hk
    obtain ⟨k, rfl⟩ : ∃ j, k = j + 3 := ⟨k - 3, by omega⟩
    have htype := he.run_at (p := .line) n st.row (by decide) hp (k := k + 1) (by omega) rest
    have hline := newline_wordsAt he.toPhrase n st.row
    obtain ⟨w, seg, hwords, -⟩ := he.exists_wordsAt n st.row
    rw [hwords] at htype hline ⊢
    exact run_fieldHead_named (t := ⟨.name, name, _, _, _⟩) rfl htype hline
  · have hat := he.type_at imports (u ++ name.toList ++ [' ']) v st.row
    have hspace : byteLength [' '] = 1 := by decide
    rw [byteLength_append, byteLength_append, hu, hspace, ← hoffset, hT] at hat
    simpa [hfront] using hat

/-- The head of an embedded field. Its type, without a star in front, shows the same text wherever the
field stands. -/
theorem exists_fieldHead_embedded (h : f.ReadAs imports T) (hn : f.name = none) :
    ∃ pointer label, ∀ st : State, ∃ e, (∀ z k rest, endsField z → Passive .line z →
        16 * (emit st (pieces f.front)).length + 20 < k →
        (fieldHead k).run (emit st (pieces f.front) ++ z :: rest) =
          some ((.embedded pointer, e), z :: rest)) ∧
      ∀ u v, byteLength u = st.offset →
        headType (.embedded pointer) (Scope.type ⟨u ++ f.front ++ v, imports⟩ e) = T ∧
          Text.slice (u ++ f.front ++ v) e.span = label := by
  obtain ⟨e, he, hT⟩ := h.type
  have hfront : f.front = f.type.render := by simp [front, hn]
  obtain ⟨t, ts, hwords, hkind⟩ := h.embedded hn
  have hat (st : State) (u v : List Char) (hu : byteLength u = st.offset) :
      Scope.type ⟨u ++ f.type.render ++ v, imports⟩
        ((Shift.onward st.offset st.row).motion.type e) = T := by
    have hat := he.type_at imports u v st.row
    rwa [hu, hT] at hat
  have hshows (st : State) (u v : List Char) (hu : byteLength u = st.offset) {s : Span}
      (hs : (Motion.upto f.type.render).span s = s) :
      Text.slice (u ++ f.type.render ++ v) ((Shift.onward st.offset st.row).motion.span s) =
        Text.slice f.type.render s := by
    have hslice := (keeps_within u f.type.render v st.row).slice s (kept_span hs).1 (kept_span hs).2
    rwa [hu] at hslice
  have htype (st : State) (z : Token) (k : Nat) (rest : List Token) (hp : Passive .line z)
      (hk : 16 * (emit st (pieces f.type.render)).length + 18 < k) :
      let d := Shift.onward st.offset st.row
      (typeExpr k .line).run (d.motion.token t :: ts.map d.motion.token ++ z :: rest) =
        some (d.motion.type e, z :: rest) := by
    obtain ⟨_, _, hfirst, hemit⟩ := he.toPhrase.emit_first st
    have hlength : (emit st (pieces f.type.render)).length =
        (wordsAt st.offset st.row f.type.render).length := by
      rw [hemit, wordsAt_eq, hfirst]
      simp
    rw [hlength] at hk
    have hrun := he.run_at (p := .line) st.offset st.row (by decide) hp hk rest
    rwa [wordsAt_eq, hwords, List.map_cons] at hrun
  have hfirst (st : State) : emit st (pieces f.type.render) =
      ⟨t.kind, t.text, (Shift.onward st.offset st.row).motion.extent t.extent, st.newline,
        st.comments⟩ :: ts.map (Shift.onward st.offset st.row).motion.token := by
    obtain ⟨_, _, hfirst, hemit⟩ := he.toPhrase.emit_first st
    obtain ⟨rfl, rfl⟩ := List.cons.inj (hwords.symm.trans hfirst)
    exact hemit
  rw [hfront]
  rcases hkind with hname | ⟨hstar, w, ws, rfl, hname⟩
  · have hspan := congrArg TypeExpr.span he.fixed
    rw [Motion.span_type] at hspan
    refine ⟨false, Text.slice f.type.render e.span, fun st =>
      ⟨(Shift.onward st.offset st.row).motion.type e, fun z k rest hz hp hk => ?_, fun u v hu =>
        ⟨hat st u v hu, ?_⟩⟩⟩
    · set d := Shift.onward st.offset st.row
      have htext : t.text = (d.motion.token t).text :=
        (Motion.text_token (t := t) (by simp [hname])).symm
      rw [hfirst]
      exact run_fieldHead_embedded (t := d.motion.token t) hname rfl htext rfl
        (htype st z k rest hp (by omega)) hz
    · rw [Motion.span_type]
      exact hshows st u v hu hspan
  · obtain ⟨k, hk, hrun⟩ := he.run_words
    obtain ⟨k, rfl⟩ : ∃ j, k = j + 1 := ⟨k - 1, by omega⟩
    rw [hwords] at hrun
    obtain ⟨span, elem, rfl, -⟩ := run_fieldHead_pointer hstar hstar hname hrun
    have hspan := congrArg TypeExpr.span (TypeExpr.pointer.inj he.fixed).2
    rw [Motion.span_type] at hspan
    refine ⟨true, Text.slice f.type.render elem.span, fun st =>
      ⟨(Shift.onward st.offset st.row).motion.type elem, fun z k rest hz hp hk => ?_, fun u v hu =>
        ⟨hat st u v hu, ?_⟩⟩⟩
    · set d := Shift.onward st.offset st.row
      set first : Token := ⟨t.kind, t.text, d.motion.extent t.extent, st.newline, st.comments⟩ with hf
      have hmoved : (d.motion.token t).is "*" := by simpa using hstar
      have hstar' : first.is "*" := hstar
      obtain ⟨_, _, helem, hhead⟩ := run_fieldHead_pointer (k := k) hmoved hstar'
        (w := d.motion.token w) hname (htype st z (k + 1) rest hp (by omega))
      rw [hfirst, ← hf]
      obtain ⟨rfl, rfl⟩ := TypeExpr.pointer.inj helem
      exact hhead
    · rw [Motion.span_type]
      exact hshows st u v hu hspan

/-- What stands in front of the tag of a field is its head. -/
theorem exists_fieldHead (h : f.ReadAs imports T) :
    ∃ head label, (∀ name ∈ f.name, head = .named [name]) ∧
      (f.name = none → ∃ pointer, head = .embedded pointer) ∧
      ∀ st : State, ∃ e, (∀ z k rest, endsField z → Passive .line z →
          16 * (emit st (pieces f.front)).length + 20 < k →
          (fieldHead k).run (emit st (pieces f.front) ++ z :: rest) =
            some ((head, e), z :: rest)) ∧
        ∀ u v, byteLength u = st.offset →
          headType head (Scope.type ⟨u ++ f.front ++ v, imports⟩ e) = T ∧
            (f.name = none → Text.slice (u ++ f.front ++ v) e.span = label) := by
  cases hn : f.name with
  | some name =>
      refine ⟨.named [name], [], by simp, fun hn => absurd hn (Option.some_ne_none name), fun st => ?_⟩
      obtain ⟨e, hrun, htype⟩ := h.exists_fieldHead_named hn st
      exact ⟨e, fun z k rest _ => hrun z k rest, fun u v hu =>
        ⟨htype u v hu, fun hn => absurd hn (Option.some_ne_none name)⟩⟩
  | none =>
      obtain ⟨pointer, label, hhead⟩ := h.exists_fieldHead_embedded hn
      refine ⟨.embedded pointer, label, by simp, fun _ => ⟨pointer, rfl⟩, fun st => ?_⟩
      obtain ⟨e, hrun, htype⟩ := hhead st
      exact ⟨e, hrun, fun u v hu => ⟨(htype u v hu).1, fun _ => (htype u v hu).2⟩⟩

theorem tags_of_literal (h : f.ReadAs imports T) (n row : Nat) :
    (((f.tag? n row).map (·.text)).map fun tag => Tags.ofLiteral tag.toList).getD default =
      f.tags := by
  rw [tag?]
  split
  next hempty =>
    rcases htags : f.tags with ⟨⟨entries, hnodup⟩⟩
    rw [htags] at hempty
    obtain rfl : entries = [] := List.isEmpty_iff.1 hempty
    rfl
  next =>
    have hread : Tags.ofLiteral f.tags.literal = f.tags := by
      rw [Tags.ofLiteral, Tags.unquote_literal h.keys]
      exact Tags.ofText_render h.keys
    simpa [tokenAt] using hread

/-- The line of a field is read as one declaration, of the field that the draft says. But for its place
it is the same field wherever the line stands below the docs of the draft. -/
theorem exists_reads (h : f.ReadAs imports T) (marker : String) : ∃ g₀ : Outline.Field, ∀ st,
    ∃ decl, Reads (.inl decl) st f.line ∧ decl.extent.row = st.row ∧
      ∀ u v lines, byteLength u = st.offset →
        ∃ g, Outline.Context.fields ⟨⟨u ++ f.line ++ v, imports⟩, ⟨marker, false⟩⟩ ⟨lines, decl⟩ =
          .ok [g] ∧ f.Says (u ++ f.line ++ v) T g ∧
            (lines = f.docs.map Docs.said → g.unplaced = g₀) := by
  obtain ⟨head, label, hnamed, hembedded, hhead⟩ := h.exists_fieldHead
  let tag := if f.tags.isEmpty then none else some (String.ofList f.tags.literal)
  have htag (n row : Nat) : (f.tag? n row).map (·.text) = tag := by
    simp only [tag?, tag]
    split <;> rfl
  let said := Annotation.split marker (f.docs.map Docs.said)
  refine ⟨⟨f.name.getD (T.baseName?.getD (String.ofList label)), T, f.name.isNone, f.tags, tag,
    said.1, said.2, default⟩, fun st => ?_⟩
  obtain ⟨e, hrun, htype⟩ := hhead st
  set token := f.tag? (st.offset + byteLength f.front + 1) st.row
  have htoken : ∀ x ∈ token, x.kind = .string ∧ x.newline = false := by
    intro x hx
    simp only [token, tag?] at hx
    split at hx
    · cases hx
    · obtain rfl := Option.some.inj hx
      exact ⟨rfl, rfl⟩
  refine ⟨⟨extentOf (emit st (pieces f.line)), head, e, token.map (·.text)⟩, ?_, ?_, ?_⟩
  · intro n c post hc hnewline hn
    refine ⟨fun decl hdecl => ?_, fun decl hdecl => absurd hdecl (by simp)⟩
    obtain rfl := Sum.inl.inj hdecl
    obtain ⟨n, rfl⟩ : ∃ k, n = k + 1 := ⟨n - 1, by have := hn.bound; omega⟩
    have hbound := hn.bound
    rw [h.emit_line] at hbound ⊢
    simp only [List.length_append, List.length_cons] at hbound
    have hkind : c.kind ≠ .string := by
      rw [eq_of_beq (Bool.and_eq_true_iff.1 hc).1]
      decide
    obtain ⟨w, more, hbehind, hends, hpassive⟩ :=
      exists_behind_fieldHead (fun x hx => (htoken x hx).1) hnewline post
    rw [List.append_assoc]
    refine run_fieldDecl ?_ htoken hkind
    rw [hbehind]
    exact hrun w n more hends hpassive (by omega)
  · rw [h.phrase.extentOf_emit]
  · intro u v lines hu
    have hback : u ++ f.line ++ v = u ++ f.front ++
        ((if f.tags.isEmpty then [] else ' ' :: f.tags.literal) ++ v) := by simp [line]
    obtain ⟨hT, hlabel⟩ := htype u ((if f.tags.isEmpty then [] else ' ' :: f.tags.literal) ++ v) hu
    rw [← hback] at hT hlabel
    have hslice : Text.slice (u ++ f.line ++ v) (extentOf (emit st (pieces f.line))).span = f.line := by
      rw [h.phrase.extentOf_emit, ← hu, ← byteLength_append]
      exact slice_append u f.line v
    have htags := h.tags_of_literal (st.offset + byteLength f.front + 1) st.row
    simp only [Outline.Context.fields, Annotation.partition_lenient, bind, Except.bind]
    cases hn : f.name with
    | some name =>
        rw [hnamed name hn] at hT ⊢
        refine ⟨_, rfl, ⟨by simp [hn], by simp [hn], by simp [hn], hT, htags, hslice⟩, ?_⟩
        rintro rfl
        simp only [Outline.Field.unplaced, Outline.Field.mk.injEq]
        exact ⟨rfl, hT, rfl, htags, htag _ _, rfl, rfl, trivial⟩
    | none =>
        obtain ⟨pointer, rfl⟩ := hembedded hn
        have hpointed : (if pointer then .pointer (Scope.type ⟨u ++ f.line ++ v, imports⟩ e)
            else Scope.type ⟨u ++ f.line ++ v, imports⟩ e) = T := by
          cases pointer <;> exact hT
        have hname : Outline.Context.slice ⟨⟨u ++ f.line ++ v, imports⟩, ⟨marker, false⟩⟩ e.span =
            String.ofList label := congrArg String.ofList (hlabel hn)
        refine ⟨_, rfl, ⟨by simp [hn], fun _ b hb => ?_, by simp [hn], hpointed, htags, hslice⟩, ?_⟩
        · simp only [hpointed, Option.mem_def.1 hb, Option.getD_some]
        · rintro rfl
          simp only [Outline.Field.unplaced, Outline.Field.mk.injEq, hpointed, hname]
          exact ⟨rfl, trivial, rfl, htags, htag _ _, rfl, rfl, trivial⟩

end Field.ReadAs

/-- The text of a method below its docs. -/
def Method.line (m : Method) : List Char :=
  m.name.toList ++ (renderParams m.params ++ renderResults m.results)

theorem Method.render_eq (m : Method) : m.render = Docs.render m.docs ++ m.line := by
  simp [render, line]

/-- Parameters that have names, all of them or none. -/
def Uniform (ps : List Parameter) : Prop := (∀ p ∈ ps, p.name = none) ∨ ∀ p ∈ ps, p.name ≠ none

/-- A method that can be written, and what its parameters and results are read as. -/
structure Method.ReadAs (imports : List Import) (m : Method) (params results : List Parameter) :
    Prop where
  name : IsName m.name.toList
  params : List.Forall₂ (Parameter.ReadAs imports) m.params params
  results : List.Forall₂ (Parameter.ReadAs imports) m.results results
  uniform : Uniform m.params ∧ Uniform m.results
  plain : Plain m.results

/-- A method with what a draft says, at the place of its line. -/
structure Method.Says (text : List Char) (m : Method) (params results : List Parameter)
    (n : Outline.Method) : Prop where
  name : n.name = m.name
  params : n.params = params
  results : n.results = results
  slice : Text.slice text n.span = m.line

variable {params results : List Parameter} {ps qs : List Parameter}

theorem phrase_renderResults (h : List.Forall₂ (Parameter.ReadAs imports) ps qs) :
    renderResults ps = [] ∨ ∃ r, renderResults ps = ' ' :: r ∧ Phrase r := by
  rcases ps with _ | ⟨⟨name, type, variadic⟩, _ | ⟨p, ps⟩⟩
  · exact .inl rfl
  · cases name with
    | none =>
        obtain ⟨q, _, hq, -, -⟩ := List.forall₂_cons_left_iff.1 h
        exact .inr ⟨_, rfl, hq.phrase⟩
    | some name => exact .inr ⟨_, rfl, phrase_renderParams h⟩
  · have hrender : renderResults (⟨name, type, variadic⟩ :: p :: ps) =
        ' ' :: renderParams (⟨name, type, variadic⟩ :: p :: ps) := by cases name <;> rfl
    exact .inr ⟨_, hrender, phrase_renderParams h⟩

theorem edge_renderResults (h : List.Forall₂ (Parameter.ReadAs imports) ps qs) :
    Edge (renderResults ps) := by
  rcases phrase_renderResults h with hnil | ⟨r, hr, -⟩
  · rw [hnil]
    exact edge_nil
  · rw [hr]
    exact edge_cons (by decide +kernel) r

namespace Method.ReadAs

theorem phrase (h : m.ReadAs imports params results) : Phrase m.line := by
  have hparams : Edge (renderParams m.params ++ renderResults m.results) :=
    edge_cons (by decide +kernel) _
  rcases phrase_renderResults h.results with hnil | ⟨r, hr, hphrase⟩
  · rw [Method.line]
    rw [hnil, List.append_nil] at hparams ⊢
    exact h.name.phrase.append (phrase_renderParams h.params) hparams
  · rw [Method.line]
    rw [hr] at hparams ⊢
    exact h.name.phrase.append ((phrase_renderParams h.params).spaced hphrase) hparams

theorem emit_line (h : m.ReadAs imports params results) (st : State) : emit st (pieces m.line) =
    ⟨.name, m.name, st.extent m.name.toList, st.newline, st.comments⟩ ::
      (wordsAt (st.offset + byteLength m.name.toList) st.row (renderParams m.params) ++
      wordsAt (st.offset + byteLength m.name.toList + byteLength (renderParams m.params)) st.row
        (renderResults m.results)) := by
  have hparams : Edge (renderParams m.params ++ renderResults m.results) :=
    edge_cons (by decide +kernel) _
  rw [Method.line, h.name.phrase.emit_append hparams, h.name.emit_eq, String.ofList_toList,
    (phrase_renderParams h.params).wordsAt_append (edge_renderResults h.results)]
  rfl

/-- The line of a method is an element of an interface. -/
theorem run_interfaceElem (h : m.ReadAs imports params results) (st : State) {c : Token}
    (hc : c.newline) {k : Nat} (hk : 16 * (emit st (pieces m.line)).length + 20 < k) (post : List Token) :
    ∃ spec, (interfaceElem k).run (emit st (pieces m.line) ++ c :: post) =
        some (.method spec, c :: post) ∧
      spec.extent = extentOf (emit st (pieces m.line)) ∧ spec.name = m.name ∧
      ∀ u v, byteLength u = st.offset →
        Scope.params ⟨u ++ m.line ++ v, imports⟩ spec.params.decls = params ∧
        Scope.params ⟨u ++ m.line ++ v, imports⟩ spec.results = results := by
  obtain ⟨k, rfl⟩ : ∃ j, k = j + 1 := ⟨k - 1, by omega⟩
  rw [h.emit_line] at hk ⊢
  simp only [List.length_cons, List.length_append] at hk
  set n := st.offset + byteLength m.name.toList
  set n' := n + byteLength (renderParams m.params)
  set first : Token := ⟨.name, m.name, st.extent m.name.toList, st.newline, st.comments⟩
  obtain ⟨ds, hds, hresults⟩ := run_resultList (n := n') (r := st.row) h.results h.uniform.2 h.plain
    hc (k := k) (by omega) post
  obtain ⟨l, hl, hparams⟩ := run_paramList (n := n) (r := st.row) h.params h.uniform.1
    (k := k) (by omega) (wordsAt n' st.row (renderResults m.results) ++ c :: post)
  have hopen : wordsAt n st.row (renderParams m.params) = tokenAt n st.row .fixed ['('] :: _ :=
    wordsAt_delimiter (by decide) n st.row _
  rw [hopen] at hl ⊢
  refine ⟨_, run_interfaceElem_method (t := first) rfl rfl rfl hl hds, rfl, rfl, fun u v hu => ?_⟩
  have hp := hparams (u ++ m.name.toList) (renderResults m.results ++ v) (by simp [hu, n])
  have hr := hresults (u ++ m.name.toList ++ renderParams m.params) v
    (by simp [hu, n, n', Nat.add_assoc])
  constructor
  · simpa [line] using hp
  · simpa [line] using hr

/-- The line of a method is read as one element, of the method that the draft says. But for its place it
is the same method wherever the line stands below the docs of the draft. -/
theorem exists_reads (h : m.ReadAs imports params results) (marker : String) :
    ∃ n₀ : Outline.Method, ∀ st, ∃ spec, Reads (.inr (.method spec)) st m.line ∧
      spec.extent.row = st.row ∧ ∀ u v lines, byteLength u = st.offset →
        ∃ n, Outline.Context.method? ⟨⟨u ++ m.line ++ v, imports⟩, ⟨marker, false⟩⟩
            ⟨lines, .method spec⟩ = .ok (some n) ∧ m.Says (u ++ m.line ++ v) params results n ∧
          (lines = m.docs.map Docs.said → n.unplaced = n₀) := by
  let said := Annotation.split marker (m.docs.map Docs.said)
  refine ⟨⟨m.name, params, results, said.1, said.2, default⟩, fun st => ?_⟩
  obtain ⟨spec, hrun, hextent, hname, hlists⟩ := h.run_interfaceElem st (c := ⟨.fixed, rbrace, default,
    true, []⟩) rfl (k := 16 * (emit st (pieces m.line)).length + 64) (by omega) [endOf m.line]
  refine ⟨spec, reads_elem hrun ⟨?_, ?_⟩ rfl, ?_, fun u v lines hu => ?_⟩
  · exact ⟨endOf m.line, by simp, rfl⟩
  · simp only [List.length_append, List.length_cons, List.length_nil]
    omega
  · rw [hextent, h.phrase.extentOf_emit]
  · have hslice : Text.slice (u ++ m.line ++ v) spec.extent.span = m.line := by
      rw [hextent, h.phrase.extentOf_emit, ← hu, ← byteLength_append]
      exact slice_append u m.line v
    simp only [Outline.Context.method?, Annotation.partition_lenient, bind, Except.bind]
    refine ⟨_, rfl, ⟨hname, (hlists u v hu).1, (hlists u v hu).2, hslice⟩, ?_⟩
    rintro rfl
    simp only [Outline.Method.unplaced, Outline.Method.mk.injEq]
    exact ⟨hname, (hlists u v hu).1, (hlists u v hu).2, rfl, rfl, trivial⟩

end Method.ReadAs

end Draft

end GoOutline
