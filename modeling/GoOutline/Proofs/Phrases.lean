import GoOutline.Proofs.Guards
import GoOutline.Proofs.Splicing

/-!
Phrases: pieces of one line that start and end with a token. A phrase is cut into the same tokens
wherever it is written, in front of an edge and behind one.
-/

namespace GoOutline

namespace Syntax.Lexer

open Text

variable {s t r x : List Char} {c : Char} {p : Piece} {ps qs : List Piece} {st : State}

section Cuts

theorem pieces_space (hc : isSpace c) (s : List Char) : pieces (c :: s) = ⟨.space, [c]⟩ :: pieces s :=
  pieces_append_piece (t := [c]) (by simp [piece, hc]) (by simp)

theorem pieces_delimiter (hc : c ∈ delimiters) (s : List Char) :
    pieces (c :: s) = ⟨.token .fixed, [c]⟩ :: pieces s := by
  have hall : delimiters.all fun c => isSpace c = false ∧ isIdentifierStart c = false ∧
      isQuote c = false ∧ isDecimal c = false ∧ c ≠ '.' ∧ c ≠ '/' ∧
      (∃ symbol ∈ symbols, symbol.toList = [c]) ∧
      ∀ symbol ∈ symbols, symbol.toList.head? = some c → symbol.toList = [c] := by decide +kernel
  obtain ⟨hspace, hstart, hquote, hdigit, hdot, hslash, hmem, hhead⟩ :=
    of_decide_eq_true (List.all_eq_true.1 hall c hc)
  have hcomment : comment (c :: s) = none :=
    comment_eq_none (by simp [Ne.symm hslash]) (by simp [Ne.symm hslash])
  have hliteral : literal (c :: s) = none := by
    simp only [isQuote, Bool.or_eq_false_iff, beq_eq_false_iff_ne] at hquote
    simp [literal, hquote, number_eq_zero hdigit hdot]
  have hsymbol := symbolLength_eq_one hmem fun symbol hs hp =>
    hhead symbol hs (head?_of_isPrefix hs (s := s) hp)
  exact pieces_append_piece (t := [c]) (by simp [piece, hspace, hcomment, hstart, hliteral, hsymbol])
    (by simp)

theorem ne_newline_of_delimiter (hc : c ∈ delimiters) : c ≠ '\n' :=
  ne_of_mem_of_not_mem hc (by decide)

end Cuts

/-- What can be written on a line of its own, or as a part of a line. -/
structure Phrase (s : List Char) : Prop where
  line : '\n' ∉ s
  solid : ∀ p ∈ pieces s, p.kind ≠ .token .stray
  closes : Closes (pieces s) []
  starts : ∃ p ∈ (pieces s).head?, ∃ kind, p.kind = .token kind
  halts : Halting (pieces s)

/-- A token is no line comment. -/
theorem not_lineComment_of_halting (h : Halting (pieces s)) :
    ∀ p ∈ (pieces s).getLast?, ¬ ['/', '/'] <+: p.text := by
  intro p hp hline
  obtain ⟨q, hq, kind, hk⟩ := h
  obtain rfl : q = p := Option.mem_unique hq hp
  obtain ⟨ps, hps⟩ := List.getLast?_eq_some_iff.1 hp
  have hall : pieces (flat (ps ++ [q]) ++ []) = ps ++ [q] ++ pieces [] := by
    rw [← hps, flat_pieces, List.append_nil]
    simp [pieces]
  obtain ⟨-, hpiece, -⟩ := pieces_concat hall
  obtain ⟨hcomment, -⟩ := exists_lineComment hpiece (by simpa using hline)
  rw [hk] at hcomment
  cases hcomment

namespace Phrase

/-- Nothing at the end of a phrase goes on. -/
theorem pieces_append (h : Phrase s) (hr : Edge r) : pieces (s ++ r) = pieces s ++ pieces r :=
  Lexer.pieces_append h.solid h.closes hr fun p hp hline =>
    absurd hline (not_lineComment_of_halting h.halts p hp)

theorem append (h : Phrase s) (h' : Phrase t) (ht : Edge t) : Phrase (s ++ t) := by
  have hps := h.pieces_append ht
  obtain ⟨p, hp, hstart⟩ := h.starts
  obtain ⟨q, hq, hhalt⟩ := h'.halts
  refine ⟨by simp [h.line, h'.line], ?_, ?_, ⟨p, ?_, hstart⟩, ⟨q, ?_, hhalt⟩⟩
  · intro p hp
    rw [hps] at hp
    exact (List.mem_append.1 hp).elim (h.solid p) (h'.solid p)
  · rw [hps]
    exact h.closes.append h'.closes (by rwa [flat_pieces, List.append_nil])
  · rw [hps, List.head?_append, hp]
    rfl
  · rw [hps, List.getLast?_append, hq]
    rfl

theorem spaced (h : Phrase s) (h' : Phrase t) : Phrase (s ++ ' ' :: t) := by
  have hps : pieces (s ++ ' ' :: t) = pieces s ++ ⟨.space, [' ']⟩ :: pieces t := by
    rw [h.pieces_append (edge_of_isSpace (by decide) t), pieces_space (by decide)]
  obtain ⟨p, hp, hstart⟩ := h.starts
  obtain ⟨q, hq, hhalt⟩ := h'.halts
  refine ⟨by simp [h.line, h'.line], ?_, ?_, ⟨p, ?_, hstart⟩, ⟨q, ?_, hhalt⟩⟩
  · intro p hp
    rw [hps] at hp
    rcases List.mem_append.1 hp with hp | hp
    · exact h.solid p hp
    · rcases List.mem_cons.1 hp with rfl | hp
      · simp
      · exact h'.solid p hp
  · rw [hps]
    refine h.closes.append ?_ (edge_of_isSpace (by decide) _)
    intro l p r he hp
    rcases l with _ | ⟨q, l⟩
    · obtain ⟨rfl, -⟩ := List.cons.inj he
      cases hp
    · exact h'.closes (List.cons.inj he).2 hp
  · rw [hps, List.head?_append, hp]
    rfl
  · rw [hps, List.getLast?_append, List.getLast?_cons, hq]
    rfl

/-- A phrase ends in no blank. -/
theorem trimEnd_eq (h : Phrase s) : trimEnd s = s := by
  obtain ⟨p, hp, kind, hk⟩ := h.halts
  obtain ⟨qs, hqs⟩ := List.getLast?_eq_some_iff.1 hp
  obtain ⟨hs, hne, hpiece, -⟩ := pieces_eq_cons (pieces_flat hqs)
  rw [flat_cons, flat_nil, List.append_nil] at hs hpiece
  obtain ⟨w, c, hw⟩ := List.eq_nil_or_concat p.text |>.resolve_left hne
  rw [List.concat_eq_append] at hw
  have hc : isBlank c = false := by
    refine not_isBlank_of_piece hpiece ⟨w, [], hw, by simp [hw]⟩ (by simp [hk]) ?_
      (not_lineComment_of_halting h.halts p hp)
    exact h.solid p (by simp [hqs])
  have hflat : s = flat qs ++ w ++ [c] := by
    rw [← flat_pieces s, hqs]
    simp [hw]
  rw [hflat, trimEnd_concat hc]

/-- A token by itself. -/
theorem of_token {kind : TokenKind} (h : pieces s = [⟨.token kind, s⟩]) (hk : kind ≠ .stray)
    (hl : '\n' ∉ s) : Phrase s := by
  refine ⟨hl, ?_, ?_, ⟨_, by rw [h]; rfl, kind, rfl⟩, ⟨_, by rw [h]; rfl, kind, rfl⟩⟩
  · intro p hp
    rw [h, List.mem_singleton] at hp
    simpa [hp] using hk
  · intro l p r he hp hstar
    rw [h] at he
    rcases l with _ | ⟨q, l⟩
    · obtain ⟨-, rfl⟩ := List.cons.inj he
      cases hstar
    · exact absurd (List.cons.inj he).2 (by simp)

theorem of_delimiter (hc : c ∈ delimiters) : Phrase [c] := by
  have hp : pieces [c] = [⟨.token .fixed, [c]⟩] := by rw [pieces_delimiter hc, pieces]
  exact of_token hp (by decide) (by simpa using (ne_newline_of_delimiter hc).symm)

/-- A token in front of a phrase, whatever stands between them. -/
theorem cons {kind : TokenKind} (h : Phrase t) (hs : pieces (s ++ t) = ⟨.token kind, s⟩ :: pieces t)
    (hk : kind ≠ .stray) (hl : '\n' ∉ s) (hslash : s ≠ ['/']) : Phrase (s ++ t) := by
  obtain ⟨q, hq, hhalt⟩ := h.halts
  refine ⟨by simp [hl, h.line], ?_, ?_, ⟨_, by rw [hs]; rfl, kind, rfl⟩, ⟨q, ?_, hhalt⟩⟩
  · intro p hp
    rw [hs] at hp
    rcases List.mem_cons.1 hp with rfl | hp
    · simpa using hk
    · exact h.solid p hp
  · rw [hs]
    intro l p r he hp
    rcases l with _ | ⟨q, l⟩
    · obtain ⟨rfl, -⟩ := List.cons.inj he
      exact absurd hp hslash
    · exact h.closes (List.cons.inj he).2 hp
  · rw [hs, List.getLast?_cons, hq]
    rfl

theorem ne_nil (h : Phrase s) : s ≠ [] := by
  obtain ⟨p, hp, -⟩ := h.starts
  rintro rfl
  simp [pieces] at hp

end Phrase

section Tokens

/-- An identifier that is no keyword. -/
structure IsName (s : List Char) : Prop where
  start : ∃ c ∈ s.head?, isIdentifierStart c
  parts : ∀ c ∈ s, isIdentifierPart c
  free : String.ofList s ∉ keywords

theorem isName_iff : IsName s ↔
    s.head?.any isIdentifierStart ∧ s.all isIdentifierPart ∧ String.ofList s ∉ keywords := by
  simp only [Option.any_eq_true, List.all_eq_true]
  exact ⟨fun ⟨hs, hp, hf⟩ => ⟨hs, hp, hf⟩, fun ⟨hs, hp, hf⟩ => ⟨hs, hp, hf⟩⟩

instance (s : List Char) : Decidable (IsName s) := decidable_of_iff _ isName_iff.symm

theorem IsName.pieces_eq (h : IsName s) : pieces s = [⟨.token .name, s⟩] := by
  obtain ⟨c, hc, hstart⟩ := h.start
  obtain ⟨r, rfl⟩ := List.head?_eq_some_iff.1 hc
  have hpart : isIdentifierPart c := h.parts c List.mem_cons_self
  have hspace : isSpace c = false := by
    rw [← Bool.not_eq_true]
    intro hspace
    have hedge := (isEdge_of_isBlank (isBlank_of_isSpace hspace)).1
    simp [isEdge, hpart] at hedge
  have hslash : c ≠ '/' := by
    rintro rfl
    rw [isIdentifierPart_of_sign (by decide)] at hpart
    cases hpart
  have hcomment : comment (c :: r) = none :=
    comment_eq_none (by simp [Ne.symm hslash]) (by simp [Ne.symm hslash])
  have hword : (c :: r).takeWhile isIdentifierPart = c :: r := List.takeWhile_eq_self_iff.2 h.parts
  have hfree : keywords.contains (String.ofList (c :: r)) = false := by simpa using h.free
  have hpiece : piece (c :: r ++ []) = (.token .name, (c :: r).length) := by
    simp only [List.append_nil, piece, hcomment, hword, hfree]
    simp [hspace, hstart]
  have hps := pieces_append_piece hpiece (List.cons_ne_nil c r)
  rwa [List.append_nil, pieces] at hps

theorem IsName.phrase (h : IsName s) : Phrase s := by
  refine .of_token h.pieces_eq (by decide) fun hm => ?_
  have hpart := h.parts _ hm
  rw [isIdentifierPart_of_sign (by decide)] at hpart
  cases hpart

/-- Three dots, whatever follows. -/
theorem pieces_dots (s : List Char) :
    pieces ("...".toList ++ s) = ⟨.token .fixed, "...".toList⟩ :: pieces s := by
  have hdec : isDecimal '.' = false := by decide
  have hnumber : number ('.' :: '.' :: '.' :: s) = 0 := by
    simp [number, integerLengths, floatLengths, imaginaryLengths, baseLengths, octalLengths,
      decimalLengths, mantissas, digits, hdec]
  have hsymbol : symbolLength ('.' :: '.' :: '.' :: s) = some 3 := rfl
  have hspace : isSpace '.' = false := by decide
  have hstart : isIdentifierStart '.' = false := by decide +kernel
  have hcomment : comment ('.' :: '.' :: '.' :: s) = none := rfl
  refine pieces_append_piece (t := "...".toList) ?_ (by decide)
  show piece ('.' :: '.' :: '.' :: s) = (.token .fixed, 3)
  simp [piece, hspace, hcomment, hstart, literal, hnumber, hsymbol]

theorem Phrase.dots (h : Phrase s) : Phrase ("...".toList ++ s) :=
  h.cons (pieces_dots s) (by decide) (by decide) (by decide)

theorem Phrase.delimited (h : Phrase s) (hc : c ∈ delimiters) : Phrase (c :: s) := by
  have hslash : c ≠ '/' := ne_of_mem_of_not_mem hc (by decide)
  exact h.cons (s := [c]) (pieces_delimiter hc s) (by decide)
    (by simpa using (ne_newline_of_delimiter hc).symm) (by simpa using hslash)

end Tokens

section Words

/-- A scan that knows nothing but where it is. -/
def State.bare (n row : Nat) : State := ⟨n, row, false, []⟩

/-- The tokens of a text, without the end. -/
def words (s : List Char) : List Token := emit (.bare 0 0) (pieces s)

theorem moved_bare (n row : Nat) : Moved (.onward n row) (.bare 0 0) (.bare n row) := by
  refine ⟨⟨?_, ?_⟩, rfl, rfl⟩ <;> simp [State.bare, Shift.onward]

/-- The tokens of a text that stands somewhere on a line. -/
def wordsAt (n row : Nat) (s : List Char) : List Token := emit (.bare n row) (pieces s)

theorem wordsAt_eq (n row : Nat) (s : List Char) :
    wordsAt n row s = (words s).map (Shift.onward n row).motion.token :=
  (moved_bare n row).emit _

/-- A token that stands somewhere on a line, and nothing new in front of it. -/
def tokenAt (n row : Nat) (kind : TokenKind) (s : List Char) : Token :=
  ⟨kind, String.ofList s, ⟨⟨n, n + byteLength s⟩, row, row⟩, false, []⟩

theorem wordsAt_token {kind : TokenKind} (h : pieces (s ++ r) = ⟨.token kind, s⟩ :: pieces r)
    (hl : '\n' ∉ s) (n row : Nat) :
    wordsAt n row (s ++ r) = tokenAt n row kind s :: wordsAt (n + byteLength s) row r := by
  have hcount : s.count '\n' = 0 := List.count_eq_zero.2 hl
  simp [wordsAt, h, emit, State.token?, tokenAt, State.extent, State.bare, State.behind, State.pass,
    hcount]

theorem wordsAt_delimiter (hc : c ∈ delimiters) (n row : Nat) (r : List Char) :
    wordsAt n row (c :: r) = tokenAt n row .fixed [c] :: wordsAt (n + byteLength [c]) row r := by
  exact wordsAt_token (s := [c]) (pieces_delimiter hc r)
    (by simpa using (ne_newline_of_delimiter hc).symm) n row

theorem wordsAt_space (n row : Nat) (r : List Char) :
    wordsAt n row (' ' :: r) = wordsAt (n + 1) row r := by
  rw [wordsAt, pieces_space (by decide)]
  rfl

theorem wordsAt_dots (n row : Nat) (r : List Char) : wordsAt n row ("...".toList ++ r) =
    tokenAt n row .fixed "...".toList :: wordsAt (n + byteLength "...".toList) row r :=
  wordsAt_token (pieces_dots r) (by decide) n row

theorem IsName.emit_eq (h : IsName s) (st : State) : emit st (pieces s) =
    [⟨.name, String.ofList s, st.extent s, st.newline, st.comments⟩] := by
  simp [h.pieces_eq, emit, State.token?]

theorem IsName.wordsAt_eq (h : IsName s) (n row : Nat) : wordsAt n row s = [tokenAt n row .name s] := by
  have hcount : s.count '\n' = 0 := List.count_eq_zero.2 h.phrase.line
  simp [wordsAt, h.emit_eq, tokenAt, State.extent, State.bare, hcount]

/-- Behind a phrase a scan is further on. -/
theorem Phrase.foldl_behind (h : Phrase s) (st : State) :
    (pieces s).foldl State.behind st = .bare (st.offset + byteLength s) st.row := by
  rw [foldl_behind_halting h.halts, flat_pieces, List.count_eq_zero.2 h.line]
  rfl

theorem Phrase.emit_append (h : Phrase s) (hr : Edge r) (st : State) :
    emit st (pieces (s ++ r)) = emit st (pieces s) ++
      wordsAt (st.offset + byteLength s) st.row r := by
  rw [h.pieces_append hr, Lexer.emit_append, h.foldl_behind, wordsAt]

theorem Phrase.emit_spaced (h : Phrase s) (r : List Char) (st : State) :
    emit st (pieces (s ++ ' ' :: r)) = emit st (pieces s) ++
      wordsAt (st.offset + byteLength s + 1) st.row r := by
  rw [h.emit_append (edge_of_isSpace (by decide) r), wordsAt, pieces_space (by decide)]
  rfl

theorem Phrase.wordsAt_append (h : Phrase s) (hr : Edge r) (n row : Nat) :
    wordsAt n row (s ++ r) = wordsAt n row s ++ wordsAt (n + byteLength s) row r :=
  h.emit_append hr (.bare n row)

theorem Phrase.wordsAt_spaced (h : Phrase s) (r : List Char) (n row : Nat) :
    wordsAt n row (s ++ ' ' :: r) = wordsAt n row s ++ wordsAt (n + byteLength s + 1) row r :=
  h.emit_spaced r (.bare n row)

/-- The first token of a phrase is told what stands in front. -/
theorem Phrase.emit_first (h : Phrase s) (st : State) :
    ∃ t ts, words s = t :: ts ∧
      emit st (pieces s) = ⟨t.kind, t.text, (Shift.onward st.offset st.row).motion.extent t.extent,
        st.newline, st.comments⟩ :: ts.map (Shift.onward st.offset st.row).motion.token := by
  obtain ⟨p, hp, kind, hk⟩ := h.starts
  rcases hps : pieces s with _ | ⟨q, ps⟩
  · rw [hps] at hp
    cases hp
  · obtain rfl : q = p := by simpa [hps] using hp
    have hapart : Apart (.onward st.offset st.row) (.bare 0 0) st := by
      constructor <;> simp [State.bare, Shift.onward]
    refine ⟨⟨kind, String.ofList q.text, (State.bare 0 0).extent q.text, false, []⟩,
      emit ((State.bare 0 0).behind q) ps, by simp only [words, hps, emit, State.token?, hk,
        Option.toList_some, List.singleton_append, State.bare], ?_⟩
    simp only [emit, State.token?, hk, hapart.extent, (hapart.moved hk).emit, Option.toList_some,
      List.singleton_append]

theorem Phrase.exists_wordsAt (h : Phrase s) (n row : Nat) : ∃ t ts, wordsAt n row s = t :: ts := by
  obtain ⟨t, ts, -, he⟩ := h.emit_first (.bare n row)
  exact ⟨_, _, he⟩

theorem tokens_of_phrase (h : Phrase s) :
    tokens s = words s ++ [(State.bare (byteLength s) 0).stop] := by
  have hleads : Leads [] s := by
    refine .inr ⟨rfl, fun hm => ?_⟩
    obtain ⟨p, hp, -⟩ := h.starts
    rcases s with _ | ⟨c, s⟩
    · cases hm
    · obtain rfl : c = '\ufeff' := by simpa [mark] using hm
      have hps := pieces_append_piece (piece_mark s) (by simp [mark])
      exact h.solid ⟨.token .stray, mark⟩ (by rw [show '\ufeff' :: s = mark ++ s from rfl, hps]; simp) rfl
  have hscan := tokens_of_leads hleads
  rw [List.nil_append] at hscan
  rw [hscan, scan_eq, h.foldl_behind]
  simp [words, start, State.bare, byteLength]

theorem newline_emit (hst : st.newline = false) (h : '\n' ∉ flat ps) :
    ∀ t ∈ emit st ps, t.newline = false := by
  induction ps generalizing st with
  | nil => simp [emit]
  | cons p ps ih =>
      rw [flat_cons, List.mem_append, not_or] at h
      have hbehind : (st.behind p).newline = false := by
        have hhead : p.text.head? ≠ some '\n' := fun hh => h.1 (List.mem_of_head? hh)
        unfold State.behind
        split <;> simp [State.pass, hst, hhead]
      intro t ht
      rcases List.mem_append.1 ht with ht | ht
      · unfold State.token? at ht
        split at ht
        · rw [List.mem_singleton.1 ht]
          exact hst
        · cases ht
      · exact ih hbehind h.2 t ht

/-- No token of a phrase starts a line. -/
theorem newline_words (h : Phrase s) : ∀ t ∈ words s, t.newline = false :=
  newline_emit rfl (by rw [flat_pieces]; exact h.line)

theorem newline_wordsAt (h : Phrase s) (n row : Nat) : ∀ t ∈ wordsAt n row s, t.newline = false :=
  newline_emit rfl (by rw [flat_pieces]; exact h.line)

/-- A phrase starts with the text of its first token. -/
theorem exists_of_wordsAt (h : Phrase s) {n row : Nat} {t : Token} {ts : List Token}
    (hw : wordsAt n row s = t :: ts) : ∃ r, s = t.text.toList ++ r := by
  obtain ⟨p, hp, kind, hk⟩ := h.starts
  obtain ⟨ps, hps⟩ := List.head?_eq_some_iff.1 hp
  rw [wordsAt, hps, emit, State.token?, hk] at hw
  obtain ⟨rfl, -⟩ := List.cons.inj hw
  refine ⟨flat ps, ?_⟩
  rw [String.toList_ofList, ← flat_cons, ← hps, flat_pieces]

/-- The tokens of a phrase go from its start to its end. -/
theorem extentOf_words (h : Phrase s) : Parser.extentOf (words s) = ⟨⟨0, byteLength s⟩, 0, 0⟩ := by
  obtain ⟨p, hp, kind, hk⟩ := h.starts
  obtain ⟨q, hq, kind', hk'⟩ := h.halts
  obtain ⟨ps, hps⟩ := List.head?_eq_some_iff.1 hp
  obtain ⟨qs, hqs⟩ := List.getLast?_eq_some_iff.1 hq
  have hline : '\n' ∉ flat (qs ++ [q]) := by
    rw [← hqs, flat_pieces]
    exact h.line
  have hfirst : words s = ⟨kind, String.ofList p.text, (State.bare 0 0).extent p.text, false, []⟩ ::
      emit ((State.bare 0 0).behind p) ps := by
    simp only [words, hps, emit, State.token?, hk, Option.toList_some, List.singleton_append,
      State.bare]
  have hlast : (words s).getLast?.map Token.extent =
      some ((qs.foldl State.behind (.bare 0 0)).extent q.text) := by
    simp [words, hqs, emit, State.token?, hk']
  rw [hfirst] at hlast ⊢
  rw [List.getLast?_eq_some_getLast (List.cons_ne_nil _ _), Option.map_some, Option.some_inj] at hlast
  rw [Parser.extentOf, hlast]
  have hlength : byteLength s = byteLength (flat qs) + byteLength q.text := by
    rw [← flat_pieces s, hqs]
    simp
  simp only [flat_append, List.mem_append, not_or, flat_cons, flat_nil, List.append_nil] at hline
  simp [Extent.through, State.extent, State.bare, hlength, List.count_eq_zero.2 hline.1,
    List.count_eq_zero.2 hline.2]

theorem extentOf_first {t t' : Token} {ts : List Token} (h : t'.extent = t.extent) :
    Parser.extentOf (t' :: ts) = Parser.extentOf (t :: ts) := by
  cases ts <;> simp [Parser.extentOf, h]

/-- The tokens of a phrase stand on one line, from its start to its end. -/
theorem Phrase.extentOf_emit (h : Phrase s) (st : State) : Parser.extentOf (emit st (pieces s)) =
    ⟨⟨st.offset, st.offset + byteLength s⟩, st.row, st.row⟩ := by
  obtain ⟨t, ts, hwords, hemit⟩ := h.emit_first st
  set d := Shift.onward st.offset st.row
  have hmoved : Parser.extentOf (d.motion.token t :: ts.map d.motion.token) =
      d.motion.extent ⟨⟨0, byteLength s⟩, 0, 0⟩ := by
    rw [← List.map_cons, Motion.extentOf_token d.motion (List.cons_ne_nil t ts), ← hwords,
      extentOf_words h]
  have hfirst : Parser.extentOf (emit st (pieces s)) =
      Parser.extentOf (d.motion.token t :: ts.map d.motion.token) := by
    rw [hemit]
    exact extentOf_first rfl
  rw [hfirst, hmoved]
  simp [d, Motion.extent, Motion.span, Shift.motion, Shift.byte, Shift.row, Shift.onward]
  omega

end Words

end Syntax.Lexer

end GoOutline
