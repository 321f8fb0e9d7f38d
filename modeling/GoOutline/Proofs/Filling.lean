import GoOutline.Proofs.Insertion
import GoOutline.Proofs.Signatures
import GoOutline.Proofs.Swapping

/-!
Bodies as texts. Where a text that ends its line takes the place of what stands between two braces, it
is cut as it is cut alone, the tokens in front stay as they are, and those behind only move on.
-/

namespace GoOutline.Syntax

open Text Syntax.Lexer Syntax.Grammar Syntax.Parser

namespace Lexer

variable {text s t r y m : List Char} {ps qs : List Piece} {p : Piece} {st : State}
  {T inner R : List Token} {o c : Token}

theorem Upto.mono (h : t <+: s) {u : Token} (hu : u.Upto t) : u.Upto s := by
  have hcount := h.sublist.count_le '\n'
  have hextent {e : Extent} (he : e.Upto t) : e.Upto s :=
    ⟨he.start.of_prefix h, he.stop.of_prefix h, he.row.trans hcount, he.lastRow.trans hcount⟩
  exact ⟨hextent hu.1, fun c hc => hextent (hu.2 c hc)⟩

theorem Closes.front (h : Closes (ps ++ qs) []) : Closes ps (flat qs) := by
  intro l p r hl hp
  have hall := h (l := l) (p := p) (r := r ++ qs) (by simp [hl]) hp
  simpa using hall

section Seam

/-- What stands behind the pieces of a text may stand there. -/
theorem admits_of_pieces (h : pieces (flat ps ++ y) = ps ++ pieces y) : Admits ps y := by
  intro p hp hline
  obtain ⟨qs, rfl⟩ := List.getLast?_eq_some_iff.1 hp
  obtain ⟨-, hpiece, -⟩ := pieces_concat h
  obtain ⟨-, -, -, -, hends⟩ := exists_lineComment hpiece (hline.trans (List.prefix_append p.text y))
  exact hends

/-- Anything may stand on the next line. -/
theorem admits_of_newline (h : s.getLast? = some '\n') (r : List Char) : Admits (pieces s) r := by
  intro p hp hline
  obtain ⟨qs, hps⟩ := List.getLast?_eq_some_iff.1 hp
  have hs : s = flat qs ++ p.text := by
    rw [← flat_pieces s, hps]
    simp
  have hcut : pieces (flat (qs ++ [p]) ++ []) = qs ++ [p] ++ pieces [] := by
    rw [List.append_nil, ← hps, flat_pieces, hps]
    simp [pieces]
  obtain ⟨-, hpiece, -⟩ := pieces_concat hcut
  obtain ⟨-, l, htext, hl, -⟩ := exists_lineComment hpiece (by simpa using hline)
  rw [hs, List.getLast?_append_of_ne_nil _ (by simp [htext])] at h
  have hmem := List.mem_of_getLast? h
  simp [htext, hl] at hmem

/-- Some pieces of a text in front of another text that starts like the rest of it. -/
theorem pieces_replace (h : pieces s = ps ++ qs) (hs : ∀ p ∈ ps, p.kind ≠ .token .stray)
    (hc : Closes ps []) (hq : Edge (flat qs)) (hr : Edge r) (hl : EndsLine (flat qs) → EndsLine r) :
    pieces (flat ps ++ r) = ps ++ pieces r :=
  pieces_seam (x := []) (pieces_split h) hs hc hq hr fun _ p hp hline =>
    hl (admits_of_pieces (pieces_split h) p hp hline)

theorem Leads.replace {c : Char} (h : Leads m (s ++ c :: t)) : Leads m (s ++ c :: r) := by
  rcases h with rfl | ⟨rfl, h⟩
  · exact .inl rfl
  · refine .inr ⟨rfl, ?_⟩
    cases s <;> exact h

end Seam

/-- A token that is a given word comes from a piece that is this word. -/
theorem piece_eq_of_token? {u : Token} {w : String} (h : st.token? p = some u) (hu : u.is w) :
    p = ⟨.token .fixed, w.toList⟩ := by
  obtain ⟨kind, text⟩ := p
  have htext : u.text.toList = text := (mem_token? (Option.mem_toList.2 h)).1
  rw [Token.toList_of_is hu] at htext
  cases kind with
  | space | comment => cases h
  | token kind =>
      have hkind : u.kind = kind := by
        cases h
        rfl
      rw [← htext, ← hkind, Token.kind_of_is hu]

/-- A sign as a piece of its own. -/
def sign (c : Char) : Piece := ⟨.token .fixed, [c]⟩

theorem pieces_sign {c : Char} (hc : c ∈ delimiters) (s : List Char) : pieces (c :: s) = sign c :: pieces s :=
  pieces_delimiter hc s

/-- A brace and what is behind it. -/
theorem tokens_opening (s : List Char) : ∃ o z, tokens ('\x7b' :: s) = o :: (wordsAt 1 0 s ++ [z]) ∧
    z.isSolid = false ∧ z.extent.Beyond 1 0 := by
  have hpieces : pieces ('\x7b' :: s) = [sign '\x7b'] ++ pieces s := pieces_sign (by decide) s
  have hscan : tokens ('\x7b' :: s) = scan (start []) ('\x7b' :: s) :=
    tokens_of_leads (m := []) (.inr ⟨rfl, by simp [mark]⟩)
  rw [scan_of_pieces hpieces, scan_eq] at hscan
  have hbrace : (1 : Nat) = byteLength ['\x7b'] := by decide
  refine ⟨_, _, hscan, rfl, beyond_extent ?_ (Nat.zero_le _) _⟩
  rw [hbrace]
  simp only [start, sign, offset_foldl_behind, offset_behind, List.foldl_cons, List.foldl_nil]
  omega

end Lexer

/-- A text that can stand between the braces of a body, where it is read as statements up to its end. -/
structure BodyText (s : List Char) : Prop where
  solid : ∀ p ∈ pieces s, p.kind ≠ .token .stray
  closes : Closes (pieces s) []
  read : ∃ b z, (block (16 * ((tokens ('\x7b' :: (s ++ ['\x7d']))).length + 1))).run
    (tokens ('\x7b' :: (s ++ ['\x7d']))) = some (b, [z])

namespace BodyText

variable {s : List Char}

/-- A text without a slash is such a text if it is read to its end. -/
theorem of_read (hsolid : ∀ p ∈ pieces s, p.kind ≠ .token .stray)
    (hslash : ∀ p ∈ pieces s, p.text ≠ ['/'])
    (hread : ((block (16 * ((tokens ('\x7b' :: (s ++ ['\x7d']))).length + 1))).run
      (tokens ('\x7b' :: (s ++ ['\x7d'])))).map (·.2.length) = some 1) : BodyText s := by
  obtain ⟨⟨b, rest⟩, hrun, hlength⟩ := Option.map_eq_some_iff.1 hread
  obtain ⟨z, rfl⟩ := List.length_eq_one_iff.1 hlength
  exact ⟨hsolid, fun l p r he ht => absurd ht (hslash p (by simp [he])), b, z, hrun⟩

theorem pieces_closed (h : BodyText s) (hs : s.getLast? = some '\n') :
    pieces (s ++ ['\x7d']) = pieces s ++ [sign '\x7d'] := by
  rw [pieces_append h.solid h.closes (edge_cons (by decide +kernel) _) (admits_of_newline hs _),
    pieces_sign (by decide), pieces]

/-- The statements behind a brace, and the brace at their end. -/
theorem exists_run (h : BodyText s) : ∃ inner c z k, wordsAt 1 0 (s ++ ['\x7d']) = inner ++ [c] ∧
    z.isSolid = false ∧ z.extent.Beyond 1 0 ∧ 16 * (inner ++ c :: [z]).length + 12 < k ∧
    (statements k).run (inner ++ c :: [z]) = some ((), c :: [z]) := by
  obtain ⟨b, z', hread⟩ := h.read
  obtain ⟨o, z, htokens, hz, hbeyond⟩ := tokens_opening (s ++ ['\x7d'])
  rw [htokens] at hread
  obtain ⟨_, us, c, he, -, hrun, -, -⟩ := block_eq_some.1 hread
  obtain ⟨rfl, rfl⟩ := List.cons.inj he
  obtain ⟨inner, hall, -, -⟩ := Parser.takes _ hrun
  have hlast : wordsAt 1 0 (s ++ ['\x7d']) ++ [z] = inner ++ [c] ++ [z'] := by simpa using hall
  obtain ⟨hwords, hz'⟩ := List.append_inj' hlast rfl
  obtain rfl := List.singleton_inj.1 hz'
  rw [hall] at hrun
  refine ⟨inner, c, z, _, hwords, hz, hbeyond, ?_, hrun⟩
  simp only [List.length_append, List.length_cons, Nat.mul_eq]
  omega

/-- The statements are read wherever they stand, and whatever comes behind the brace at their end. -/
theorem run_statements (h : BodyText s) {n row k : Nat} {inner : List Token} {c : Token}
    (hw : wordsAt n row (s ++ ['\x7d']) = inner ++ [c]) (hc : c.is rbrace)
    (hk : 16 * (inner.length + 2) + 12 < k) (us : List Token) :
    (statements k).run (inner ++ c :: us) = some ((), c :: us) := by
  obtain ⟨inner₁, c₁, z, k₁, hw₁, hz, hbeyond, hk₁, hrun₁⟩ := h.exists_run
  let d : Shift := ⟨n - 1, row⟩
  have hmoved : Moved d (.bare 1 0) (.bare n row) := by
    refine ⟨⟨?_, ?_⟩, rfl, rfl⟩ <;> simp only [State.bare, d] <;> omega
  have hmap : wordsAt n row (s ++ ['\x7d']) = (wordsAt 1 0 (s ++ ['\x7d'])).map d.motion.token :=
    hmoved.emit _
  rw [hw, hw₁, List.map_append] at hmap
  obtain ⟨rfl, hlast⟩ := List.append_inj' hmap rfl
  obtain rfl := List.singleton_inj.1 hlast
  have hreach : ∀ t ∈ inner₁ ++ c₁ :: [z], d.Reaches t.extent := by
    have hall : ∀ t ∈ wordsAt 1 0 (s ++ ['\x7d']), t.extent.Beyond 1 0 := emit_beyond le_rfl le_rfl
    have hplaces : ∀ t ∈ inner₁ ++ [c₁], t.extent.Beyond 1 0 := hw₁ ▸ hall
    intro t ht
    have hplace : t.extent.Beyond 1 0 := by
      rw [List.append_cons, List.mem_append, List.mem_singleton] at ht
      rcases ht with ht | rfl
      · exact hplaces t ht
      · exact hbeyond
    exact Shift.reaches_of_beyond hplace (by simp only [d]; omega) (by simp [d])
  obtain ⟨_, hrun, -⟩ := run_moved (d := d.motion) (m := k) (.statements) hrun₁
    ⟨⟨z, by simp, hz⟩, Shift.fair hreach⟩ hk₁
    (by show 16 * (inner₁ ++ c₁ :: [z]).length + 12 < k; simp at hk ⊢; omega)
  rw [List.map_append] at hrun
  obtain ⟨used, hused, -, hbalanced⟩ := Parser.takes _ hrun
  obtain ⟨rfl, -⟩ := List.append_inj' hused rfl
  have hshut : (statements k).run
      (inner₁.map d.motion.token ++ d.motion.token c₁ :: [d.motion.token z]) =
        some ((), [] ++ d.motion.token c₁ :: [d.motion.token z]) := hrun
  exact Parser.isLocal _ hbalanced (Token.isClosing_of_closes (b := .curly) hc) hshut us

end BodyText

namespace Lexer

section Braces

variable {text s t m a : List Char} {front body back ps : List Piece} {st : State}
  {T inner R : List Token} {o c : Token}

/-- The pieces of a text with another text between two braces. -/
theorem pieces_refilled (hps : pieces t = front ++ sign '\x7b' :: (body ++ sign '\x7d' :: back))
    (hf : ∀ p ∈ front, p.kind ≠ .token .stray) (hc : Closes front []) (hs : BodyText s)
    (hend : s.getLast? = some '\n') :
    pieces (flat front ++ '\x7b' :: (s ++ '\x7d' :: flat back)) =
      front ++ sign '\x7b' :: (pieces s ++ sign '\x7d' :: back) := by
  have hps' : pieces t = (front ++ sign '\x7b' :: (body ++ [sign '\x7d'])) ++ back := by simp [hps]
  have hopen : pieces (flat front ++ '\x7b' :: (s ++ '\x7d' :: flat back)) =
      front ++ pieces ('\x7b' :: (s ++ '\x7d' :: flat back)) :=
    pieces_replace hps hf hc (edge_cons (by decide +kernel) _) (edge_cons (by decide +kernel) _)
      fun h => h
  have hclose : pieces (s ++ '\x7d' :: flat back) = pieces s ++ pieces ('\x7d' :: flat back) :=
    pieces_append hs.solid hs.closes (edge_cons (by decide +kernel) _) (admits_of_newline hend _)
  rw [hopen, pieces_sign (by decide), hclose, pieces_sign (by decide), pieces_flat hps']

/-- A text with another text between two braces leaves no comment open. -/
theorem closes_refilled (h : Closes (front ++ sign '\x7b' :: (body ++ sign '\x7d' :: back)) [])
    (hs : Closes ps []) : Closes (front ++ sign '\x7b' :: (ps ++ sign '\x7d' :: back)) [] := by
  have hall : Closes ((front ++ sign '\x7b' :: body) ++ sign '\x7d' :: back) [] := by simpa using h
  have hfront : Closes front [] := Closes.left (x := []) h.front
  refine hfront.append (.cons (hs.append hall.drop ?_) (by simp [sign])) ?_
  · exact edge_cons (by decide +kernel) _
  · exact edge_cons (by decide +kernel) _

/-- Where a scan is behind the brace that opens a body. -/
def inside (a : List Char) : State := .bare (byteLength (a ++ ['\x7b'])) (a.count '\n')

theorem behind_opening (hst : st.row = a.count '\n') (ho : st.offset = byteLength a) :
    st.behind (sign '\x7b') = inside a := by
  simp [State.behind, State.pass, State.bare, inside, sign, hst, ho]

theorem offset_inside (a : List Char) (ps : List Piece) :
    (ps.foldl State.behind (inside a)).offset = byteLength (a ++ ['\x7b'] ++ flat ps) := by
  simp [inside, State.bare, byteLength, Nat.add_assoc]

theorem row_inside (a : List Char) (ps : List Piece) :
    (ps.foldl State.behind (inside a)).row = (a ++ ['\x7b'] ++ flat ps).count '\n' := by
  simp [inside, State.bare]

/-- A text around what stands between two braces. -/
structure Braced (text : List Char) (T : List Token) (o c : Token) (R : List Token) (m : List Char)
    (front body back : List Piece) : Prop where
  leads : Leads m (flat front ++ '\x7b' :: (flat body ++ '\x7d' :: flat back))
  text_eq : text = m ++ (flat front ++ '\x7b' :: (flat body ++ '\x7d' :: flat back))
  cut : pieces (flat front ++ '\x7b' :: (flat body ++ '\x7d' :: flat back)) =
    front ++ sign '\x7b' :: (body ++ sign '\x7d' :: back)
  solid : ∀ p ∈ front, p.kind ≠ .token .stray
  closes : Closes (front ++ sign '\x7b' :: (body ++ sign '\x7d' :: back)) []
  tokens : emit (start m) front = T
  opening : (front.foldl State.behind (start m)).token? (sign '\x7b') = some o
  closing : (body.foldl State.behind (inside (m ++ flat front))).token? (sign '\x7d') = some c
  rest : scan ((body.foldl State.behind (inside (m ++ flat front))).behind (sign '\x7d')) (flat back) = R

theorem foldl_opening (h : Leads m s) (front : List Piece) :
    (front ++ [sign '\x7b']).foldl State.behind (start m) = inside (m ++ flat front) := by
  rw [List.foldl_append]
  exact behind_opening (by simp [start, h.count_eq_zero]) (by simp [start])

theorem exists_braced (h : tokens text = T ++ o :: (inner ++ c :: R)) (ho : o.is lbrace)
    (hc : c.is rbrace) (hs : ∀ t ∈ tokens text, t.kind ≠ .stray) (hclose : Closes (pieces text) []) :
    ∃ m front body back, Braced text T o c R m front body back := by
  obtain ⟨m, s₀, rfl, hm⟩ := exists_leads text
  rw [tokens_of_leads hm] at h hs
  have hstop {t : Token} {w : String} (ht : t.is w) : t.kind ≠ .stop := by
    rw [Token.kind_of_is ht]
    decide
  obtain ⟨front, p, back, kind, hps, -, hT, hp, hrest⟩ := exists_pieces_of_scan h (hstop ho)
  obtain ⟨body, p', back', kind', hps', -, -, hp', hR⟩ := exists_pieces_of_scan hrest (hstop hc)
  obtain rfl : p = sign '\x7b' := piece_eq_of_token? hp ho
  obtain rfl : p' = sign '\x7d' := piece_eq_of_token? hp' hc
  have hpieces : pieces s₀ = (front ++ [sign '\x7b']) ++ back := by simpa using hps
  rw [pieces_flat hpieces] at hps'
  subst hps'
  have htext : s₀ = flat front ++ '\x7b' :: (flat body ++ '\x7d' :: flat back') := by
    rw [← flat_pieces s₀, hps]
    simp [sign]
  have hinside := foldl_opening hm front
  rw [List.foldl_append, List.foldl_cons, List.foldl_nil] at hinside
  rw [hinside] at hp' hR
  refine ⟨m, front, body, back', htext ▸ hm, htext ▸ rfl, htext ▸ hps, fun q hq hkind => ?_, ?_, hT, hp,
    hp', hR⟩
  · obtain ⟨t, ht, hstray⟩ := exists_emit_of_mem hq hkind (start m)
    refine hs t ?_ hstray
    rw [h, ← hT]
    exact List.mem_append_left _ ht
  · obtain ⟨before, hbefore⟩ := pieces_of_leads hm
    rw [hbefore, hps] at hclose
    exact hclose.drop

namespace Braced

variable (h : Braced text T o c R m front body back)
include h

theorem text_eq_around : text = m ++ flat front ++ ['\x7b'] ++ flat body ++ '\x7d' :: flat back := by
  simp [h.text_eq]

/-- What stands in front of what the braces hold. -/
theorem upto : ∀ t ∈ T ++ [o], t.Upto (m ++ flat front ++ ['\x7b']) := by
  have hemit : T ++ [o] = emit (start m) (front ++ [sign '\x7b']) := by
    simp [h.tokens, emit, h.opening]
  rw [hemit]
  exact emit_upto (u := m) (by simp [start]) rfl (h.leads.count_eq_zero).symm (by simp [sign])

theorem stop_opening : o.extent.span.stop = byteLength (m ++ flat front ++ ['\x7b']) := by
  rw [(mem_token? (Option.mem_toList.2 h.opening)).2]
  simp [State.extent, start, sign, Nat.add_assoc]

theorem start_closing :
    c.extent.span.start = byteLength (m ++ flat front ++ ['\x7b'] ++ flat body) := by
  rw [(mem_token? (Option.mem_toList.2 h.closing)).2]
  exact offset_inside _ _

/-- The closing brace and what stands behind it. -/
theorem beyond : c.extent.Beyond (byteLength (m ++ flat front ++ ['\x7b'] ++ flat body))
      ((m ++ flat front ++ ['\x7b'] ++ flat body).count '\n') ∧
    ∀ t ∈ R, t.Beyond (byteLength (m ++ flat front ++ ['\x7b'] ++ flat body))
      ((m ++ flat front ++ ['\x7b'] ++ flat body).count '\n') := by
  have ho := offset_inside (m ++ flat front) body
  have hr := row_inside (m ++ flat front) body
  constructor
  · rw [(mem_token? (Option.mem_toList.2 h.closing)).2]
    exact beyond_extent ho.ge hr.ge _
  · rw [← h.rest]
    exact scan_beyond (by simp [ho]) (by simp [hr]) (by simp [State.behind, State.pass, sign]) _

/-- Another text that ends its line between the braces. -/
theorem refill (hs : BodyText s) (hend : s.getLast? = some '\n') :
    let text' := m ++ flat front ++ ['\x7b'] ++ s ++ '\x7d' :: flat back
    let d := shiftOf (flat body) s
    ∃ inner' c', inner'.length ≤ (pieces s).length ∧ c'.is rbrace ∧ c'.extent = d.motion.extent c.extent ∧
      Lexer.tokens text' = T ++ o :: (inner' ++ c' :: R.map d.motion.token) ∧
      Closes (pieces text') [] ∧ ∀ k us, 16 * (inner'.length + 2) + 12 < k →
        (statements k).run (inner' ++ c' :: us) = some ((), c' :: us) := by
  intro text' d
  have hnew := pieces_refilled h.cut h.solid (Closes.left (x := []) h.closes.front) hs hend
  have hold : pieces (flat front ++ '\x7b' :: (flat body ++ '\x7d' :: flat back)) =
      (front ++ sign '\x7b' :: (body ++ [sign '\x7d'])) ++ back := by simp [h.cut]
  have hback := pieces_flat hold
  have hmoved : Apart d (body.foldl State.behind (inside (m ++ flat front)))
      ((pieces s).foldl State.behind (inside (m ++ flat front))) := by
    constructor <;> simp [d, shiftOf, flat_pieces]
  have htext : text' = m ++ (flat front ++ '\x7b' :: (s ++ '\x7d' :: flat back)) := by simp [text']
  obtain ⟨c', hc'⟩ :
      ∃ c', ((pieces s).foldl State.behind (inside (m ++ flat front))).token? (sign '\x7d') = some c' :=
    ⟨_, rfl⟩
  have hwords : emit (inside (m ++ flat front)) (pieces s ++ [sign '\x7d']) =
      emit (inside (m ++ flat front)) (pieces s) ++ [c'] := by simp [emit, hc']
  have hclosing : c'.is rbrace := by
    cases hc'
    rfl
  have hat : wordsAt (byteLength (m ++ flat front ++ ['\x7b'])) ((m ++ flat front).count '\n')
      (s ++ ['\x7d']) = emit (inside (m ++ flat front)) (pieces s) ++ [c'] := by
    rw [wordsAt, hs.pieces_closed hend]
    exact hwords
  refine ⟨emit (inside (m ++ flat front)) (pieces s), c', length_emit_le _ _, hclosing, ?_, ?_, ?_,
    fun k us hk => hs.run_statements hat hclosing hk us⟩
  · rw [(mem_token? (Option.mem_toList.2 hc')).2, (mem_token? (Option.mem_toList.2 h.closing)).2]
    exact hmoved.extent _
  · rw [htext, tokens_of_leads h.leads.replace]
    have hcut : pieces (flat front ++ '\x7b' :: (s ++ '\x7d' :: flat back)) =
        front ++ [sign '\x7b'] ++ (pieces s ++ [sign '\x7d']) ++ pieces (flat back) := by simp [hnew, hback]
    have hmore := (hmoved.moved (p := sign '\x7d') rfl).scan (flat back)
    rw [h.rest] at hmore
    have hopening : emit (front.foldl State.behind (start m)) [sign '\x7b'] = [o] := by simp [emit, h.opening]
    rw [scan_of_pieces hcut, emit_append, emit_append, h.tokens, hopening, foldl_opening h.leads, hwords]
    have hst : (front ++ [sign '\x7b'] ++ (pieces s ++ [sign '\x7d'])).foldl State.behind (start m) =
        ((pieces s).foldl State.behind (inside (m ++ flat front))).behind (sign '\x7d') := by
      rw [List.foldl_append, foldl_opening h.leads, List.foldl_append]
      rfl
    rw [hst, hmore]
    simp
  · rw [htext]
    refine h.leads.replace.closes ?_
    rw [hnew]
    exact closes_refilled h.closes hs.closes

end Braced

end Braces

end Lexer

end GoOutline.Syntax

namespace GoOutline

open Text Syntax Syntax.Lexer Syntax.Grammar Docs

theorem shiftOf_append (a s t : List Char) : shiftOf (a ++ s) (a ++ t) = shiftOf s t := by
  simp only [shiftOf, byteLength_append, List.count_append, Shift.mk.injEq]
  omega

/-- A list of items around a function. -/
structure Slot where
  pre : List (Sibling Item)
  extent : Extent
  decl : FuncDecl
  suf : List (Sibling Item)

namespace Slot

variable (h : Slot)

def item : Item := ⟨h.extent, .func h.decl⟩

def items : List (Sibling Item) := h.pre ++ .member h.item :: h.suf

/-- A function in the place of one with another body. -/
def refilled (d : Shift) (b : Delimiters) : Slot :=
  ⟨h.pre, d.widerExtent h.extent, { h.decl with braces := some b },
    h.suf.map (d.motion.sibling d.motion.item)⟩

/-- A function gets another body in a text. What stands in front of the body stays up to a byte, and what
stands behind it stood behind a byte and a row and moves on. -/
structure Refills (d : Shift) (u : List Char) (n r : Nat) (text text' : List Char) : Prop where
  front : Keeps (fun m => decide (IsBoundary u m)) (fun r => decide (r ≤ u.count '\n')) id id text text'
  back : Keeps (fun m => decide (n ≤ m)) (fun m => decide (r ≤ m)) d.byte d.row text text'
  pre : h.pre.map ((Motion.upto u).sibling (Motion.upto u).item) = h.pre
  signature : (Motion.upto u).func { h.decl with braces := none } = { h.decl with braces := none }
  lastRow : r ≤ h.extent.lastRow
  suf : h.suf.map ((Motion.since n r).sibling (Motion.since n r).item) = h.suf

variable {h} {text indent code s : List Char} {b : Delimiters} {layout : Layout}

section Bodies

variable {ts front inner post : List Token} {o c : Token} {m : List Char} {f body back : List Piece}
  (hbodied : Bodied ts front o inner c post h.pre h.extent h.decl h.suf)
  (hbraced : Braced text front o c post m f body back)
include hbodied hbraced

/-- A function with more than one line is not cheap to drop. -/
theorem dropCost_refilled (hs : '\n' ∈ s) :
    forgivenFrom ≤ dropCost ((shiftOf (flat body) s).widerExtent h.extent) := by
  obtain ⟨t, ht, hrow⟩ := hbodied.row
  have htop := (hbraced.upto t (List.mem_append_left _ ht)).1.row
  have hlast := hbraced.beyond.1.lastRow
  have hrows := List.one_le_count_iff.2 hs
  rw [← hbodied.lastRow, List.count_append] at hlast
  refine forgiven_of_rows ?_
  simp only [Shift.row, shiftOf]
  omega

theorem refills {u : List Char} (hu : m ++ flat f ++ ['\x7b'] <+: u) (hfront : u <+: text)
    (hfront' : u <+: m ++ flat f ++ ['\x7b'] ++ s ++ '\x7d' :: flat back) :
    h.Refills (shiftOf (flat body) s) u (byteLength (m ++ flat f ++ ['\x7b'] ++ flat body))
      ((m ++ flat f ++ ['\x7b'] ++ flat body).count '\n') text
      (m ++ flat f ++ ['\x7b'] ++ s ++ '\x7d' :: flat back) := by
  have htop := hbraced.upto
  obtain ⟨hbeyond, hpost⟩ := hbraced.beyond
  obtain ⟨hpre, hsignature⟩ := hbodied.before (Motion.upto u)
    (fun t ht => token_of_upto (Upto.mono hu (htop t (List.mem_append_left _ ht))))
    (token_of_upto (Upto.mono hu (htop o (by simp))))
  refine ⟨keeps_front hfront hfront', ?_, hpre, hsignature, ?_, ?_⟩
  · have hshift : shiftOf (m ++ flat f ++ ['\x7b'] ++ flat body) (m ++ flat f ++ ['\x7b'] ++ s) =
        shiftOf (flat body) s := shiftOf_append _ _ _
    rw [← hshift, hbraced.text_eq_around]
    exact keeps_back _ _ _
  · rw [hbodied.lastRow]
    exact hbeyond.lastRow
  · exact hbodied.behind _ fun t ht => token_of_beyond (hpost t ht)

end Bodies

/-- A function is read with a text that ends its line for its body. -/
theorem exists_refilled (hl : Outline.layoutOf text = .ok layout) (htree : Tree.ofText? text = some ⟨h.items⟩)
    (hclose : Closes (pieces text) []) (hb : h.decl.braces = some b) (hs : BodyText s)
    (hend : s.getLast? = some '\n') :
    ∃ a body y b', text = a ++ ['\x7b'] ++ body ++ y ∧
      b.inner = ⟨byteLength (a ++ ['\x7b']), byteLength (a ++ ['\x7b'] ++ body)⟩ ∧
      b'.inner = ⟨b.inner.start, (shiftOf body s).byte b.inner.stop⟩ ∧
      Tree.ofText? (a ++ ['\x7b'] ++ s ++ y) = some ⟨(h.refilled (shiftOf body s) b').items⟩ ∧
      Closes (pieces (a ++ ['\x7b'] ++ s ++ y)) [] ∧
      ∀ u, a ++ ['\x7b'] <+: u → u <+: text → u <+: a ++ ['\x7b'] ++ s ++ y →
        h.Refills (shiftOf body s) u b.inner.stop ((a ++ ['\x7b'] ++ body).count '\n') text
          (a ++ ['\x7b'] ++ s ++ y) := by
  obtain ⟨us, stop, htokens, -, -, hcov, hitems⟩ := ofText?_eq_some htree
  have hkinds := Outline.not_statement_of_layoutOf hl htree
  -- A bound that is large enough for the tokens before and after.
  set k := 16 * ((us ++ [stop]).length + (pieces s).length + 3) with hk
  have hold : Itemized (k + 3) (us ++ [stop]) h.items [stop] :=
    hitems.rebound hcov ⟨hcov.ended, by omega⟩
  obtain ⟨front, o, inner, c, post, hbodied, hrebody⟩ := hold.rebody ⟨hcov.ended, by omega⟩ hkinds hb
  obtain ⟨m, f, body, back, hbraced⟩ := exists_braced (htokens.trans hbodied.tokens) hbodied.opening
    hbodied.closing (not_stray_of_tree htree) hclose
  obtain rfl : b = ⟨o.extent.span, c.extent.span⟩ := Option.some.inj (hb.symm.trans hbodied.braces)
  obtain ⟨inner', c', hlen, hc', hmoved, htokens', hclosed, hrun⟩ := hbraced.refill hs hend
  have hstart := hbraced.start_closing
  have hpost := hbraced.beyond.2
  have hnewline := List.mem_of_getLast? hend
  refine ⟨m ++ flat f, flat body, '\x7d' :: flat back, ⟨o.extent.span, c'.extent.span⟩,
    hbraced.text_eq_around, ?_, ?_, ?_, hclosed, ?_⟩
  · rw [Delimiters.inner, hbraced.stop_opening, hstart]
  · rw [Delimiters.inner, hmoved]
    rfl
  · have hrows : 1 ≤ s.count '\n' := List.one_le_count_iff.2 hnewline
    have hreach : ∀ t ∈ post, (shiftOf (flat body) s).Reaches t.extent := fun t ht =>
      Shift.reaches_of_beyond (hpost t ht).1 (by simp only [shiftOf, byteLength_append]; omega)
        (by simp only [shiftOf, List.count_append]; omega)
    have hbound : 16 * (inner'.length + 2) + 12 < k := by
      simp only [hk, List.length_append, List.length_cons, List.length_nil]
      omega
    have hgrown := hrebody _ _ _ hc' hmoved hreach (hrun k _ hbound)
      (dropCost_refilled hbodied hbraced hnewline)
    rw [← htokens'] at hgrown
    refine ofText?_of_covered hgrown ⟨(covered_tokens _).ended, ?_⟩
    have hlength := congrArg List.length hbodied.tokens
    simp only [htokens', hk, List.length_append, List.length_cons, List.length_map,
      List.length_nil] at hlength ⊢
    omega
  · intro u hu hfront hfront'
    rw [Delimiters.inner, hstart]
    exact refills hbodied hbraced hu hfront hfront'

end Slot

end GoOutline
