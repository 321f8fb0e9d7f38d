import Mathlib.Data.List.Forall2
import GoOutline.Proofs.Settling

/-!
Spliced texts. A text that takes the place of the blanks behind a token leaves the tokens in front as
they are, and those behind it only move on.
-/

namespace GoOutline.Syntax.Lexer

open Text

variable {d : Shift} {st st' : State} {s t r x y : List Char} {p : Piece} {ps qs : List Piece}

@[simp] theorem emit_append (st : State) (ps qs : List Piece) :
    emit st (ps ++ qs) = emit st ps ++ emit (ps.foldl State.behind st) qs := by
  induction ps generalizing st with
  | nil => rfl
  | cons p ps ih => simp [emit, ih]

theorem scan_of_pieces (h : pieces s = ps ++ pieces t) (st : State) :
    scan st s = emit st ps ++ scan (ps.foldl State.behind st) t := by
  simp [scan_eq, h]

/-- What stands behind some pieces of a text is cut as it is cut alone. -/
theorem pieces_flat (h : pieces s = ps ++ qs) : pieces (flat qs) = qs := by
  induction ps generalizing s with
  | nil =>
      rw [List.nil_append] at h
      rw [← h, flat_pieces]
  | cons p ps ih => exact ih (pieces_eq_cons h).2.2.2

theorem pieces_split (h : pieces s = ps ++ qs) : pieces (flat ps ++ flat qs) = ps ++ pieces (flat qs) := by
  rw [pieces_flat h, ← flat_append, ← h, flat_pieces]

@[simp] theorem row_behind (st : State) (p : Piece) :
    (st.behind p).row = st.row + p.text.count '\n' := by
  unfold State.behind
  split <;> rfl

@[simp] theorem row_foldl_behind (st : State) (ps : List Piece) :
    (ps.foldl State.behind st).row = st.row + (flat ps).count '\n' := by
  induction ps generalizing st with
  | nil => rfl
  | cons p ps ih => simp [ih, Nat.add_assoc]

section Moved

/-- Two scans, the second one so much further on. -/
structure Apart (d : Shift) (st st' : State) : Prop where
  offset : (st'.offset : Int) = st.offset + d.bytes
  row : (st'.row : Int) = st.row + d.rows

namespace Apart

theorem extent (h : Apart d st st') (text : List Char) :
    st'.extent text = d.motion.extent (st.extent text) := by
  have ho := h.offset
  have hr := h.row
  simp only [State.extent, Motion.extent, Motion.span, Shift.motion, Shift.byte, Shift.row,
    Extent.mk.injEq, Span.mk.injEq]
  omega

theorem behind (h : Apart d st st') (p : Piece) : Apart d (st.behind p) (st'.behind p) := by
  have ho := h.offset
  have hr := h.row
  constructor <;> simp <;> omega

end Apart

/-- They know the same of what stands in front. -/
structure Moved (d : Shift) (st st' : State) : Prop extends Apart d st st' where
  newline : st'.newline = st.newline
  comments : st'.comments = st.comments.map d.comment

/-- Behind a token nothing is known of what stands in front. -/
theorem Apart.moved (h : Apart d st st') {kind : TokenKind} (hp : p.kind = .token kind) :
    Moved d (st.behind p) (st'.behind p) :=
  ⟨h.behind p, by simp [State.behind, hp, State.pass], by simp [State.behind, hp, State.pass]⟩

namespace Moved

theorem token? (h : Moved d st st') (p : Piece) :
    st'.token? p = (st.token? p).map d.motion.token := by
  unfold State.token?
  cases p.kind with
  | token kind =>
      simp only [Option.map_some, Motion.token, h.extent, h.newline, h.comments]
      simp [Shift.motion]
  | _ => rfl

theorem behind (h : Moved d st st') (p : Piece) : Moved d (st.behind p) (st'.behind p) := by
  have hc : ⟨String.ofList p.text, st'.extent p.text⟩ =
      d.comment ⟨String.ofList p.text, st.extent p.text⟩ := by
    rw [h.extent]
    rfl
  refine ⟨h.toApart.behind p, ?_, ?_⟩ <;> unfold State.behind <;> split <;>
    simp [State.pass, h.newline, h.comments, hc]

theorem foldl (h : Moved d st st') (ps : List Piece) :
    Moved d (ps.foldl State.behind st) (ps.foldl State.behind st') := by
  induction ps generalizing st st' with
  | nil => exact h
  | cons p ps ih => exact ih (h.behind p)

theorem emit (h : Moved d st st') (ps : List Piece) :
    emit st' ps = (emit st ps).map d.motion.token := by
  induction ps generalizing st st' with
  | nil => rfl
  | cons p ps ih => simp [Lexer.emit, h.token?, ih (h.behind p), Option.toList_map]

theorem stop (h : Moved d st st') : st'.stop = d.motion.token st.stop := by
  simp only [State.stop, Motion.token, h.extent, h.newline, h.comments]
  rfl

/-- Behind states that know the same the same text reads the same. -/
theorem scan (h : Moved d st st') (s : List Char) :
    scan st' s = (scan st s).map d.motion.token := by
  rw [scan_eq, scan_eq, List.map_append, h.emit, (h.foldl _).stop]
  rfl

end Moved

end Moved

section Around

variable {n r : Nat}

theorem beyond_extent (ho : n ≤ st.offset) (hr : r ≤ st.row) (text : List Char) :
    (st.extent text).Beyond n r := by
  constructor <;> simp only [State.extent] <;> omega

theorem upto_extent {u text : List Char} (ho : st.offset = byteLength u)
    (hr : st.row = u.count '\n') (hs : u ++ text <+: s) : (st.extent text).Upto s := by
  have hcount := hs.sublist.count_le '\n'
  rw [List.count_append] at hcount
  refine ⟨⟨u, (List.prefix_append u text).trans hs, ho.symm⟩, ⟨u ++ text, hs, ?_⟩, ?_, ?_⟩
  · simp [State.extent, ho]
  · simp only [State.extent]
    omega
  · simp only [State.extent]
    omega

theorem beyond_comments (ho : n ≤ st.offset) (hr : r ≤ st.row)
    (hc : ∀ c ∈ st.comments, c.extent.Beyond n r) (p : Piece) :
    ∀ c ∈ (st.behind p).comments, c.extent.Beyond n r := by
  unfold State.behind
  split
  · exact hc
  · intro c hm
    rcases List.mem_append.1 hm with hm | hm
    · exact hc c hm
    · rw [List.mem_singleton.1 hm]
      exact beyond_extent ho hr p.text
  · simp [State.pass]

theorem upto_comments {u : List Char} (hc : ∀ c ∈ st.comments, c.extent.Upto s)
    (ho : st.offset = byteLength u) (hr : st.row = u.count '\n') (hs : u ++ p.text <+: s) :
    ∀ c ∈ (st.behind p).comments, c.extent.Upto s := by
  unfold State.behind
  split
  · exact hc
  · intro c hm
    rcases List.mem_append.1 hm with hm | hm
    · exact hc c hm
    · rw [List.mem_singleton.1 hm]
      exact upto_extent ho hr hs
  · simp [State.pass]

/-- The tokens of pieces stand where the pieces do. -/
theorem emit_beyond (ho : n ≤ st.offset) (hr : r ≤ st.row) :
    ∀ t ∈ emit st ps, t.extent.Beyond n r := by
  induction ps generalizing st with
  | nil => simp [emit]
  | cons p ps ih =>
      intro t ht
      rcases List.mem_append.1 ht with ht | ht
      · rw [(mem_token? ht).2]
        exact beyond_extent ho hr p.text
      · exact ih (by simp; omega) (by simp; omega) t ht

theorem emit_upto {u : List Char} (hc : ∀ c ∈ st.comments, c.extent.Upto s)
    (ho : st.offset = byteLength u) (hr : st.row = u.count '\n') (hs : u ++ flat ps <+: s) :
    ∀ t ∈ emit st ps, t.Upto s := by
  induction ps generalizing st u with
  | nil => simp [emit]
  | cons p ps ih =>
      rw [flat_cons, ← List.append_assoc] at hs
      have hp : u ++ p.text <+: s := (List.prefix_append _ _).trans hs
      intro t ht
      rcases List.mem_append.1 ht with ht | ht
      · unfold State.token? at ht
        split at ht
        · rw [List.mem_singleton.1 ht]
          exact ⟨upto_extent ho hr hp, hc⟩
        · cases ht
      · exact ih (upto_comments hc ho hr hp) (by simp [ho]) (by simp [hr]) hs t ht

theorem foldl_upto {u : List Char} (hc : ∀ c ∈ st.comments, c.extent.Upto s)
    (ho : st.offset = byteLength u) (hr : st.row = u.count '\n') (hs : u ++ flat ps <+: s) :
    ∀ c ∈ (ps.foldl State.behind st).comments, c.extent.Upto s := by
  induction ps generalizing st u with
  | nil => exact hc
  | cons p ps ih =>
      rw [flat_cons, ← List.append_assoc] at hs
      exact ih (upto_comments hc ho hr ((List.prefix_append _ _).trans hs)) (by simp [ho]) (by simp [hr]) hs

theorem scan_beyond (ho : n ≤ st.offset) (hr : r ≤ st.row)
    (hc : ∀ c ∈ st.comments, c.extent.Beyond n r) (s : List Char) :
    ∀ t ∈ scan st s, t.Beyond n r := by
  rw [scan_eq]
  generalize pieces s = ps
  induction ps generalizing st with
  | nil =>
      intro t ht
      rw [List.mem_singleton.1 ht]
      exact ⟨beyond_extent ho hr [], hc⟩
  | cons p ps ih =>
      intro t ht
      rw [emit, List.append_assoc, List.mem_append] at ht
      rcases ht with ht | ht
      · unfold State.token? at ht
        split at ht
        · rw [List.mem_singleton.1 ht]
          exact ⟨beyond_extent ho hr p.text, hc⟩
        · cases ht
      · exact ih (by simp; omega) (by simp; omega) (beyond_comments ho hr hc p) t ht

end Around

/-- The pieces in front of a token, the token and the pieces behind it. -/
theorem exists_pieces {T R : List Token} {c : Token} (h : emit st ps = T ++ c :: R) :
    ∃ front p back kind, ps = front ++ p :: back ∧ p.kind = .token kind ∧ emit st front = T ∧
      (front.foldl State.behind st).token? p = some c ∧
      emit ((front.foldl State.behind st).behind p) back = R := by
  induction ps generalizing st T with
  | nil => simp [emit] at h
  | cons q ps ih =>
      cases hq : st.token? q with
      | none =>
          rw [emit, hq] at h
          obtain ⟨front, p, back, kind, rfl, hk, hT, hc, hR⟩ := ih h
          exact ⟨q :: front, p, back, kind, rfl, hk, by simp [emit, hq, hT], hc, hR⟩
      | some u =>
          have hkind : ∃ kind, q.kind = .token kind := by
            unfold State.token? at hq
            split at hq
            next kind hk => exact ⟨kind, hk⟩
            next => cases hq
          rw [emit, hq] at h
          rcases T with _ | ⟨v, T⟩
          · obtain ⟨rfl, hR⟩ := List.cons.inj h
            obtain ⟨kind, hk⟩ := hkind
            exact ⟨[], q, ps, kind, rfl, hk, rfl, hq, hR⟩
          · obtain ⟨rfl, hrest⟩ := List.cons.inj h
            obtain ⟨front, p, back, kind, rfl, hk, hT, hc, hR⟩ := ih hrest
            exact ⟨q :: front, p, back, kind, rfl, hk, by simp [emit, hq, hT], hc, hR⟩

theorem exists_pieces_of_scan {T R : List Token} {c : Token} (h : scan st s = T ++ c :: R)
    (hc : c.kind ≠ .stop) :
    ∃ front p back kind, pieces s = front ++ p :: back ∧ p.kind = .token kind ∧ emit st front = T ∧
      (front.foldl State.behind st).token? p = some c ∧
      scan ((front.foldl State.behind st).behind p) (flat back) = R := by
  rw [scan_eq] at h
  rcases List.eq_nil_or_concat R with rfl | ⟨R, z, rfl⟩
  · have hstop := (List.append_inj' h rfl).2
    rw [← (List.cons.inj hstop).1] at hc
    exact absurd rfl hc
  · have hall : T ++ c :: R.concat z = T ++ c :: R ++ [z] := by simp
    rw [hall] at h
    obtain ⟨hemit, hstop⟩ := List.append_inj' h rfl
    obtain ⟨front, p, back, kind, hps, hk, hT, hp, hR⟩ := exists_pieces hemit
    have hpieces : pieces s = (front ++ [p]) ++ back := by rw [hps]; simp
    have hback := pieces_flat hpieces
    refine ⟨front, p, back, kind, hps, hk, hT, hp, ?_⟩
    rw [scan_eq, hback, hR, List.concat_eq_append, ← hstop, hps]
    simp

/-- A text whose pieces have no strays and no open comment is cut the same in front of an edge. -/
theorem pieces_append (hs : ∀ p ∈ pieces s, p.kind ≠ .token .stray) (hc : Closes (pieces s) [])
    (hr : Edge r) (hl : Admits (pieces s) r) : pieces (s ++ r) = pieces s ++ pieces r := by
  have hnil : pieces (flat (pieces s) ++ ([] ++ [])) = pieces s ++ pieces ([] ++ []) := by
    simp [flat_pieces, pieces]
  have h := pieces_seam hnil hs hc edge_nil hr fun _ => hl
  simpa [flat_pieces] using h

section Front

/-- A comment without the blanks at its end, which says the same. -/
def Trimmed (c c' : Comment) : Prop :=
  Docs.clean c'.text.toList = Docs.clean c.text.toList ∧ c'.extent.row = c.extent.row ∧
    c'.extent.lastRow = c.extent.lastRow

theorem Trimmed.refl (c : Comment) : Trimmed c c := ⟨rfl, rfl, rfl⟩

theorem forall₂_trimmed (cs : List Comment) : List.Forall₂ Trimmed cs cs := by
  induction cs with
  | nil => exact .nil
  | cons c cs ih => exact .cons (.refl c) ih

theorem pieces_newline (s : List Char) : pieces ('\n' :: s) = ⟨.space, ['\n']⟩ :: pieces s :=
  pieces_append_piece (t := ['\n']) (by simp [piece, isSpace]) (by simp)

theorem scan_newline (st : State) (s : List Char) :
    scan st ('\n' :: s) = scan (st.behind ⟨.space, ['\n']⟩) s := by
  rw [scan_eq, scan_eq, pieces_newline]
  rfl

theorem isBlank_of_isSpace {c : Char} (h : isSpace c) : isBlank c := by
  rcases Bool.or_eq_true_iff.1 h with h | h
  · rw [eq_of_beq h]
    decide
  · simp only [Bool.and_eq_true, decide_eq_true_eq] at h
    have hlo : 9 ≤ c.toNat := h.1
    have hhi : c.toNat ≤ 13 := h.2
    simp [isBlank, blankRanges, Ranges.contains, hlo, hhi]

theorem edge_of_isSpace {c : Char} (h : isSpace c) (s : List Char) : Edge (c :: s) :=
  edge_cons (isEdge_of_isBlank (isBlank_of_isSpace h)).1 s

/-- The last of some pieces, with what is in front. -/
theorem pieces_concat (h : pieces (flat (ps ++ [p]) ++ y) = ps ++ [p] ++ pieces y) :
    pieces (flat ps ++ (p.text ++ y)) = ps ++ pieces (p.text ++ y) ∧
      piece (p.text ++ y) = (p.kind, p.text.length) ∧ p.text ≠ [] := by
  rw [List.append_assoc, List.singleton_append] at h
  have hsplit := pieces_split h
  have hback := pieces_flat h
  simp only [flat_cons, flat_pieces] at hsplit hback
  obtain ⟨-, hne, hpiece, -⟩ := pieces_eq_cons hback
  exact ⟨hsplit, hpiece, hne⟩

theorem Closes.concat (h : Closes (ps ++ [p]) y) : Closes ps (p.text ++ y) := by
  intro l q r he hq
  have hclose := h (l := l) (p := q) (r := r ++ [p]) (by rw [he]; simp) hq
  simpa using hclose

theorem Closes.append (h : Closes ps []) (h' : Closes qs x) (he : Edge (flat qs ++ x)) :
    Closes (ps ++ qs) x := by
  intro l p r hl hp hstar
  rcases List.append_eq_append_iff.1 hl with ⟨w, rfl, hw⟩ | ⟨w, rfl, hw⟩
  · exact h' hw hp hstar
  · rcases w with _ | ⟨q, w⟩
    · exact h' (l := []) hw.symm hp hstar
    · obtain ⟨rfl, hr⟩ := List.cons.inj hw
      rw [hr, List.append_eq] at hstar
      have hfront := h (l := l) rfl hp
      rw [List.append_nil] at hfront
      rw [flat_append, List.append_assoc] at hstar
      rcases hw : flat w with _ | ⟨a, b⟩
      · rw [hw, List.nil_append] at hstar
        exact absurd (he '*' hstar) (by decide +kernel)
      · rw [hw] at hfront hstar
        exact hfront hstar

theorem Closes.drop (h : Closes (ps ++ qs) x) : Closes qs x :=
  fun l p r he => h (l := ps ++ l) (by rw [he, List.append_assoc])

theorem Closes.cons (h : Closes ps x) (hp : p.text ≠ ['/']) : Closes (p :: ps) x := by
  intro l q r hl hq
  rcases l with _ | ⟨u, l⟩
  · rw [(List.cons.inj hl).1] at hp
    exact absurd hq hp
  · exact h (List.cons.inj hl).2 hq

/-- Some pieces in front of one that is no slash. -/
theorem Closes.snoc (h : Closes ps p.text) (hp : p.text ≠ ['/']) : Closes (ps ++ [p]) [] := by
  intro l q r hl hq
  rcases List.eq_nil_or_concat r with rfl | ⟨r, u, rfl⟩
  · obtain ⟨-, hpq⟩ := List.append_inj' hl rfl
    rw [List.singleton_inj.1 hpq] at hp
    exact absurd hq hp
  · have hl' : ps ++ [p] = l ++ q :: r ++ [u] := by simpa using hl
    obtain ⟨rfl, hu⟩ := List.append_inj' hl' rfl
    rw [← (List.cons.inj hu).1]
    simpa using h rfl hq

theorem Closes.left (h : Closes ps (x ++ y)) : Closes ps x := by
  intro l q r he hq hstar
  refine h he hq ?_
  rw [← List.append_assoc, List.head?_append, hstar]
  rfl

theorem comments_concat (st : State) (h : p.kind = .comment) :
    ((ps ++ [p]).foldl State.behind st).comments = (ps.foldl State.behind st).comments ++
      [⟨String.ofList p.text, (ps.foldl State.behind st).extent p.text⟩] := by
  simp [State.behind, h, State.pass]

/-- A piece that starts like a line comment is one. -/
theorem exists_lineComment (h : piece (t ++ y) = (p.kind, t.length)) (hline : ['/', '/'] <+: t ++ y) :
    p.kind = .comment ∧ ∃ l, t = '/' :: '/' :: l ∧ '\n' ∉ l ∧ EndsLine y := by
  obtain ⟨z, hz⟩ := hline
  have hspace : isSpace '/' = false := by decide
  have hp : piece (t ++ y) = (.comment, (z.takeWhile (· ≠ '\n')).length + 2) := by
    rw [← hz, piece, if_neg (by simp [hspace])]
    rfl
  have hkind : p.kind = .comment := by simpa [h] using congrArg Prod.fst hp
  rw [hkind] at h
  refine ⟨hkind, ?_⟩
  rcases comment_cases h with hl | ⟨b, rfl, -⟩
  · exact hl
  · cases hz

theorem trimEnd_of_firm (h : Firm t) : trimEnd (s ++ t) = if t = [] then trimEnd s else s ++ t := by
  rcases List.eq_nil_or_concat t with rfl | ⟨u, c, rfl⟩
  · simp
  · rw [List.concat_eq_append, ← List.append_assoc, trimEnd_concat (h c (by simp))]
    simp

/-- The pieces of a text without the blanks at its end, where a line feed follows. -/
theorem pieces_trimEnd (h : pieces (flat ps ++ y) = ps ++ pieces y)
    (hs : ∀ p ∈ ps, p.kind ≠ .token .stray) (hc : Closes ps y) (hy : Edge y) :
    ∃ qs, flat qs = trimEnd (flat ps) ∧
      (∀ r, pieces (trimEnd (flat ps) ++ '\n' :: r) = qs ++ pieces ('\n' :: r)) ∧
      (∀ st, emit st qs = emit st ps) ∧
      (∀ st, List.Forall₂ Trimmed (ps.foldl State.behind st).comments
        (qs.foldl State.behind st).comments) ∧ Closes qs [] := by
  induction ps using List.reverseRecOn generalizing y with
  | nil =>
      exact ⟨[], rfl, fun r => rfl, fun st => rfl, fun st => forall₂_trimmed _, hc.left (x := [])⟩
  | append_singleton ps p ih =>
      obtain ⟨hfront, hpiece, hne⟩ := pieces_concat h
      have hsf : ∀ q ∈ ps, q.kind ≠ .token .stray := fun q hq => hs q (List.mem_append_left _ hq)
      by_cases hline : ['/', '/'] <+: p.text ++ y
      · obtain ⟨hkind, l, ht, hl, -⟩ := exists_lineComment hpiece hline
        obtain ⟨w, hw, hblank⟩ := exists_trimEnd_append l
        have hl' : '\n' ∉ trimEnd l := fun hm => hl (by rw [hw]; exact List.mem_append_left w hm)
        have htrim : trimEnd (flat (ps ++ [p])) = flat ps ++ '/' :: '/' :: trimEnd l := by
          have hslash : isBlank '/' = false := by decide
          have hp : trimEnd p.text = '/' :: '/' :: trimEnd l := by
            rw [ht, trimEnd_cons hslash, trimEnd_cons hslash]
          rw [flat_append, flat_cons, flat_nil, List.append_nil,
            trimEnd_append_of_ne (by simp [hp]), hp]
        have hedge : Edge (w ++ y) := by
          rcases w with _ | ⟨c, w⟩
          · exact hy
          · exact edge_cons (isEdge_of_isBlank (hblank c List.mem_cons_self)).1 _
        have htext : p.text ++ y = '/' :: '/' :: trimEnd l ++ (w ++ y) := by
          rw [ht, List.cons_append, List.cons_append, List.cons_append, List.cons_append,
            ← List.append_assoc, ← hw]
        have hclose : Closes ps ('/' :: '/' :: trimEnd l) :=
          (htext ▸ hc.concat : Closes ps ('/' :: '/' :: trimEnd l ++ (w ++ y))).left
        refine ⟨ps ++ [⟨.comment, '/' :: '/' :: trimEnd l⟩], by rw [htrim]; simp, fun r => ?_,
          fun st => ?_, fun st => ?_, hclose.snoc (by simp)⟩
        · rw [htext] at hfront
          rw [htrim, List.append_assoc, pieces_seam hfront hsf hclose hedge (edge_newline r) (by simp),
            pieces_append_piece (piece_lineComment hl' (by simp [EndsLine])) (by simp)]
          simp
        · simp [emit, State.token?, hkind]
        · rw [comments_concat st hkind, comments_concat st rfl]
          refine List.rel_append (forall₂_trimmed _) (.cons ⟨?_, rfl, ?_⟩ .nil)
          · simp only [String.toList_ofList, ht, Docs.clean_lineComment, Docs.trim_trimEnd]
          · simp [State.extent, ht, List.count_eq_zero.2 hl, List.count_eq_zero.2 hl']
      · by_cases hspace : p.kind = .space
        · rw [hspace] at hpiece
          obtain ⟨hlen, hhead⟩ := space_of_piece hpiece
          obtain ⟨c, ht⟩ := List.length_eq_one_iff.1 hlen
          have hc' : isSpace c := by simpa [ht] using hhead
          have hclose := hc.concat
          rw [ht] at hfront hclose
          obtain ⟨qs, hflat, hqs, hemit, hcomments, hclosed⟩ :=
            ih hfront hsf hclose (edge_of_isSpace hc' y)
          have htrim : trimEnd (flat (ps ++ [p])) = trimEnd (flat ps) := by
            rw [flat_append, flat_cons, flat_nil, List.append_nil, ht,
              trimEnd_append_blanks (by simpa using isBlank_of_isSpace hc')]
          refine ⟨qs, by rw [hflat, htrim], by rw [htrim]; exact hqs, fun st => ?_, fun st => ?_,
            hclosed⟩
          · simp [hemit, emit, State.token?, hspace]
          · simpa [State.behind, hspace, State.pass] using hcomments st
        · have hfirm : Firm p.text := firm_of_piece hpiece hspace (hs p (by simp)) hline
          have htrim : trimEnd (flat (ps ++ [p])) = flat (ps ++ [p]) := by
            simp [trimEnd_of_firm hfirm, hne]
          refine ⟨ps ++ [p], htrim.symm, fun r => ?_, fun st => rfl, fun st => forall₂_trimmed _,
            hc.left (x := [])⟩
          have hseam := pieces_seam (x := []) (by simpa using h) hs (hc.left (x := [])) hy
            (edge_newline r) fun _ q _ _ => by simp [EndsLine]
          rw [htrim]
          exact hseam

end Front

section Start

/-- The byte order mark that a text may start with. -/
def mark : List Char := ['\ufeff']

/-- What may stand in front of the text that is scanned. -/
def Leads (m s : List Char) : Prop := m = mark ∨ (m = [] ∧ s.head? ≠ mark.head?)

theorem exists_leads (text : List Char) : ∃ m s, text = m ++ s ∧ Leads m s := by
  rcases text with _ | ⟨c, s⟩
  · exact ⟨[], [], rfl, .inr ⟨rfl, by simp [mark]⟩⟩
  · by_cases hc : c = '\ufeff'
    · exact ⟨mark, s, by rw [hc]; rfl, .inl rfl⟩
    · exact ⟨[], c :: s, rfl, .inr ⟨rfl, by simpa [mark] using hc⟩⟩

/-- Where the scan of a text starts. -/
def start (m : List Char) : State := ⟨byteLength m, 0, false, []⟩

theorem tokens_of_leads {m : List Char} (h : Leads m s) : tokens (m ++ s) = scan (start m) s := by
  rcases h with rfl | ⟨rfl, hs⟩
  · rfl
  · unfold tokens
    split
    next he => exact absurd (congrArg List.head? he) hs
    next => rfl

theorem piece_mark (s : List Char) : piece (mark ++ s) = (.token .stray, mark.length) := by
  have hsymbols : ∀ symbol ∈ symbols, symbol.toList.head? ≠ mark.head? := by decide
  have hsymbol : symbolLength ('\ufeff' :: s) = none := by
    rw [symbolLength, Option.map_eq_none_iff, List.find?_eq_none]
    intro symbol hs hp
    exact hsymbols symbol hs (head?_of_isPrefix hs (List.isPrefixOf_iff_prefix.1 hp))
  have hnumber : number ('\ufeff' :: s) = 0 := number_eq_zero (by decide) (by decide) s
  have hspace : isSpace '\ufeff' = false := by decide
  have hstart : isIdentifierStart '\ufeff' = false := by decide +kernel
  have hcomment : comment ('\ufeff' :: s) = none := rfl
  simp [mark, piece, hspace, hcomment, hstart, literal, hnumber, hsymbol]

theorem pieces_of_leads {m : List Char} (h : Leads m s) : ∃ ps, pieces (m ++ s) = ps ++ pieces s := by
  rcases h with rfl | ⟨rfl, -⟩
  · exact ⟨[⟨.token .stray, mark⟩], pieces_append_piece (t := mark) (piece_mark s) (by simp [mark])⟩
  · exact ⟨[], rfl⟩

theorem Leads.closes {m : List Char} (h : Leads m s) (hs : Closes (pieces s) []) :
    Closes (pieces (m ++ s)) [] := by
  rcases h with rfl | ⟨rfl, -⟩
  · have hps : pieces (mark ++ s) = ⟨.token .stray, mark⟩ :: pieces s :=
      pieces_append_piece (piece_mark s) (by simp [mark])
    rw [hps]
    exact hs.cons (by simp [mark])
  · exact hs

theorem Leads.count_eq_zero {m : List Char} (h : Leads m s) : m.count '\n' = 0 := by
  rcases h with rfl | ⟨rfl, -⟩ <;> rfl

end Start

section Splice

variable {text m : List Char} {T R : List Token} {c : Token} {lead : List Piece} {cs : List Comment}

/-- Pieces that are no tokens. -/
def Gap (ps : List Piece) : Prop := ∀ p ∈ ps, ∀ kind, p.kind ≠ .token kind

theorem emit_gap (h : Gap ps) (st : State) : emit st ps = [] := by
  induction ps generalizing st with
  | nil => rfl
  | cons p ps ih =>
      have hp : st.token? p = none := by
        unfold State.token?
        split
        next kind hk => exact absurd hk (h p List.mem_cons_self kind)
        next => rfl
      simp [emit, hp, ih fun q hq => h q (List.mem_cons_of_mem p hq)]

theorem newline_gap (h : Gap ps) (hst : st.newline) : (ps.foldl State.behind st).newline := by
  induction ps generalizing st with
  | nil => exact hst
  | cons p ps ih =>
      refine ih (fun q hq => h q (List.mem_cons_of_mem p hq)) ?_
      unfold State.behind
      split
      next => simp [State.pass, hst]
      next => exact hst
      next kind hk => exact absurd hk (h p List.mem_cons_self kind)

/-- The last of some pieces is a token. -/
def Halting (ps : List Piece) : Prop := ∃ p ∈ ps.getLast?, ∃ kind, p.kind = .token kind

/-- Behind a token, a scan knows nothing but where it is. -/
theorem foldl_behind_halting (h : Halting ps) (st : State) : ps.foldl State.behind st =
    ⟨st.offset + byteLength (flat ps), st.row + (flat ps).count '\n', false, []⟩ := by
  obtain ⟨p, hp, kind, hk⟩ := h
  obtain ⟨qs, rfl⟩ := List.getLast?_eq_some_iff.1 hp
  simp [State.behind, hk, State.pass, Nat.add_assoc]

theorem exists_emit_of_mem (h : p ∈ ps) {kind : TokenKind} (hk : p.kind = .token kind) (st : State) :
    ∃ t ∈ emit st ps, t.kind = kind := by
  obtain ⟨front, back, rfl⟩ := List.append_of_mem h
  exact ⟨_, by
    simp only [emit_append, emit, State.token?, hk, List.mem_append]
    exact .inr (.inl (by simp; rfl)), rfl⟩

theorem Leads.splice {u v w : List Char} (h : Leads m (u ++ v)) : Leads m (trimEnd u ++ '\n' :: w) := by
  rcases h with h | ⟨rfl, h⟩
  · exact .inl h
  · refine .inr ⟨rfl, ?_⟩
    obtain ⟨b, hb, -⟩ := exists_trimEnd_append u
    rcases hu : trimEnd u with _ | ⟨x, u'⟩
    · simp [mark]
    · rw [hb, hu] at h
      exact h

theorem Leads.trimEnd (h : Leads m s) (u : List Char) : trimEnd (m ++ u) = m ++ trimEnd u := by
  rcases h with rfl | ⟨rfl, -⟩
  · exact trimEnd_cons (by decide) u
  · rfl

/-- Where a scan is that starts a new line behind a text. -/
def below (s : List Char) (cs : List Comment) : State :=
  ⟨byteLength (s ++ ['\n']), s.count '\n' + 1, true, cs⟩

/-- How far what stands behind one text moves when that text gives way to another one. -/
def shiftOf (s t : List Char) : Shift :=
  ⟨byteLength t - byteLength s, t.count '\n' - s.count '\n'⟩

/-- A text without the blanks at its end, and behind it a line on its own, with blanks and comments
in front. -/
def lined (a : List Char) (lead : List Piece) (m : List Char) : List Char :=
  trimEnd a ++ '\n' :: (flat lead ++ (m ++ ['\n']))

/-- Where a scan is in front of that line. -/
def outset (a : List Char) (cs : List Comment) (lead : List Piece) : State :=
  lead.foldl State.behind (below (trimEnd a) cs)

theorem Closes.of_leads (hm : Leads m s) (hps : pieces s = ps ++ qs) (h : Closes (pieces (m ++ s)) []) :
    Closes ps (flat qs) := by
  obtain ⟨before, hpieces⟩ := pieces_of_leads hm
  intro l q r he hq
  have hclosed := h (l := before ++ l) (p := q) (r := r ++ qs) (by rw [hpieces, hps, he]; simp) hq
  simpa using hclosed

/-- Behind the line, a scan is as much further on as the text is longer. -/
theorem apart_lined {a : List Char} (ho : st.offset = byteLength a) (hr : st.row = a.count '\n')
    (cs : List Comment) (lead : List Piece) (m : List Char) : Apart (shiftOf a (lined a lead m)) st
      (((pieces m).foldl State.behind (outset a cs lead)).behind ⟨.space, ['\n']⟩) := by
  set st' := ((pieces m).foldl State.behind (outset a cs lead)).behind ⟨.space, ['\n']⟩
  have ho' : st'.offset = byteLength (lined a lead m) := by
    simp [st', outset, below, lined, flat_pieces, Nat.add_assoc, byteLength]
  have hr' : st'.row = (lined a lead m).count '\n' := by
    simp [st', outset, below, lined, flat_pieces]
    omega
  constructor
  · simp only [ho, ho', shiftOf]
    omega
  · simp only [hr, hr', shiftOf]
    omega

/-- A token that comes to stand on a line of its own, and what stands behind it. -/
theorem scan_token_moved {front back : List Piece} {kind : TokenKind}
    (hps : pieces s = front ++ p :: back) (hk : p.kind = .token kind) (hp : st.token? p = some c)
    (h : Apart d st st') (hnewline : st'.newline = true) (hcomments : st'.comments = []) :
    scan st' (flat (p :: back)) = ⟨c.kind, c.text, d.motion.extent c.extent, true, []⟩ ::
      (scan (st.behind p) (flat back)).map d.motion.token := by
  have hpieces : pieces (flat (p :: back)) = [p] ++ pieces (flat back) := by
    have hpieces : pieces s = (front ++ [p]) ++ back := by rw [hps]; simp
    rw [pieces_flat hps, pieces_flat hpieces]
    rfl
  rw [scan_of_pieces hpieces]
  simp only [State.token?, hk, Option.some.injEq] at hp
  simp only [emit, State.token?, hk, ← hp, hnewline, hcomments, h.extent]
  simp [(h.moved hk).scan]

/-- A text that goes on in another way on the next line behind one of its pieces. The tokens in front
stay, and no comment is left open. -/
theorem tokens_below {front back : List Piece} (hm : Leads m s) (hps : pieces s = front ++ back)
    (hs : ∀ p ∈ front, p.kind ≠ .token .stray) (hclose : Closes (pieces (m ++ s)) [])
    (hedge : Edge (flat back)) :
    ∃ cs, List.Forall₂ Trimmed (front.foldl State.behind (start m)).comments cs ∧
      (∀ t ∈ emit (start m) front, t.Upto (trimEnd (m ++ flat front))) ∧
      (∀ c ∈ cs, c.extent.Upto (trimEnd (m ++ flat front))) ∧
      ∀ r, tokens (trimEnd (m ++ flat front) ++ '\n' :: r) =
          emit (start m) front ++ scan (below (trimEnd (m ++ flat front)) cs) r ∧
        (Closes (pieces r) [] → Closes (pieces (trimEnd (m ++ flat front) ++ '\n' :: r)) []) := by
  have hsplit := pieces_split hps
  obtain ⟨qs, hflat, hqs, hemit, hcomments, hclosed⟩ :=
    pieces_trimEnd hsplit hs (.of_leads hm hps hclose) hedge
  have hrow := hm.count_eq_zero
  have htrim : trimEnd (m ++ flat front) = m ++ flat qs := by rw [hm.trimEnd, hflat]
  have hfront : Leads m (flat front ++ flat back) := by
    rwa [← flat_append, ← hps, flat_pieces]
  have hbelow : (qs.foldl State.behind (start m)).behind ⟨.space, ['\n']⟩ =
      below (trimEnd (m ++ flat front)) (qs.foldl State.behind (start m)).comments := by
    simp [State.behind, State.pass, below, htrim, start, hrow, Nat.add_assoc]
  refine ⟨(qs.foldl State.behind (start m)).comments, hcomments _, ?_, ?_,
    fun r => ⟨?_, fun hr => ?_⟩⟩
  · rw [← hemit, htrim]
    exact emit_upto (u := m) (by simp [start]) rfl hrow.symm (List.prefix_rfl)
  · rw [htrim]
    exact foldl_upto (u := m) (by simp [start]) rfl hrow.symm (List.prefix_rfl)
  · rw [hm.trimEnd, List.append_assoc, tokens_of_leads hfront.splice, scan_of_pieces (hqs r), hemit,
      scan_newline, ← hm.trimEnd, ← hbelow]
  · have hline : Closes (qs ++ ⟨.space, ['\n']⟩ :: pieces r) [] :=
      hclosed.append (hr.cons (by simp)) (by simpa using edge_newline (flat (pieces r)))
    rw [hm.trimEnd, List.append_assoc]
    refine hfront.splice.closes ?_
    rwa [hqs, pieces_newline]

/-- Space and comments are no slash. -/
theorem ne_slash_of_gap (h : pieces (s ++ t) = ps ++ pieces t) (hps : Gap ps) :
    ∀ p ∈ ps, p.text ≠ ['/'] := by
  intro p hp ht
  obtain ⟨front, back, rfl⟩ := List.append_of_mem hp
  have hsplit : pieces (s ++ t) = front ++ (p :: (back ++ pieces t)) := by simpa using h
  obtain ⟨-, -, hpiece, -⟩ := pieces_eq_cons (pieces_flat hsplit)
  rw [flat_cons, ht] at hpiece
  have hkind := hps p (by simp)
  cases hk : p.kind with
  | token kind => exact hkind kind hk
  | space =>
      rw [hk] at hpiece
      have hslash : isSpace '/' = false := by decide
      exact absurd (space_of_piece hpiece).2 (by simp [hslash])
  | comment =>
      rw [hk] at hpiece
      rcases comment_cases hpiece with ⟨l, hl, -⟩ | ⟨b, hb, -⟩
      · cases hl
      · cases hb

theorem Closes.gap_append (hps : ∀ p ∈ ps, p.text ≠ ['/']) (h : Closes qs x) : Closes (ps ++ qs) x := by
  induction ps with
  | nil => exact h
  | cons p ps ih =>
      exact (ih fun q hq => hps q (List.mem_cons_of_mem p hq)).cons (hps p List.mem_cons_self)

/-- A line behind a text, with blanks and comments in front, leaves no comment open. -/
theorem closes_line (hlead : Gap lead) (hpieces : ∀ r, pieces (flat lead ++ r) = lead ++ pieces r)
    (hm : Closes (pieces m) []) (hcut : ∀ r, pieces (m ++ '\n' :: r) = pieces m ++ pieces ('\n' :: r))
    (hy : Closes (pieces y) []) : Closes (pieces (flat lead ++ (m ++ '\n' :: y))) [] := by
  rw [hpieces, hcut, pieces_newline]
  refine .gap_append (ne_slash_of_gap (hpieces []) hlead) (hm.append (hy.cons (by simp)) ?_)
  simpa using edge_newline (flat (pieces y))

/-- The tokens of a line behind a text, and those behind it. -/
theorem scan_line (hlead : Gap lead) (hpieces : ∀ r, pieces (flat lead ++ r) = lead ++ pieces r)
    (hcut : ∀ r, pieces (m ++ '\n' :: r) = pieces m ++ pieces ('\n' :: r)) (st : State)
    (y : List Char) : scan st (flat lead ++ (m ++ '\n' :: y)) =
      emit (lead.foldl State.behind st) (pieces m) ++
        scan (((pieces m).foldl State.behind (lead.foldl State.behind st)).behind ⟨.space, ['\n']⟩) y := by
  rw [scan_of_pieces (hpieces _), emit_gap hlead, List.nil_append, scan_of_pieces (hcut _),
    scan_newline]

/-- Tokens that are written behind the blanks in front of a token. Those in front stay, and those
behind move on. -/
theorem tokens_splice (h : tokens text = T ++ c :: R) (hc : c.is rbrace)
    (hs : ∀ t ∈ tokens text, t.kind ≠ .stray) (hclose : Closes (pieces text) []) :
    ∃ a y cs, text = a ++ y ∧ byteLength a = c.extent.span.start ∧
      List.Forall₂ Trimmed c.comments cs ∧
      (∀ t ∈ T, t.Upto (trimEnd a)) ∧
      c.extent.Beyond (byteLength a) (a.count '\n') ∧
      (∀ t ∈ R, t.Beyond (byteLength a) (a.count '\n')) ∧
      ∀ lead m, Gap lead → (∀ r, pieces (flat lead ++ r) = lead ++ pieces r) → Halting (pieces m) →
        (∀ r, pieces (m ++ '\n' :: r) = pieces m ++ pieces ('\n' :: r)) →
        let d := shiftOf a (lined a lead m)
        tokens (lined a lead m ++ y) = T ++ (emit (outset a cs lead) (pieces m) ++
            ⟨c.kind, c.text, d.motion.extent c.extent, true, []⟩ :: R.map d.motion.token) ∧
          (Closes (pieces m) [] → Closes (pieces (lined a lead m ++ y)) []) := by
  obtain ⟨m₀, s, rfl, hm₀⟩ := exists_leads text
  rw [tokens_of_leads hm₀] at h hs
  have hstop : c.kind ≠ .stop := by
    rw [Token.kind_of_is hc]
    decide
  obtain ⟨front, p, back, kind, hps, hk, hT, hp, hR⟩ := exists_pieces_of_scan h hstop
  obtain ⟨htext, hextent⟩ := mem_token? (Option.mem_toList.2 hp)
  have hsf : ∀ q ∈ front, q.kind ≠ .token .stray := by
    intro q hq hkind
    obtain ⟨t, ht, hstray⟩ := exists_emit_of_mem hq hkind (start m₀)
    refine hs t ?_ hstray
    rw [h, ← hT]
    exact List.mem_append_left _ ht
  have hbrace : p.text = ['}'] := by
    rw [← htext, eq_of_beq (Bool.and_eq_true_iff.1 hc).2]
    decide
  have hedge : Edge (flat (p :: back)) := by
    rw [flat_cons, hbrace]
    exact edge_cons (by decide +kernel) _
  obtain ⟨cs, hcs, hupto, -, hbelow⟩ := tokens_below hm₀ hps hsf hclose hedge
  have hrow := hm₀.count_eq_zero
  have ho₁ : (front.foldl State.behind (start m₀)).offset = byteLength (m₀ ++ flat front) := by
    simp [start]
  have hr₁ : (front.foldl State.behind (start m₀)).row = (m₀ ++ flat front).count '\n' := by
    simp [start, hrow]
  refine ⟨m₀ ++ flat front, flat (p :: back), cs, ?_, ?_, ?_, hT ▸ hupto, ?_, ?_, ?_⟩
  · rw [List.append_assoc, ← flat_append, ← hps, flat_pieces]
  · rw [hextent]
    simp [State.extent, start]
  · have hc' : c.comments = (front.foldl State.behind (start m₀)).comments := by
      simp only [State.token?, hk, Option.some.injEq] at hp
      rw [← hp]
    rwa [hc']
  · rw [hextent]
    exact beyond_extent ho₁.ge hr₁.ge p.text
  · rw [← hR]
    exact scan_beyond (by simp [start]) (by simp [start, hrow]) (by simp [State.behind, hk, State.pass]) _
  intro lead m hlead hpieces hhalt hcut d
  have hnew : lined (m₀ ++ flat front) lead m ++ flat (p :: back) = trimEnd (m₀ ++ flat front) ++
      '\n' :: (flat lead ++ (m ++ '\n' :: flat (p :: back))) := by
    simp [lined]
  have houtset : lead.foldl State.behind (below (trimEnd (m₀ ++ flat front)) cs) =
      outset (m₀ ++ flat front) cs lead := rfl
  set st₃ := ((pieces m).foldl State.behind (outset (m₀ ++ flat front) cs lead)).behind
    ⟨.space, ['\n']⟩ with hst₃
  have hst : st₃.newline = true ∧ st₃.comments = [] := by
    rw [hst₃, foldl_behind_halting hhalt]
    exact ⟨rfl, rfl⟩
  have hlast := scan_token_moved hps hk hp (apart_lined ho₁ hr₁ cs lead m) hst.1 hst.2
  rw [hR] at hlast
  obtain ⟨htokens, hclosed⟩ := hbelow (flat lead ++ (m ++ '\n' :: flat (p :: back)))
  rw [hnew]
  refine ⟨?_, fun hm => hclosed (closes_line hlead hpieces hm hcut ?_)⟩
  · rw [htokens, scan_line hlead hpieces hcut, houtset, hT, ← hlast]
  · have hpieces := pieces_flat hps
    obtain ⟨before, hall⟩ := pieces_of_leads hm₀
    rw [hpieces]
    rw [hall, hps, ← List.append_assoc] at hclose
    exact hclose.drop

end Splice

end GoOutline.Syntax.Lexer
