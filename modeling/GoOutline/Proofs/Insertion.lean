import GoOutline.Proofs.Owners
import GoOutline.Proofs.Phrases

/-!
Lines that are written into a body. A text that is written on lines of its own in front of the brace
that closes a body adds to the tree of the file the member that is read there, and nothing else.
-/

namespace GoOutline

open Text Syntax Syntax.Lexer Syntax.Grammar
open Syntax.Parser (commentSiblings)

variable {text a y u v w m : List Char} {s : Span} {n : Nat} {x : Addition}

section Keeps

/-- What stands behind a text stands as far behind another one. -/
theorem keeps_back (a b y : List Char) :
    Keeps (fun m => decide (byteLength a ≤ m)) (fun m => decide (a.count '\n' ≤ m))
      (shiftOf a b).byte (shiftOf a b).row (a ++ y) (b ++ y) where
  slice s hs ht := by
    obtain ⟨i, hi⟩ := Nat.exists_eq_add_of_le (of_decide_eq_true hs)
    obtain ⟨j, hj⟩ := Nat.exists_eq_add_of_le (of_decide_eq_true ht)
    obtain ⟨start, stop⟩ := s
    simp only at hi hj
    have hmoved (k : Nat) : (shiftOf a b).byte (byteLength a + k) = byteLength b + k := by
      simp only [Shift.byte, shiftOf]
      omega
    rw [Span.via, hi, hj, hmoved, hmoved, slice_add, slice_add]
  row i j hi hj := by
    have := of_decide_eq_true hi
    have := of_decide_eq_true hj
    simp only [Shift.row, shiftOf]
    omega
  next i j hi hj := by
    have := of_decide_eq_true hi
    have := of_decide_eq_true hj
    simp only [Shift.row, shiftOf]
    omega

end Keeps

theorem Addition.Closed.is {b : TypeBody} {c : Token} (h : Addition.Closed b c) : c.is rbrace := by
  rcases b with _ | _ | _
  · exact h.1
  · exact h.1
  · exact h.elim

theorem Addition.Closed.closing {b : TypeBody} {c : Token} (h : Addition.Closed b c) :
    Addition.closing? b = some c.extent.span := by
  rcases b with _ | _ | _
  · exact congrArg some h.2.1
  · exact congrArg some h.2.1
  · exact h.elim

/-- A member is read of a text that is scanned from a state on, in front of a brace on the next line. -/
def Reads (member : FieldDecl ⊕ InterfaceElem) (st : State) (m : List Char) : Prop :=
  ∀ n c post, c.is rbrace → c.newline → Covered n (emit st (pieces m) ++ c :: post) →
    (∀ f, member = .inl f →
      (fieldDecl n).run (emit st (pieces m) ++ c :: post) = some (f, c :: post)) ∧
    ∀ e, member = .inr e →
      (interfaceElem n).run (emit st (pieces m) ++ c :: post) = some (e, c :: post)

theorem length_emit_le (st : State) (ps : List Piece) : (emit st ps).length ≤ ps.length := by
  induction ps generalizing st with
  | nil => simp [emit]
  | cons p ps ih =>
      have hp : (st.token? p).toList.length ≤ 1 := by cases st.token? p <;> simp
      have := ih (st.behind p)
      simp only [emit, List.length_append, List.length_cons]
      omega

/-- The addition of a member that is written on a line of its own behind a text. -/
def Addition.lined (a : List Char) (c : Token) (cs : List Comment) (lead : List Piece) (m : List Char)
    (member : FieldDecl ⊕ InterfaceElem) : Addition :=
  ⟨shiftOf a (Lexer.lined a lead m), c.comments.length, (outset a cs lead).comments, member⟩

section Outset

variable {cs : List Comment} {lead : List Piece}

theorem offset_outset : (outset a cs lead).offset = byteLength (trimEnd a) + 1 + byteLength (flat lead) := by
  have hnewline : byteLength ['\n'] = 1 := by decide
  simp [outset, below, hnewline]

theorem row_outset : (outset a cs lead).row = (trimEnd a).count '\n' + 1 + (flat lead).count '\n' := by
  simp [outset, below]

theorem byteLength_lined (a : List Char) (lead : List Piece) (m : List Char) :
    byteLength (trimEnd a) + 1 < byteLength (Lexer.lined a lead m) := by
  have hnewline : byteLength ['\n'] = 1 := by decide
  rw [Lexer.lined, List.append_cons, byteLength_append, byteLength_append, byteLength_append,
    byteLength_append, hnewline]
  omega

theorem count_lined (a : List Char) (lead : List Piece) (m : List Char) :
    (trimEnd a).count '\n' + 2 ≤ (Lexer.lined a lead m).count '\n' := by
  simp [Lexer.lined]
  omega

end Outset

/-- The brace that a line is written in front of, at its new place. -/
def Token.underneath (c : Token) (d : Shift) : Token :=
  ⟨c.kind, c.text, d.motion.extent c.extent, true, []⟩

variable {c : Token} {post : List Token} {cs : List Comment} {lead : List Piece}
  {member : FieldDecl ⊕ InterfaceElem}

/-- The tokens of a line that a member is read of are an insertion. -/
theorem inserts_lined (hlead : Gap lead) (hm : Phrase m)
    (hfirst : ∀ t ∈ (words m).head?, t.is rbrace = false) (hbrace : c.is rbrace)
    (hpost : ∀ t ∈ post, t.Beyond (byteLength a) (a.count '\n'))
    (hreads : Reads member (outset a cs lead) m) :
    let x := Addition.lined a c cs lead m member
    ∃ z new, emit (outset a cs lead) (pieces m) = z :: new ∧
      Inserts x c z (Token.underneath c x.shift) new post (post.map x.shift.motion.token) := by
  intro x
  obtain ⟨t, ts, ht, he⟩ := hm.emit_first (outset a cs lead)
  rw [ht] at hfirst
  have hnewline : (outset a cs lead).newline := newline_gap hlead rfl
  refine ⟨_, _, he, ?_⟩
  constructor
  · exact hbrace
  · exact hnewline
  · exact hfirst t rfl
  · rfl
  · rfl
  · exact hbrace
  · rfl
  · rfl
  · rfl
  · intro u hu
    refine Shift.reaches_of_beyond (hpost u hu).1 ?_ ?_ <;>
      simp only [x, Addition.lined, shiftOf] <;> omega
  · intro f hf n hcov
    have hrun := hreads n (Token.underneath c x.shift) (post.map x.shift.motion.token) hbrace rfl
    rw [he] at hrun
    exact (hrun hcov).1 f hf
  · intro e hmember n hcov
    have hrun := hreads n (Token.underneath c x.shift) (post.map x.shift.motion.token) hbrace rfl
    rw [he] at hrun
    exact (hrun hcov).2 e hmember

/-- All that follows a text in front of a line stands behind it and below. -/
theorem beyond_lined (cs : List Comment) (lead : List Piece) (m : List Char)
    (hc : c.extent.Beyond (byteLength a) (a.count '\n'))
    (hpost : ∀ t ∈ post, t.Beyond (byteLength a) (a.count '\n')) :
    let d := shiftOf a (Lexer.lined a lead m)
    ∀ t ∈ emit (outset a cs lead) (pieces m) ++ Token.underneath c d :: post.map d.motion.token,
      t.extent.Beyond (byteLength (trimEnd a) + 1) ((trimEnd a).count '\n' + 1) := by
  intro d
  have hmoved {e : Extent} (h : e.Beyond (byteLength a) (a.count '\n')) :
      (d.motion.extent e).Beyond (byteLength (trimEnd a) + 1) ((trimEnd a).count '\n' + 1) := by
    have hlength := byteLength_lined a lead m
    have hcount := count_lined a lead m
    obtain ⟨hstart, hstop, hrow, hlast⟩ := h
    constructor <;>
      simp only [Motion.extent, Motion.span, Shift.motion, Shift.byte, Shift.row, d, shiftOf] <;> omega
  intro t ht
  rcases List.mem_append.1 ht with ht | ht
  · refine emit_beyond ?_ ?_ t ht
    · rw [offset_outset]
      omega
    · rw [row_outset]
      omega
  · rcases List.mem_cons.1 ht with rfl | ht
    · exact hmoved hc
    · obtain ⟨u, hu, rfl⟩ := List.mem_map.1 ht
      exact hmoved (hpost u hu).1

theorem not_stray_of_tree {tree : Tree} (h : Tree.ofText? text = some tree) :
    ∀ t ∈ tokens text, t.kind ≠ .stray := by
  obtain ⟨us, stop, htokens, hstop, hsolid, -, -⟩ := ofText?_eq_some h
  rw [htokens]
  intro t ht
  rcases List.mem_append.1 ht with ht | ht
  · have hs := hsolid t ht
    simp only [Token.isSolid, Bool.and_eq_true, bne_iff_ne] at hs
    exact hs.2
  · rw [List.mem_singleton.1 ht, hstop]
    decide

/-- Items that are read of all tokens of a text at any bound that covers them are its tree. -/
theorem ofText?_of_covered {items : List (Sibling Item)} {z : Token} {k : Nat}
    (h : Itemized k (tokens text) items [z]) (hk : Covered k (tokens text)) :
    Tree.ofText? text = some ⟨items⟩ := by
  obtain ⟨pre, z', after, hall, hrest, -, -⟩ := h.takes
  obtain ⟨rfl, rfl⟩ := List.cons.inj hrest
  have hrebound := h.rebound hk (covered_tokens text)
  refine ofText?_of_itemized hall ?_
  rwa [← hall]

theorem Syntax.Grammar.Around.rows {ts front : List Token} {extent : Extent} {spot : Spot} {spec : TypeSpec}
    {suf : List (Sibling Item)} {r : Nat} (h : Around ts front c post extent spot spec suf)
    (hc : c.extent.Beyond n r) (hpost : ∀ t ∈ post, t.Beyond n r) :
    r ≤ extent.lastRow ∧ r ≤ spec.extent.lastRow := by
  obtain ⟨t, ht, hrow⟩ := h.lastRow
  rw [hrow, h.specRow]
  refine ⟨?_, hc.lastRow⟩
  rcases List.mem_cons.1 ht with rfl | ht
  · exact hc.lastRow
  · exact (hpost t ht).1.lastRow

/-- A member that is written on a line of its own in front of the brace of a body goes into the body. -/
theorem Hole.exists_lined {h : Hole} {layout : Layout} (hl : Outline.layoutOf text = .ok layout)
    (htree : Tree.ofText? text = some ⟨h.items⟩) (hclose : Closes (pieces text) [])
    (hs : Addition.closing? h.spec.body = some s) {lead : List Piece} (hlead : Gap lead)
    (hpieces : ∀ r, pieces (flat lead ++ r) = lead ++ pieces r) (hm : Phrase m)
    (hfirst : ∀ t ∈ (words m).head?, t.is rbrace = false) :
    ∃ a y cs c, text = a ++ y ∧ byteLength a = s.start ∧ Addition.Closed h.spec.body c ∧
      List.Forall₂ Trimmed c.comments cs ∧ Closes (pieces (Lexer.lined a lead m ++ y)) [] ∧
      ∀ member x, x = Addition.lined a c cs lead m member → x.Fits h.spec.body →
        Reads member (outset a cs lead) m →
        Tree.ofText? (Lexer.lined a lead m ++ y) = some ⟨(h.grown x).items⟩ ∧
          h.Grows x (trimEnd a) (byteLength a) (a.count '\n') text (Lexer.lined a lead m ++ y) := by
  obtain ⟨us, stop, htokens, -, -, hcov, hitems⟩ := ofText?_eq_some htree
  have hkinds := Outline.not_statement_of_layoutOf hl htree
  -- A bound that is large enough for the tokens before and after.
  set k := 16 * ((us ++ [stop]).length + (pieces m).length + 3) with hk
  have hold : Itemized (k + 6) (us ++ [stop]) h.items [stop] :=
    hitems.rebound hcov ⟨hcov.ended, by omega⟩
  obtain ⟨front, c, post, haround, hgrow⟩ := hold.grow_behind ⟨hcov.ended, by omega⟩ hkinds
    (by rw [hs]; exact Option.some_ne_none s)
  have hbrace := haround.closed.is
  obtain ⟨a, y, cs, rfl, ha, hcs, hupto, hc, hpost, hsplice⟩ :=
    tokens_splice (htokens.trans haround.tokens) hbrace (not_stray_of_tree htree) hclose
  have hclosing := haround.closed.closing
  rw [hs, Option.some_inj] at hclosing
  obtain ⟨htext, hclosed⟩ :=
    hsplice lead m hlead hpieces hm.halts fun r => hm.pieces_append (edge_newline r)
  refine ⟨a, y, cs, c, rfl, by rw [ha, hclosing], haround.closed, hcs, hclosed hm.closes,
    fun member x hx hfit hreads => ?_⟩
  obtain ⟨z, new, hnew, hi⟩ := inserts_lined hlead hm hfirst hbrace hpost hreads
  have hbeyond := beyond_lined cs lead m hc hpost
  simp only [hnew, List.cons_append] at hbeyond htext
  have hshift : x.shift = shiftOf a (Lexer.lined a lead m) := by rw [hx]; rfl
  rw [← hx] at hi
  rw [← hshift] at hbeyond htext
  change tokens _ = front ++ z :: (new ++ Token.underneath c x.shift :: _) at htext
  set c' := Token.underneath c x.shift
  obtain ⟨last, hlast, hend⟩ := (covered_tokens (Lexer.lined a lead m ++ y)).ended
  rw [htext] at hlast
  have hlength : (front ++ z :: (new ++ c' :: post.map x.shift.motion.token)).length ≤
      (us ++ [stop]).length + (pieces m).length := by
    have hemit := length_emit_le (outset a cs lead) (pieces m)
    rw [hnew] at hemit
    rw [haround.tokens]
    simp only [List.length_append, List.length_cons, List.length_map] at hemit ⊢
    omega
  have hcovered : Covered k (z :: (new ++ c' :: post.map x.shift.motion.token)) := by
    refine ⟨⟨last, ?_, hend⟩, ?_⟩
    · rwa [List.getLast?_append_of_ne_nil _ (List.cons_ne_nil _ _)] at hlast
    · rw [List.length_append] at hlength
      omega
  have hcovered' : Covered (k + 6) (front ++ z :: (new ++ c' :: post.map x.shift.motion.token)) :=
    ⟨⟨last, hlast, hend⟩, by omega⟩
  obtain ⟨hrow, hspec⟩ := haround.rows hc hpost
  have hcount : (trimEnd a).count '\n' + 2 ≤ (Lexer.lined a lead m).count '\n' := count_lined _ _ _
  have hcost : forgivenFrom ≤ dropCost (x.shift.widerExtent h.extent) := by
    obtain ⟨t, ht, hfirst⟩ := haround.row
    have htop := (hupto t ht).1.row
    refine forgiven_of_rows ?_
    simp only [Shift.row, hshift, shiftOf]
    omega
  have hbytes : byteLength (trimEnd a) + 1 < byteLength (Lexer.lined a lead m) := byteLength_lined _ _ _
  obtain ⟨hgrown, hpre, hbefore, hstays⟩ := hgrow x z c' new _ _ _ _ hfit hi hcovered hcovered'
    hcost hupto hbeyond hc hpost (by simp only [hshift, shiftOf]; omega)
    (by simp only [hshift, shiftOf]; omega)
  obtain ⟨hsuf, hafter⟩ := haround.fixed (Motion.since (byteLength a) (a.count '\n'))
    fun t ht => token_of_beyond (hpost t ht)
  obtain ⟨w, hw, -⟩ := exists_trimEnd_append a
  refine ⟨?_, keeps_front ?_ ?_, ?_, hpre, hbefore, hstays, hrow, hspec, hafter, hsuf⟩
  · rw [← htext, ← Hole.grown_items] at hgrown
    exact ofText?_of_covered hgrown (by rwa [htext])
  · exact ⟨w ++ y, by rw [← List.append_assoc, ← hw]⟩
  · rw [Lexer.lined, List.append_assoc]
    exact List.prefix_append _ _
  · rw [hshift]
    exact keeps_back a _ y

end GoOutline
