import GoOutline.Edit.Splice
import GoOutline.Proofs.NormalForm
import GoOutline.Proofs.Phrases

/-!
Docs that are written on lines of their own. They are cut off in front of any text, and what is read
right below them has them for its docs.
-/

namespace GoOutline

open Text Syntax Syntax.Lexer

namespace Docs

variable {α : Type} {place : α → Extent} {r row : Nat} {c : Comment} {cs : List Comment}
  {before : List (Sibling α)}

/-- What a line of docs says once it is read again. -/
def said (line : String) : String := String.ofList (trim line.toList)

/-- One comment on each row from a row up to another one. -/
def Fills (r : Nat) (cs : List Comment) (row : Nat) : Prop :=
  match cs with
  | [] => row = r
  | c :: cs => c.extent.row = r ∧ c.extent.lastRow = r ∧ Fills (r + 1) cs row

theorem fills_concat : Fills r (cs ++ [c]) row ↔
    Fills r cs c.extent.row ∧ c.extent.lastRow = c.extent.row ∧ row = c.extent.row + 1 := by
  induction cs generalizing r with
  | nil =>
      simp only [List.nil_append, Fills]
      constructor
      · rintro ⟨rfl, hlast, rfl⟩
        exact ⟨rfl, hlast, rfl⟩
      · rintro ⟨rfl, hlast, rfl⟩
        exact ⟨rfl, hlast, rfl⟩
  | cons d cs ih => simp [Fills, ih, and_assoc]

theorem Fills.le (h : Fills r cs row) : r ≤ row := by
  induction cs generalizing r with
  | nil => exact h.ge
  | cons d cs ih =>
      have := ih h.2.2
      omega

/-- The siblings above a row, counted upwards, start with nothing that ends right there. -/
def Clear (place : α → Extent) (r : Nat) : List (Sibling α) → Prop
  | [] => True
  | .member a :: _ => (place a).lastRow < r
  | .comment c :: _ => c.extent.lastRow + 1 < r

/-- Comments on the rows above are the docs, and no others. -/
theorem commentsAbove_fills (hs : Clear place r before) (h : Fills r cs row) :
    commentsAbove place row ((cs.map .comment).reverse ++ before) = cs := by
  induction cs using List.reverseRecOn generalizing row with
  | nil =>
      obtain rfl : row = r := h
      rcases before with _ | ⟨⟨c⟩ | ⟨a⟩, before⟩
      · rfl
      · have hlast : c.extent.lastRow + 1 ≠ row := Nat.ne_of_lt hs
        simp [commentsAbove, hlast]
      · rfl
  | append_singleton cs c ih =>
      obtain ⟨hcs, hlast, rfl⟩ := fills_concat.1 h
      have htrails : trails place c ((cs.map .comment).reverse ++ before) = false := by
        rcases List.eq_nil_or_concat' cs with rfl | ⟨cs, d, rfl⟩
        · rcases before with _ | ⟨⟨d⟩ | ⟨a⟩, before⟩
          · rfl
          · rfl
          · have hbefore : (place a).lastRow < r := hs
            have hrow := hcs.le
            simp only [List.map_nil, List.reverse_nil, List.nil_append, trails, beq_eq_false_iff_ne]
            omega
        · simp [trails]
      simp [commentsAbove, hlast, htrails, ih hcs]

end Docs

variable {m l indent : List Char} {docs : List String} {lead : List Piece} {p : Piece}

theorem exists_dropReturn_slashes (l : List Char) :
    ∃ x, dropReturn ('/' :: '/' :: l) = '/' :: '/' :: x ∧ trim x = trim l := by
  cases hr : before? "\r" ('/' :: '/' :: l) with
  | none => exact ⟨l, by rw [dropReturn, hr, Option.getD_none], rfl⟩
  | some t =>
      have ht : t ++ ['\r'] = '/' :: '/' :: l := List.append_eq_of_isSuffixOf?_eq_some hr
      rw [dropReturn, hr, Option.getD_some]
      rcases t with _ | ⟨x, _ | ⟨y, t⟩⟩
      · simp at ht
      · simp at ht
      · simp only [List.cons_append, List.cons.injEq] at ht
        obtain ⟨rfl, rfl, rfl⟩ := ht
        have hblank : isBlank '\r' = true := by decide
        exact ⟨t, rfl, (Docs.trim_append_blanks (by simp [hblank]) t).symm⟩

/-- Space and comments that are cut off in front of any text. -/
structure Leading (lead : List Piece) : Prop where
  gap : Gap lead
  cut : ∀ r, pieces (flat lead ++ r) = lead ++ pieces r

namespace Leading

theorem nil : Leading [] := ⟨fun _ h => absurd h List.not_mem_nil, fun _ => rfl⟩

theorem cons (h : Leading lead) (hp : ∀ kind, p.kind ≠ .token kind)
    (hcut : ∀ r, pieces (p.text ++ (flat lead ++ r)) = p :: pieces (flat lead ++ r)) :
    Leading (p :: lead) := by
  refine ⟨List.forall_mem_cons.2 ⟨hp, h.gap⟩, fun r => ?_⟩
  rw [flat_cons, List.append_assoc, hcut, h.cut, List.cons_append]

theorem spaces (h : Leading lead) (hs : ∀ c ∈ l, isSpace c) :
    Leading (l.map (fun c => ⟨.space, [c]⟩) ++ lead) := by
  induction l with
  | nil => exact h
  | cons c l ih =>
      obtain ⟨hc, hs⟩ := List.forall_mem_cons.1 hs
      exact (ih hs).cons (by simp) fun r => pieces_space hc _

theorem newline (h : Leading lead) : Leading (⟨.space, ['\n']⟩ :: lead) :=
  h.cons (by simp) fun r => pieces_space (by decide) _

theorem comment (h : Leading lead) (hl : '\n' ∉ l) :
    Leading (⟨.comment, '/' :: '/' :: l⟩ :: ⟨.space, ['\n']⟩ :: lead) :=
  h.newline.cons (by simp) fun r => pieces_append_piece
    (piece_lineComment hl fun c hc => by simpa using hc.symm) (List.cons_ne_nil _ _)

end Leading

/-- Pieces that leave comments on the rows right above what comes next, which say some lines. -/
def Notes (lead : List Piece) (lines : List String) : Prop :=
  ∀ st, ∃ cs, (lead.foldl State.behind st).comments = st.comments ++ cs ∧
    Docs.Fills st.row cs (lead.foldl State.behind st).row ∧ Docs.linesOf cs = lines

namespace Notes

variable {lines : List String}

theorem nil : Notes [] [] := fun _ => ⟨[], (List.append_nil _).symm, rfl, rfl⟩

theorem spaces (h : Notes lead lines) (hl : '\n' ∉ l) :
    Notes (l.map (fun c => ⟨.space, [c]⟩) ++ lead) lines := by
  induction l with
  | nil => exact h
  | cons c l ih =>
      rw [List.mem_cons, not_or] at hl
      intro st
      obtain ⟨cs, hcs, hrows, hlines⟩ := ih hl.2 (st.behind ⟨.space, [c]⟩)
      have hc : (st.behind ⟨.space, [c]⟩).comments = st.comments := by simp [State.behind, State.pass]
      have hrow : (st.behind ⟨.space, [c]⟩).row = st.row := by simp [Ne.symm hl.1]
      exact ⟨cs, hcs.trans (congrArg (· ++ cs) hc), hrow ▸ hrows, hlines⟩

theorem comment {line : String} (h : Notes lead lines) (hl : '\n' ∉ l)
    (hline : trim l = trim line.toList) :
    Notes (⟨.comment, '/' :: '/' :: l⟩ :: ⟨.space, ['\n']⟩ :: lead) (Docs.said line :: lines) := by
  intro st
  set st' := (st.behind ⟨.comment, '/' :: '/' :: l⟩).behind ⟨.space, ['\n']⟩ with hst
  set c : Comment := ⟨String.ofList ('/' :: '/' :: l), st.extent ('/' :: '/' :: l)⟩ with hc
  have hcount : ('/' :: '/' :: l).count '\n' = 0 := List.count_eq_zero.2 (by simpa using hl)
  have hcomments : st'.comments = st.comments ++ [c] := by
    simp [hst, hc, State.behind, State.pass]
  have hrow : st'.row = st.row + 1 := by simp [hst, hcount]
  obtain ⟨cs, hcs, hrows, hlines⟩ := h st'
  rw [hrow] at hrows
  refine ⟨c :: cs, ?_, ⟨rfl, ?_, hrows⟩, ?_⟩
  · rw [List.append_cons, ← hcomments]
    exact hcs
  · simp [hc, State.extent, hcount]
  · simp [Docs.linesOf, hc, Docs.clean_lineComment, hline, Docs.said] at hlines ⊢
    exact hlines

end Notes

theorem flat_spaces (l : List Char) : flat (l.map fun c => ⟨.space, [c]⟩) = l := by
  induction l with
  | nil => rfl
  | cons c l ih => rw [List.map_cons, flat_cons, ih, List.singleton_append]

/-- Docs as they are written are lines of comments. -/
theorem exists_docs_line (line : String) (hline : '\n' ∉ line.toList) (docs : List String) :
    ∃ l, '\n' ∉ l ∧ trim l = trim line.toList ∧
      Docs.render (line :: docs) = '/' :: '/' :: l ++ '\n' :: Docs.render docs := by
  rw [Docs.render, List.flatMap_cons, ← Docs.render]
  split
  next hempty => exact ⟨[], by decide, by rw [List.isEmpty_iff.1 hempty], rfl⟩
  next =>
    refine ⟨' ' :: line.toList, by simpa using hline, ?_, by simp⟩
    have hspace : isBlank ' ' = true := by decide
    rw [trim, trimStart, List.dropWhile_cons, if_pos hspace]
    rfl

/-- Docs are cut off in front of any text. -/
theorem exists_leading_docs (hdocs : ∀ line ∈ docs, '\n' ∉ line.toList) :
    ∃ lead, Leading lead ∧ flat lead = Docs.render docs ∧ Notes lead (docs.map Docs.said) := by
  induction docs with
  | nil => exact ⟨[], .nil, rfl, .nil⟩
  | cons line docs ih =>
      obtain ⟨hline, hdocs⟩ := List.forall_mem_cons.1 hdocs
      obtain ⟨lead, hlead, hflat, hnotes⟩ := ih hdocs
      obtain ⟨l, hl, htrim, hrender⟩ := exists_docs_line line hline docs
      exact ⟨_, hlead.comment hl, by simp [hrender, hflat], hnotes.comment hl htrim⟩

/-- Docs and the line below them are written on lines of their own. -/
theorem exists_leading (hindent : ∀ c ∈ indent, isSpace c) (hdocs : ∀ line ∈ docs, '\n' ∉ line.toList)
    (hm : '\n' ∉ m) (hne : trimEnd m ≠ []) :
    ∃ lead, Leading lead ∧
      Splice.indentLines indent (Docs.render docs ++ m) = flat lead ++ (m ++ ['\n']) ∧
      ('\n' ∉ indent → Notes lead (docs.map Docs.said)) := by
  induction docs with
  | nil =>
      refine ⟨_, Leading.nil.spaces hindent, ?_, fun hi => Notes.nil.spaces hi⟩
      have hlines : lines m = [m] := by
        rw [lines_of_line hm, if_neg]
        rintro h
        exact hne (by rw [List.isEmpty_iff.1 h, trimEnd])
      have htrim : trim m ≠ [] := by rwa [ne_eq, trim_eq_nil]
      simp [Docs.render, Splice.indentLines, hlines, htrim, flat_spaces]
  | cons line docs ih =>
      obtain ⟨hline, hdocs⟩ := List.forall_mem_cons.1 hdocs
      obtain ⟨lead, hlead, hcode, hnotes⟩ := ih hdocs
      obtain ⟨l, hl, hsaid, hrender⟩ := exists_docs_line line hline docs
      obtain ⟨x, hx, hsame⟩ := exists_dropReturn_slashes l
      have hl' : '\n' ∉ '/' :: '/' :: l := by simpa using hl
      have hx' : '\n' ∉ x := fun h => newline_not_mem_dropReturn hl' (by simp [hx, h])
      have htrim : trim (dropReturn ('/' :: '/' :: l)) ≠ [] := by
        rw [ne_eq, trim_eq_nil, trimEnd_dropReturn, trimEnd_eq_nil]
        exact fun h => absurd (h '/' List.mem_cons_self) (by decide)
      have hlines : Splice.indentLines indent (Docs.render (line :: docs) ++ m) =
          indent ++ dropReturn ('/' :: '/' :: l) ++ '\n' ::
            Splice.indentLines indent (Docs.render docs ++ m) := by
        have hlist : lines (Docs.render (line :: docs) ++ m) =
            dropReturn ('/' :: '/' :: l) :: lines (Docs.render docs ++ m) := by
          rw [hrender, List.append_assoc]
          exact lines_append hl' _
        simp [Splice.indentLines, hlist, htrim]
      refine ⟨_, (hlead.comment hx').spaces hindent, ?_,
        fun hi => ((hnotes hi).comment hx' (hsame.trans hsaid)).spaces hi⟩
      rw [hlines, hcode, hx]
      simp [flat_spaces]

end GoOutline
