import GoOutline.Proofs.Marking
import GoOutline.Proofs.NormalForm
import GoOutline.Proofs.Settling

/-!
Documentation in either style of comment. A comment between slash and star, decorated with a star in
front of each line, says what the same lines say behind two slashes each.
-/

namespace GoOutline

open Text Syntax

namespace Text

variable {s a b : List Char} {x y c : Char}

/-- No blank stands at either end. -/
def Trimmed (s : List Char) : Prop := (∀ c ∈ s.head?, isBlank c = false) ∧ Firm s

theorem trimmed_trim (s : List Char) : Trimmed (trim s) := ⟨head?_trim s, firm_trimEnd _⟩

theorem trimEnd_of_firm (h : Firm s) : trimEnd s = s := by
  obtain ⟨w, hs, hw⟩ := Syntax.Lexer.exists_trimEnd_append s
  rcases List.eq_nil_or_concat' w with rfl | ⟨v, c, rfl⟩
  · rwa [List.append_nil, eq_comm] at hs
  · have hc : isBlank c = false := h c (by rw [hs]; simp)
    rw [hw c (by simp)] at hc
    cases hc

theorem Trimmed.trim_eq (h : Trimmed s) : trim s = s := by
  rw [trim, trimStart_of_head h.1, trimEnd_of_firm h.2]

theorem trim_dropReturn (l : List Char) : trim (dropReturn l) = trim l := by
  rw [← Docs.trim_trimEnd, trimEnd_dropReturn, Docs.trim_trimEnd]

theorem pair_infix_append_cons (hx : x ≠ c) (hy : y ≠ c) (h : [x, y] <:+: a ++ c :: b) :
    [x, y] <:+: a ∨ [x, y] <:+: b := by
  induction a with
  | nil =>
      rw [List.nil_append, List.infix_cons_iff, List.cons_prefix_cons] at h
      rcases h with ⟨he, -⟩ | h
      · exact absurd he hx
      · exact .inr h
  | cons d a ih =>
      rw [List.cons_append, List.infix_cons_iff] at h
      rcases h with h | h
      · cases a with
        | nil =>
            rw [List.nil_append, List.cons_prefix_cons, List.cons_prefix_cons] at h
            exact absurd h.2.1 hy
        | cons e a =>
            rw [List.cons_append, List.cons_prefix_cons, List.cons_prefix_cons] at h
            obtain ⟨rfl, rfl, -⟩ := h
            exact .inl ⟨[], a, rfl⟩
      · rcases ih h with h | h
        · exact .inl (List.infix_cons h)
        · exact .inr h

end Text

namespace Docs

variable {docs ls : List (List Char)} {line comment : List Char}

def starLine (line : List Char) : List Char :=
  if line.isEmpty then [' ', '*'] else ' ' :: '*' :: ' ' :: line

/-- All lines in one comment. -/
def blockStyle (docs : List (List Char)) : List Char :=
  '/' :: '*' :: ('\n' :: unlines (docs.map starLine) ++ [' '] ++ ['*', '/'])

/-- One line as a comment of its own. -/
def lineStyle (line : List Char) : List Char :=
  if line.isEmpty then ['/', '/'] else '/' :: '/' :: ' ' :: line

/-- A line of documentation that can be written in either style. -/
structure Plain (line : List Char) : Prop where
  trimmed : Trimmed line
  unbroken : '\n' ∉ line
  unclosed : ¬ ['*', '/'] <:+: line

theorem trimmed_cleanLine (l : List Char) : Trimmed (cleanLine l) := by
  rw [cleanLine]
  split
  · exact trimmed_trim _
  · exact trimmed_trim l

theorem cleanLine_starLine (h : Trimmed line) : cleanLine (starLine line) = line := by
  have hspace : isBlank ' ' = true := by decide
  have hstar : isBlank '*' = false := by decide
  have hstart (s : List Char) : trimStart (' ' :: '*' :: s) = '*' :: s := by
    simp [trimStart, hspace, hstar]
  rw [starLine]
  split
  next hnil =>
    rw [List.isEmpty_iff.1 hnil]
    decide
  next hne =>
    have hfirm : Firm ('*' :: ' ' :: line) :=
      firm_cons (firm_cons h.2 fun hnil => absurd (List.isEmpty_iff.2 hnil) hne) fun hnil => by cases hnil
    have hline : trim (' ' :: line) = line := by
      rw [trim, trimStart, List.dropWhile_cons, if_pos hspace]
      exact h.trim_eq
    rw [cleanLine, trim, hstart, trimEnd_of_firm hfirm]
    exact hline

theorem clean_lineStyle (h : Trimmed line) : clean (lineStyle line) = [line] := by
  rw [lineStyle]
  split
  next hnil =>
    rw [List.isEmpty_iff.1 hnil]
    rfl
  next =>
    have hspace : isBlank ' ' = true := by decide
    rw [clean_lineComment, trim, trimStart, List.dropWhile_cons, if_pos hspace]
    exact congrArg (fun l => [l]) h.trim_eq

theorem isPrefix_dropEmptyEnd (ls : List (List Char)) : dropEmptyEnd ls <+: ls := by
  induction ls with
  | nil => exact List.prefix_rfl
  | cons l ls ih =>
      rw [dropEmptyEnd]
      split
      next =>
        split
        · exact List.nil_prefix
        · exact (List.prefix_cons_inj l).2 List.nil_prefix
      next => exact (List.prefix_cons_inj l).2 ih

theorem dropEmptyEnd_cons (l : List Char) (h : dropEmptyEnd ls ≠ []) :
    dropEmptyEnd (l :: ls) = l :: dropEmptyEnd ls := by
  rw [dropEmptyEnd]
  split
  next hnil => exact absurd hnil h
  next => rfl

theorem getLast?_dropEmptyEnd (ls : List (List Char)) : (dropEmptyEnd ls).getLast? ≠ some [] := by
  induction ls with
  | nil => simp [dropEmptyEnd]
  | cons l ls ih =>
      by_cases h : dropEmptyEnd ls = []
      · rw [dropEmptyEnd, h]
        cases l <;> simp
      · rw [dropEmptyEnd_cons l h, List.getLast?_cons_of_ne_nil h]
        exact ih

theorem dropEmptyEnd_append_empty (hlast : ls.getLast? ≠ some []) :
    dropEmptyEnd (ls ++ [[]]) = ls := by
  induction ls with
  | nil => rfl
  | cons l ls ih =>
      rw [List.cons_append]
      by_cases h : ls = []
      · subst h
        have hne : l ≠ [] := by simpa using hlast
        cases l with
        | nil => exact absurd rfl hne
        | cons c l => rfl
      · rw [List.getLast?_cons_of_ne_nil h] at hlast
        rw [dropEmptyEnd_cons l (by rwa [ih hlast]), ih hlast]

theorem head?_dropEmptyEnd (ls : List (List Char)) :
    (dropEmptyEnd (ls.dropWhile List.isEmpty)).head? ≠ some [] := by
  intro h
  obtain ⟨more, hmore⟩ := isPrefix_dropEmptyEnd (ls.dropWhile List.isEmpty)
  have hhead : (ls.dropWhile List.isEmpty).head? = some [] := by
    rw [← hmore, List.head?_append, h, Option.some_or]
  have hnot := List.head?_dropWhile_not List.isEmpty ls
  rw [hhead] at hnot
  cases hnot

theorem newline_not_mem_starLine (h : '\n' ∉ line) : '\n' ∉ starLine line := by
  rw [starLine]
  split <;> simp [h]

theorem map_cleanLine_body (h : ∀ line ∈ docs, Plain line) :
    (lines ('\n' :: unlines (docs.map starLine) ++ [' '])).map cleanLine = [] :: docs ++ [[]] := by
  have hbroken : ∀ l ∈ [] :: docs.map starLine, '\n' ∉ l := by
    rw [List.forall_mem_cons, List.forall_mem_map]
    exact ⟨by simp, fun line hl => newline_not_mem_starLine (h line hl).unbroken⟩
  have hstars : docs.map (cleanLine ∘ dropReturn ∘ starLine) = docs := by
    refine (List.map_congr_left fun line hl => ?_).trans (List.map_id docs)
    exact (cleanLine_of_trim (trim_dropReturn _)).trans (cleanLine_starLine (h line hl).trimmed)
  have hlines := lines_unlines_append hbroken [' ']
  rw [unlines_cons, List.nil_append] at hlines
  rw [hlines, List.map_append, List.map_map, List.map_cons, List.map_map, Function.comp_assoc, hstars]
  rfl

theorem clean_blockStyle (h : ∀ line ∈ docs, Plain line) (hfirst : docs.head? ≠ some [])
    (hlast : docs.getLast? ≠ some []) : clean (blockStyle docs) = docs := by
  have hdrop : ([] :: docs ++ [[]]).dropWhile List.isEmpty =
      if docs = [] then [] else docs ++ [[]] := by
    cases docs with
    | nil => rfl
    | cons line docs =>
        have hne : line ≠ [] := by simpa using hfirst
        simp [hne]
  rw [blockStyle, clean_blockComment, map_cleanLine_body h, hdrop]
  split
  next hnil => rw [hnil]; rfl
  next => exact dropEmptyEnd_append_empty hlast

theorem unclosed_starLine (h : ¬ ['*', '/'] <:+: line) : ¬ ['*', '/'] <:+: starLine line := by
  rw [starLine]
  split
  · decide
  · simpa [List.infix_cons_iff, List.cons_prefix_cons] using h

theorem unclosed_body (h : ∀ line ∈ docs, Plain line) :
    ¬ ['*', '/'] <:+: '\n' :: unlines (docs.map starLine) ++ [' '] := by
  rw [List.cons_append, List.infix_cons_iff, List.cons_prefix_cons]
  rintro (⟨hstar, -⟩ | hin)
  · cases hstar
  induction docs with
  | nil => exact absurd hin (by decide)
  | cons line docs ih =>
      obtain ⟨hline, hrest⟩ := List.forall_mem_cons.1 h
      rw [List.map_cons, unlines_cons, List.append_assoc, List.cons_append] at hin
      rcases pair_infix_append_cons (by decide) (by decide) hin with hin | hin
      · exact unclosed_starLine hline.unclosed hin
      · exact ih hrest hin

/-- A text that holds no end of a comment goes on to the one behind it. -/
theorem blockComment_of_unclosed {b : List Char} (h : ¬ ['*', '/'] <:+: b) (r : List Char) :
    Lexer.blockComment (b ++ '*' :: '/' :: r) = some (b.length + 2) := by
  induction b with
  | nil => rfl
  | cons c b ih =>
      rw [List.infix_cons_iff, not_or] at h
      have hnot : ¬ ['*', '/'] <+: c :: (b ++ '*' :: '/' :: r) := by
        cases b with
        | nil => simp [List.cons_prefix_cons]
        | cons d b => simpa [List.cons_prefix_cons] using h.1
      rw [List.cons_append, Lexer.blockComment_cons hnot, ih h.2]
      rfl

theorem comment_blockStyle (h : ∀ line ∈ docs, Plain line) (r : List Char) :
    Lexer.comment (blockStyle docs ++ r) = some (blockStyle docs).length := by
  have hclose := blockComment_of_unclosed (unclosed_body h) r
  have htext : blockStyle docs ++ r = '/' :: '*' ::
      ('\n' :: unlines (docs.map starLine) ++ [' '] ++ '*' :: '/' :: r) := by
    simp [blockStyle]
  rw [htext]
  show (Lexer.blockComment _).map (· + 2) = _
  rw [hclose]
  simp [blockStyle]

theorem comment_lineStyle (h : '\n' ∉ line) (r : List Char) :
    Lexer.comment (lineStyle line ++ '\n' :: r) = some (lineStyle line).length := by
  have hcomment {s : List Char} (hs : '\n' ∉ s) :
      Lexer.comment ('/' :: '/' :: s ++ '\n' :: r) = some ('/' :: '/' :: s).length := by
    have hline : ∀ c ∈ s, decide (c ≠ '\n') := fun c hc =>
      decide_eq_true fun he : c = '\n' => hs (he ▸ hc)
    show some (((s ++ '\n' :: r).takeWhile (· ≠ '\n')).length + 2) = _
    rw [List.takeWhile_append_of_pos hline]
    simp
  rw [lineStyle]
  split
  · exact hcomment (s := []) (by simp)
  · exact hcomment (s := ' ' :: line) (by simp [h])

theorem flatMap_clean_lineStyle (h : ∀ line ∈ docs, Plain line) :
    (docs.flatMap fun line => clean (lineStyle line)) = docs := by
  have hone : (docs.flatMap fun line => clean (lineStyle line)) = docs.flatMap fun line => [line] :=
    List.flatMap_congr fun line hl => clean_lineStyle (h line hl).trimmed
  rw [hone, List.flatMap_singleton']

theorem linesOf_eq_flatMap (comments : List Comment) :
    linesOf comments = ((comments.map (·.text.toList)).flatMap clean).map String.ofList := by
  simp [linesOf, List.flatMap_map, List.map_flatMap]

theorem trimmed_clean (comment : List Char) : ∀ line ∈ clean comment, Trimmed line := by
  rw [clean]
  split
  next line _ =>
    rw [List.forall_mem_singleton]
    exact trimmed_trim line
  next =>
    intro line hline
    have hmem := (List.dropWhile_sublist _).subset ((isPrefix_dropEmptyEnd _).subset hline)
    obtain ⟨l, -, rfl⟩ := List.mem_map.1 hmem
    exact trimmed_cleanLine l

theorem clean_eq_of_not_line (h : ¬ ['/', '/'] <+: comment) : ∃ ls : List (List Char),
    clean comment = dropEmptyEnd (ls.dropWhile List.isEmpty) := by
  have hnone : after? "//" comment = none := by
    by_contra hsome
    obtain ⟨line, hline⟩ := Option.ne_none_iff_exists'.1 hsome
    exact h ⟨line, (List.isPrefixOf?_eq_some_iff_append_eq.1 hline)⟩
  rw [clean, hnone]
  exact ⟨_, rfl⟩

theorem render_eq_unlines (docs : List (List Char)) :
    render (docs.map String.ofList) = unlines (docs.map lineStyle) := by
  rw [render, unlines, List.flatMap_map, List.flatMap_map]
  refine List.flatMap_congr fun line _ => ?_
  rw [String.toList_ofList, lineStyle]
  split <;> rfl

/-- Documentation says the same in one comment and in one for each line, and it is read back from
both as it was written. Documentation of one's own is written in the second style. The lines that any
comment says have no blank at either end, and those between slash and star neither start nor end with
an empty one. -/
theorem clean_styles :
    (∀ docs : List (List Char), (∀ line ∈ docs, Plain line) → docs.head? ≠ some [] →
      docs.getLast? ≠ some [] →
      clean (blockStyle docs) = docs ∧ (docs.flatMap fun line => clean (lineStyle line)) = docs ∧
      render (docs.map String.ofList) = unlines (docs.map lineStyle) ∧
      (∀ r, Lexer.comment (blockStyle docs ++ r) = some (blockStyle docs).length) ∧
      (∀ line ∈ docs, ∀ r,
        Lexer.comment (lineStyle line ++ '\n' :: r) = some (lineStyle line).length) ∧
      ∀ dialect (block : Comment) (each : List Comment), block.text.toList = blockStyle docs →
        each.map (·.text.toList) = docs.map lineStyle →
        Annotation.partition dialect (linesOf [block]) = Annotation.partition dialect (linesOf each)) ∧
    ∀ comment, (∀ line ∈ clean comment, Trimmed line) ∧ (¬ ['/', '/'] <+: comment →
      (clean comment).head? ≠ some [] ∧ (clean comment).getLast? ≠ some []) := by
  refine ⟨fun docs h hfirst hlast => ?_, fun comment => ⟨trimmed_clean comment, fun hline => ?_⟩⟩
  · have hblock := clean_blockStyle h hfirst hlast
    have heach := flatMap_clean_lineStyle h
    refine ⟨hblock, heach, render_eq_unlines docs, comment_blockStyle h,
      fun line hl => comment_lineStyle (h line hl).unbroken, fun dialect block each hb he => ?_⟩
    rw [linesOf_eq_flatMap, linesOf_eq_flatMap, List.map_singleton, hb, List.flatMap_singleton, hblock,
      he, List.flatMap_map, heach]
  · obtain ⟨ls, hclean⟩ := clean_eq_of_not_line hline
    rw [hclean]
    exact ⟨head?_dropEmptyEnd ls, getLast?_dropEmptyEnd _⟩

/-- Lines that start with a star or a slash, with an empty one between them. -/
theorem clean_styles_stars_and_slashes :
    let docs := ["* star".toList, [], "/ slash *".toList]
    blockStyle docs = "/*\n * * star\n *\n * / slash *\n */".toList ∧
      docs.map lineStyle = ["// * star".toList, "//".toList, "// / slash *".toList] ∧
      clean (blockStyle docs) = docs ∧ (docs.flatMap fun line => clean (lineStyle line)) = docs := by
  intro docs
  have hplain : ∀ line ∈ docs, Plain line := by
    have htrim : ∀ line ∈ docs, trim line = line := by decide
    exact fun line hl => ⟨htrim line hl ▸ trimmed_trim line, by revert line; decide, by revert line; decide⟩
  have hstyles := clean_styles.1 docs hplain (by decide) (by decide)
  exact ⟨by decide, by decide, hstyles.1, hstyles.2.1⟩

end Docs

end GoOutline
