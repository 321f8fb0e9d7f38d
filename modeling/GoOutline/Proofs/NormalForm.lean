import GoOutline.Proofs.Settled

/-!
The normal form of a text: lines without blanks at their ends, each with one line feed behind it, and
a line that shows something at the end. Formatting gives a text this form and keeps its lines.
-/

namespace GoOutline

namespace Text

variable {s l w : List Char} {ls : List (List Char)}

theorem settle_settle (s : List Char) : settle (settle s) = settle s := by
  induction s with
  | nil => rfl
  | cons c s ih =>
      by_cases h : isBlank c && (settle s == [] || (c != '\n' && (settle s).head? == some '\n'))
      · rw [settle, if_pos h, ih]
      · rw [settle, if_neg h, settle, ih, if_neg h]

theorem firm_cons (h : Firm s) (hc : s = [] → isBlank c = false) : Firm (c :: s) := by
  cases s with
  | nil => exact fun x hx => by cases hx; exact hc rfl
  | cons a s => exact fun x hx => h x (by rwa [List.getLast?_cons_cons] at hx)

theorem firm_settle (s : List Char) : Firm (settle s) := by
  induction s with
  | nil => exact fun c hc => by cases hc
  | cons c s ih =>
      rw [settle]
      split
      · exact ih
      next h => exact firm_cons ih fun hnil => by simpa [hnil] using h

theorem firm_trimEnd (s : List Char) : Firm (trimEnd s) := by
  induction s with
  | nil => exact fun c hc => by cases hc
  | cons c s ih =>
      rw [trimEnd]
      split
      next =>
        split
        · exact fun x hx => by cases hx
        next hc => exact firm_cons (fun x hx => by cases hx) fun _ => by simpa using hc
      next hne => exact firm_cons ih fun hnil => absurd hnil hne

theorem dropReturn_of_firm (h : Firm l) : dropReturn l = l := by
  cases hr : before? "\r" l with
  | none => rw [dropReturn, hr, Option.getD_none]
  | some t =>
      have hl : t ++ ['\r'] = l := List.append_eq_of_isSuffixOf?_eq_some hr
      have hblank : isBlank '\r' = false := h '\r' (by simp [← hl])
      cases hblank

def unlines (ls : List (List Char)) : List Char := ls.flatMap (· ++ ['\n'])

theorem unlines_cons (l : List Char) (ls : List (List Char)) :
    unlines (l :: ls) = l ++ '\n' :: unlines ls := by
  simp [unlines]

theorem splitOn_unlines (h : ∀ l ∈ ls, '\n' ∉ l) : (unlines ls).splitOn '\n' = ls ++ [[]] := by
  induction ls with
  | nil => rfl
  | cons l ls ih =>
      obtain ⟨hl, hrest⟩ := List.forall_mem_cons.1 h
      rw [unlines_cons, List.splitOn_append_cons_self_of_not_mem hl, ih hrest, List.cons_append]

theorem lines_unlines_append (h : ∀ l ∈ ls, '\n' ∉ l) (s : List Char) :
    lines (unlines ls ++ s) = ls.map dropReturn ++ lines s := by
  induction ls with
  | nil => rfl
  | cons l ls ih =>
      obtain ⟨hl, hrest⟩ := List.forall_mem_cons.1 h
      rw [unlines_cons, List.append_assoc, List.cons_append, lines_append hl, ih hrest,
        List.map_cons, List.cons_append]

theorem lines_unlines (h : ∀ l ∈ ls, '\n' ∉ l) : lines (unlines ls) = ls.map dropReturn := by
  have happend := lines_unlines_append h []
  rwa [List.append_nil, show lines [] = [] from rfl, List.append_nil] at happend

theorem newline_not_mem_trimEnd (h : '\n' ∉ l) : '\n' ∉ trimEnd l := by
  obtain ⟨w, hl, -⟩ := Syntax.Lexer.exists_trimEnd_append l
  exact fun hm => h (hl ▸ List.mem_append_left w hm)

theorem newline_not_mem_dropReturn (h : '\n' ∉ l) : '\n' ∉ dropReturn l := by
  cases hr : before? "\r" l with
  | none => rwa [dropReturn, hr, Option.getD_none]
  | some t =>
      have hl : t ++ ['\r'] = l := List.append_eq_of_isSuffixOf?_eq_some hr
      rw [dropReturn, hr, Option.getD_some]
      exact fun hm => h (hl ▸ List.mem_append_left _ hm)

theorem newline_not_mem_lines (s : List Char) : ∀ l ∈ lines s, '\n' ∉ l := by
  induction hn : s.length using Nat.strongRecOn generalizing s with
  | _ n ih =>
      subst hn
      rcases exists_line s with hs | ⟨l, r, rfl, hl⟩
      · rw [lines_of_line hs]
        split
        · simp
        · simpa using hs
      · rw [lines_append hl, List.forall_mem_cons]
        exact ⟨newline_not_mem_dropReturn hl, ih r.length (by simp; omega) r rfl⟩

/-- Blanks at the end add lines and change none but for blanks at their ends. -/
theorem map_trimEnd_lines_prefix (hw : ∀ c ∈ w, isBlank c) (s : List Char) :
    (lines s).map trimEnd <+: (lines (s ++ w)).map trimEnd := by
  induction hn : s.length using Nat.strongRecOn generalizing s with
  | _ n ih =>
      subst hn
      rcases exists_line s with hs | ⟨l, r, rfl, hl⟩
      · rw [lines_of_line hs]
        split
        · exact List.nil_prefix
        next hne =>
          -- The first line of the longer text goes on up to the first line feed among the blanks.
          rcases exists_line w with hline | ⟨u, r, rfl, hu⟩
          · have hsw : s ++ w ≠ [] := fun he => hne (by simp [(List.append_eq_nil_iff.1 he).1])
            have hsame : (lines (s ++ w)).map trimEnd = [s].map trimEnd := by
              rw [lines_of_line (by simp [hs, hline]), if_neg (by simpa using hsw), List.map_singleton,
                List.map_singleton, Syntax.Lexer.trimEnd_append_blanks hw]
            exact hsame ▸ List.prefix_rfl
          · have hblank : ∀ c ∈ u, isBlank c := fun c hc => hw c (List.mem_append_left _ hc)
            rw [← List.append_assoc, lines_append (by simp [hs, hu]), List.map_singleton,
              List.map_cons, trimEnd_dropReturn, Syntax.Lexer.trimEnd_append_blanks hblank]
            exact ⟨_, rfl⟩
      · rw [List.append_assoc, List.cons_append, lines_append hl, lines_append hl, List.map_cons,
          List.map_cons, List.prefix_cons_inj]
        exact ih r.length (by simp; omega) r rfl

end Text

namespace Formatter

open Text

variable {text : List Char}

theorem verbatimText_eq_unlines (text : List Char) :
    verbatimText text = unlines ((lines (trimEnd text)).map trimEnd) := by
  simp only [verbatimText, unlines, List.flatMap_map]

theorem newline_not_mem_trimmed (s : List Char) : ∀ l ∈ (lines s).map trimEnd, '\n' ∉ l := by
  rw [List.forall_mem_map]
  exact fun l hl => newline_not_mem_trimEnd (newline_not_mem_lines s l hl)

theorem lines_verbatimText (text : List Char) :
    lines (verbatimText text) = (lines (trimEnd text)).map trimEnd := by
  rw [verbatimText_eq_unlines, lines_unlines (newline_not_mem_trimmed _), List.map_map]
  exact List.map_congr_left fun l _ => dropReturn_of_firm (firm_trimEnd l)

theorem firm_of_mem_splitOn (text : List Char) :
    ∀ l ∈ (verbatimText text).splitOn '\n', Firm l := by
  rw [verbatimText_eq_unlines, splitOn_unlines (newline_not_mem_trimmed _), List.forall_mem_append,
    List.forall_mem_map]
  refine ⟨fun l _ => firm_trimEnd l, ?_⟩
  rw [List.forall_mem_singleton]
  exact fun c hc => by cases hc

theorem verbatimText_eq_nil (h : settle text = []) : verbatimText text = [] := by
  rw [verbatimText, trimEnd_eq_nil.2 (settle_eq_nil.1 h)]
  rfl

theorem verbatimText_verbatimText (text : List Char) :
    verbatimText (verbatimText text) = verbatimText text := by
  by_cases h : settle text = []
  · rw [verbatimText_eq_nil h]
    rfl
  · have hblank : ∀ c ∈ ['\n'], isBlank c := List.forall_mem_singleton.2 isBlank_newline
    rw [verbatimText_eq h, verbatimText_append_blanks hblank,
      verbatimText_eq (by rwa [settle_settle]), settle_settle]

theorem verbatimText_nil_or_ended (text : List Char) : verbatimText text = [] ∨ ∃ above line,
    verbatimText text = above ++ line ++ ['\n'] ∧ (above = [] ∨ ∃ a, above = a ++ ['\n']) ∧
      '\n' ∉ line ∧ ∃ c ∈ line, isBlank c = false := by
  by_cases h : settle text = []
  · exact .inl (verbatimText_eq_nil h)
  obtain ⟨above, line, hs, ha, hl⟩ := exists_lines (settle text)
  refine .inr ⟨above, line, by rw [verbatimText_eq h, hs], ha, hl, ?_⟩
  have hlast := firm_settle text _ (List.getLast?_eq_getLast_of_ne_nil h)
  have hne : line ≠ [] := by
    rintro rfl
    rw [List.append_nil] at hs
    rcases ha with rfl | ⟨a, rfl⟩
    · exact h hs
    · simp [hs, isBlank_newline] at hlast
  refine ⟨line.getLast hne, List.getLast_mem hne, ?_⟩
  simpa [hs, List.getLast_append_of_ne_nil _ hne] using hlast

/-- Formatting a text that is formatted changes nothing. No line of a formatted text ends with a
blank, and behind the last one, which shows something, stands one line feed. The lines are those of
the text up to the last character that is no blank, without the blanks at their ends. -/
theorem format_verbatim (programs : Programs) (text : List Char) : ∃ out : List Char,
    Formatter.verbatim.format programs text = .ok out ∧
    Formatter.verbatim.format programs out = .ok out ∧
    (∀ l ∈ out.splitOn '\n', Firm l) ∧
    (out = [] ∨ ∃ above line, out = above ++ line ++ ['\n'] ∧
      (above = [] ∨ ∃ a, above = a ++ ['\n']) ∧ '\n' ∉ line ∧ ∃ c ∈ line, isBlank c = false) ∧
    (∃ kept blanks, text = kept ++ blanks ∧ Firm kept ∧ (∀ c ∈ blanks, isBlank c) ∧
      (lines out).length = (lines kept).length) ∧
    ∀ (i : Nat) (line : List Char), (lines out)[i]? = some line → Firm line ∧
      ∃ blanks, (lines text)[i]? = some (line ++ blanks) ∧ ∀ c ∈ blanks, isBlank c := by
  obtain ⟨blanks, htext, hb⟩ := Syntax.Lexer.exists_trimEnd_append text
  refine ⟨verbatimText text, rfl, congrArg Except.ok (verbatimText_verbatimText text),
    firm_of_mem_splitOn text, verbatimText_nil_or_ended text,
    ⟨trimEnd text, blanks, htext, firm_trimEnd text, hb, by simp [lines_verbatimText]⟩, ?_⟩
  intro i line hi
  have hpre := map_trimEnd_lines_prefix hb (trimEnd text)
  rw [← htext, ← lines_verbatimText] at hpre
  obtain ⟨more, hmore⟩ := hpre
  have hline : ((lines text).map trimEnd)[i]? = some line := by
    rw [← hmore, List.getElem?_append_left (List.getElem?_eq_some_iff.1 hi).1, hi]
  rw [List.getElem?_map, Option.map_eq_some_iff] at hline
  obtain ⟨l, hl, rfl⟩ := hline
  obtain ⟨w, hw, hblank⟩ := Syntax.Lexer.exists_trimEnd_append l
  exact ⟨firm_trimEnd l, w, by rw [hl, ← hw], hblank⟩

end Formatter

end GoOutline
