import Mathlib.Data.List.TakeWhile
import GoOutline.Format
import GoOutline.Proofs.Seams

/-!
Settled texts: texts without blanks at the ends of their lines and without blank lines at their end.
A text is settled from its end, so what stands behind a piece is settled as it is alone.
-/

namespace GoOutline.Text

open Syntax.Lexer (EndsLine)

variable {c : Char} {s t r l : List Char}

/-- A blank goes if nothing is left of the rest or, unless it breaks the line, if the rest starts
with a line feed. -/
def settle : List Char → List Char
  | [] => []
  | c :: s =>
    if isBlank c && (settle s == [] || (c != '\n' && (settle s).head? == some '\n')) then settle s
    else c :: settle s

/-- Only the blanks in front of line feeds go, as they do inside of a text. -/
def tidy : List Char → List Char
  | [] => []
  | c :: s =>
    if isBlank c && c != '\n' && (tidy s).head? == some '\n' then tidy s else c :: tidy s

/-- A text that ends with no blank. -/
def Firm (s : List Char) : Prop := ∀ c ∈ s.getLast?, isBlank c = false

theorem isBlank_newline : isBlank '\n' = true := by decide

@[simp] theorem settle_nil : settle [] = [] := rfl

@[simp] theorem tidy_nil : tidy [] = [] := rfl

theorem settle_cons_of_not_blank (h : isBlank c = false) (s : List Char) :
    settle (c :: s) = c :: settle s := by
  rw [settle, if_neg (by simp [h])]

theorem settle_newline (s : List Char) :
    settle ('\n' :: s) = if settle s = [] then [] else '\n' :: settle s := by
  by_cases h : settle s = []
  · rw [settle, if_pos (by simp [isBlank_newline, h]), if_pos h, h]
  · rw [settle, if_neg (by simp [h]), if_neg h]

theorem settle_cons_of_ne (h : settle (c :: s) ≠ settle s) : settle (c :: s) = c :: settle s := by
  rw [settle] at h ⊢
  split
  next hd => exact absurd (if_pos hd) h
  next => rfl

/-- A line feed goes only with all that is behind it. -/
theorem ne_newline_of_settle (h : settle (c :: s) = settle s) (hs : settle s ≠ []) : c ≠ '\n' := by
  rintro rfl
  rw [settle_newline, if_neg hs] at h
  exact absurd h (List.cons_ne_self _ _)

theorem tidy_newline (s : List Char) : tidy ('\n' :: s) = '\n' :: tidy s := by
  rw [tidy, if_neg (by simp)]

/-- No text starts with anything but a line feed once it is settled, if it did not before. -/
theorem head?_of_settle (h : (settle s).head? = some c) (hc : c ≠ '\n') : s.head? = some c := by
  cases s with
  | nil => cases h
  | cons a s =>
      rw [settle] at h
      split at h
      next hd =>
        simp only [Bool.and_eq_true, Bool.or_eq_true, beq_iff_eq] at hd
        rcases hd.2 with hs | hs
        · rw [hs] at h
          cases h
        · rw [hs.2] at h
          exact absurd (Option.some.inj h).symm hc
      next => exact h

theorem head?_of_tidy (h : (tidy s).head? = some c) (hc : c ≠ '\n') : s.head? = some c := by
  cases s with
  | nil => cases h
  | cons a s =>
      rw [tidy] at h
      split at h
      next hd =>
        simp only [Bool.and_eq_true, beq_iff_eq] at hd
        rw [hd.2] at h
        exact absurd (Option.some.inj h).symm hc
      next => exact h

theorem tidy_eq_nil : tidy s = [] ↔ s = [] := by
  induction s with
  | nil => simp
  | cons c s ih =>
      rw [tidy]
      split
      next hd =>
        have hne : tidy s ≠ [] := by
          rintro hn
          simp [hn] at hd
        simp [hne]
      next => simp

theorem tidy_eq_self (h : '\n' ∉ s) : tidy s = s := by
  induction s with
  | nil => rfl
  | cons c s ih =>
      have hs := ih (fun hm => h (List.mem_cons_of_mem c hm))
      have hn : s.head? ≠ some '\n' := fun hn => h (List.mem_cons_of_mem c (List.mem_of_head? hn))
      rw [tidy, hs, if_neg (by simp [hn])]

theorem tidy_cons (h : isBlank c = false ∨ c = '\n' ∨ (tidy s).head? ≠ some '\n') :
    tidy (c :: s) = c :: tidy s := by
  rw [tidy, if_neg]
  rcases h with h | h | h <;> simp [h]

/-- A text is tidied in parts, if the second part does not start with a line feed then. -/
theorem tidy_append (hr : (tidy r).head? ≠ some '\n') (s : List Char) :
    tidy (s ++ r) = tidy s ++ tidy r := by
  induction s with
  | nil => rfl
  | cons c s ih =>
      have hh : (tidy s ++ tidy r).head? = some '\n' ↔ (tidy s).head? = some '\n' := by
        cases tidy s with
        | nil => simp [hr]
        | cons x t => simp
      rw [List.cons_append, tidy, tidy, ih]
      simp only [beq_iff_eq, Bool.and_eq_true, hh]
      split <;> rfl

/-- Lines do not run together. -/
theorem count_tidy (s : List Char) : (tidy s).count '\n' = s.count '\n' := by
  induction s with
  | nil => rfl
  | cons c s ih =>
      rw [tidy]
      split
      next h =>
        have hc : c ≠ '\n' := by
          simp only [Bool.and_eq_true, bne_iff_ne] at h
          exact h.1.2
        rw [ih, List.count_cons_of_ne hc]
      next => rw [List.count_cons, List.count_cons, ih]

theorem mem_tidy_newline : '\n' ∈ tidy s ↔ '\n' ∈ s := by
  rw [← List.count_pos_iff, ← List.count_pos_iff, count_tidy]

theorem getLast?_tidy (s : List Char) : (tidy s).getLast? = s.getLast? := by
  induction s with
  | nil => rfl
  | cons c s ih =>
      rw [tidy]
      split
      next h =>
        cases s with
        | nil => simp at h
        | cons a t => rw [ih, List.getLast?_cons_cons]
      next => rw [List.getLast?_cons, List.getLast?_cons, ih]

/-- What stands behind is settled as it is alone. -/
theorem exists_settle_append (a s : List Char) : ∃ w, settle (a ++ s) = w ++ settle s := by
  induction a with
  | nil => exact ⟨[], rfl⟩
  | cons c a ih =>
      obtain ⟨w, hw⟩ := ih
      rw [List.cons_append, settle]
      split
      · exact ⟨w, hw⟩
      · exact ⟨c :: w, by rw [hw]; rfl⟩

theorem settle_of_blank (h : ∀ c ∈ s, isBlank c) : settle s = [] := by
  induction s with
  | nil => rfl
  | cons c s ih =>
      have hs := ih fun x hx => h x (List.mem_cons_of_mem c hx)
      rw [settle, if_pos (by simp [h c List.mem_cons_self, hs]), hs]

theorem settle_eq_nil : settle s = [] ↔ ∀ c ∈ s, isBlank c := by
  refine ⟨fun h => ?_, settle_of_blank⟩
  induction s with
  | nil => simp
  | cons c s ih =>
      rw [settle] at h
      split at h
      next hd =>
        simp only [Bool.and_eq_true] at hd
        simpa [hd.1] using ih h
      next => cases h

theorem firm_of_cons (h : Firm (c :: s)) : Firm s := by
  intro x hx
  refine h x ?_
  cases s with
  | nil => cases hx
  | cons a s => simpa [List.getLast?_cons] using hx

/-- Behind a text that ends with no blank, the rest is settled as it is alone. -/
theorem settle_append (hs : Firm s) (r : List Char) : settle (s ++ r) = tidy s ++ settle r := by
  induction s with
  | nil => rfl
  | cons c s ih =>
      rw [List.cons_append, settle, ih (firm_of_cons hs), tidy]
      cases hn : tidy s with
      | nil =>
          obtain rfl := tidy_eq_nil.1 hn
          have hc : isBlank c = false := hs c rfl
          simp [hc]
      | cons a t =>
          by_cases hd : isBlank c && c != '\n' && a == '\n'
          · have hd' := hd
            simp only [Bool.and_eq_true] at hd'
            rw [if_pos (by simpa [hd'.1.1, hd'.2] using hd'.1.2), if_pos (by simpa using hd)]
          · rw [if_neg (by simpa [Bool.and_assoc] using hd), if_neg (by simpa using hd)]
            rfl

theorem settle_of_firm (hs : Firm s) : settle s = tidy s := by
  have h := settle_append hs []
  simpa using h

/-- A line feed, or the end of the text, where a line has ended. -/
theorem endsLine_settle (h : EndsLine s) : EndsLine (settle s) := by
  cases s with
  | nil => exact h
  | cons c s =>
      obtain rfl := h c rfl
      rw [settle_newline]
      split
      · exact fun _ hx => by cases hx
      · exact fun x hx => by cases hx; rfl

/-- The rest of a line is trimmed. -/
theorem settle_line (hs : '\n' ∉ s) (hr : EndsLine r) :
    settle (s ++ r) = trimEnd s ++ settle r := by
  induction s with
  | nil => rfl
  | cons c s ih =>
      have hc : c ≠ '\n' := fun he => hs (he ▸ List.mem_cons_self)
      have hmem : '\n' ∉ s := fun hm => hs (List.mem_cons_of_mem c hm)
      rw [List.cons_append, settle, ih hmem, trimEnd]
      cases ht : trimEnd s with
      | nil =>
          rw [List.nil_append]
          have hd : settle r = [] ∨ (settle r).head? = some '\n' := by
            cases hx : settle r with
            | nil => exact .inl rfl
            | cons x u => exact .inr (congrArg some (endsLine_settle hr x (by rw [hx]; rfl)))
          by_cases hb : isBlank c
          · rw [if_pos (by simpa [hb, hc] using hd), if_pos hb, List.nil_append]
          · rw [if_neg (by simp [hb]), if_neg hb]
            rfl
      | cons a t =>
          obtain ⟨w, hw, _⟩ := Syntax.Lexer.exists_trimEnd_append s
          have ha : a ≠ '\n' := by
            rintro rfl
            refine hmem ?_
            rw [hw, ht]
            simp
          rw [if_neg (by simp [ha])]
          rfl

/-- Inside of a text, lines are trimmed. -/
theorem tidy_line (hs : '\n' ∉ s) (r : List Char) :
    tidy (s ++ '\n' :: r) = trimEnd s ++ '\n' :: tidy r := by
  induction s with
  | nil => exact tidy_newline r
  | cons c s ih =>
      have hc : c ≠ '\n' := fun he => hs (he ▸ List.mem_cons_self)
      have hmem : '\n' ∉ s := fun hm => hs (List.mem_cons_of_mem c hm)
      rw [List.cons_append, tidy, ih hmem, trimEnd]
      cases ht : trimEnd s with
      | nil => by_cases hb : isBlank c <;> simp [hb, hc]
      | cons a t =>
          have ha : a ≠ '\n' := by
            obtain ⟨w, hw, _⟩ := Syntax.Lexer.exists_trimEnd_append s
            rintro rfl
            exact hmem (by rw [hw, ht]; simp)
          rw [if_neg (by simp [ha])]
          rfl

theorem settle_of_line (hs : '\n' ∉ s) : settle s = trimEnd s := by
  have h := settle_line hs (r := []) fun _ hx => by cases hx
  simpa using h

theorem trimEnd_eq_nil : trimEnd s = [] ↔ ∀ c ∈ s, isBlank c := by
  refine ⟨fun h => ?_, fun h => ?_⟩
  · obtain ⟨w, hw, hb⟩ := Syntax.Lexer.exists_trimEnd_append s
    rw [h, List.nil_append] at hw
    exact hw ▸ hb
  · have ht := Syntax.Lexer.trimEnd_append_blanks h []
    exact ht

theorem trim_eq_nil : trim s = [] ↔ trimEnd s = [] := by
  rw [trim, trimEnd_eq_nil, trimEnd_eq_nil]
  constructor
  · intro h c hc
    rw [← List.takeWhile_append_dropWhile (p := isBlank) (l := s)] at hc
    rcases List.mem_append.1 hc with hc | hc
    · exact List.mem_takeWhile_imp hc
    · exact h c hc
  · exact fun h c hc => h c ((List.dropWhile_sublist isBlank).subset hc)

/-- A text is one line, or a line with more lines behind it. -/
theorem exists_line (s : List Char) : '\n' ∉ s ∨ ∃ l r, s = l ++ '\n' :: r ∧ '\n' ∉ l := by
  induction s with
  | nil => simp
  | cons c s ih =>
      by_cases hc : c = '\n'
      · exact .inr ⟨[], s, by rw [hc]; rfl, by simp⟩
      · rcases ih with h | ⟨l, r, rfl, hl⟩
        · exact .inl (by simp [h, Ne.symm hc])
        · exact .inr ⟨c :: l, r, rfl, by simp [hl, Ne.symm hc]⟩

/-- A text is its last line with lines above it. -/
theorem exists_lines (s : List Char) : ∃ above left, s = above ++ left ∧
    (above = [] ∨ ∃ a, above = a ++ ['\n']) ∧ '\n' ∉ left := by
  induction s using List.reverseRecOn with
  | nil => exact ⟨[], [], rfl, .inl rfl, by simp⟩
  | append_singleton s c ih =>
      obtain ⟨above, left, rfl, ha, hl⟩ := ih
      by_cases hc : c = '\n'
      · subst hc
        exact ⟨above ++ left ++ ['\n'], [], by simp, .inr ⟨above ++ left, rfl⟩, by simp⟩
      · exact ⟨above, left ++ [c], by simp, ha, by simp [hl, Ne.symm hc]⟩

theorem trimEnd_dropReturn (l : List Char) : trimEnd (dropReturn l) = trimEnd l := by
  cases h : before? "\r" l with
  | none => rw [dropReturn, h, Option.getD_none]
  | some t =>
      have hl : t ++ ['\r'] = l := List.append_eq_of_isSuffixOf?_eq_some h
      rw [dropReturn, h, Option.getD_some, ← hl]
      exact (Syntax.Lexer.trimEnd_append_blanks (List.forall_mem_singleton.2 rfl) t).symm

theorem lines_of_line (h : '\n' ∉ l) : lines l = if l.isEmpty then [] else [l] := by
  rw [lines, List.splitOn_eq_singleton h, closeLines]

theorem lines_append (h : '\n' ∉ l) (r : List Char) :
    lines (l ++ '\n' :: r) = dropReturn l :: lines r := by
  rw [lines, List.splitOn_append_cons_self_of_not_mem h, lines]
  obtain ⟨a, as, ha⟩ := List.exists_cons_of_ne_nil (List.splitOn_ne_nil '\n' r)
  rw [ha, closeLines]
  simp

theorem trimEnd_trimEnd (s : List Char) : trimEnd (trimEnd s) = trimEnd s := by
  obtain ⟨w, hs, hw⟩ := Syntax.Lexer.exists_trimEnd_append s
  have h := Syntax.Lexer.trimEnd_append_blanks hw (trimEnd s)
  rw [← hs] at h
  exact h.symm

theorem verbatimText_append_blanks {w : List Char} (hw : ∀ c ∈ w, isBlank c) (s : List Char) :
    Formatter.verbatimText (s ++ w) = Formatter.verbatimText s := by
  rw [Formatter.verbatimText, Syntax.Lexer.trimEnd_append_blanks hw, Formatter.verbatimText]

theorem verbatimText_of_line (hs : '\n' ∉ s) (h : trimEnd s ≠ []) :
    Formatter.verbatimText s = trimEnd s ++ ['\n'] := by
  obtain ⟨w, hw, _⟩ := Syntax.Lexer.exists_trimEnd_append s
  have ht : '\n' ∉ trimEnd s := fun hm => hs (hw ▸ List.mem_append_left w hm)
  rw [Formatter.verbatimText, lines_of_line ht, if_neg (by simpa using h), List.flatMap_singleton,
    trimEnd_trimEnd]

theorem verbatimText_append (hl : '\n' ∉ l) (hr : trimEnd r ≠ []) :
    Formatter.verbatimText (l ++ '\n' :: r) =
      trimEnd l ++ '\n' :: Formatter.verbatimText r := by
  have ht : trimEnd ('\n' :: r) = '\n' :: trimEnd r := by
    rw [trimEnd]
    cases h : trimEnd r with
    | nil => exact absurd h hr
    | cons a u => rfl
  rw [Formatter.verbatimText, Syntax.Lexer.trimEnd_append_of_ne (by simp [ht]), ht, lines_append hl,
    List.flatMap_cons, trimEnd_dropReturn, Formatter.verbatimText]
  simp

/-- Formatting settles a text and ends its last line. -/
theorem verbatimText_eq (h : settle s ≠ []) :
    Formatter.verbatimText s = settle s ++ ['\n'] := by
  induction hn : s.length using Nat.strongRecOn generalizing s with
  | _ n ih =>
      subst hn
      rcases exists_line s with hs | ⟨l, r, rfl, hl⟩
      · rw [settle_of_line hs] at h ⊢
        exact verbatimText_of_line hs h
      have hline : EndsLine ('\n' :: r) := fun x hx => by cases hx; rfl
      rw [settle_line hl hline, settle_newline] at h ⊢
      by_cases hr : settle r = []
      · have hb : ∀ c ∈ '\n' :: r, isBlank c := by simpa [isBlank_newline] using settle_eq_nil.1 hr
        rw [if_pos hr, List.append_nil] at h ⊢
        rw [verbatimText_append_blanks hb, verbatimText_of_line hl h]
      · have hne : trimEnd r ≠ [] := fun he => hr (settle_eq_nil.2 (trimEnd_eq_nil.1 he))
        rw [if_neg hr, verbatimText_append hl hne, ih r.length (by simp; omega) hr rfl]
        simp

end GoOutline.Text
