import Mathlib.Data.List.TakeWhile
import GoOutline.Docs
import GoOutline.Proofs.Motion
import GoOutline.Proofs.Places
import GoOutline.Proofs.Settled

/-!
The tokens of a settled text. Settling a text drops no more than blanks at the ends of lines, so the
text is cut into the same pieces, of which only raw strings and comments read differently.
-/

namespace GoOutline.Syntax.Lexer

open Text

variable {c : Char} {b l s t r : List Char} {n : Nat} {k : PieceKind}

/-- What stands in front of the first dropped blank stands there in front of a line feed. -/
theorem exists_common (r : List Char) :
    ∃ u y y', r = u ++ y ∧ settle r ++ ['\n'] = u ++ '\n' :: y' ∧ Edge y := by
  induction r with
  | nil => exact ⟨[], [], [], rfl, rfl, edge_nil⟩
  | cons c r ih =>
      rw [settle]
      split
      next hd =>
        simp only [Bool.and_eq_true, Bool.or_eq_true, beq_iff_eq] at hd
        refine ⟨[], c :: r, ?_⟩
        have hedge : Edge (c :: r) := edge_cons (isEdge_of_isBlank hd.1).1 r
        cases hs : settle r with
        | nil => exact ⟨[], rfl, rfl, hedge⟩
        | cons x t =>
            have hx : x = '\n' := by simpa [hs] using hd.2.imp_right And.right
            exact ⟨t ++ ['\n'], rfl, by rw [hx]; rfl, hedge⟩
      next =>
        obtain ⟨u, y, y', rfl, hs, hy⟩ := ih
        exact ⟨c :: u, y, y', rfl, by rw [List.cons_append, hs]; rfl, hy⟩

theorem edge_newline (s : List Char) : Edge ('\n' :: s) :=
  edge_cons (isEdge_of_isBlank isBlank_newline).1 s

section Comments

theorem blockComment_eq_none : blockComment s = none ↔ ¬ ['*', '/'] <:+: s := by
  induction s with
  | nil => simp [blockComment]
  | cons c s ih =>
      by_cases hp : ['*', '/'] <+: c :: s
      · obtain ⟨t, ht⟩ := hp
        simp only [← ht, List.cons_append, List.nil_append, blockComment, reduceCtorEq, false_iff,
          not_not]
        exact (List.prefix_append ['*', '/'] t).isInfix
      · rw [blockComment_cons hp, Option.map_eq_none_iff, ih, List.infix_cons_iff]
        simp [hp]

/-- Settling brings no two characters together but line feeds with what stands in front of them. -/
theorem infix_of_settle {x y : Char} (hy : y ≠ '\n') (h : [x, y] <:+: settle s ++ ['\n']) :
    [x, y] <:+: s := by
  induction s with
  | nil =>
      have hle := h.length_le
      simp at hle
  | cons c s ih =>
      rw [settle] at h
      split at h
      · exact (ih h).trans (List.suffix_cons c s).isInfix
      · rcases List.infix_cons_iff.1 h with hp | hi
        · obtain ⟨rfl, hfront⟩ := List.cons_prefix_cons.1 hp
          have hhead : (settle s).head? = some y := by
            obtain ⟨t, ht⟩ : [y] <+: settle s ++ ['\n'] := hfront
            have hh := congrArg List.head? ht
            rw [List.head?_append] at hh
            cases hs : (settle s).head? with
            | none => exact absurd (by simpa [hs] using hh) hy
            | some z => simpa [hs] using hh.symm
          obtain ⟨t, ht⟩ := List.head?_eq_some_iff.1 (head?_of_settle hhead hy)
          rw [ht]
          exact (List.prefix_append [x, y] t).isInfix
        · exact (ih hi).trans (List.suffix_cons c s).isInfix

theorem blockComment_settle_eq_none (h : blockComment s = none) :
    blockComment (settle s ++ ['\n']) = none :=
  blockComment_eq_none.2 fun hi => blockComment_eq_none.1 h (infix_of_settle (by decide) hi)

theorem blockComment_tidy (h : blockComment (b ++ r) = some b.length) (r' : List Char) :
    blockComment (tidy b ++ r') = some (tidy b).length := by
  induction b with
  | nil => exact absurd (pos_of_blockComment h) (by decide)
  | cons c b ih =>
      rw [List.cons_append] at h
      by_cases hp : ['*', '/'] <+: c :: (b ++ r)
      · obtain ⟨t, ht⟩ := hp
        rw [← ht] at h
        have hlen : b.length = 1 := by simpa [blockComment] using h.symm
        obtain ⟨x, rfl⟩ := List.length_eq_one_iff.1 hlen
        simp only [List.cons_append, List.nil_append, List.cons.injEq] at ht
        obtain ⟨rfl, rfl, _⟩ := ht
        rfl
      · rw [blockComment_cons hp] at h
        obtain ⟨m, hm, he⟩ := Option.map_eq_some_iff.1 h
        have ih := ih (by rw [hm]; simpa using he)
        rw [tidy]
        split
        · exact ih
        · have hne : ¬ ['*', '/'] <+: c :: (tidy b ++ r') := by
            intro hpre
            refine hp ?_
            obtain ⟨rfl, hfront⟩ := List.cons_prefix_cons.1 hpre
            have hhead : (tidy b).head? = some '/' := by
              cases ht : tidy b with
              | nil =>
                  rw [ht] at ih
                  exact absurd (pos_of_blockComment ih) (by decide)
              | cons x t =>
                  rw [ht] at hfront
                  rw [(List.cons_prefix_cons.1 hfront).1]
                  rfl
            obtain ⟨t, ht⟩ := List.head?_eq_some_iff.1 (head?_of_tidy hhead (by decide))
            rw [ht]
            exact List.prefix_append ['*', '/'] (t ++ r)
          rw [List.cons_append, blockComment_cons hne, ih]
          rfl

end Comments

section Literals

theorem raw_tidy (h : raw (b ++ r) = some b.length) (r' : List Char) :
    raw (tidy b ++ r') = some (tidy b).length := by
  induction b with
  | nil =>
      cases r with
      | nil => cases h
      | cons x r =>
          simp only [List.nil_append, raw] at h
          split at h <;> simp at h
  | cons c b ih =>
      simp only [List.cons_append, raw] at h
      split at h
      next hc =>
        have hb : b = [] := by simpa using h.symm
        have hblank : isBlank c = false := by rw [hc]; decide
        rw [hb, tidy_cons (.inl hblank)]
        simp [raw, hc]
      next hc =>
        obtain ⟨m, hm, he⟩ := Option.map_eq_some_iff.1 h
        have ih := ih (by rw [hm]; simpa using he)
        rw [tidy]
        split
        · exact ih
        · simp [raw, hc, ih]

theorem piece_backquote (s : List Char) : piece (Char.ofNat 0x60 :: s) =
    match raw s with
    | some n => (.token .string, n + 1)
    | none => (.token .stray, 1) := by
  have hspace : isSpace (Char.ofNat 0x60) = false := by decide
  have hstart : isIdentifierStart (Char.ofNat 0x60) = false := by decide +kernel
  have hcomment : comment (Char.ofNat 0x60 :: s) = none := rfl
  have hsymbol := symbolLength_quote (c := Char.ofNat 0x60) (by decide) s
  simp only [piece, List.head?_cons, Option.any_some, hspace, hcomment, hstart, hsymbol, literal]
  cases raw s <;> rfl

theorem head?_of_interpreted (h : interpreted s = some n) : s.head? ≠ some '\n' := by
  cases s with
  | nil => simp
  | cons c s =>
      rintro hc
      obtain rfl : c = '\n' := by simpa using hc
      cases h

/-- No blank stands in front of a line feed in an interpreted string, where a line feed stands only
behind a backslash. -/
theorem tidy_interpreted (h : interpreted s = some n) : tidy (s.take n) = s.take n := by
  have hcons (c : Char) {s : List Char} {m : Nat} (hm : interpreted s = some m)
      (ht : tidy (s.take m) = s.take m) : tidy (c :: s.take m) = c :: s.take m := by
    have hh : (s.take m).head? ≠ some '\n' := by
      intro hh
      refine head?_of_interpreted hm ?_
      cases m <;> cases s <;> simp_all
    rw [tidy_cons (.inr (.inr (by rwa [ht]))), ht]
  fun_induction interpreted s generalizing n with
  | case1 => cases h
  | case2 s => cases h; rfl
  | case3 => cases h
  | case4 c s he ih =>
      obtain ⟨m, hm, rfl⟩ := Option.map_eq_some_iff.1 h
      rw [List.take_succ_cons, List.take_succ_cons, tidy_cons (.inl (by decide)),
        hcons c hm (ih hm)]
  | case5 => cases h
  | case6 => cases h
  | case7 c s _ _ _ _ ih =>
      obtain ⟨m, hm, rfl⟩ := Option.map_eq_some_iff.1 h
      rw [List.take_succ_cons, hcons c hm (ih hm)]

theorem not_mem_runeEscape (c : Char) (s : List Char) : '\n' ∉ (c :: s).take (runeEscape c s) := by
  have hdigits {p : Char → Bool} (hp : p '\n' = false) {u : List Char} (hu : u.all p) : '\n' ∉ u := by
    intro hm
    rw [List.all_eq_true.1 hu _ hm] at hp
    cases hp
  unfold runeEscape
  split
  next hx =>
    split
    next he =>
      have hw : (if c = 'x' then 2 else if c = 'u' then 4 else 8) = escapeWidth c := by
        rcases hx with rfl | rfl | rfl <;> rfl
      have hc : '\n' ≠ c := by rcases hx with rfl | rfl | rfl <;> decide
      rw [hw, List.take_succ_cons, List.mem_cons, not_or]
      exact ⟨hc, hdigits (by decide) (escapeComplete_iff.1 he).2⟩
    next => simp
  split
  next ho =>
    have hc : '\n' ≠ c := by
      rintro rfl
      exact absurd ho (by decide)
    split
    next hd =>
      rw [Bool.and_eq_true] at hd
      rw [List.take_succ_cons, List.mem_cons, not_or]
      exact ⟨hc, hdigits (by decide) hd.2⟩
    next => simp
  split
  next hc =>
    have hc : '\n' ≠ c := by
      rintro rfl
      exact absurd hc (by decide)
    simpa using hc
  next => simp

theorem tidy_rune (h : rune s = some n) : tidy (s.take n) = s.take n := by
  rcases rune_eq_some.1 h with ⟨c, t, rfl, _, hq, rfl⟩ | ⟨c, t, rfl, _, _, rfl⟩
  · refine tidy_eq_self fun hm => ?_
    rw [List.head?_drop] at hq
    rw [List.take_succ_cons, List.mem_cons, List.take_add_one, hq, List.mem_append] at hm
    rcases hm with hm | hm | hm
    · exact absurd hm (by decide)
    · exact not_mem_runeEscape c t hm
    · exact absurd hm (by decide)
  · have hquote : isBlank '\'' = false := by decide
    have ht : tidy ['\''] = ['\''] := tidy_cons (.inl hquote)
    rw [List.take_succ_cons, List.take_succ_cons, List.take_zero,
      tidy_cons (.inr (.inr (by rw [ht]; decide))), ht]

end Literals

/-- Of all tokens only raw strings have blanks in front of their line feeds. -/
theorem tidy_of_piece {kind : TokenKind} (h : piece (t ++ r) = (.token kind, t.length))
    (hs : kind ≠ .stray) (hq : t.head? ≠ some (Char.ofNat 0x60)) : tidy t = t := by
  -- what the scanners do not cross
  have hedge (p : List Char → Nat) (hp : ∀ w z, p (w ++ '\n' :: z) ≤ w.length)
      (ht : p (t ++ r) = t.length) : tidy t = t := by
    refine tidy_eq_self fun hm => ?_
    obtain ⟨w, z, rfl⟩ := List.append_of_mem hm
    have hle := hp w (z ++ r)
    rw [List.append_assoc, List.cons_append] at ht
    rw [ht, List.length_append, List.length_cons] at hle
    omega
  have htake : (t ++ r).take t.length = t := List.take_left
  unfold piece at h
  split at h
  · cases h
  split at h
  · cases h
  split at h
  · simp only [Prod.mk.injEq] at h
    refine hedge (fun s => (s.takeWhile isIdentifierPart).length) (fun w z => ?_) h.2
    rw [word_append (edge_newline z)]
    exact (List.takeWhile_sublist _).length_le
  split at h
  next kind n hl =>
    cases h
    cases t with
    | nil => rfl
    | cons c t =>
        simp only [List.cons_append, literal] at hl
        simp only [List.cons_append, List.length_cons, List.take_succ_cons, List.cons.injEq,
          true_and] at htake
        split at hl
        next hc =>
          obtain ⟨m, hm, he⟩ := Option.map_eq_some_iff.1 hl
          have hlen : m = t.length := by simpa using (Prod.mk.inj he).2
          have ht := tidy_interpreted hm
          rw [hlen, htake] at ht
          rw [tidy_cons (.inl (by rw [hc]; decide)), ht]
        split at hl
        next hc => exact absurd (by rw [hc]; rfl) hq
        split at hl
        next hc =>
          obtain ⟨m, hm, he⟩ := Option.map_eq_some_iff.1 hl
          have hlen : m = t.length := by simpa using (Prod.mk.inj he).2
          have ht := tidy_rune hm
          rw [hlen, htake] at ht
          rw [tidy_cons (.inl (by rw [hc]; decide)), ht]
        split at hl
        · simp only [Option.some.injEq, Prod.mk.injEq] at hl
          refine hedge number (fun w z => ?_) hl.2
          rw [number_append (edge_newline z)]
          exact number_le w
        · cases hl
  split at h
  next n hsym =>
    cases h
    obtain ⟨symbol, hf, hlen⟩ := Option.map_eq_some_iff.1 hsym
    have hp : symbol.toList <+: t ++ r :=
      List.isPrefixOf_iff_prefix.1 (by simpa using List.find?_some hf)
    obtain rfl : symbol.toList = t := by
      rw [List.prefix_iff_eq_take.1 hp, String.length_toList, hlen, htake]
    refine tidy_eq_self fun hm => ?_
    have hb := symbols_not_blank symbol (List.mem_of_find?_eq_some hf) _ hm
    rw [isBlank_newline] at hb
    cases hb
  · exact absurd (by simpa using (Prod.mk.inj h).1.symm) hs

theorem firm_of_piece (h : piece (t ++ r) = (k, t.length)) (hspace : k ≠ .space)
    (hstray : k ≠ .token .stray) (hline : ¬ ['/', '/'] <+: t ++ r) : Firm t := by
  intro c hc
  obtain ⟨w, rfl⟩ := List.getLast?_eq_some_iff.1 hc
  exact not_isBlank_of_piece h ⟨w, r, by simp, by simp⟩ hspace hstray hline

/-- A comment goes on to the end of its line or to the first star and slash. -/
theorem comment_cases (h : piece (t ++ r) = (.comment, t.length)) :
    (∃ l, t = '/' :: '/' :: l ∧ '\n' ∉ l ∧ EndsLine r) ∨
      ∃ b, t = '/' :: '*' :: b ∧ blockComment (b ++ r) = some b.length := by
  have hc : comment (t ++ r) = some t.length := by
    unfold piece at h
    split at h
    · cases h
    split at h
    next n hn => rw [hn, (Prod.mk.inj h).2]
    split at h
    · cases h
    split at h
    · cases h
    split at h <;> cases h
  have hlen := (comment_le hc).1
  rcases t with _ | ⟨x, _ | ⟨y, u⟩⟩
  · simp at hlen
  · simp at hlen
  · simp only [List.cons_append] at hc h
    unfold comment at hc
    split at hc
    next he =>
      simp only [List.cons.injEq] at he
      obtain ⟨rfl, rfl, rfl⟩ := he
      obtain ⟨_, hu⟩ := lineComment_of_piece (y := r) h
      refine .inl ⟨u, rfl, hu, ?_⟩
      have htake : ((u ++ r).takeWhile (· ≠ '\n')).length = u.length := by simpa using hc
      have hline : ∀ x ∈ u, decide (x ≠ '\n') := fun x hx =>
        decide_eq_true fun he : x = '\n' => hu (he ▸ hx)
      rw [List.takeWhile_append_of_pos hline, List.length_append] at htake
      intro x hx
      obtain ⟨r, rfl⟩ := List.head?_eq_some_iff.1 hx
      by_contra hne
      simp [hne] at htake
    next he =>
      simp only [List.cons.injEq] at he
      obtain ⟨rfl, rfl, rfl⟩ := he
      exact .inr ⟨u, rfl, by simpa using hc⟩
    · cases hc

theorem exists_of_blockComment (h : blockComment (b ++ r) = some b.length) :
    ∃ x, b = x ++ ['*', '/'] := by
  induction b with
  | nil => exact absurd (pos_of_blockComment h) (by decide)
  | cons c b ih =>
      rw [List.cons_append] at h
      by_cases hp : ['*', '/'] <+: c :: (b ++ r)
      · obtain ⟨t, ht⟩ := hp
        rw [← ht] at h
        have hlen : b.length = 1 := by simpa [blockComment] using h.symm
        obtain ⟨x, rfl⟩ := List.length_eq_one_iff.1 hlen
        simp only [List.cons_append, List.nil_append, List.cons.injEq] at ht
        exact ⟨[], by simp [← ht.1, ← ht.2.1]⟩
      · rw [blockComment_cons hp] at h
        obtain ⟨m, hm, he⟩ := Option.map_eq_some_iff.1 h
        obtain ⟨x, rfl⟩ := ih (by rw [hm]; simpa using he)
        exact ⟨c :: x, rfl⟩

end GoOutline.Syntax.Lexer

namespace GoOutline.Docs

open Text Syntax.Lexer

variable {l : List Char}

theorem trim_append_blanks {w : List Char} (hw : ∀ c ∈ w, isBlank c) (s : List Char) :
    trim (s ++ w) = trim s := by
  induction s with
  | nil =>
      have hs : trimStart w = [] := List.dropWhile_eq_nil_iff.2 hw
      rw [List.nil_append, trim, hs]
      rfl
  | cons c s ih =>
      rw [trim, trim, trimStart, trimStart, List.cons_append, List.dropWhile_cons,
        List.dropWhile_cons]
      split
      · exact ih
      · exact trimEnd_append_blanks hw (c :: s)

theorem trim_trimEnd (s : List Char) : trim (trimEnd s) = trim s := by
  obtain ⟨w, hs, hw⟩ := exists_trimEnd_append s
  have h := trim_append_blanks hw (trimEnd s)
  rw [← hs] at h
  exact h.symm

theorem cleanLine_of_trim {l l' : List Char} (h : trim l = trim l') : cleanLine l = cleanLine l' := by
  rw [cleanLine, h, cleanLine]

theorem map_cleanLine_tidy (s : List Char) : (lines (tidy s)).map cleanLine = (lines s).map cleanLine := by
  induction hn : s.length using Nat.strongRecOn generalizing s with
  | _ n ih =>
      subst hn
      rcases exists_line s with hs | ⟨l, r, rfl, hl⟩
      · rw [tidy_eq_self hs]
      · have ht : '\n' ∉ trimEnd l := by
          obtain ⟨w, hw, _⟩ := exists_trimEnd_append l
          exact fun hm => hl (hw ▸ List.mem_append_left w hm)
        have htrim : trim (dropReturn (trimEnd l)) = trim (dropReturn l) := by
          rw [← trim_trimEnd, trimEnd_dropReturn, trimEnd_trimEnd, ← trimEnd_dropReturn, trim_trimEnd]
        rw [tidy_line hl, lines_append ht, lines_append hl, List.map_cons, List.map_cons,
          cleanLine_of_trim htrim, ih r.length (by simp; omega) r rfl]

theorem clean_lineComment (l : List Char) : clean ('/' :: '/' :: l) = [trim l] := rfl

theorem clean_blockComment (s : List Char) : clean ('/' :: '*' :: (s ++ ['*', '/'])) =
    dropEmptyEnd (((lines s).map cleanLine).dropWhile List.isEmpty) := by
  have hb : before? "*/" (s ++ ['*', '/']) = some s :=
    List.isSuffixOf?_eq_some_iff_append_eq.2 rfl
  show dropEmptyEnd (((lines ((before? "*/" (s ++ ['*', '/'])).getD _)).map cleanLine).dropWhile
    List.isEmpty) = _
  rw [hb, Option.getD_some]

end GoOutline.Docs

namespace GoOutline.Syntax.Lexer

open Text

variable {b l s t r : List Char} {k : PieceKind}

/-- A piece of a text that is a piece of the text settled as well, once it is settled itself. -/
structure Settles (k : PieceKind) (t r : List Char) : Prop where
  ne_nil : settle t ≠ []
  append : settle (t ++ r) = settle t ++ settle r
  piece : piece (settle t ++ (settle r ++ ['\n'])) = (k, (settle t).length)
  breaks : (settle t).count '\n' = t.count '\n'

theorem endsLine_append_newline (h : EndsLine s) : EndsLine (s ++ ['\n']) := by
  cases s with
  | nil => exact fun x hx => by simpa using hx.symm
  | cons c s => exact h

theorem settles_lineComment (hl : '\n' ∉ l) (hr : EndsLine r) :
    Settles .comment ('/' :: '/' :: l) r := by
  have hslash : isBlank '/' = false := by decide
  have ht : '\n' ∉ '/' :: '/' :: l := by simp [hl]
  have htrim : settle ('/' :: '/' :: l) = '/' :: '/' :: trimEnd l := by
    rw [settle_of_line ht, trimEnd_cons hslash, trimEnd_cons hslash]
  have hl' : '\n' ∉ trimEnd l := by
    obtain ⟨w, hw, _⟩ := exists_trimEnd_append l
    exact fun hm => hl (hw ▸ List.mem_append_left w hm)
  refine ⟨by simp [htrim], ?_, ?_, ?_⟩
  · rw [settle_line ht hr, settle_of_line ht]
  · rw [htrim]
    exact piece_lineComment hl' (endsLine_append_newline (endsLine_settle hr))
  · rw [htrim, List.count_eq_zero.2 ht, List.count_eq_zero.2 (by simp [hl'])]

/-- A piece that ends with no blank. -/
theorem settles_of_firm (hf : Firm t) (ht : t ≠ [])
    (h : Lexer.piece (tidy t ++ (settle r ++ ['\n'])) = (k, (tidy t).length)) : Settles k t r := by
  have hs := settle_of_firm hf
  refine ⟨?_, ?_, ?_, ?_⟩
  · rw [hs]
    exact mt tidy_eq_nil.1 ht
  · rw [settle_append hf, hs]
  · rw [hs, h]
  · rw [hs, count_tidy]

theorem settles_of_token {kind : TokenKind} (h : Lexer.piece (t ++ r) = (.token kind, t.length))
    (ht : t ≠ []) (hs : kind ≠ .stray) : Firm t ∧ Settles (.token kind) t r := by
  have hline : ¬ ['/', '/'] <+: t ++ r := by
    rintro ⟨u, hu⟩
    have hspace : isSpace '/' = false := by decide
    rw [← hu, Lexer.piece, if_neg (by simp [hspace])] at h
    cases h
  have hf := firm_of_piece h (by simp) (by simpa using hs) hline
  refine ⟨hf, settles_of_firm hf ht ?_⟩
  by_cases hq : t.head? = some (Char.ofNat 0x60)
  · obtain ⟨b, rfl⟩ := List.head?_eq_some_iff.1 hq
    have hblank : isBlank (Char.ofNat 0x60) = false := by decide
    rw [List.cons_append, piece_backquote] at h
    cases hr : raw (b ++ r) with
    | none =>
        rw [hr] at h
        exact absurd (by simpa using (Prod.mk.inj h).1.symm) hs
    | some n =>
        rw [hr] at h
        simp only [Prod.mk.injEq, PieceKind.token.injEq, List.length_cons,
          Nat.add_right_cancel_iff] at h
        obtain ⟨rfl, rfl⟩ := h
        rw [tidy_cons (.inl hblank), List.cons_append, piece_backquote, raw_tidy hr]
        rfl
  rw [tidy_of_piece h hs hq]
  obtain ⟨u, y, y', rfl, hsettle, hy⟩ := exists_common r
  obtain ⟨c, t, rfl⟩ := List.exists_cons_of_ne_nil ht
  by_cases hopen : ['/', '*'] <+: c :: t ++ u
  · -- a slash alone in front of a star that starts no comment, for want of an end
    obtain ⟨v, hv⟩ := hopen
    rw [← List.append_assoc, ← hv] at h
    obtain ⟨hclose, hk, hlen⟩ := piece_open h (by simp)
    obtain rfl : t = [] := by simpa using hlen
    obtain ⟨rfl, rfl⟩ := List.cons.inj hv
    have hstar : isBlank '*' = false := by decide
    rw [hk]
    show Lexer.piece ('/' :: (settle ('*' :: (v ++ y)) ++ ['\n'])) = _
    rw [settle_cons_of_not_blank hstar]
    exact piece_unclosed (blockComment_settle_eq_none hclose)
  · rw [hsettle, ← List.append_assoc]
    rw [← List.append_assoc, List.cons_append] at h
    refine piece_append h (by simp) hy (edge_newline y') (by simpa using hs) ?_ ?_
    · exact fun _ _ => fun x hx => by simpa using hx.symm
    · exact fun hp => absurd hp hopen

theorem settles_of_piece (h : Lexer.piece (t ++ r) = (k, t.length)) (ht : t ≠ [])
    (hspace : k ≠ .space) (hstray : k ≠ .token .stray) : Settles k t r := by
  cases k with
  | space => exact absurd rfl hspace
  | token kind => exact (settles_of_token h ht (by simpa using hstray)).2
  | comment =>
      rcases comment_cases h with ⟨l, rfl, hl, hr⟩ | ⟨b, rfl, hb⟩
      · exact settles_lineComment hl hr
      · have hslash : isBlank '/' = false := by decide
        have hstar : isBlank '*' = false := by decide
        have hf := firm_of_piece h (by simp) (by simp) (by simp [List.cons_prefix_cons])
        refine settles_of_firm hf ht ?_
        rw [tidy_cons (.inl hslash), tidy_cons (.inl hstar)]
        exact piece_closed (blockComment_tidy hb _)

/-- A comment says the same. -/
theorem clean_settle (h : Lexer.piece (t ++ r) = (.comment, t.length)) :
    Docs.clean (settle t) = Docs.clean t := by
  have hslash : isBlank '/' = false := by decide
  have hstar : isBlank '*' = false := by decide
  rcases comment_cases h with ⟨l, rfl, hl, -⟩ | ⟨b, rfl, hb⟩
  · have ht : '\n' ∉ '/' :: '/' :: l := by simp [hl]
    rw [settle_of_line ht, trimEnd_cons hslash, trimEnd_cons hslash, Docs.clean_lineComment,
      Docs.clean_lineComment, Docs.trim_trimEnd]
  · have hf := firm_of_piece h (by simp) (by simp) (by simp [List.cons_prefix_cons])
    obtain ⟨x, rfl⟩ := exists_of_blockComment hb
    have hclose : tidy ['*', '/'] = ['*', '/'] := by
      rw [tidy_cons (.inl hstar), tidy_cons (.inl hslash), tidy_nil]
    rw [settle_of_firm hf, tidy_cons (.inl hslash), tidy_cons (.inl hstar),
      tidy_append (by rw [hclose]; decide), hclose, Docs.clean_blockComment, Docs.clean_blockComment,
      Docs.map_cleanLine_tidy]

end GoOutline.Syntax.Lexer
