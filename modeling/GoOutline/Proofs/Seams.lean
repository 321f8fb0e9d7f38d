import Mathlib.Data.List.Induction
import GoOutline.Proofs.Cuts

/-!
Seams of a text. A text that is cut into pieces up to a seam is cut in the same way in front of any
other text that starts at an edge. Only space, line comments and strays end in blanks.
-/

namespace GoOutline.Syntax.Lexer

open Text

variable {c : Char} {s t r x y : List Char} {n : Nat} {p : Piece} {ps : List Piece} {st : State}

theorem pieces_eq_cons (h : pieces s = p :: ps) :
    s = p.text ++ flat ps ∧ p.text ≠ [] ∧ piece s = (p.kind, p.text.length) ∧
      pieces (flat ps) = ps := by
  cases s with
  | nil =>
      rw [pieces] at h
      cases h
  | cons c s =>
      have hle := piece_le c s
      have hs := flat_pieces (c :: s)
      rw [pieces] at h hs
      obtain ⟨rfl, rfl⟩ := List.cons.inj h
      refine ⟨hs.symm, List.cons_ne_nil _ _, ?_, by rw [flat_pieces]⟩
      simp only [List.length_cons] at hle
      rw [List.length_cons, List.length_take, Nat.min_eq_left (by omega), Nat.sub_add_cancel hle.1]

theorem pieces_append_piece {k : PieceKind} (h : piece (t ++ s) = (k, t.length)) (ht : t ≠ []) :
    pieces (t ++ s) = ⟨k, t⟩ :: pieces s := by
  cases t with
  | nil => exact absurd rfl ht
  | cons c t =>
      rw [List.cons_append, pieces, ← List.cons_append, h]
      simp

/-- None of the pieces in front of a text is a slash in front of a star, as it is where no star and
slash follow. -/
def Closes (ps : List Piece) (x : List Char) : Prop :=
  ∀ ⦃l p r⦄, ps = l ++ p :: r → p.text = ['/'] → (flat r ++ x).head? ≠ some '*'

theorem Closes.tail (h : Closes (p :: ps) x) : Closes ps x :=
  fun front q back he => h (l := p :: front) (by rw [he, List.cons_append])

/-- Behind these pieces any text can start, or one that ends the line of the comment at their
end. -/
def Admits (ps : List Piece) (r : List Char) : Prop :=
  ∀ p ∈ ps.getLast?, ['/', '/'] <+: p.text → EndsLine r

theorem Admits.tail {q : Piece} (h : Admits (p :: q :: ps) r) : Admits (q :: ps) r :=
  fun x hx => h x (by simpa using hx)

/-- The first pieces of a text are its first pieces when the text goes on in another way. -/
theorem pieces_seam (h : pieces (flat ps ++ (x ++ y)) = ps ++ pieces (x ++ y))
    (hs : ∀ p ∈ ps, p.kind ≠ .token .stray) (hc : Closes ps x) (hy : Edge y) (hr : Edge r)
    (hl : x = [] → Admits ps r) : pieces (flat ps ++ (x ++ r)) = ps ++ pieces (x ++ r) := by
  induction ps with
  | nil => rfl
  | cons p ps ih =>
      rw [List.cons_append] at h
      obtain ⟨_, hne, hpiece, hrest⟩ := pieces_eq_cons h
      rw [flat_append, flat_pieces] at hrest
      have htail : pieces (flat ps ++ (x ++ r)) = ps ++ pieces (x ++ r) := by
        refine ih hrest (fun q hq => hs q (List.mem_cons_of_mem p hq)) hc.tail fun hx => ?_
        cases ps with
        | nil => exact fun q hq => by cases hq
        | cons q ps => exact (hl hx).tail
      obtain ⟨kind, text⟩ := p
      cases text with
      | nil => exact absurd rfl hne
      | cons c t =>
          have hsame : piece (c :: (t ++ flat ps ++ x) ++ r) = (kind, (c :: t).length) := by
            refine piece_append (by simpa using hpiece) (by simp) hy hr ?_ ?_ ?_
            · exact hs _ List.mem_cons_self
            · intro hlen hpre
              have hnil : flat ps = [] ∧ x = [] := by simpa using hlen
              have hps : ps = [] := by
                cases ps with
                | nil => rfl
                | cons q ps =>
                    obtain ⟨_, hq, _⟩ := pieces_eq_cons hrest
                    exact absurd (List.append_eq_nil_iff.1 hnil.1).1 hq
              subst hps
              exact hl hnil.2 _ rfl (by simpa [hnil.2] using hpre)
            · intro hpre
              by_contra hk
              obtain ⟨z, hz⟩ := hpre
              have hfull : '/' :: '*' :: (z ++ y) = c :: (t ++ flat ps ++ x) ++ y := by
                rw [← hz]
                rfl
              have hp : piece ('/' :: '*' :: (z ++ y)) = (kind, (c :: t).length) := by
                rw [hfull]
                simpa using hpiece
              obtain ⟨_, _, hlen⟩ := piece_open hp hk
              obtain rfl : t = [] := by simpa using hlen
              obtain ⟨rfl, hstar⟩ := List.cons.inj hz
              refine hc (l := []) rfl rfl ?_
              rw [← List.nil_append (flat ps), ← hstar]
              rfl
          rw [flat_cons, List.append_assoc, List.cons_append, List.cons_append, ← htail]
          exact pieces_append_piece (by simpa using hsame) hne

theorem isEdge_of_isBlank (h : isBlank c) : isEdge c ∧ isQuote c = false := by
  have hall : ∀ r ∈ blankRanges, ∀ n ∈ List.range' r.1 (r.2 + 1 - r.1),
      isEdge (Char.ofNat n) ∧ isQuote (Char.ofNat n) = false := by decide +kernel
  obtain ⟨r, hr, hc⟩ := List.any_eq_true.1 h
  rw [Bool.and_eq_true, decide_eq_true_eq, decide_eq_true_eq] at hc
  have hn := hall r hr c.toNat (List.mem_range'_1.2 ⟨hc.1, by omega⟩)
  rwa [Char.ofNat_toNat] at hn

/-- A text holds a character behind so many others. -/
def HasAt (s : List Char) (n : Nat) (c : Char) : Prop := ∃ w z, s = w ++ c :: z ∧ n = w.length + 1

theorem HasAt.cons (h : HasAt s n c) (d : Char) : HasAt (d :: s) (n + 1) c := by
  obtain ⟨w, z, rfl, rfl⟩ := h
  exact ⟨d :: w, z, rfl, rfl⟩

theorem HasAt.unique {d : Char} (h : HasAt s n c) (h' : HasAt s n d) : c = d := by
  obtain ⟨w, z, rfl, rfl⟩ := h
  obtain ⟨w', z', he, hn⟩ := h'
  obtain ⟨_, hz⟩ := List.append_inj he (by omega)
  exact (List.cons.inj hz).1

theorem hasAt_interpreted (h : interpreted s = some n) : HasAt s n '"' := by
  fun_induction interpreted s generalizing n with
  | case1 => cases h
  | case2 s => cases h; exact ⟨[], s, rfl, rfl⟩
  | case3 => cases h
  | case4 c s he ih =>
      obtain ⟨m, hm, rfl⟩ := Option.map_eq_some_iff.1 h
      exact ((ih hm).cons c).cons '\\'
  | case5 => cases h
  | case6 => cases h
  | case7 c s _ _ _ _ ih =>
      obtain ⟨m, hm, rfl⟩ := Option.map_eq_some_iff.1 h
      exact (ih hm).cons c

theorem hasAt_raw (h : raw s = some n) : HasAt s n (Char.ofNat 0x60) := by
  induction s generalizing n with
  | nil => cases h
  | cons c s ih =>
      simp only [raw] at h
      split at h
      next hc =>
        cases h
        exact ⟨[], s, by rw [hc]; rfl, rfl⟩
      next =>
        obtain ⟨m, hm, rfl⟩ := Option.map_eq_some_iff.1 h
        exact (ih hm).cons c

theorem hasAt_rune (h : rune s = some n) : HasAt s n '\'' := by
  rcases rune_eq_some.1 h with ⟨c, t, rfl, _, hq, rfl⟩ | ⟨c, t, rfl, _, _, rfl⟩
  · have hs := List.take_append_drop (runeEscape c t) (c :: t)
    cases hd : (c :: t).drop (runeEscape c t) with
    | nil => simp [hd] at hq
    | cons x z =>
        rw [hd] at hq hs
        obtain rfl : x = '\'' := by simpa using hq
        have hlt : runeEscape c t < (c :: t).length := by
          by_contra hge
          rw [List.drop_eq_nil_of_le (by omega)] at hd
          cases hd
        refine ⟨'\\' :: (c :: t).take (runeEscape c t), z, by rw [List.cons_append, hs], ?_⟩
        rw [List.length_cons, List.length_take, Nat.min_eq_left (by omega)]
  · exact ⟨[c], t, rfl, rfl⟩

theorem hasAt_blockComment (h : blockComment s = some n) : HasAt s n '/' := by
  induction s generalizing n with
  | nil => cases h
  | cons c s ih =>
      by_cases hp : ['*', '/'] <+: c :: s
      · obtain ⟨t, ht⟩ := hp
        rw [← ht] at h ⊢
        cases h
        exact ⟨['*'], t, rfl, rfl⟩
      · rw [blockComment_cons hp] at h
        obtain ⟨m, hm, rfl⟩ := Option.map_eq_some_iff.1 h
        exact (ih hm).cons c

theorem symbols_not_blank : ∀ symbol ∈ symbols, ∀ x ∈ symbol.toList, isBlank x = false := by
  have hall : symbols.all fun symbol => symbol.toList.all (!isBlank ·) := by decide
  simpa using hall

theorem not_isBlank_of_comment (h : comment s = some n) (hc : HasAt s n c)
    (hline : ¬ ['/', '/'] <+: s) : isBlank c = false := by
  unfold comment at h
  split at h
  · exact absurd ⟨_, rfl⟩ hline
  · obtain ⟨m, hm, rfl⟩ := Option.map_eq_some_iff.1 h
    rw [hc.unique (((hasAt_blockComment hm).cons '*').cons '/')]
    decide
  · cases h

theorem not_isBlank_of_literal {k : TokenKind} (h : literal s = some (k, n)) (hc : HasAt s n c) :
    isBlank c = false := by
  by_contra hb
  obtain ⟨hedge, hquote⟩ := isEdge_of_isBlank (by simpa using hb)
  cases s with
  | nil => cases h
  | cons d t =>
      simp only [literal] at h
      split at h
      · obtain ⟨m, hm, he⟩ := Option.map_eq_some_iff.1 h
        cases he
        rw [hc.unique ((hasAt_interpreted hm).cons d)] at hquote
        cases hquote
      split at h
      · obtain ⟨m, hm, he⟩ := Option.map_eq_some_iff.1 h
        cases he
        rw [hc.unique ((hasAt_raw hm).cons d)] at hquote
        cases hquote
      split at h
      · obtain ⟨m, hm, he⟩ := Option.map_eq_some_iff.1 h
        cases he
        rw [hc.unique ((hasAt_rune hm).cons d)] at hquote
        cases hquote
      split at h
      · cases h
        obtain ⟨w, z, hs, hn⟩ := hc
        rw [hs, number_append (edge_cons hedge z)] at hn
        have := number_le w
        omega
      · cases h

theorem not_isBlank_of_symbol (h : symbolLength s = some n) (hc : HasAt s n c) :
    isBlank c = false := by
  obtain ⟨symbol, hf, rfl⟩ := Option.map_eq_some_iff.1 h
  have hp : symbol.toList.isPrefixOf s := by simpa using List.find?_some hf
  obtain ⟨t, ht⟩ := List.isPrefixOf_iff_prefix.1 hp
  obtain ⟨w, z, rfl, hn⟩ := hc
  have hlen : symbol.toList.length = (w ++ [c]).length := by
    rw [String.length_toList, hn, List.length_append]
    rfl
  obtain ⟨hsymbol, _⟩ := List.append_inj (by simpa using ht) hlen
  exact symbols_not_blank symbol (List.mem_of_find?_eq_some hf) c (by simp [hsymbol])

/-- The last character of a piece is no blank, but for blanks themselves and line comments. -/
theorem not_isBlank_of_piece {k : PieceKind} (h : piece s = (k, n)) (hc : HasAt s n c)
    (hspace : k ≠ .space) (hstray : k ≠ .token .stray) (hline : ¬ ['/', '/'] <+: s) :
    isBlank c = false := by
  unfold piece at h
  split at h
  · cases h
    exact absurd rfl hspace
  split at h
  next m hm =>
    cases h
    exact not_isBlank_of_comment hm hc hline
  split at h
  · cases h
    by_contra hb
    obtain ⟨hedge, _⟩ := isEdge_of_isBlank (by simpa using hb)
    obtain ⟨w, z, hs, hn⟩ := hc
    rw [hs, word_append (edge_cons hedge z)] at hn
    have := (List.takeWhile_sublist isIdentifierPart (l := w)).length_le
    omega
  split at h
  next hl =>
    cases h
    exact not_isBlank_of_literal hl hc
  split at h
  next hs =>
    cases h
    exact not_isBlank_of_symbol hs hc
  next =>
    cases h
    exact absurd rfl hstray

theorem trimEnd_append_blanks (hw : ∀ c ∈ t, isBlank c) (s : List Char) :
    trimEnd (s ++ t) = trimEnd s := by
  have ht : trimEnd t = [] := by
    induction t with
    | nil => rfl
    | cons a t ih =>
        have ih := ih fun c hc => hw c (List.mem_cons_of_mem a hc)
        simp [trimEnd, ih, hw a List.mem_cons_self]
  induction s with
  | nil => exact ht
  | cons a s ih => simp only [List.cons_append, trimEnd, ih]

theorem trimEnd_append_of_ne (ht : trimEnd t ≠ []) (s : List Char) :
    trimEnd (s ++ t) = s ++ trimEnd t := by
  induction s with
  | nil => rfl
  | cons a s ih =>
      rw [List.cons_append, trimEnd, ih]
      cases hs : s ++ trimEnd t with
      | nil => exact absurd (List.append_eq_nil_iff.1 hs).2 ht
      | cons b u => rw [List.cons_append, hs]

theorem trimEnd_concat (hc : isBlank c = false) (s : List Char) :
    trimEnd (s ++ [c]) = s ++ [c] := by
  have h : trimEnd [c] = [c] := by simp [trimEnd, hc]
  rw [trimEnd_append_of_ne (by simp [h]), h]

theorem piece_lineComment (hs : '\n' ∉ s) (hr : EndsLine r) :
    piece ('/' :: '/' :: s ++ r) = (.comment, ('/' :: '/' :: s).length) := by
  have hp : ∀ x ∈ s, decide (x ≠ '\n') := by
    intro x hx
    exact decide_eq_true fun he => hs (he ▸ hx)
  have hnil : r.takeWhile (· ≠ '\n') = [] := by
    cases r with
    | nil => rfl
    | cons x r => simp [hr x rfl]
  have hc : comment ('/' :: '/' :: s ++ r) = some ('/' :: '/' :: s).length := by
    simp only [List.cons_append, comment]
    rw [List.takeWhile_append_of_pos hp, hnil]
    simp
  have hspace : isSpace '/' = false := by decide
  rw [piece, if_neg (by simp [hspace]), hc]

theorem lineComment_of_piece {k : PieceKind}
    (h : piece ('/' :: '/' :: s ++ y) = (k, ('/' :: '/' :: s).length)) :
    k = .comment ∧ '\n' ∉ s := by
  have hspace : isSpace '/' = false := by decide
  rw [piece, if_neg (by simp [hspace])] at h
  simp only [List.cons_append, comment, Prod.mk.injEq, List.length_cons,
    Nat.add_right_cancel_iff] at h
  refine ⟨h.1.symm, fun hm => ?_⟩
  have hlt : ((s ++ y).takeWhile (· ≠ '\n')).length < s.length := by
    clear h
    induction s with
    | nil => cases hm
    | cons a s ih =>
        by_cases ha : a = '\n'
        · simp [ha]
        · have hm : '\n' ∈ s := by simpa [Ne.symm ha] using hm
          simpa [ha] using ih hm
  omega

theorem trimEnd_cons (hc : isBlank c = false) (s : List Char) : trimEnd (c :: s) = c :: trimEnd s := by
  rw [trimEnd]
  split
  next h => rw [h, if_neg (by simp [hc])]
  next => rfl

theorem exists_trimEnd_append (s : List Char) : ∃ w, s = trimEnd s ++ w ∧ ∀ c ∈ w, isBlank c := by
  induction s with
  | nil => exact ⟨[], rfl, by simp⟩
  | cons c s ih =>
      obtain ⟨w, hs, hw⟩ := ih
      cases hc : isBlank c with
      | false => exact ⟨w, by rw [trimEnd_cons hc, List.cons_append, ← hs], hw⟩
      | true =>
          cases ht : trimEnd s with
          | nil =>
              rw [ht, List.nil_append] at hs
              refine ⟨c :: s, by simp [trimEnd, ht, hc], fun x hx => ?_⟩
              rcases List.mem_cons.1 hx with rfl | hx
              · exact hc
              · exact hw x (hs ▸ hx)
          | cons a t =>
              rw [ht] at hs
              exact ⟨w, by rw [trimEnd, ht, List.cons_append, ← hs], hw⟩

theorem space_of_piece (h : piece s = (.space, n)) : n = 1 ∧ s.head?.any isSpace := by
  unfold piece at h
  split at h
  next hs =>
    cases h
    exact ⟨rfl, hs⟩
  split at h
  · cases h
  split at h
  · cases h
  split at h
  · cases h
  split at h <;> cases h

end GoOutline.Syntax.Lexer
