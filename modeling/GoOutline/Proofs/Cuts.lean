import GoOutline.Proofs.Edges
import GoOutline.Proofs.Pieces

/-!
Where a text can be cut. What stands in front of an edge is cut into pieces in one way, whatever
follows from there on, but for comments that a later text goes on with or closes.
-/

namespace GoOutline.Syntax.Lexer

open Text

variable {c : Char} {s t r y : List Char} {n : Nat}

theorem takeWhile_append_of_head {p : Char → Bool} (hr : ∀ x ∈ r.head?, p x = false)
    (s : List Char) : (s ++ r).takeWhile p = s.takeWhile p := by
  induction s with
  | nil =>
      cases r with
      | nil => rfl
      | cons x r => simp [hr x rfl]
  | cons a s ih =>
      cases ha : p a with
      | false => simp [ha]
      | true => simp [ha, ih]

theorem word_append (h : Edge r) (s : List Char) :
    (s ++ r).takeWhile isIdentifierPart = s.takeWhile isIdentifierPart := by
  apply takeWhile_append_of_head
  intro x hx
  have he := h x hx
  rw [isEdge, Bool.and_eq_true, Bool.not_eq_true'] at he
  exact he.1

theorem isPrefixOf_append {w : List Char} (hw : ∀ x ∈ w, isEdge x = false) (h : Edge r)
    (s : List Char) : w.isPrefixOf (s ++ r) = w.isPrefixOf s := by
  induction w generalizing s with
  | nil => rfl
  | cons a w ih =>
      cases s with
      | nil =>
          cases r with
          | nil => rfl
          | cons x r =>
              have hx : x ≠ a := h.ne (hw a List.mem_cons_self)
              simp [List.isPrefixOf, hx.symm]
      | cons b s =>
          have hr := ih (fun x hx => hw x (List.mem_cons_of_mem a hx)) s
          simp only [List.cons_append, List.isPrefixOf, hr]

theorem symbols_joints : ∀ symbol ∈ symbols, ∀ x ∈ symbol.toList.tail, isEdge x = false := by
  have hall : symbols.all fun symbol => symbol.toList.tail.all (joints.contains ·) := by decide
  intro symbol hs x hx
  have ha := List.all_eq_true.1 (List.all_eq_true.1 hall symbol hs) x hx
  exact isEdge_of_joint ha

theorem find?_congr {α : Type} {p q : α → Bool} {as : List α} (h : ∀ a ∈ as, p a = q a) :
    as.find? p = as.find? q := by
  induction as with
  | nil => rfl
  | cons a as ih =>
      have ha := h a List.mem_cons_self
      have ih := ih fun b hb => h b (List.mem_cons_of_mem a hb)
      rw [List.find?_cons, List.find?_cons, ha, ih]

theorem symbolLength_append (h : Edge r) (c : Char) (s : List Char) :
    symbolLength (c :: s ++ r) = symbolLength (c :: s) := by
  have hs : ∀ symbol ∈ symbols,
      symbol.toList.isPrefixOf (c :: s ++ r) = symbol.toList.isPrefixOf (c :: s) := by
    intro symbol hs
    have hj := symbols_joints symbol hs
    cases hw : symbol.toList with
    | nil => rfl
    | cons a w =>
        rw [hw] at hj
        have hp := isPrefixOf_append (w := w) hj h s
        simp only [List.cons_append, List.isPrefixOf, hp]
  rw [symbolLength, symbolLength, find?_congr hs]

/-- Hexadecimal digits inside of a string stand in front of its last quote. -/
theorem lt_of_interpreted {k : Nat} (h : interpreted s = some n) (hk : (s.take k).length = k)
    (hd : (s.take k).all isHex) : k < n := by
  induction k generalizing s n with
  | zero =>
      unfold interpreted at h
      split at h
      · cases h
      · cases h; omega
      · cases h
      · split at h
        · obtain ⟨m, _, rfl⟩ := Option.map_eq_some_iff.1 h; omega
        · cases h
      · cases h
      · obtain ⟨m, _, rfl⟩ := Option.map_eq_some_iff.1 h; omega
  | succ k ih =>
      cases s with
      | nil => simp at hk
      | cons c s =>
          simp only [List.take_succ_cons, List.length_cons, List.all_cons, Bool.and_eq_true] at hk hd
          have hpart := isIdentifierPart_of_digit (b := 16) (by decide) hd.1
          have hne (x : Char) (hx : isIdentifierPart x = false) : c ≠ x := by
            rintro rfl
            rw [hx] at hpart
            cases hpart
          have hq : c ≠ '"' := hne _ (isIdentifierPart_of_sign (by decide))
          have hl : c ≠ '\n' := hne _ (isIdentifierPart_of_sign (by decide))
          have hb : c ≠ '\\' := hne _ (isIdentifierPart_of_sign (by decide))
          rw [interpreted.eq_6 c s hq hl (fun _ _ he _ => hb he) (fun he _ => hb he)] at h
          obtain ⟨m, hm, rfl⟩ := Option.map_eq_some_iff.1 h
          have := ih hm (by omega) hd.2
          omega

/-- The number of digits that an escape shows. -/
def escapeWidth (c : Char) : Nat :=
  if c = 'x' then 2 else if c = 'u' then 4 else if c = 'U' then 8 else 0

theorem escapeComplete_iff : escapeComplete c s ↔
    (s.take (escapeWidth c)).length = escapeWidth c ∧ (s.take (escapeWidth c)).all isHex := by
  unfold escapeComplete escapeWidth
  by_cases hx : c = 'x'
  · simp [hx]
  by_cases hu : c = 'u'
  · simp [hu]
  by_cases hU : c = 'U'
  · simp [hU]
  · simp [hx, hu, hU]

theorem escapeComplete_append (h : escapeComplete c (s ++ y)) (hle : escapeWidth c ≤ s.length) :
    escapeComplete c (s ++ r) := by
  rw [escapeComplete_iff] at h ⊢
  rwa [List.take_append_of_le_length hle] at h ⊢

/-- An escape that is complete inside of a string is so whatever stands behind the string. -/
theorem escapeComplete_of_interpreted (he : escapeComplete c (s ++ y))
    (h : interpreted (s ++ y) = some n) (hn : n ≤ s.length) : escapeComplete c (s ++ r) := by
  obtain ⟨hlen, hall⟩ := escapeComplete_iff.1 he
  have hlt := lt_of_interpreted h hlen hall
  exact escapeComplete_append he (by omega)

theorem interpreted_cons (hq : c ≠ '"') (hl : c ≠ '\n') (hb : c ≠ '\\') (s : List Char) :
    interpreted (c :: s) = (interpreted s).map (· + 1) :=
  interpreted.eq_6 c s hq hl (fun _ _ he _ => hb he) (fun he _ => hb he)

/-- A string that ends inside of a text is the same string in front of any other rest. -/
theorem interpreted_append (h : interpreted (s ++ y) = some n) (hn : n ≤ s.length) :
    interpreted (s ++ r) = some n := by
  induction hk : s.length using Nat.strongRecOn generalizing s n with
  | _ k ih =>
    subst hk
    rcases s with _ | ⟨c, s⟩
    · have : 0 < n := lt_of_interpreted (k := 0) h rfl rfl
      simp only [List.length_nil] at hn
      omega
    by_cases hq : c = '"'
    · subst hq
      exact h
    by_cases hl : c = '\n'
    · subst hl
      cases h
    simp only [List.length_cons] at hn
    by_cases hb : c = '\\'
    · subst hb
      rcases s with _ | ⟨d, s⟩
      · rcases y with _ | ⟨d, y⟩
        · cases h
        · rw [List.cons_append, List.nil_append, interpreted.eq_4] at h
          split at h
          · obtain ⟨m, _, rfl⟩ := Option.map_eq_some_iff.1 h
            simp only [List.length_nil] at hn
            omega
          · cases h
      · rw [List.cons_append, List.cons_append, interpreted.eq_4] at h ⊢
        split at h
        next he =>
          obtain ⟨m, hm, rfl⟩ := Option.map_eq_some_iff.1 h
          simp only [List.length_cons] at hn
          have hle : m ≤ s.length := by omega
          rw [if_pos (escapeComplete_of_interpreted he hm hle),
            ih s.length (by simp only [List.length_cons]; omega) hm hle rfl]
          rfl
        next => cases h
    · rw [List.cons_append, interpreted_cons hq hl hb] at h ⊢
      obtain ⟨m, hm, rfl⟩ := Option.map_eq_some_iff.1 h
      rw [ih s.length (by simp) hm (by omega) rfl]
      rfl

theorem raw_append (h : raw (s ++ y) = some n) (hn : n ≤ s.length) : raw (s ++ r) = some n := by
  induction s generalizing n with
  | nil =>
      obtain rfl : n = 0 := Nat.le_zero.1 hn
      cases y with
      | nil => cases h
      | cons c y =>
          simp only [List.nil_append, raw] at h
          split at h
          · cases h
          · obtain ⟨m, _, hm⟩ := Option.map_eq_some_iff.1 h
            omega
  | cons c s ih =>
      simp only [List.cons_append, raw] at h ⊢
      split
      next hc => rwa [if_pos hc] at h
      next hc =>
        rw [if_neg hc] at h
        obtain ⟨m, hm, rfl⟩ := Option.map_eq_some_iff.1 h
        simp only [List.length_cons] at hn
        rw [ih hm (by omega)]
        rfl

theorem blockComment_cons (h : ¬ ['*', '/'] <+: c :: s) :
    blockComment (c :: s) = (blockComment s).map (· + 1) := by
  apply blockComment.eq_3
  rintro t rfl rfl
  exact h ⟨t, rfl⟩

theorem pos_of_blockComment (h : blockComment s = some n) : 2 ≤ n := by
  induction s generalizing n with
  | nil => cases h
  | cons c s ih =>
      by_cases hp : ['*', '/'] <+: c :: s
      · obtain ⟨t, ht⟩ := hp
        rw [← ht] at h
        cases h
        exact Nat.le_refl 2
      · rw [blockComment_cons hp] at h
        obtain ⟨m, hm, rfl⟩ := Option.map_eq_some_iff.1 h
        have := ih hm
        omega

theorem blockComment_append (h : blockComment (s ++ y) = some n) (hn : n ≤ s.length) :
    blockComment (s ++ r) = some n := by
  induction s generalizing n with
  | nil =>
      have := pos_of_blockComment h
      simp only [List.length_nil] at hn
      omega
  | cons c s ih =>
      rcases s with _ | ⟨d, s⟩
      · have := pos_of_blockComment h
        simp only [List.length_cons, List.length_nil] at hn
        omega
      have hpre (z : List Char) : ['*', '/'] <+: c :: (d :: s ++ z) ↔ c = '*' ∧ d = '/' := by
        simp [List.cons_prefix_cons, eq_comm]
      by_cases hp : c = '*' ∧ d = '/'
      · obtain ⟨rfl, rfl⟩ := hp
        exact h
      · rw [List.cons_append, blockComment_cons ((hpre _).not.2 hp)] at h ⊢
        obtain ⟨m, hm, rfl⟩ := Option.map_eq_some_iff.1 h
        simp only [List.length_cons] at hn
        rw [ih hm (by simp only [List.length_cons]; omega)]
        rfl

/-- The length of an escape in a rune, behind its backslash, 0 if it is none. -/
def runeEscape (c : Char) (s : List Char) : Nat :=
  if c = 'x' ∨ c = 'u' ∨ c = 'U' then
    if escapeComplete c s then (if c = 'x' then 2 else if c = 'u' then 4 else 8) + 1 else 0
  else if isDigitOf 8 c then
    if (s.take 2).length = 2 && (s.take 2).all (isDigitOf 8) then 3 else 0
  else if ['a', 'b', 'f', 'n', 'r', 't', 'v', '\\', '\'', '"'].contains c then 1 else 0

theorem rune_escape (c : Char) (s : List Char) : rune ('\\' :: c :: s) =
    if runeEscape c s ≠ 0 && ((c :: s).drop (runeEscape c s)).head? == some '\'' then
      some (runeEscape c s + 2) else none := rfl

theorem rune_eq_some : rune s = some n ↔
    (∃ c t, s = '\\' :: c :: t ∧ runeEscape c t ≠ 0 ∧
      ((c :: t).drop (runeEscape c t)).head? = some '\'' ∧ n = runeEscape c t + 2) ∨
    (∃ c t, s = c :: '\'' :: t ∧ c ≠ '\'' ∧ c ≠ '\\' ∧ n = 2) := by
  have hescape (c : Char) (t : List Char) : rune ('\\' :: c :: t) = some n ↔
      runeEscape c t ≠ 0 ∧ ((c :: t).drop (runeEscape c t)).head? = some '\'' ∧
        n = runeEscape c t + 2 := by
    rw [rune_escape, Option.ite_none_right_eq_some, Bool.and_eq_true, beq_iff_eq,
      decide_eq_true_eq, and_assoc, Option.some_inj, eq_comm (a := n)]
  constructor
  · intro h
    rcases s with _ | ⟨c, _ | ⟨d, s⟩⟩
    · cases h
    · unfold rune at h
      split at h
      · next he => cases he
      · next he => cases he
      · cases h
    · by_cases hc : c = '\\'
      · subst hc
        exact .inl ⟨d, s, rfl, (hescape d s).1 h⟩
      · by_cases hd : d = '\''
        · subst hd
          rw [rune.eq_2 c s hc] at h
          split at h
          · cases h
          next hn =>
            cases h
            exact .inr ⟨c, s, rfl, fun he => hn (.inl he), hc, rfl⟩
        · rw [rune.eq_3 _ (fun _ _ he => hc (List.cons.inj he).1)
            (fun _ _ he => hd (List.cons.inj (List.cons.inj he).2).1)] at h
          cases h
  · rintro (⟨c, t, rfl, h⟩ | ⟨c, t, rfl, hq, hb, rfl⟩)
    · exact (hescape c t).2 h
    · rw [rune.eq_2 c t hb, if_neg (by simp [hq, hb])]

theorem pos_of_rune (h : rune s = some n) : 2 ≤ n := by
  rcases rune_eq_some.1 h with ⟨c, t, _, _, _, rfl⟩ | ⟨_, _, _, _, _, rfl⟩
  · omega
  · exact Nat.le_refl 2

theorem runeEscape_append (h : runeEscape c (s ++ y) ≠ 0) (hn : runeEscape c (s ++ y) ≤ s.length) :
    runeEscape c (s ++ r) = runeEscape c (s ++ y) := by
  unfold runeEscape at h hn ⊢
  split
  next hx =>
    rw [if_pos hx] at h hn
    split at h
    next he =>
      rw [if_pos he] at hn ⊢
      have hw : escapeWidth c ≤ s.length := by
        unfold escapeWidth
        rcases hx with rfl | rfl | rfl <;> simp at hn ⊢ <;> omega
      rw [if_pos (escapeComplete_append he hw)]
    next => exact absurd rfl h
  next hx =>
    rw [if_neg hx] at h hn
    split
    next ho =>
      rw [if_pos ho] at h hn
      split at h
      next hd =>
        rw [if_pos hd] at hn ⊢
        have hlen : 2 ≤ s.length := by omega
        rw [List.take_append_of_le_length hlen] at hd ⊢
        rw [if_pos hd]
      next => exact absurd rfl h
    next => rfl

theorem rune_append (h : rune (s ++ y) = some n) (hn : n ≤ s.length) :
    rune (s ++ r) = some n := by
  have hpos := pos_of_rune h
  rcases s with _ | ⟨c, _ | ⟨d, s⟩⟩
  · simp only [List.length_nil] at hn
    omega
  · simp only [List.length_cons, List.length_nil] at hn
    omega
  simp only [List.length_cons] at hn
  rcases rune_eq_some.1 h with ⟨c', t, he, hne, hq, rfl⟩ | ⟨c', t, he, hc, hb, rfl⟩
  · obtain ⟨rfl, rfl, rfl⟩ : c = '\\' ∧ d = c' ∧ s ++ y = t := by simpa using he
    have hle : runeEscape d (s ++ y) ≤ s.length := by omega
    have hsame := runeEscape_append (r := r) hne hle
    refine rune_eq_some.2 (.inl ⟨d, s ++ r, rfl, hsame ▸ hne, ?_, by rw [hsame]⟩)
    rw [hsame]
    generalize runeEscape d (s ++ y) = m at hq hle hne
    obtain ⟨m, rfl⟩ := Nat.exists_eq_succ_of_ne_zero hne
    rw [List.drop_succ_cons, List.drop_append_of_le_length (by omega)] at hq ⊢
    have hlen : (s.drop m).length ≠ 0 := by rw [List.length_drop]; omega
    cases hs : s.drop m with
    | nil => simp [hs] at hlen
    | cons x z => simpa [hs] using hq
  · obtain ⟨rfl, rfl, rfl⟩ : c = c' ∧ d = '\'' ∧ s ++ y = t := by simpa using he
    exact rune_eq_some.2 (.inr ⟨c, s ++ r, rfl, hc, hb, rfl⟩)

theorem interpreted_le (h : interpreted s = some n) : n ≤ s.length := by
  fun_induction interpreted s generalizing n with
  | case1 => cases h
  | case2 s => cases h; simp
  | case3 => cases h
  | case4 c s he ih =>
      obtain ⟨m, hm, rfl⟩ := Option.map_eq_some_iff.1 h
      have := ih hm
      simp only [List.length_cons]
      omega
  | case5 => cases h
  | case6 => cases h
  | case7 c s _ _ _ _ ih =>
      obtain ⟨m, hm, rfl⟩ := Option.map_eq_some_iff.1 h
      have := ih hm
      simp only [List.length_cons]
      omega

theorem raw_le (h : raw s = some n) : n ≤ s.length := by
  induction s generalizing n with
  | nil => cases h
  | cons c s ih =>
      simp only [raw] at h
      split at h
      · cases h
        simp
      · obtain ⟨m, hm, rfl⟩ := Option.map_eq_some_iff.1 h
        have := ih hm
        simp only [List.length_cons]
        omega

theorem rune_le (h : rune s = some n) : n ≤ s.length := by
  rcases rune_eq_some.1 h with ⟨c, t, rfl, _, hq, rfl⟩ | ⟨c, t, rfl, _, _, rfl⟩
  · have hlt : runeEscape c t < (c :: t).length := by
      by_contra hge
      rw [List.drop_eq_nil_of_le (by omega)] at hq
      cases hq
    simp only [List.length_cons] at hlt ⊢
    omega
  · simp

theorem blockComment_le (h : blockComment s = some n) : n ≤ s.length := by
  induction s generalizing n with
  | nil => cases h
  | cons c s ih =>
      by_cases hp : ['*', '/'] <+: c :: s
      · obtain ⟨t, ht⟩ := hp
        rw [← ht] at h ⊢
        cases h
        simp
      · rw [blockComment_cons hp] at h
        obtain ⟨m, hm, rfl⟩ := Option.map_eq_some_iff.1 h
        have := ih hm
        simp only [List.length_cons]
        omega

theorem comment_le (h : comment s = some n) : 2 ≤ n ∧ n ≤ s.length := by
  unfold comment at h
  split at h
  next t =>
    cases h
    have := (List.takeWhile_sublist (· ≠ '\n') (l := t)).length_le
    simp only [List.length_cons]
    omega
  next t =>
    obtain ⟨m, hm, rfl⟩ := Option.map_eq_some_iff.1 h
    have := blockComment_le hm
    simp only [List.length_cons]
    omega
  next => cases h

theorem literal_le {k : TokenKind} (h : literal s = some (k, n)) : 1 ≤ n ∧ n ≤ s.length := by
  rcases s with _ | ⟨c, s⟩
  · cases h
  simp only [literal] at h
  split at h
  · obtain ⟨m, hm, he⟩ := Option.map_eq_some_iff.1 h
    cases he
    have := interpreted_le hm
    simp only [List.length_cons]
    omega
  split at h
  · obtain ⟨m, hm, he⟩ := Option.map_eq_some_iff.1 h
    cases he
    have := raw_le hm
    simp only [List.length_cons]
    omega
  split at h
  · obtain ⟨m, hm, he⟩ := Option.map_eq_some_iff.1 h
    cases he
    have := rune_le hm
    simp only [List.length_cons]
    omega
  split at h
  next hne =>
    cases h
    exact ⟨Nat.one_le_iff_ne_zero.2 hne, number_le (c :: s)⟩
  next => cases h

theorem symbols_ne_empty : ∀ symbol ∈ symbols, 1 ≤ symbol.length := by decide

theorem symbolLength_le (h : symbolLength s = some n) : 1 ≤ n ∧ n ≤ s.length := by
  obtain ⟨symbol, hs, rfl⟩ := Option.map_eq_some_iff.1 h
  refine ⟨symbols_ne_empty symbol (List.mem_of_find?_eq_some hs), ?_⟩
  have hp : symbol.toList.isPrefixOf s := by simpa using List.find?_some hs
  rw [← String.length_toList]
  exact (List.isPrefixOf_iff_prefix.1 hp).length_le

theorem isIdentifierPart_of_start (h : isIdentifierStart c) : isIdentifierPart c := by
  rw [isIdentifierPart, h, Bool.true_or]

theorem piece_le (c : Char) (s : List Char) :
    1 ≤ (piece (c :: s)).2 ∧ (piece (c :: s)).2 ≤ (c :: s).length := by
  unfold piece
  split
  · simp
  split
  next n hc =>
    have := comment_le hc
    dsimp only
    omega
  split
  next hi =>
    have hc : isIdentifierPart c := isIdentifierPart_of_start (by simpa using hi)
    refine ⟨?_, (List.takeWhile_sublist _).length_le⟩
    simp [hc]
  split
  next k n hl => exact literal_le hl
  split
  next n hs => exact symbolLength_le hs
  next => simp

theorem comment_eq_none (hl : ¬ ['/', '/'] <+: s) (hb : ¬ ['/', '*'] <+: s) : comment s = none := by
  unfold comment
  split
  · exact absurd ⟨_, rfl⟩ hl
  · exact absurd ⟨_, rfl⟩ hb
  · rfl

/-- Two characters in front of an edge, the second of them no edge, do not come about by cutting. -/
theorem pair_prefix_append {a b : Char} (hb : isEdge b = false) (h : Edge r) (s : List Char) :
    [a, b] <+: c :: s ++ r ↔ [a, b] <+: c :: s := by
  have hs := isPrefixOf_append (w := [b]) (by simpa using hb) h s
  rw [Bool.eq_iff_iff, List.isPrefixOf_iff_prefix, List.isPrefixOf_iff_prefix] at hs
  simp only [List.cons_append, List.cons_prefix_cons, hs]

/-- What is taken from a text while a condition holds, if it ends inside of a part of the text. -/
theorem length_takeWhile_append {p : Char → Bool}
    (hn : ((s ++ y).takeWhile p).length ≤ s.length)
    (hr : ((s ++ y).takeWhile p).length = s.length → ∀ x ∈ r.head?, p x = false) :
    ((s ++ r).takeWhile p).length = ((s ++ y).takeWhile p).length := by
  induction s with
  | nil =>
      have hy : (y.takeWhile p).length = 0 := Nat.le_zero.1 hn
      cases r with
      | nil => simp [hy]
      | cons x r => simp [hr hy x rfl, hy]
  | cons a s ih =>
      cases ha : p a with
      | false => simp [ha]
      | true =>
          simp only [List.cons_append, List.takeWhile_cons, ha, if_true, List.length_cons,
            Nat.add_le_add_iff_right, Nat.add_right_cancel_iff] at hn hr ⊢
          exact ih hn hr

/-- Behind a text that ends in a line comment, the line ends. -/
def EndsLine (r : List Char) : Prop := ∀ c ∈ r.head?, c = '\n'

theorem comment_append (h : comment (s ++ y) = some n) (hn : n ≤ s.length)
    (hr : n = s.length → ['/', '/'] <+: s → EndsLine r) : comment (s ++ r) = some n := by
  have hle := (comment_le h).1
  rcases s with _ | ⟨c, _ | ⟨d, s⟩⟩
  · simp only [List.length_nil] at hn
    omega
  · simp only [List.length_cons, List.length_nil] at hn
    omega
  simp only [List.length_cons] at hn hr
  unfold comment at h
  split at h
  next t he =>
    obtain ⟨rfl, rfl, rfl⟩ : c = '/' ∧ d = '/' ∧ s ++ y = t := by simpa using he
    cases h
    have hsame := length_takeWhile_append (p := (· ≠ '\n')) (s := s) (y := y) (r := r) (by omega) ?_
    · rw [← hsame]
      rfl
    · intro hlen x hx
      have hend := hr (by omega) ⟨s, rfl⟩ x hx
      simp [hend]
  next t he =>
    obtain ⟨rfl, rfl, rfl⟩ : c = '/' ∧ d = '*' ∧ s ++ y = t := by simpa using he
    obtain ⟨m, hm, rfl⟩ := Option.map_eq_some_iff.1 h
    show (blockComment (s ++ r)).map (· + 2) = _
    rw [blockComment_append hm (by omega)]
    rfl
  next => cases h

theorem literal_append {k : TokenKind} (h : literal (c :: s ++ y) = some (k, n))
    (hn : n ≤ (c :: s).length) (hy : Edge y) (hr : Edge r) :
    literal (c :: s ++ r) = some (k, n) := by
  simp only [List.length_cons] at hn
  simp only [List.cons_append, literal] at h ⊢
  split
  next hc =>
    rw [if_pos hc] at h
    obtain ⟨m, hm, he⟩ := Option.map_eq_some_iff.1 h
    cases he
    rw [interpreted_append hm (by omega)]
    rfl
  next hc =>
    rw [if_neg hc] at h
    split
    next hb =>
      rw [if_pos hb] at h
      obtain ⟨m, hm, he⟩ := Option.map_eq_some_iff.1 h
      cases he
      rw [raw_append hm (by omega)]
      rfl
    next hb =>
      rw [if_neg hb] at h
      split
      next hq =>
        rw [if_pos hq] at h
        obtain ⟨m, hm, he⟩ := Option.map_eq_some_iff.1 h
        cases he
        rw [rune_append hm (by omega)]
        rfl
      next hq =>
        have hsame (z : List Char) (hz : Edge z) : number (c :: (s ++ z)) = number (c :: s) :=
          number_append hz (c :: s)
        rwa [if_neg hq, hsame y hy, ← hsame r hr] at h

/-- Quotes. -/
def isQuote (c : Char) : Bool := c == '"' || c == Char.ofNat 0x60 || c == '\''

theorem literal_eq_none (hc : isQuote c = false) (hy : Edge y) (hr : Edge r)
    (h : literal (c :: s ++ y) = none) : literal (c :: s ++ r) = none := by
  simp only [isQuote, Bool.or_eq_false_iff, beq_eq_false_iff_ne] at hc
  have hsame (z : List Char) (hz : Edge z) : number (c :: (s ++ z)) = number (c :: s) :=
    number_append hz (c :: s)
  simp only [List.cons_append, literal, hc.1.1, hc.1.2, hc.2, if_false] at h ⊢
  rwa [hsame y hy, ← hsame r hr] at h

theorem head?_of_isPrefix {symbol : String} (hs : symbol ∈ symbols) (hp : symbol.toList <+: c :: s) :
    symbol.toList.head? = some c := by
  cases hw : symbol.toList with
  | nil =>
      have := symbols_ne_empty symbol hs
      rw [← String.length_toList, hw] at this
      exact absurd this (by decide)
  | cons x w =>
      rw [hw] at hp
      rw [(List.cons_prefix_cons.1 hp).1]
      rfl

theorem symbolLength_quote (hc : isQuote c) (s : List Char) : symbolLength (c :: s) = none := by
  have hall : symbols.all fun symbol => symbol.toList.head?.all (!isQuote ·) := by decide
  have hq : ∀ symbol ∈ symbols, ∀ x ∈ symbol.toList.head?, isQuote x = false := by
    intro symbol hs x hx
    have ha := List.all_eq_true.1 hall symbol hs
    rw [Option.mem_def.1 hx] at ha
    simpa using ha
  rw [symbolLength, Option.map_eq_none_iff, List.find?_eq_none]
  intro symbol hs hp
  have hh := head?_of_isPrefix hs (List.isPrefixOf_iff_prefix.1 hp)
  rw [hq symbol hs c hh] at hc
  cases hc

theorem comment_eq_none_append (h : comment (c :: s ++ y) = none) (hr : Edge r)
    (hopen : ¬ ['/', '*'] <+: c :: s) : comment (c :: s ++ r) = none := by
  apply comment_eq_none
  · rw [pair_prefix_append (isEdge_of_joint (by decide)) hr]
    rintro ⟨t, ht⟩
    rw [← ht] at h
    cases h
  · rwa [pair_prefix_append (isEdge_of_joint (by decide)) hr]

/-- What a text in front of an edge starts with, if that is a piece of it and no stray character, it
starts with in front of any other edge. A line comment at its end has to end there, and a slash and
a star at its start have to be a comment. -/
theorem piece_append {k : PieceKind} (h : piece (c :: s ++ y) = (k, n))
    (hn : n ≤ (c :: s).length) (hy : Edge y) (hr : Edge r) (hk : k ≠ .token .stray)
    (hline : n = (c :: s).length → ['/', '/'] <+: c :: s → EndsLine r)
    (hopen : ['/', '*'] <+: c :: s → k = .comment) : piece (c :: s ++ r) = (k, n) := by
  by_cases hs : isSpace c
  · have hpiece (z : List Char) : piece (c :: s ++ z) = (.space, 1) := by simp [piece, hs]
    rw [hpiece] at h ⊢
    exact h
  rw [piece, if_neg (by simpa using hs)] at h ⊢
  cases hc : comment (c :: s ++ y) with
  | some m =>
      rw [hc] at h
      cases h
      rw [comment_append hc hn hline]
  | none =>
      rw [hc] at h
      have hne : k ≠ .comment := by
        rintro rfl
        dsimp only at h
        split at h
        · cases h
        split at h
        · cases h
        split at h <;> cases h
      rw [comment_eq_none_append hc hr fun hp => hne (hopen hp)]
      dsimp only at h ⊢
      have hhead (z : List Char) :
          (c :: s ++ z).head?.any isIdentifierStart = isIdentifierStart c := rfl
      rw [hhead] at h ⊢
      by_cases hi : isIdentifierStart c
      · rw [if_pos hi, word_append hy] at h
        rw [if_pos hi, word_append hr]
        exact h
      rw [if_neg hi] at h ⊢
      cases hl : literal (c :: s ++ y) with
      | some q =>
          obtain ⟨kind, m⟩ := q
          rw [hl] at h
          cases h
          rw [literal_append hl hn hy hr]
      | none =>
          rw [hl] at h
          dsimp only at h
          by_cases hq : isQuote c
          · rw [List.cons_append, symbolLength_quote hq] at h
            cases h
            exact absurd rfl hk
          · rw [literal_eq_none (by simpa using hq) hy hr hl]
            rw [symbolLength_append hy] at h
            dsimp only
            rw [symbolLength_append hr]
            exact h

/-- A number starts with a digit or a point. -/
theorem number_eq_zero (hd : isDecimal c = false) (hp : c ≠ '.') (s : List Char) :
    number (c :: s) = 0 := by
  have h0 : c ≠ '0' := by
    rintro rfl
    exact absurd hd (by decide)
  have hb (letters : List Char) (p : Char → Bool) : baseLengths letters p (c :: s) = [] :=
    baseLengths.eq_2 letters p (c :: s) fun _ _ he => h0 (List.cons.inj he).1
  have hi : integerLengths (c :: s) = [0] := by
    rw [integerLengths, hb, hb, hb, octalLengths.eq_2 _ fun _ he => h0 (List.cons.inj he).1,
      decimalLengths.eq_2 _ fun _ he => h0 (List.cons.inj he).1]
    simp [digits, hd]
  have hf : floatLengths (c :: s) = [] := by
    have hm : decimalFloats (c :: s) = [] := by
      unfold decimalFloats mantissas
      simp only [digits, hd, Bool.false_eq_true, if_false, List.drop_zero]
      split
      · next he => exact absurd (List.cons.inj he).1 hp
      · rfl
    rw [floatLengths_eq, hm]
    split
    · next he => exact absurd (List.cons.inj he).1 h0
    · rfl
  rw [number, imaginaryLengths, hi, hf]
  simp [digits, hd]

theorem symbolLength_eq_one (hm : ∃ symbol ∈ symbols, symbol.toList = [c])
    (h : ∀ symbol ∈ symbols, symbol.toList <+: c :: s → symbol.toList = [c]) :
    symbolLength (c :: s) = some 1 := by
  rw [symbolLength]
  cases hf : symbols.find? fun symbol => symbol.toList.isPrefixOf (c :: s) with
  | none =>
      obtain ⟨symbol, hs, hc⟩ := hm
      have hn := List.find?_eq_none.1 hf symbol hs
      exact absurd (List.isPrefixOf_iff_prefix.2 (hc ▸ ⟨s, rfl⟩)) hn
  | some symbol =>
      have hp : symbol.toList.isPrefixOf (c :: s) := by simpa using List.find?_some hf
      have hc := h symbol (List.mem_of_find?_eq_some hf) (List.isPrefixOf_iff_prefix.1 hp)
      rw [Option.map_some, ← String.length_toList, hc]
      rfl

/-- Delimiters that no operator goes on with. -/
def delimiters : List Char := ['(', ')', '[', ']', '\x7b', '\x7d', ',', ';']

/-- A slash in front of a star is an operator where no comment can end. -/
theorem piece_unclosed (h : blockComment s = none) :
    piece ('/' :: '*' :: s) = (.token .fixed, 1) := by
  have hstart : isIdentifierStart '/' = false := isIdentifierStart_of_sign (by decide)
  have hliteral : literal ('/' :: '*' :: s) = none := by
    simp [literal, number_eq_zero (c := '/') (by decide) (by decide)]
  have hsymbol : symbolLength ('/' :: '*' :: s) = some 1 := by
    have hall : ∀ symbol ∈ symbols, symbol.toList.head? = some '/' →
        symbol.toList = ['/'] ∨ symbol.toList = ['/', '='] := by decide
    refine symbolLength_eq_one ⟨"/", by decide, by decide⟩ fun symbol hm hp => ?_
    rcases hall symbol hm (head?_of_isPrefix hm hp) with he | he
    · exact he
    · rw [he] at hp
      simp [List.cons_prefix_cons] at hp
  have hspace : isSpace '/' = false := by decide
  have hcomment : comment ('/' :: '*' :: s) = none := by
    rw [comment, h]
    rfl
  simp [piece, hspace, hstart, hcomment, hliteral, hsymbol]

theorem piece_closed {m : Nat} (h : blockComment s = some m) :
    piece ('/' :: '*' :: s) = (.comment, m + 2) := by
  have hspace : isSpace '/' = false := by decide
  have hcomment : comment ('/' :: '*' :: s) = some (m + 2) := by
    rw [comment, h]
    rfl
  rw [piece, if_neg (by simp [hspace]), hcomment]

/-- A slash and a star that are no comment are two operators. -/
theorem piece_open {k : PieceKind} (h : piece ('/' :: '*' :: s) = (k, n)) (hk : k ≠ .comment) :
    blockComment s = none ∧ k = .token .fixed ∧ n = 1 := by
  cases hc : blockComment s with
  | some m =>
      rw [piece_closed hc] at h
      cases h
      exact absurd rfl hk
  | none =>
      rw [piece_unclosed hc] at h
      cases h
      exact ⟨rfl, rfl, rfl⟩

end GoOutline.Syntax.Lexer
