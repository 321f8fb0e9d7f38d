import Mathlib.Data.List.TakeWhile
import GoOutline.Proofs.Settled
import GoOutline.Tags

/-!
String literals of a settled text. An interpreted literal that denotes a text has no line feed. A raw
one loses blanks at the ends of its lines, which no tag goes beyond.
-/

namespace GoOutline.Text.Quoted

variable {s r u rest a : List Char} {c d : Char} {n base : Nat}

theorem newline_not_digit (hb : base ≤ 36) : isDigitOf base '\n' = false := by
  have hv : digitValue '\n' = 36 := by decide
  rw [isDigitOf, hv, decide_eq_false_iff_not]
  omega

theorem newline_not_mem_numeral (hb : base ≤ 36) (h : numeral? base s = some n) : '\n' ∉ s := by
  rw [numeral?] at h
  split at h
  · cases h
  next hd =>
    simp only [Bool.or_eq_true, Bool.not_eq_true', not_or, Bool.not_eq_false] at hd
    intro hm
    have := List.all_eq_true.1 hd.2 _ hm
    rw [newline_not_digit hb] at this
    cases this

theorem newline_not_mem_signedNumeral (hb : base ≤ 36) (h : signedNumeral? base s = some n) :
    '\n' ∉ s := by
  unfold signedNumeral? at h
  split at h
  · simpa using newline_not_mem_numeral hb h
  · exact newline_not_mem_numeral hb h

theorem fixedWidth_takes (hb : base ≤ 36) {value : Nat}
    (h : fixedWidth n base s = some (value, rest)) : ∃ u, s = u ++ rest ∧ '\n' ∉ u := by
  rw [fixedWidth] at h
  split at h
  · cases h
  · obtain ⟨v, hv, he⟩ := Option.map_eq_some_iff.1 h
    cases he
    exact ⟨s.take n, (List.take_append_drop n s).symm, newline_not_mem_signedNumeral hb hv⟩

theorem asciiEscape_takes (hb : base ≤ 36) (h : asciiEscape n base s = some (c, rest)) :
    ∃ u, s = u ++ rest ∧ '\n' ∉ u := by
  obtain ⟨⟨value, r⟩, hw, h⟩ := Option.bind_eq_some_iff.1 h
  dsimp only at h
  split at h
  · cases h
    exact fixedWidth_takes hb hw
  · cases h

theorem scalarEscape_takes (h : scalarEscape n s = some (c, rest)) :
    ∃ u, s = u ++ rest ∧ '\n' ∉ u := by
  obtain ⟨⟨value, r⟩, hw, h⟩ := Option.bind_eq_some_iff.1 h
  obtain ⟨d, _, h⟩ := Option.bind_eq_some_iff.1 h
  cases h
  exact fixedWidth_takes (by decide) hw

/-- No escape takes a line feed. -/
theorem escape_takes (h : escape s = some (c, rest)) : ∃ u, s = u ++ rest ∧ '\n' ∉ u := by
  cases s with
  | nil => cases h
  | cons a s =>
      have hcons : (∃ u, s = u ++ rest ∧ '\n' ∉ u) → a ≠ '\n' → ∃ u, a :: s = u ++ rest ∧ '\n' ∉ u := by
        rintro ⟨u, rfl, hu⟩ ha
        exact ⟨a :: u, rfl, by simp [hu, Ne.symm ha]⟩
      simp only [escape] at h
      split at h
      next hs =>
        cases h
        refine hcons ⟨[], rfl, by simp⟩ ?_
        rintro rfl
        cases hs
      split at h
      next ha => exact hcons (asciiEscape_takes (by decide) h) (by rw [ha]; decide)
      split at h
      next ha => exact hcons (scalarEscape_takes h) (by rw [ha]; decide)
      split at h
      next ha => exact hcons (scalarEscape_takes h) (by rw [ha]; decide)
      split at h
      · exact asciiEscape_takes (by decide) h
      · cases h

theorem decode_newline (h : '\n' ∈ s) : decode s = none := by
  fun_induction decode s with
  | case1 => cases h
  | case2 => rfl
  | case3 => rfl
  | case4 r d rest he _ ih =>
      obtain ⟨u, rfl, hu⟩ := escape_takes he
      have hm : '\n' ∈ rest := by simpa [hu] using h
      rw [ih hm, Option.map_none]
  | case5 c r hq _ ih =>
      rw [not_or] at hq
      have hm : '\n' ∈ r := (List.mem_cons.1 h).resolve_left fun he => hq.2 he.symm
      rw [ih hm, Option.map_none]

/-- The two forms of literals that denote a text. -/
theorem unquote_raw (b : List Char) : unquote (Char.ofNat 0x60 :: b ++ [Char.ofNat 0x60]) =
    some (b.filter (· ≠ '\r')) := by
  have ha : after? "`" (Char.ofNat 0x60 :: b ++ [Char.ofNat 0x60]) =
      some (b ++ [Char.ofNat 0x60]) := rfl
  have hb : before? "`" (b ++ [Char.ofNat 0x60]) = some b :=
    List.isSuffixOf?_eq_some_iff_append_eq.2 rfl
  rw [unquote, ha, Option.bind_some, hb]

theorem exists_of_unquote {p : List Char} (h : unquote s = some p) :
    (∃ b, s = Char.ofNat 0x60 :: b ++ [Char.ofNat 0x60] ∧ p = b.filter (· ≠ '\r')) ∨
      ∃ b, s = '"' :: b ++ ['"'] ∧ decode b = some p := by
  unfold unquote at h
  split at h
  next b hb =>
    obtain ⟨t, ht, hb⟩ := Option.bind_eq_some_iff.1 hb
    have hs : Char.ofNat 0x60 :: t = s := List.append_eq_of_isPrefixOf?_eq_some ht
    have ht : b ++ [Char.ofNat 0x60] = t := List.isSuffixOf?_eq_some_iff_append_eq.1 hb
    exact .inl ⟨b, by rw [← hs, ← ht]; rfl, (Option.some.inj h).symm⟩
  next =>
    obtain ⟨b, hb, hd⟩ := Option.bind_eq_some_iff.1 h
    obtain ⟨t, ht, hb⟩ := Option.bind_eq_some_iff.1 hb
    have hs : '"' :: t = s := List.append_eq_of_isPrefixOf?_eq_some ht
    have ht : b ++ ['"'] = t := List.isSuffixOf?_eq_some_iff_append_eq.1 hb
    exact .inr ⟨b, by rw [← hs, ← ht]; rfl, hd⟩

theorem unquote_cases {p : List Char} (h : unquote s = some p) :
    (∃ b, s = Char.ofNat 0x60 :: b ++ [Char.ofNat 0x60] ∧ p = b.filter (· ≠ '\r')) ∨ '\n' ∉ s := by
  refine (exists_of_unquote h).imp_right ?_
  rintro ⟨b, rfl, hd⟩ hm
  have hb : '\n' ∈ b := by simpa using hm
  rw [decode_newline hb] at hd
  cases hd

theorem exists_raw_of_tidy {b : List Char}
    (h : tidy s = Char.ofNat 0x60 :: b ++ [Char.ofNat 0x60]) :
    ∃ b, s = Char.ofNat 0x60 :: b ++ [Char.ofNat 0x60] := by
  obtain ⟨t, rfl⟩ := List.head?_eq_some_iff.1 (head?_of_tidy (by rw [h]; rfl) (by decide))
  have hlast := getLast?_tidy (Char.ofNat 0x60 :: t)
  rw [h, List.getLast?_concat] at hlast
  cases t with
  | nil =>
      have hlen := congrArg List.length h
      simp [tidy] at hlen
  | cons a t =>
      rw [List.getLast?_cons_cons] at hlast
      obtain ⟨b, hb⟩ := List.getLast?_eq_some_iff.1 hlast.symm
      exact ⟨b, by rw [hb]; rfl⟩

/-- What denotes no text denotes none when it is tidied. -/
theorem unquote_tidy_eq_none (h : unquote s = none) : unquote (tidy s) = none := by
  by_contra hne
  obtain ⟨p, hp⟩ := Option.ne_none_iff_exists'.1 hne
  rcases unquote_cases hp with ⟨b, hb, -⟩ | hn
  · obtain ⟨b', rfl⟩ := exists_raw_of_tidy hb
    rw [unquote_raw] at h
    cases h
  · rw [tidy_eq_self (mt mem_tidy_newline.2 hn), h] at hp
    cases hp

/-- A literal that denotes one line is tidy. -/
theorem tidy_of_unquote {p : List Char} (h : unquote s = some p) (hp : '\n' ∉ p) : tidy s = s := by
  refine tidy_eq_self ?_
  rcases unquote_cases h with ⟨b, rfl, rfl⟩ | hn
  · simpa using hp
  · exact hn

/-- The end of a line behind blanks. -/
inductive Inert : List Char → Prop
  | nil : Inert []
  | newline (s : List Char) : Inert ('\n' :: s)
  | blank {c : Char} {s : List Char} (hc : isBlank c) (hs : Inert s) : Inert (c :: s)

theorem Inert.head? (h : Inert r) : ∀ c ∈ r.head?, isBlank c := by
  cases h with
  | nil => simp
  | newline s => simp [isBlank_newline]
  | blank hc hs => simpa using hc

theorem Inert.blanks {w : List Char} (hw : ∀ c ∈ w, isBlank c) (h : Inert r) : Inert (w ++ r) := by
  induction w with
  | nil => exact h
  | cons c w ih =>
      exact .blank (hw c List.mem_cons_self) (ih fun x hx => hw x (List.mem_cons_of_mem c hx))

theorem throughQuote_append (h : throughQuote? s = some (a, rest)) (r : List Char) :
    throughQuote? (s ++ r) = some (a, rest ++ r) := by
  fun_induction throughQuote? s generalizing a rest with
  | case1 => cases h
  | case2 s => cases h; rfl
  | case3 c s ih =>
    obtain ⟨⟨b, q⟩, hb, he⟩ := Option.map_eq_some_iff.1 h
    cases he
    simp [throughQuote?, ih hb]
  | case4 c s hq hs ih =>
    obtain ⟨⟨b, q⟩, hb, he⟩ := Option.map_eq_some_iff.1 h
    cases he
    have hs' : ∀ x t, c = '\\' → s ++ r = x :: t → False := by
      intro x t hc ht
      cases s with
      | nil => cases hb
      | cons y s => exact hs y s hc rfl
    rw [List.cons_append, throughQuote?.eq_4 _ _ hq hs', ih hb]
    rfl

theorem throughQuote_cons {x : Char} (hq : x ≠ '"') (hb : x ≠ '\\') (s : List Char) :
    throughQuote? (x :: s) = (throughQuote? s).map fun (a, rest) => (x :: a, rest) :=
  throughQuote?.eq_4 x s hq fun _ _ hc => absurd hc hb

theorem Inert.newline_mem (hr : Inert r) (h : throughQuote? r = some (a, rest)) : '\n' ∈ a := by
  induction hr generalizing a with
  | nil => cases h
  | newline s =>
      rw [throughQuote_cons (by decide) (by decide)] at h
      obtain ⟨_, _, he⟩ := Option.map_eq_some_iff.1 h
      cases he
      exact List.mem_cons_self
  | @blank c s hc hs ih =>
      have hq : c ≠ '"' := by
        rintro rfl
        exact absurd hc (by decide)
      have hb : c ≠ '\\' := by
        rintro rfl
        exact absurd hc (by decide)
      rw [throughQuote_cons hq hb] at h
      obtain ⟨⟨b, q⟩, hs, he⟩ := Option.map_eq_some_iff.1 h
      cases he
      exact List.mem_cons_of_mem c (ih hs)

/-- A quote behind the end of a line is behind its line feed. -/
theorem newline_mem_throughQuote (hr : Inert r) (h : throughQuote? s = none)
    (h' : throughQuote? (s ++ r) = some (a, rest)) : '\n' ∈ a := by
  fun_induction throughQuote? s generalizing a with
  | case1 => exact hr.newline_mem h'
  | case2 => cases h
  | case3 c s ih =>
      rw [List.cons_append, List.cons_append, throughQuote?.eq_3] at h'
      obtain ⟨⟨b, q⟩, hs, he⟩ := Option.map_eq_some_iff.1 h'
      cases he
      simp [ih (by simpa using h) hs]
  | case4 c s hq hs ih =>
      by_cases hc : c = '\\'
      · obtain rfl : s = [] := by
          cases s with
          | nil => rfl
          | cons x t => exact absurd rfl (hs x t hc)
        subst hc
        cases hr with
        | nil => cases h'
        | newline t =>
            rw [List.cons_append, List.nil_append, throughQuote?.eq_3] at h'
            obtain ⟨_, _, he⟩ := Option.map_eq_some_iff.1 h'
            cases he
            simp
        | blank hx ht =>
            rw [List.cons_append, List.nil_append, throughQuote?.eq_3] at h'
            obtain ⟨⟨b, q⟩, hb, he⟩ := Option.map_eq_some_iff.1 h'
            cases he
            simp [ht.newline_mem hb]
      · rw [List.cons_append, throughQuote_cons hq hc] at h'
        obtain ⟨⟨b, q⟩, hb, he⟩ := Option.map_eq_some_iff.1 h'
        cases he
        exact List.mem_cons_of_mem c (ih (by simpa using h) hb)

theorem literal?_append (h : literal? s = some (a, rest)) (r : List Char) :
    literal? (s ++ r) = some (a, rest ++ r) := by
  unfold literal? at h
  split at h
  next s =>
    obtain ⟨⟨b, q⟩, hb, he⟩ := Option.map_eq_some_iff.1 h
    cases he
    simp [literal?, throughQuote_append hb]
  next => cases h

/-- A literal that goes on behind the end of a line denotes no text. -/
theorem unquote_literal? (hr : Inert r) (h : literal? s = none)
    (h' : literal? (s ++ r) = some (a, rest)) : unquote a = none := by
  unfold literal? at h'
  split at h'
  next t ht =>
    obtain ⟨⟨b, q⟩, hb, he⟩ := Option.map_eq_some_iff.1 h'
    cases he
    cases s with
    | nil =>
        have hq := hr.head? '"' (by rw [← List.nil_append r, ht]; rfl)
        exact absurd hq (by decide)
    | cons c s =>
        obtain ⟨rfl, rfl⟩ := List.cons.inj ht
        have hn := newline_mem_throughQuote hr (by simpa [literal?] using h) hb
        by_contra hne
        obtain ⟨p, hp⟩ := Option.ne_none_iff_exists'.1 hne
        rcases unquote_cases hp with ⟨d, hd, -⟩ | hm
        · exact absurd (List.cons.inj hd).1 (by decide)
        · exact hm (List.mem_cons_of_mem _ hn)
  next => cases h'

theorem Inert.dropWhile {p : Char → Bool} (hp : p '\n' = false) (h : Inert r) :
    Inert (r.dropWhile p) := by
  induction h with
  | nil => exact .nil
  | newline s =>
      rw [List.dropWhile_cons_of_neg (by simp [hp])]
      exact .newline s
  | @blank c s hc hs ih =>
      rw [List.dropWhile_cons]
      split
      · exact ih
      · exact .blank hc hs

end GoOutline.Text.Quoted

namespace GoOutline.Tags

open Text Text.Quoted

variable {s r : List Char}

/-- The pairs in front of a text, in one step. -/
theorem scan_eq (s : List Char) : scan s =
    match key? (s.dropWhile (· == ' ')) with
    | none => []
    | some (key, behind) =>
      match literal? behind with
      | none => []
      | some (literal, rest) =>
        match unquote literal with
        | none => []
        | some value => (String.ofList key, String.ofList value) :: scan rest := by
  rw [scan]
  split
  next hk => rw [hk]
  next key behind hk =>
    rw [hk]
    dsimp only
    split
    next hl => rw [hl]
    next literal rest hl => cases hu : unquote literal <;> simp only [hl, hu]

theorem key?_inert (h : Inert r) : key? r = none := by
  unfold key?
  split
  next rest hr =>
    have hc := (h.dropWhile (p := isKeyChar) (by decide)).head? ':' (by rw [hr]; rfl)
    exact absurd hc (by decide)
  next => rfl

theorem key?_of_append {w : List Char} (hw : ∀ x ∈ w, isKeyChar x) {c : Char}
    (hc : isKeyChar c = false) (s : List Char) : key? (w ++ c :: s) =
      if c = ':' ∧ w ≠ [] then some (w, s) else none := by
  have hd : (w ++ c :: s).dropWhile isKeyChar = c :: s := by
    rw [List.dropWhile_append_of_pos hw, List.dropWhile_cons_of_neg (by simp [hc])]
  have ht : (w ++ c :: s).takeWhile isKeyChar = w := by
    rw [List.takeWhile_append_of_pos hw, List.takeWhile_cons_of_neg (by simp [hc]), List.append_nil]
  have hh : isKeyChar ((w ++ c :: s).headD ' ') ↔ w ≠ [] := by
    cases w with
    | nil => simp [hc]
    | cons x w => simpa using hw x List.mem_cons_self
  rw [key?, hd, ht]
  by_cases hcolon : c = ':'
  · subst hcolon
    simp only [hh, true_and]
  · rw [if_neg fun h => hcolon h.1]
    split
    next he => exact absurd (List.cons.inj he).1 hcolon
    next => rfl

theorem key?_append (hr : Inert r) (s : List Char) :
    key? (s ++ r) = (key? s).map fun (key, behind) => (key, behind ++ r) := by
  have hw : ∀ x ∈ s.takeWhile isKeyChar, isKeyChar x := fun _ hx => List.mem_takeWhile_imp hx
  have hs := List.takeWhile_append_dropWhile (p := isKeyChar) (l := s)
  cases hd : s.dropWhile isKeyChar with
  | nil =>
      have hnone : key? s = none := by rw [key?, hd]
      rw [hnone, key?, List.dropWhile_append, hd]
      simp only [List.isEmpty_nil, if_true, Option.map_none]
      split
      next rest he =>
        have hc := (hr.dropWhile (p := isKeyChar) (by decide)).head? ':' (by rw [he]; rfl)
        exact absurd hc (by decide)
      next => rfl
  | cons c t =>
      have hc : isKeyChar c = false := by
        have := List.head?_dropWhile_not isKeyChar s
        simpa [hd] using this
      rw [hd] at hs
      rw [← hs, List.append_assoc, List.cons_append, key?_of_append hw hc, key?_of_append hw hc]
      split <;> rfl

/-- Tags do not go on behind the end of a line. -/
theorem scan_append (hr : Inert r) (s : List Char) : scan (s ++ r) = scan s := by
  induction hn : s.length using Nat.strongRecOn generalizing s with
  | _ n ih =>
      subst hn
      have hk : key? ((s ++ r).dropWhile (· == ' ')) =
          (key? (s.dropWhile (· == ' '))).map fun (key, behind) => (key, behind ++ r) := by
        rw [List.dropWhile_append]
        split
        next he =>
          rw [List.isEmpty_iff.1 he, key?_inert (hr.dropWhile (by decide))]
          rfl
        next => exact key?_append hr _
      rw [scan_eq, scan_eq s, hk]
      cases hs : key? (s.dropWhile (· == ' ')) with
      | none => rfl
      | some x =>
          obtain ⟨key, behind⟩ := x
          simp only [Option.map_some]
          cases hl : literal? behind with
          | some y =>
              obtain ⟨lit, rest⟩ := y
              have hlen : rest.length < s.length := by
                have := length_of_key hs
                have := length_of_literal hl
                have := (List.dropWhile_sublist (· == ' ') (l := s)).length_le
                omega
              rw [literal?_append hl]
              simp only [ih rest.length hlen rest rfl]
          | none =>
              cases hl' : literal? (behind ++ r) with
              | none => rfl
              | some y =>
                  obtain ⟨lit, rest⟩ := y
                  simp only [unquote_literal? hr hl hl']

theorem scan_filter_tidy (b : List Char) :
    scan ((tidy b).filter (· ≠ '\r')) = scan (b.filter (· ≠ '\r')) := by
  rcases exists_line b with hb | ⟨l, r, rfl, hl⟩
  · rw [tidy_eq_self hb]
  · obtain ⟨w, hw, hblank⟩ := Syntax.Lexer.exists_trimEnd_append l
    have hnew (s : List Char) : Inert (('\n' :: s).filter (· ≠ '\r')) := .newline _
    have hold : Inert (w.filter (· ≠ '\r') ++ ('\n' :: r).filter (· ≠ '\r')) :=
      (hnew r).blanks fun c hc => hblank c (List.mem_of_mem_filter hc)
    calc scan ((tidy (l ++ '\n' :: r)).filter (· ≠ '\r'))
        = scan ((trimEnd l).filter (· ≠ '\r')) := by
          rw [tidy_line hl, List.filter_append, scan_append (hnew (tidy r))]
      _ = scan ((l ++ '\n' :: r).filter (· ≠ '\r')) := by
          conv => rhs; rw [hw]
          rw [List.filter_append, List.filter_append, List.append_assoc, scan_append hold]

/-- Tags are read up to the first line feed, whatever blanks stand in front of it. -/
theorem ofLiteral_tidy (s : List Char) : ofLiteral (tidy s) = ofLiteral s := by
  cases hu : unquote s with
  | none => rw [ofLiteral, ofLiteral, hu, unquote_tidy_eq_none hu]
  | some p =>
      rcases unquote_cases hu with ⟨b, rfl, rfl⟩ | hn
      · have hquote : isBlank (Char.ofNat 0x60) = false := by decide
        have hend : tidy [Char.ofNat 0x60] = [Char.ofNat 0x60] := by decide
        have ht : tidy (Char.ofNat 0x60 :: b ++ [Char.ofNat 0x60]) =
            Char.ofNat 0x60 :: tidy b ++ [Char.ofNat 0x60] := by
          rw [tidy_append (by rw [hend]; decide), hend, tidy_cons (.inl hquote)]
        rw [ofLiteral, ofLiteral, ht, unquote_raw, unquote_raw]
        simp only [ofText, scan_filter_tidy]
      · rw [tidy_eq_self hn]

end GoOutline.Tags
