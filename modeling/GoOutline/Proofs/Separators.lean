import GoOutline.Edit.Splice
import GoOutline.Proofs.CommentStyles

/-!
Commas that separate. In front of such a comma stands a gap, which is made of blanks and closed
comments. A comma is found exactly if it stands where the gap in front of a text ends.
-/

namespace GoOutline.Splice

open Text Syntax

/-- Blanks and comments, each comment up to the first star and slash in it. -/
inductive Gap : List Char → Prop
  | nil : Gap []
  | blank {c : Char} {s : List Char} (hc : isBlank c) (hs : Gap s) : Gap (c :: s)
  | comment {body s : List Char} (hb : ¬ ['*', '/'] <:+: body) (hs : Gap s) :
      Gap ('/' :: '*' :: body ++ ['*', '/'] ++ s)

/-- What stands behind a gap and is no comma: nothing, another character, a slash that starts a line
comment or none at all, or a comment without an end. -/
inductive Barred : List Char → Prop
  | nil : Barred []
  | other {c : Char} {s : List Char} (hb : isBlank c = false) (hc : c ≠ ',') (hs : c ≠ '/') :
      Barred (c :: s)
  | slash {s : List Char} (h : s.head? ≠ some '*') : Barred ('/' :: s)
  | unclosed {s : List Char} (h : ¬ ['*', '/'] <:+: s) : Barred ('/' :: '*' :: s)

variable {a body gap rest s : List Char} {c : Char} {n : Nat}

section Comments

/-- The comments that are passed by are those that the front end reads. -/
theorem throughClose?_eq (s : List Char) :
    throughClose? s = (Lexer.blockComment s).map s.splitAt := by
  fun_induction throughClose? s with
  | case1 => rfl
  | case2 s => simp [Lexer.blockComment, List.splitAt_eq]
  | case3 c s h ih =>
      rw [Lexer.blockComment.eq_3 c s h, ih, Option.map_map, Option.map_map]
      congr 1
      funext n
      simp [List.splitAt_eq]

theorem throughClose?_eq_none : throughClose? s = none ↔ ¬ ['*', '/'] <:+: s := by
  rw [throughClose?_eq, Option.map_eq_none_iff, Lexer.blockComment_eq_none]

theorem throughClose?_append (h : ¬ ['*', '/'] <:+: body) (rest : List Char) :
    throughClose? (body ++ ['*', '/'] ++ rest) = some (body ++ ['*', '/'], rest) := by
  have htext : body ++ ['*', '/'] ++ rest = body ++ '*' :: '/' :: rest := by simp
  have hlen : body.length + 2 = (body ++ ['*', '/']).length := by simp
  rw [throughClose?_eq, htext, Docs.blockComment_of_unclosed h, ← htext, Option.map_some,
    List.splitAt_eq, hlen, List.take_left, List.drop_left]

theorem exists_of_throughClose? (h : throughClose? s = some (a, rest)) :
    ∃ body, a = body ++ ['*', '/'] ∧ s = a ++ rest ∧ ¬ ['*', '/'] <:+: body := by
  fun_induction throughClose? s generalizing a rest with
  | case1 => contradiction
  | case2 s =>
      cases h
      exact ⟨[], rfl, rfl, by simp⟩
  | case3 c s hc ih =>
      obtain ⟨⟨b, r⟩, hb, he⟩ := Option.map_eq_some_iff.1 h
      cases he
      obtain ⟨body, rfl, rfl, hbody⟩ := ih hb
      refine ⟨c :: body, rfl, rfl, ?_⟩
      rw [List.infix_cons_iff, not_or]
      refine ⟨?_, hbody⟩
      -- A star and a slash in front would have ended the comment.
      rintro ⟨t, ht⟩
      obtain ⟨rfl, rfl⟩ := List.cons_eq_cons.1 ht
      exact hc _ rfl rfl

theorem byteLength_slash_star (s : List Char) :
    byteLength ('/' :: '*' :: s) = 2 + byteLength s := by
  show 1 + (1 + byteLength s) = 2 + byteLength s
  omega

end Comments

section Commas

theorem map_add_map (m n : Nat) (x : Option Nat) :
    (x.map (n + ·)).map (m + ·) = x.map (m + n + ·) := by
  rw [Option.map_map]
  congr 1
  funext k
  exact (Nat.add_assoc m n k).symm

/-- What is found, by what stands behind the blanks in front of a text. -/
theorem leadingComma?_eq (s : List Char) : leadingComma? s =
    match s.dropWhile isBlank with
    | ',' :: _ => some (byteLength (s.takeWhile isBlank))
    | '/' :: '*' :: body =>
      match throughClose? body with
      | none => none
      | some (comment, rest) =>
        (leadingComma? rest).map (byteLength (s.takeWhile isBlank) + 2 + byteLength comment + ·)
    | _ => none := by
  rw [leadingComma?]
  split
  next h => simp only [h]
  next h =>
    split
    next hb => simp only [h, hb]
    next hb => simp only [h, hb]
  next => simp only

theorem leadingComma?_comma (s : List Char) : leadingComma? (',' :: s) = some 0 := by
  have hc : isBlank ',' = false := by decide
  simp [leadingComma?_eq, hc, byteLength]

theorem leadingComma?_blank (hc : isBlank c) (s : List Char) :
    leadingComma? (c :: s) = (leadingComma? s).map (c.utf8Size + ·) := by
  rw [leadingComma?_eq, leadingComma?_eq s, List.dropWhile_cons_of_pos hc,
    List.takeWhile_cons_of_pos hc]
  split
  next => rfl
  next =>
    split
    next => rfl
    next =>
      rw [map_add_map]
      simp only [byteLength, Nat.add_assoc]
  next => rfl

theorem leadingComma?_slash_star (s : List Char) : leadingComma? ('/' :: '*' :: s) =
    (throughClose? s).bind fun x => (leadingComma? x.2).map (2 + byteLength x.1 + ·) := by
  have hslash : isBlank '/' = false := by decide
  rw [leadingComma?_eq, List.dropWhile_cons_of_neg (by simp [hslash]),
    List.takeWhile_cons_of_neg (by simp [hslash])]
  simp only [byteLength, Nat.zero_add]
  cases throughClose? s <;> rfl

/-- A gap is passed by as a whole. -/
theorem leadingComma?_append (h : Gap gap) (s : List Char) :
    leadingComma? (gap ++ s) = (leadingComma? s).map (byteLength gap + ·) := by
  induction h with
  | nil => simp [byteLength]
  | @blank c gap hc _ ih =>
      rw [List.cons_append, leadingComma?_blank hc, ih, map_add_map]
      rfl
  | @comment body gap hb _ ih =>
      have htext : '/' :: '*' :: body ++ ['*', '/'] ++ gap ++ s =
          '/' :: '*' :: (body ++ ['*', '/'] ++ (gap ++ s)) := by simp
      rw [htext, leadingComma?_slash_star, throughClose?_append hb, Option.bind_some, ih,
        map_add_map]
      simp only [byteLength_append, byteLength_slash_star, Nat.add_assoc]

theorem leadingComma?_barred (h : Barred s) : leadingComma? s = none := by
  have hslash : isBlank '/' = false := by decide
  cases h with
  | nil => simp [leadingComma?_eq]
  | other hb hc hs =>
      rw [leadingComma?_eq, List.dropWhile_cons_of_neg (by simp [hb])]
      split
      next he => exact absurd (List.cons_eq_cons.1 he).1 hc
      next he => exact absurd (List.cons_eq_cons.1 he).1 hs
      next => rfl
  | slash h =>
      rw [leadingComma?_eq, List.dropWhile_cons_of_neg (by simp [hslash])]
      split
      next he => cases he
      next he =>
        obtain rfl := (List.cons_eq_cons.1 he).2
        exact absurd rfl h
      next => rfl
  | unclosed h => rw [leadingComma?_slash_star, throughClose?_eq_none.2 h, Option.bind_none]

/-- Every text starts with a gap that goes up to a comma or is barred behind it. -/
theorem exists_gap (s : List Char) :
    ∃ gap rest, Gap gap ∧ s = gap ++ rest ∧ (rest.head? = some ',' ∨ Barred rest) := by
  induction hn : s.length using Nat.strongRecOn generalizing s with
  | _ n ih =>
      subst hn
      cases s with
      | nil => exact ⟨[], [], .nil, rfl, .inr .nil⟩
      | cons c s =>
          by_cases hb : isBlank c
          · obtain ⟨gap, rest, hgap, rfl, hrest⟩ := ih s.length (Nat.lt_succ_self _) s rfl
            exact ⟨c :: gap, rest, .blank hb hgap, rfl, hrest⟩
          by_cases hc : c = ','
          · exact ⟨[], c :: s, .nil, rfl, .inl (by rw [hc]; rfl)⟩
          by_cases hs : c = '/'
          · subst hs
            by_cases hstar : s.head? = some '*'
            · obtain ⟨s, rfl⟩ := List.head?_eq_some_iff.1 hstar
              cases hclose : throughClose? s with
              | none =>
                  exact ⟨[], _, .nil, rfl, .inr (.unclosed (throughClose?_eq_none.1 hclose))⟩
              | some x =>
                  obtain ⟨comment, rest⟩ := x
                  have hlen : rest.length < ('/' :: '*' :: s).length :=
                    Nat.lt_add_right 2 (length_of_throughClose hclose)
                  obtain ⟨gap, rest, hgap, rfl, hrest⟩ := ih rest.length hlen rest rfl
                  obtain ⟨body, rfl, rfl, hbody⟩ := exists_of_throughClose? hclose
                  exact ⟨_, rest, .comment hbody hgap, by simp, hrest⟩
            · exact ⟨[], _, .nil, rfl, .inr (.slash hstar)⟩
          · exact ⟨[], _, .nil, rfl, .inr (.other (by simpa using hb) hc hs)⟩

theorem leadingComma?_eq_some : leadingComma? s = some n ↔
    ∃ gap rest, Gap gap ∧ s = gap ++ ',' :: rest ∧ byteLength gap = n := by
  constructor
  · intro h
    obtain ⟨gap, rest, hgap, rfl, hcomma | hbarred⟩ := exists_gap s
    · obtain ⟨rest, rfl⟩ := List.head?_eq_some_iff.1 hcomma
      rw [leadingComma?_append hgap, leadingComma?_comma] at h
      exact ⟨gap, rest, hgap, rfl, Option.some.inj h⟩
    · rw [leadingComma?_append hgap, leadingComma?_barred hbarred] at h
      cases h
  · rintro ⟨gap, rest, hgap, rfl, rfl⟩
    rw [leadingComma?_append hgap, leadingComma?_comma]
    rfl

theorem leadingComma?_eq_none : leadingComma? s = none ↔
    ∃ gap rest, Gap gap ∧ s = gap ++ rest ∧ Barred rest := by
  constructor
  · intro h
    obtain ⟨gap, rest, hgap, rfl, hcomma | hbarred⟩ := exists_gap s
    · obtain ⟨rest, rfl⟩ := List.head?_eq_some_iff.1 hcomma
      rw [leadingComma?_append hgap, leadingComma?_comma] at h
      cases h
    · exact ⟨gap, rest, hgap, rfl, hbarred⟩
  · rintro ⟨gap, rest, hgap, rfl, hbarred⟩
    rw [leadingComma?_append hgap, leadingComma?_barred hbarred]
    rfl

end Commas

end GoOutline.Splice
