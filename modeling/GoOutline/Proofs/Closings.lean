import GoOutline.Proofs.Denotations

/-!
Where literals end. The literal in front of a text ends at the first double quote that no backslash
escapes, so that a literal of its own ends where it does whatever stands behind it.
-/

namespace GoOutline.Text.Quoted

variable {loose : Bool} {base n value : Nat} {c d : Char} {a b ds e s p q rest v literal : List Char}

section Guards

theorem backslashes_of_not_mem (h : '\\' ∉ s) : backslashes s = 0 := by
  rw [backslashes, List.length_eq_zero_iff, List.takeWhile_eq_nil_iff]
  intro hpos hx
  exact h (List.mem_reverse.1 (beq_iff_eq.1 hx ▸ List.getElem_mem hpos))

/-- Behind something guarded, quotes are escaped by the same backslashes. -/
theorem Guarded.of_append (hp : Guarded p) (h : Guarded (p ++ q)) : Guarded q where
  quotes := by
    intro a b hq
    rw [← backslashes_append hp.stop]
    exact h.quotes (p ++ a) b (by rw [hq, List.append_assoc])
  stop := (backslashes_append hp.stop q).symm.trans h.stop

theorem not_guarded_quote (s : List Char) : ¬ Guarded ('"' :: s) :=
  fun h => absurd (h.quotes [] s rfl) (by decide)

theorem not_guarded_backslash : ¬ Guarded ['\\'] := fun h => absurd h.stop (by decide)

theorem guarded_singleton (hq : c ≠ '"') (hb : c ≠ '\\') : Guarded [c] :=
  guarded_of_not_mem (by simpa using hq.symm) (by simp [backslashes, hb])

theorem guarded_of_throughQuote (h : throughQuote? s = some (a, rest)) :
    ∃ b, a = b ++ ['"'] ∧ s = b ++ '"' :: rest ∧ Guarded b := by
  fun_induction throughQuote? s generalizing a rest with
  | case1 => cases h
  | case2 s =>
      cases h
      exact ⟨[], rfl, rfl, guarded_nil⟩
  | case3 c s ih =>
      obtain ⟨⟨a', r⟩, ha, he⟩ := Option.map_eq_some_iff.1 h
      cases he
      obtain ⟨b, rfl, rfl, hb⟩ := ih ha
      exact ⟨'\\' :: c :: b, rfl, rfl, (guarded_pair c).append hb⟩
  | case4 c s hq hs ih =>
      obtain ⟨⟨a', r⟩, ha, he⟩ := Option.map_eq_some_iff.1 h
      cases he
      obtain ⟨b, rfl, rfl, hb⟩ := ih ha
      obtain ⟨x, t, ht⟩ := List.exists_cons_of_ne_nil (l := b ++ '"' :: rest) (by simp)
      have hc : c ≠ '\\' := fun hc => hs x t hc ht
      exact ⟨c :: b, rfl, rfl, (guarded_singleton hq hc).append hb⟩

theorem throughQuote_of_guarded (h : Guarded b) (rest : List Char) :
    throughQuote? (b ++ '"' :: rest) = some (b ++ ['"'], rest) := by
  induction b using throughQuote?.induct with
  | case1 => rfl
  | case2 s => exact absurd h (not_guarded_quote s)
  | case3 c s ih =>
      have hs : Guarded s := (guarded_pair c).of_append h
      simp only [List.cons_append, throughQuote?, ih hs, Option.map_some]
  | case4 c s hq hs ih =>
      have hc : c ≠ '\\' := by
        rintro rfl
        cases s with
        | nil => exact not_guarded_backslash h
        | cons x s => exact hs x s rfl rfl
      have hrest : Guarded s := (guarded_singleton hq hc).of_append h
      rw [List.cons_append, throughQuote_cons hq hc, ih hrest, Option.map_some, List.cons_append]

/-- The literal in front of a text ends at its first double quote that no backslash escapes. -/
theorem literal?_eq_some_iff : literal? s = some (literal, rest) ↔
    ∃ b, literal = '"' :: b ++ ['"'] ∧ s = literal ++ rest ∧ Guarded b := by
  constructor
  · intro h
    unfold literal? at h
    split at h
    next t =>
      obtain ⟨⟨a, r⟩, ha, he⟩ := Option.map_eq_some_iff.1 h
      cases he
      obtain ⟨b, rfl, rfl, hb⟩ := guarded_of_throughQuote ha
      exact ⟨b, rfl, by simp, hb⟩
    next => cases h
  · rintro ⟨b, rfl, rfl, hb⟩
    have hform : '"' :: b ++ ['"'] ++ rest = '"' :: (b ++ '"' :: rest) := by simp
    rw [hform, literal?, throughQuote_of_guarded hb]
    rfl

end Guards

section Bodies

theorem Numeral.not_mem (h : Numeral loose base n ds value) (hb : base ≤ 36)
    (hd : 36 ≤ digitValue d) (hp : d ≠ '+') : d ∉ ds := by
  have hnone {ds : List Char} (hs : Spells base ds value) : d ∉ ds := fun hm => by
    have hlt := hs.2.1 d hm
    omega
  rcases h.2 with hs | ⟨-, ds', rfl, hs⟩
  · exact hnone hs
  · simp [hp, hnone hs]

theorem guarded_numeral (h : Numeral loose base n ds value) (hb : base ≤ 36) : Guarded ds := by
  refine guarded_of_not_mem (h.not_mem hb (by decide) (by decide)) ?_
  rw [backslashes_of_not_mem (h.not_mem hb (by decide) (by decide))]

/-- An escape takes its backslash, and has none for what follows. -/
theorem guarded_escape (h : Escape loose e c) : Guarded ('\\' :: e) := by
  cases h with
  | letter h => exact guarded_pair _
  | byte h hc => exact (guarded_pair 'x').append (guarded_numeral h (by decide))
  | short h => exact (guarded_pair 'u').append (guarded_numeral h (by decide))
  | long h => exact (guarded_pair 'U').append (guarded_numeral h (by decide))
  | octal h hc =>
      have hds : Guarded e := guarded_numeral h (by decide)
      -- The first digit is no quote or backslash, so that the others stand for themselves.
      cases e with
      | nil => cases h.1
      | cons d ds =>
          have hd : Guarded [d] := by
            refine guarded_singleton ?_ ?_
            · rintro rfl
              exact not_guarded_quote _ hds
            · rintro rfl
              exact absurd h.digit_of_exact (by decide)
          exact (guarded_pair d).append (hd.of_append hds)

theorem guarded_of_body (h : Body loose s v) : Guarded s := by
  induction h with
  | nil => exact guarded_nil
  | plain hq hl hb _ ih => exact (guarded_singleton hq hb).append ih
  | escape he _ ih => exact (guarded_escape he).append ih

/-- What denotes a text ends where it is written to end. -/
theorem guarded_of_unquote (h : unquote ('"' :: b ++ ['"']) = some v) : Guarded b := by
  rw [unquote_interpreted] at h
  exact guarded_of_body (decode_eq_some_iff.1 h)

theorem literal?_of_unquote (h : unquote ('"' :: b ++ ['"']) = some v) (rest : List Char) :
    literal? ('"' :: b ++ ['"'] ++ rest) = some ('"' :: b ++ ['"'], rest) :=
  literal?_eq_some_iff.2 ⟨b, rfl, rfl, guarded_of_unquote h⟩

end Bodies

end GoOutline.Text.Quoted
