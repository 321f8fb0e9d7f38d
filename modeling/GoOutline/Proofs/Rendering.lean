import GoOutline.Json.Read
import GoOutline.Proofs.Quoting

/-!
Texts of JSON values. A value reads back from its text, whatever stands behind it: strings because
each character is written in a way that denotes it, arrays and objects because their items do and
nothing but a comma or a bracket follows an item.
-/

namespace GoOutline.Json

open Text Read

variable {c : Char} {v w rest : List Char} {n : Nat} {j : Json}

theorem skip_append (h : w.all isSpace) (s : List Char) : skip (w ++ s) = skip s := by
  rw [skip, List.dropWhile_append_of_pos]
  · rfl
  · simpa using h

theorem skip_of_head (h : isSpace c = false) (s : List Char) : skip (c :: s) = c :: s := by
  rw [skip, List.dropWhile_cons_of_neg (by simp [h])]

theorem value_append (h : w.all isSpace) (n : Nat) (s : List Char) :
    value n (w ++ s) = value n s := by
  cases n with
  | zero => simp [value]
  | succ n => simp only [value, skip_append h]

theorem items_append (h : w.all isSpace) (n : Nat) (s : List Char) :
    Read.items n (w ++ s) = Read.items n s := by
  cases n with
  | zero => simp [Read.items]
  | succ n => simp only [Read.items, value_append h]

theorem members_append (h : w.all isSpace) (n : Nat) (s : List Char) :
    Read.members n (w ++ s) = Read.members n s := by
  cases n with
  | zero => simp [Read.members]
  | succ n => simp only [Read.members, skip_append h]

theorem unicodeEscape?_hex4 (h : c.toNat < 0x20) (rest : List Char) :
    unicodeEscape? (hex4 c.toNat ++ rest) = some (c, rest) := by
  have hunit : unit? (hex4 c.toNat ++ rest) = some (c.toNat, rest) := by
    have hlen : (hex4 c.toNat).length = 4 := rfl
    rw [unit?, if_neg (by simp [hlen]), List.take_left' hlen, List.drop_left' hlen,
      numeral?_hex4 (by omega)]
    rfl
  simp [unicodeEscape?, hunit, scalar?_toNat]
  omega

/-- The three ways of writing a character: an escape of one letter, an escape of four digits, or the
character itself. -/
theorem renderChar_cases (c : Char) :
    (∃ e, renderChar c = ['\\', e] ∧ e ≠ 'u' ∧ simpleEscape? e = some c) ∨
    (renderChar c = '\\' :: 'u' :: hex4 c.toNat ∧ c.toNat < 0x20) ∨
    (renderChar c = [c] ∧ c ≠ '"' ∧ c ≠ '\\' ∧ 0x20 ≤ c.toNat) := by
  unfold renderChar
  split
  · exact .inl ⟨'"', rfl, by decide, rfl⟩
  · exact .inl ⟨'\\', rfl, by decide, rfl⟩
  · exact .inl ⟨'b', rfl, by decide, rfl⟩
  · exact .inl ⟨'f', rfl, by decide, rfl⟩
  · exact .inl ⟨'n', rfl, by decide, rfl⟩
  · exact .inl ⟨'r', rfl, by decide, rfl⟩
  · exact .inl ⟨'t', rfl, by decide, rfl⟩
  next hq hb _ _ _ _ _ =>
    split
    next h => exact .inr (.inl ⟨rfl, h⟩)
    next h => exact .inr (.inr ⟨rfl, hq, hb, Nat.not_lt.1 h⟩)

theorem stringRest_renderChar (c : Char) (s : List Char) :
    stringRest (renderChar c ++ s) = (stringRest s).map fun x => (c :: x.1, x.2) := by
  rcases renderChar_cases c with ⟨e, he, hu, hc⟩ | ⟨he, hc⟩ | ⟨he, hq, hb, hc⟩
  · rw [he, List.cons_append, List.cons_append, List.nil_append, stringRest]
    · rw [hc]
    · simpa using hu
  · rw [he, List.cons_append, List.cons_append, stringRest]
    split
    next h => rw [unicodeEscape?_hex4 hc] at h; cases h
    next h => rw [unicodeEscape?_hex4 hc] at h; cases h; rfl
  · rw [he, List.singleton_append, stringRest, if_neg (by omega)]
    · exact hq
    · exact fun h _ => hb h
    · exact fun _ h _ => hb h
    · exact fun _ _ h _ => hb h

theorem stringRest_render (s rest : List Char) :
    stringRest (s.flatMap renderChar ++ '"' :: rest) = some (s, rest) := by
  induction s with
  | nil => rw [List.flatMap_nil, List.nil_append, stringRest]
  | cons c s ih =>
      rw [List.flatMap_cons, List.append_assoc, stringRest_renderChar, ih]
      rfl

/-- A value that its text reads back as, with a bound of the length of the text. The text starts
with neither a blank nor the end of an array. -/
structure ReadsBack (j : Json) : Prop where
  starts : ∀ level, ∃ c r, render level j = c :: r ∧ isSpace c = false ∧ c ≠ ']'
  reads : ∀ level n rest, (render level j).length < n →
    value n (render level j ++ rest) = some (j, rest)

theorem readsBack_string (s : String) : ReadsBack (.string s) := by
  refine ⟨fun level => ⟨'"', _, rfl, by decide, by decide⟩, fun level n rest hn => ?_⟩
  obtain ⟨n, rfl⟩ := Nat.exists_eq_succ_of_ne_zero (Nat.ne_zero_of_lt hn)
  have hskip : skip (render level (.string s) ++ rest) =
      '"' :: (s.toList.flatMap renderChar ++ '"' :: rest) := by
    simp [render, renderString, skip_of_head (show isSpace '"' = false by decide)]
  simp only [value, hskip, stringRest_render, Option.map_some, String.ofList_toList]

theorem readsBack_bool (b : Bool) : ReadsBack (.bool b) := by
  cases b with
  | false =>
      refine ⟨fun level => ⟨'f', _, rfl, by decide, by decide⟩, fun level n rest hn => ?_⟩
      obtain ⟨n, rfl⟩ := Nat.exists_eq_succ_of_ne_zero (Nat.ne_zero_of_lt hn)
      rfl
  | true =>
      refine ⟨fun level => ⟨'t', _, rfl, by decide, by decide⟩, fun level n rest hn => ?_⟩
      obtain ⟨n, rfl⟩ := Nat.exists_eq_succ_of_ne_zero (Nat.ne_zero_of_lt hn)
      rfl

/-- Items with a comma and blanks between them. Each item takes one from the bound and at least as
much from the text. -/
theorem items_render (level : Nat) {items : List Json} (hne : items ≠ []) (h : ∀ j ∈ items, ReadsBack j)
    (hw : w.all isSpace) (hv : v.all isSpace)
    (hn : ((',' :: w).intercalate (renderItems level items)).length + 1 < n) (rest : List Char) :
    Read.items n ((',' :: w).intercalate (renderItems level items) ++ (v ++ ']' :: rest)) =
      some (items, rest) := by
  induction items generalizing n with
  | nil => exact absurd rfl hne
  | cons j items ih =>
      obtain ⟨n, rfl⟩ := Nat.exists_eq_succ_of_ne_zero (Nat.ne_zero_of_lt hn)
      have hj := (h j List.mem_cons_self).reads level n
      cases items with
      | nil =>
          rw [renderItems, renderItems, List.intercalate_singleton] at hn ⊢
          have hend : skip (v ++ ']' :: rest) = ']' :: rest := by
            rw [skip_append hv, skip_of_head (by decide)]
          simp only [Read.items, hj _ (Nat.lt_of_succ_lt_succ hn), Option.bind_eq_bind,
            Option.bind_some, hend]
      | cons k items =>
          rw [renderItems, renderItems, List.intercalate_cons_cons, ← renderItems] at hn ⊢
          simp only [List.length_append, List.length_cons] at hn
          have hrest := ih (by simp) (fun x hx => h x (List.mem_cons_of_mem j hx)) (n := n) (by omega)
          have hcomma (s : List Char) : skip (',' :: s) = ',' :: s := skip_of_head (by decide) s
          simp only [List.append_assoc, List.cons_append]
          simp only [Read.items, hj _ (by omega : (render level j).length < n), Option.bind_eq_bind,
            Option.bind_some, hcomma, items_append hw, hrest, Option.map_some]

theorem members_render (level : Nat) {ms : List (String × Json)} (hne : ms ≠ [])
    (h : ∀ m ∈ ms, ReadsBack m.2) (hw : w.all isSpace) (hv : v.all isSpace)
    (hn : ((',' :: w).intercalate (renderMembers level ms)).length + 1 < n) (rest : List Char) :
    Read.members n ((',' :: w).intercalate (renderMembers level ms) ++ (v ++ '}' :: rest)) =
      some (ms, rest) := by
  induction ms generalizing n with
  | nil => exact absurd rfl hne
  | cons m ms ih =>
      obtain ⟨name, j⟩ := m
      obtain ⟨n, rfl⟩ := Nat.exists_eq_succ_of_ne_zero (Nat.ne_zero_of_lt hn)
      have hj := (h (name, j) List.mem_cons_self).reads level n
      have hopen (s : List Char) : skip ('"' :: s) = '"' :: s := skip_of_head (by decide) s
      have hcolon (s : List Char) : skip (':' :: s) = ':' :: s := skip_of_head (by decide) s
      have hgap (s : List Char) : value n (' ' :: s) = value n s :=
        value_append (w := [' ']) (by decide) n s
      cases ms with
      | nil =>
          rw [renderMembers, renderMembers, List.intercalate_singleton] at hn ⊢
          have hend : skip (v ++ '}' :: rest) = '}' :: rest := by
            rw [skip_append hv, skip_of_head (by decide)]
          simp only [List.length_append, List.length_cons] at hn
          simp only [renderString, List.append_assoc, List.cons_append, List.nil_append]
          simp only [Read.members, hopen, stringRest_render, Option.bind_eq_bind, Option.bind_some,
            hcolon, hgap, hj _ (by omega : (render level j).length < n), hend, String.ofList_toList]
      | cons k ms =>
          obtain ⟨name', k⟩ := k
          rw [renderMembers, renderMembers, List.intercalate_cons_cons, ← renderMembers] at hn ⊢
          simp only [List.length_append, List.length_cons] at hn
          have hrest := ih (by simp) (fun x hx => h x (List.mem_cons_of_mem _ hx)) (n := n) (by omega)
          have hcomma (s : List Char) : skip (',' :: s) = ',' :: s := skip_of_head (by decide) s
          simp only [renderString, List.append_assoc, List.cons_append, List.nil_append]
          simp only [Read.members, hopen, stringRest_render, Option.bind_eq_bind, Option.bind_some,
            hcolon, hgap, hj _ (by omega : (render level j).length < n), hcomma, members_append hw,
            hrest, Option.map_some, String.ofList_toList]

theorem spaces_newline (level : Nat) : (newline level).all isSpace := by
  simp [newline, isSpace]

theorem bracketed_cons (opening closing : Char) (level : Nat) (s : List Char) (ss : List (List Char)) :
    bracketed opening closing level (s :: ss) =
      opening :: (newline (level + 1) ++ ((',' :: newline (level + 1)).intercalate (s :: ss) ++
        (newline level ++ [closing]))) := by
  simp [bracketed]

/-- What stands behind an opening bracket starts as the first of the items does. -/
theorem skip_bracketed {r : List Char} (sep : List Char) (ss : List (List Char)) (hw : w.all isSpace)
    (hc : isSpace c = false) (t : List Char) :
    ∃ r', skip (w ++ (sep.intercalate ((c :: r) :: ss) ++ t)) = c :: r' ∧
      sep.intercalate ((c :: r) :: ss) ++ t = c :: r' := by
  have hhead : ∃ r', sep.intercalate ((c :: r) :: ss) ++ t = c :: r' := by
    cases ss with
    | nil => exact ⟨r ++ t, by simp⟩
    | cons s ss => exact ⟨r ++ (sep ++ sep.intercalate (s :: ss)) ++ t, by simp⟩
  obtain ⟨r', hr⟩ := hhead
  exact ⟨r', by rw [skip_append hw, hr, skip_of_head hc], hr⟩

theorem readsBack_array {items : List Json} (h : ∀ j ∈ items, ReadsBack j) :
    ReadsBack (.array items) := by
  refine ⟨fun level => ?_, fun level n rest hn => ?_⟩
  · refine ⟨'[', (render level (.array items)).tail, ?_, by decide, by decide⟩
    cases items with
    | nil => rfl
    | cons j items => rw [render, renderItems, bracketed_cons, List.tail_cons]
  · obtain ⟨n, rfl⟩ := Nat.exists_eq_succ_of_ne_zero (Nat.ne_zero_of_lt hn)
    have hopen (s : List Char) : skip ('[' :: s) = '[' :: s := skip_of_head (by decide) s
    cases items with
    | nil =>
        have hclose (s : List Char) : skip (']' :: s) = ']' :: s := skip_of_head (by decide) s
        simp only [render, renderItems, bracketed, List.isEmpty_nil, if_true, List.cons_append,
          List.nil_append, value, hopen, hclose]
    | cons j items =>
        obtain ⟨c, r, hc, hspace, hne⟩ := (h j List.mem_cons_self).starts (level + 1)
        rw [render, renderItems, bracketed_cons, ← renderItems] at hn ⊢
        simp only [List.length_cons, List.length_append, newline] at hn
        have hbody := items_render (level + 1) (n := n) (by simp) h
          (spaces_newline (level + 1)) (spaces_newline level) (by simp only [newline]; omega) rest
        obtain ⟨r', hskip, hr⟩ := skip_bracketed (r := r) (',' :: newline (level + 1))
          (renderItems (level + 1) items) (spaces_newline (level + 1)) hspace
          (newline level ++ ']' :: rest)
        rw [← hc, ← renderItems] at hskip hr
        rw [hr] at hbody
        simp only [List.cons_append, List.append_assoc, List.nil_append, value, hopen, hskip]
        split
        next heq => exact absurd (List.cons.inj heq).1 hne
        next => rw [hbody]; rfl

theorem readsBack_object {ms : List (String × Json)} (h : ∀ m ∈ ms, ReadsBack m.2) :
    ReadsBack (.object ms) := by
  refine ⟨fun level => ?_, fun level n rest hn => ?_⟩
  · refine ⟨'{', (render level (.object ms)).tail, ?_, by decide, by decide⟩
    cases ms with
    | nil => rfl
    | cons m ms => rw [render, renderMembers, bracketed_cons, List.tail_cons]
  · obtain ⟨n, rfl⟩ := Nat.exists_eq_succ_of_ne_zero (Nat.ne_zero_of_lt hn)
    have hopen (s : List Char) : skip ('{' :: s) = '{' :: s := skip_of_head (by decide) s
    cases ms with
    | nil =>
        have hclose (s : List Char) : skip ('}' :: s) = '}' :: s := skip_of_head (by decide) s
        simp only [render, renderMembers, bracketed, List.isEmpty_nil, if_true, List.cons_append,
          List.nil_append, value, hopen, hclose]
    | cons m ms =>
        obtain ⟨name, j⟩ := m
        rw [render, renderMembers, bracketed_cons, ← renderMembers] at hn ⊢
        simp only [List.length_cons, List.length_append, newline] at hn
        have hbody := members_render (level + 1) (n := n) (by simp) h
          (spaces_newline (level + 1)) (spaces_newline level) (by simp only [newline]; omega) rest
        obtain ⟨r', hskip, hr⟩ := skip_bracketed (c := '"')
          (r := (name.toList.flatMap renderChar ++ ['"']) ++ ':' :: ' ' :: render (level + 1) j)
          (',' :: newline (level + 1)) (renderMembers (level + 1) ms) (spaces_newline (level + 1))
          (by decide) (newline level ++ '}' :: rest)
        rw [← List.cons_append, ← List.cons_append, ← renderString, ← renderMembers] at hskip hr
        rw [hr] at hbody
        simp only [List.cons_append, List.append_assoc, List.nil_append, value, hopen, hskip]
        split
        next heq => cases heq
        next => rw [hbody]; rfl

theorem readsBack_strings (texts : List String) : ReadsBack (strings texts) := by
  refine readsBack_array fun j hj => ?_
  obtain ⟨t, _, rfl⟩ := List.mem_map.1 hj
  exact readsBack_string t

theorem ofText?_pretty (h : ReadsBack j) : ofText? j.pretty = some j := by
  have hread := h.reads 0 (j.pretty.length + 1) [] (Nat.lt_succ_self _)
  rw [List.append_nil, ← pretty] at hread
  rw [ofText?, hread]
  rfl

end GoOutline.Json
