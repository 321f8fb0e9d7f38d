import GoOutline.Proofs.Pairs
import GoOutline.Proofs.Slicing
import GoOutline.Proofs.Spelling

/-!
Tags that are read byte by byte. A look at single bytes finds the ends of keys and values, which is
where the text can be cut, so that tags are the longest row of pairs in front of a text.
-/

namespace GoOutline.Tags

open Text Quoted

variable {s : List Char} {b : UInt8} {bs : List UInt8}

section Bytes

/-- The number of bytes through the first double quote, the byte behind a backslash not counting. -/
def closing? : List UInt8 → Option Nat
  | [] => none
  | 0x22 :: _ => some 1
  | 0x5c :: _ :: bs => (closing? bs).map (· + 2)
  | _ :: bs => (closing? bs).map (· + 1)

/-- Reads a key up to its colon with a look at single bytes, if a quote follows the colon. Every cut
is checked, and nothing at all stands for one that fails. -/
def checkedKey (s : List Char) : Option (Option (List Char × List Char)) :=
  let bytes := Utf8.encode s
  let i := (bytes.takeWhile isKeyByte).length
  if i = 0 ∨ bytes[i]? ≠ some 0x3a ∨ bytes[i + 1]? ≠ some 0x22 then some none
  else do
    let key ← cut? s ⟨0, i⟩
    let behind ← cut? s ⟨i + 1, byteLength s⟩
    return some (key, behind)

def checkedValue (s : List Char) : Option (Option (List Char × List Char)) :=
  match closing? (Utf8.encode s).tail with
  | none => some none
  | some n => do
    let literal ← cut? s ⟨0, n + 1⟩
    match unquote literal with
    | none => some none
    | some value =>
      let rest ← cut? s ⟨n + 1, byteLength s⟩
      return some (value, rest)

def checkedNext (s : List Char) : Option (Option ((String × String) × List Char)) := do
  match ← checkedKey (s.dropWhile (· == ' ')) with
  | none => some none
  | some (key, behind) =>
    match ← checkedValue behind with
    | none => some none
    | some (value, rest) => return some ((String.ofList key, String.ofList value), rest)

theorem closing?_cons (hq : b ≠ 0x22) (hs : b ≠ 0x5c) (bs : List UInt8) :
    closing? (b :: bs) = (closing? bs).map (· + 1) :=
  closing?.eq_4 b bs hq fun _ _ hb => absurd hb hs

/-- No byte of a character of several bytes is taken for a quote or a backslash. -/
theorem closing?_append (h : ∀ x ∈ bs, 0x80 ≤ x) (rest : List UInt8) :
    closing? (bs ++ rest) = (closing? rest).map (· + bs.length) := by
  induction bs with
  | nil => simp
  | cons b bs ih =>
      obtain ⟨hb, hbs⟩ := List.forall_mem_cons.1 h
      have hne {x : UInt8} (hx : x < 0x80) : b ≠ x := by
        rintro rfl
        exact absurd hb (UInt8.not_le.2 hx)
      rw [List.cons_append, closing?_cons (hne (by decide)) (hne (by decide)), ih hbs,
        Option.map_map]
      rfl

/-- The byte that closes a literal closes it among the characters too. -/
theorem closing?_encode (s : List Char) :
    closing? (Utf8.encode s) = (throughQuote? s).map fun x => byteLength x.1 := by
  induction s using throughQuote?.induct with
  | case1 => rfl
  | case2 s => rfl
  | case3 c s ih =>
      obtain ⟨b, bs, h⟩ := Utf8.exists_encodes c
      have hstep : Utf8.encode ('\\' :: c :: s) = 0x5c :: b :: (bs ++ Utf8.encode s) := by
        rw [← h.encode]
        rfl
      rw [hstep, closing?, closing?_append h.others, ih, throughQuote?, Option.map_map,
        Option.map_map, Option.map_map]
      congr 1
      funext x
      have hlen : byteLength ('\\' :: c :: x.1) = 1 + (c.utf8Size + byteLength x.1) := rfl
      simp only [Function.comp_apply, hlen, ← h.length]
      omega
  | case4 c s hq hs ih =>
      by_cases hc : c = '\\'
      · -- A backslash with nothing behind it escapes nothing.
        subst hc
        cases s with
        | nil => rfl
        | cons x s => exact absurd rfl (hs x s rfl)
      · obtain ⟨b, bs, h⟩ := Utf8.exists_encodes c
        have hbq : b ≠ 0x22 := mt (h.first_eq_iff (d := '"') (by decide)).1 hq
        have hbs : b ≠ 0x5c := mt (h.first_eq_iff (d := '\\') (by decide)).1 hc
        -- The first byte is passed by, and then all others of the character.
        rw [h.encode, closing?_cons hbq hbs, closing?_append h.others, ih, throughQuote_cons hq hc,
          Option.map_map, Option.map_map, Option.map_map]
        congr 1
        funext x
        have hlen : byteLength (c :: x.1) = c.utf8Size + byteLength x.1 := rfl
        simp only [Function.comp_apply, hlen, ← h.length]
        omega

theorem getElem?_encode (a s : List Char) (n : Nat) :
    (Utf8.encode (a ++ s))[byteLength a + n]? = (Utf8.encode s)[n]? := by
  rw [Utf8.encode_append, ← Utf8.length_encode, List.getElem?_append_right (Nat.le_add_right _ n),
    Nat.add_sub_cancel_left]

theorem closing?_literal (s : List Char) :
    closing? (Utf8.encode s) =
      (literal? ('"' :: s)).map fun x => byteLength x.1 - 1 := by
  rw [closing?_encode, literal?, Option.map_map]
  congr 1
  funext x
  exact (Nat.add_sub_cancel_left 1 (byteLength x.1)).symm

theorem checkedKey_eq (s : List Char) :
    checkedKey s = some ((key? s).bind fun x => if x.2.head? = some '"' then some x else none) := by
  have hlen : ((Utf8.encode s).takeWhile isKeyByte).length =
      byteLength (s.takeWhile isKeyChar) := by
    rw [takeWhile_encode, Utf8.length_encode]
  simp only [checkedKey, hlen]
  cases hk : key? s with
  | none =>
      -- The key is empty, or something else than a colon follows.
      refine if_pos ?_
      by_contra hnot
      obtain ⟨hne, hcolon, -⟩ : byteLength (s.takeWhile isKeyChar) ≠ 0 ∧
          (Utf8.encode s)[byteLength (s.takeWhile isKeyChar)]? = some 0x3a ∧ _ := by
        simpa only [not_or, not_not] using hnot
      have hs := List.takeWhile_append_dropWhile (p := isKeyChar) (l := s)
      have hhead : (s.dropWhile isKeyChar).head? = some ':' := by
        refine (Utf8.head?_encode (d := ':') (by decide)).1 ?_
        rw [List.head?_eq_getElem?, ← getElem?_encode (s.takeWhile isKeyChar), hs]
        exact hcolon
      obtain ⟨behind, hb⟩ := List.head?_eq_some_iff.1 hhead
      have hnil : s.takeWhile isKeyChar ≠ [] := fun hnil => hne (by rw [hnil]; rfl)
      have hkey : key? s = some (s.takeWhile isKeyChar, behind) :=
        key?_eq_some_iff.2 ⟨⟨hnil, fun _ hx => List.mem_takeWhile_imp hx⟩, by rw [← hb, hs]⟩
      rw [hk] at hkey
      cases hkey
  | some x =>
      obtain ⟨key, behind⟩ := x
      obtain ⟨⟨hne, hkey⟩, rfl⟩ := key?_eq_some_iff.1 hk
      have htake : (key ++ ':' :: behind).takeWhile isKeyChar = key := by
        rw [List.takeWhile_append_of_pos hkey, List.takeWhile_cons_of_neg (by decide),
          List.append_nil]
      have hzero : byteLength key ≠ 0 := Nat.ne_of_gt (byteLength_pos hne)
      have hcolon : (Utf8.encode (key ++ ':' :: behind))[byteLength key]? = some 0x3a :=
        getElem?_encode key (':' :: behind) 0
      have hquote : (Utf8.encode (key ++ ':' :: behind))[byteLength key + 1]? = some 0x22 ↔
          behind.head? = some '"' := by
        rw [getElem?_encode, ← Utf8.head?_encode (by decide), List.head?_eq_getElem?]
        rfl
      have hfront : cut? (key ++ ':' :: behind) ⟨0, byteLength key⟩ = some key :=
        cut?_of_prefix (List.prefix_append key _)
      have hback : cut? (key ++ ':' :: behind)
          ⟨byteLength key + 1, byteLength (key ++ ':' :: behind)⟩ = some behind := by
        have hone : byteLength (key ++ [':']) = byteLength key + 1 := byteLength_append key [':']
        rw [← hone]
        simpa only [List.append_assoc, List.singleton_append] using cut?_rest (key ++ [':']) behind
      by_cases hq : behind.head? = some '"' <;>
        simp [-Utf8.encode_append, -byteLength_append, htake, hzero, hcolon, hquote, hfront, hback,
          hq]

theorem checkedValue_eq (s : List Char) : checkedValue ('"' :: s) =
    some ((literal? ('"' :: s)).bind fun x => (unquote x.1).map fun value => (value, x.2)) := by
  have htail : (Utf8.encode ('"' :: s)).tail = Utf8.encode s := rfl
  rw [checkedValue, htail, closing?_literal]
  cases hl : literal? ('"' :: s) with
  | none => rfl
  | some x =>
      obtain ⟨literal, rest⟩ := x
      have hsplit := append_of_literal hl
      have hlast : byteLength literal - 1 + 1 = byteLength literal := by
        obtain ⟨body, rfl, -⟩ := literal?_eq_some_iff.1 hl
        exact Nat.sub_add_cancel (Nat.le_add_right 1 _)
      have hfront : cut? ('"' :: s) ⟨0, byteLength literal⟩ = some literal :=
        cut?_of_prefix ⟨rest, hsplit⟩
      have hback : cut? ('"' :: s) ⟨byteLength literal, byteLength ('"' :: s)⟩ = some rest := by
        simpa only [hsplit] using cut?_rest literal rest
      cases hu : unquote literal <;> simp [hlast, hfront, hback, hu]

/-- No cut fails, and what is read is the pair in front of the text. -/
theorem checkedNext_eq (s : List Char) : checkedNext s = some (next? s) := by
  rw [checkedNext, next?, checkedKey_eq]
  cases key? (s.dropWhile (· == ' ')) with
  | none => rfl
  | some x =>
      obtain ⟨key, behind⟩ := x
      by_cases hq : behind.head? = some '"'
      · obtain ⟨s, rfl⟩ := List.head?_eq_some_iff.1 hq
        cases hl : literal? ('"' :: s) with
        | none => simp [checkedValue_eq, hl]
        | some y => cases hu : unquote y.1 <;> simp [checkedValue_eq, hl, hu]
      · have hnone : literal? behind = none := by
          refine Option.eq_none_iff_forall_ne_some.2 ?_
          rintro ⟨literal, rest⟩ hl
          obtain ⟨body, rfl, rfl, -⟩ := literal?_eq_some_iff.1 hl
          exact hq rfl
        simp [hq, hnone]

/-- Reads pairs up to the first piece that is none. -/
def checkedScan (s : List Char) : Option (List (String × String)) :=
  match _h : checkedNext s with
  | none => none
  | some none => some []
  | some (some (entry, rest)) => (checkedScan rest).map (entry :: ·)
termination_by s.length
decreasing_by
  rw [checkedNext_eq] at _h
  exact length_of_next (Option.some.inj _h)

theorem checkedScan_eq (s : List Char) : checkedScan s = some (scan s) := by
  induction hn : s.length using Nat.strongRecOn generalizing s with
  | _ n ih =>
      subst hn
      rw [checkedScan, scan_eq_next]
      split
      next h =>
        rw [checkedNext_eq] at h
        cases h
      next h =>
        rw [checkedNext_eq] at h
        rw [Option.some.inj h]
      next entry rest h =>
        rw [checkedNext_eq] at h
        rw [Option.some.inj h, ih rest.length (length_of_next (Option.some.inj h)) rest rfl]
        rfl

/-- Reads tags with a look at single bytes, and with every cut checked. -/
def checkedText (s : List Char) : Option Tags := (checkedScan s).map fun es => ⟨.ofFirst es⟩

end Bytes

section Maps

theorem lookup_entries (ps : List Pair) (key : String) :
    (ps.map Pair.entry).lookup key = (ps.find? (·.key = key)).map Pair.value := by
  induction ps with
  | nil => rfl
  | cons p ps ih =>
      by_cases h : p.key = key
      · simp [Pair.entry, h]
      · have hne : (key == p.key) = false := beq_eq_false_iff_ne.2 (Ne.symm h)
        rw [List.map_cons, List.lookup_cons, List.find?_cons_of_neg (by simpa using h), ← ih,
          Pair.entry, hne]

/-- Tags are the longest row of pairs in front of a text. Each key stands where it came first, with
the value that it came with first. Every text has such a row, and to read it byte by byte never cuts
the text in a wrong place. -/
theorem ofText_longest :
    (∀ (ps : List Pair) (tail : List Char), (∀ p : Pair, ¬ p.text <+: tail) →
      (ofText (ps.flatMap Pair.text ++ tail)).table.names = (ps.map Pair.key).eraseDups ∧
      ∀ key, (ofText (ps.flatMap Pair.text ++ tail)).table.get? key =
        (ps.find? (·.key = key)).map Pair.value) ∧
    (∀ s, ∃ (ps : List Pair) (tail : List Char),
      s = ps.flatMap Pair.text ++ tail ∧ ∀ p : Pair, ¬ p.text <+: tail) ∧
    ∀ s, checkedText s = some (ofText s) := by
  refine ⟨fun ps tail h => ⟨?_, fun key => ?_⟩, exists_pairs, fun s => ?_⟩
  · rw [ofText, scan_pairs h, Table.names_ofFirst, List.map_map]
    rfl
  · rw [ofText, scan_pairs h, Table.get?_ofFirst, lookup_entries]
  · rw [checkedText, checkedScan_eq]
    rfl

/-- A key that comes twice, without a space in front of it, and a value that does not end. -/
theorem ofText_longest_unended :
    (ofText "a:\"1\"  b:\"\\\"\"a:\"2\" c:\"3".toList).table.names = ["a", "b"] ∧
    (ofText "a:\"1\"  b:\"\\\"\"a:\"2\" c:\"3".toList).table.get? "a" = some "1" := by
  let ps : List Pair :=
    [⟨0, "a", ['1'], "1", by decide +kernel, by cbv⟩,
      ⟨2, "b", ['\\', '"'], "\"", by decide +kernel, by cbv⟩,
      ⟨0, "a", ['2'], "2", by decide +kernel, by cbv⟩]
  have h := ofText_longest.1 ps " c:\"3".toList (next?_eq_none_iff.1 (by rfl))
  exact ⟨h.1, h.2 "a"⟩

end Maps

end GoOutline.Tags
