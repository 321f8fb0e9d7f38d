import Mathlib.Data.List.Basic
import GoOutline.Text.Quoted

/-!
Literals that texts are written as. Each character is written in one of three ways, and each of them
reads back as the character; no way of writing ends the literal early or breaks its line.
-/

namespace GoOutline.Text

theorem digitValue_hexDigit : ∀ n < 16, digitValue (hexDigit n) = n := by decide

theorem hexDigit_ne : ∀ n < 16, hexDigit n ≠ '"' ∧ hexDigit n ≠ '\\' ∧ hexDigit n ≠ '+' ∧
    isControl (hexDigit n) = false := by decide

theorem numeral?_hex4 {n : Nat} (h : n < 65536) : numeral? 16 (hex4 n) = some n := by
  have hdigit (m : Nat) : digitValue (hexDigit (m % 16)) = m % 16 :=
    digitValue_hexDigit _ (Nat.mod_lt _ (by decide))
  have hall : (hex4 n).all (isDigitOf 16) = true := by
    simp [hex4, isDigitOf, hdigit, Nat.mod_lt]
  have hvalue : numeralValue 16 (hex4 n) = n := by
    simp only [numeralValue, hex4, List.foldl_cons, List.foldl_nil, hdigit]
    omega
  rw [numeral?, hall, hvalue]
  rfl

theorem signedNumeral?_hex4 {n : Nat} (h : n < 65536) : signedNumeral? 16 (hex4 n) = some n := by
  have hplus := (hexDigit_ne (n / 4096 % 16) (Nat.mod_lt _ (by decide))).2.2.1
  rw [← numeral?_hex4 h, hex4, signedNumeral?]
  intro digits hd
  exact hplus (List.cons.inj hd).1

theorem scalar?_toNat (c : Char) : scalar? c.toNat = some c := by
  have hv : c.toNat.isValidChar := c.valid
  rw [scalar?, if_pos hv, Char.ofNat_toNat]

namespace Quoted

variable {c d : Char} {s rest : List Char}

theorem scalarEscape_hex4 (h : c.toNat < 65536) (rest : List Char) :
    scalarEscape 4 (hex4 c.toNat ++ rest) = some (c, rest) := by
  have hlen : (hex4 c.toNat).length = 4 := rfl
  have hwidth : fixedWidth 4 16 (hex4 c.toNat ++ rest) = some (c.toNat, rest) := by
    rw [fixedWidth, if_neg (by simp [hlen]), List.take_left' hlen, List.drop_left' hlen,
      signedNumeral?_hex4 h]
    rfl
  simp [scalarEscape, hwidth, scalar?_toNat]

/-- The three ways of writing a character: an escape of one letter, an escape of four digits, or the
character itself. -/
theorem encodeChar_cases (c : Char) :
    (∃ d, encodeChar c = ['\\', d] ∧ simpleEscape? d = some c ∧ isControl d = false) ∨
    (encodeChar c = '\\' :: 'u' :: hex4 c.toNat ∧ isControl c) ∨
    (encodeChar c = [c] ∧ c ≠ '"' ∧ c ≠ '\\' ∧ isControl c = false) := by
  unfold encodeChar
  split
  next h => exact .inl ⟨'"', rfl, by rw [h]; rfl, rfl⟩
  next hq =>
  split
  next h => exact .inl ⟨'\\', rfl, by rw [h]; rfl, rfl⟩
  next hb =>
  split
  next h => exact .inl ⟨'n', rfl, by rw [h]; rfl, rfl⟩
  split
  next h => exact .inl ⟨'r', rfl, by rw [h]; rfl, rfl⟩
  split
  next h => exact .inl ⟨'t', rfl, by rw [h]; rfl, rfl⟩
  split
  next h => exact .inr (.inl ⟨rfl, h⟩)
  next h => exact .inr (.inr ⟨rfl, hq, hb, by simpa using h⟩)

theorem toNat_lt_of_isControl (h : isControl c) : c.toNat < 65536 := by
  simp only [isControl, Bool.or_eq_true, Bool.and_eq_true, decide_eq_true_eq] at h
  omega

theorem decode_escape (h : escape s = some (c, rest)) :
    decode ('\\' :: s) = (decode rest).map (c :: ·) := by
  rw [decode, if_neg (by decide), if_pos rfl]
  split
  next hn =>
    rw [h] at hn
    cases hn
  next d r hd =>
    rw [h] at hd
    cases hd
    rfl

theorem decode_encodeChar (c : Char) (s : List Char) :
    decode (encodeChar c ++ s) = (decode s).map (c :: ·) := by
  rcases encodeChar_cases c with ⟨d, he, hd, -⟩ | ⟨he, hc⟩ | ⟨he, hq, hb, hc⟩
  · have hescape : escape (d :: s) = some (c, s) := by rw [escape, hd]
    rw [he]
    exact decode_escape hescape
  · have hescape : escape ('u' :: hex4 c.toNat ++ s) = some (c, s) :=
      scalarEscape_hex4 (toNat_lt_of_isControl hc) s
    rw [he]
    exact decode_escape hescape
  · have hn : c ≠ '\n' := by
      rintro rfl
      cases hc
    rw [he, List.singleton_append, decode, if_neg (by simp [hq, hn]), if_neg hb]

theorem decode_encode (s : List Char) : decode (encode s) = some s := by
  induction s with
  | nil =>
      rw [encode, List.flatMap_nil, decode]
  | cons c s ih =>
      rw [encode, List.flatMap_cons, decode_encodeChar, ← encode, ih]
      rfl

/-- The literal of a text denotes the text. -/
theorem unquote_quote (s : List Char) : unquote (quote s) = some s := by
  have hraw : after? "`" (quote s) = none := rfl
  have hbody : after? "\"" (quote s) = some (encode s ++ ['"']) := rfl
  have hend : before? "\"" (encode s ++ ['"']) = some (encode s) :=
    List.isSuffixOf?_eq_some_iff_append_eq.2 rfl
  rw [unquote, hraw, Option.bind_none, hbody, Option.bind_some, hend]
  exact decode_encode s

theorem throughQuote?_encodeChar (c : Char) (s : List Char) :
    throughQuote? (encodeChar c ++ s) =
      (throughQuote? s).map fun (a, rest) => (encodeChar c ++ a, rest) := by
  have hplain {d : Char} {t : List Char} (hq : d ≠ '"') (hb : d ≠ '\\') :
      throughQuote? (d :: t) = (throughQuote? t).map fun (a, rest) => (d :: a, rest) := by
    rw [throughQuote?]
    · exact hq
    · intro _ _ h
      exact absurd h hb
  rcases encodeChar_cases c with ⟨d, he, -, -⟩ | ⟨he, -⟩ | ⟨he, hq, hb, -⟩
  · rw [he]
    rfl
  · -- The digits are taken one by one, none of them being a quote or a backslash.
    have hdigit (m : Nat) {t : List Char} : throughQuote? (hexDigit (m % 16) :: t) =
        (throughQuote? t).map fun (a, rest) => (hexDigit (m % 16) :: a, rest) := by
      have h := hexDigit_ne (m % 16) (Nat.mod_lt _ (by decide))
      exact hplain h.1 h.2.1
    rw [he, hex4]
    simp only [List.cons_append, List.nil_append, throughQuote?, hdigit, Option.map_map,
      Function.comp_def]
  · rw [he]
    exact hplain hq hb

theorem throughQuote?_encode (s rest : List Char) :
    throughQuote? (encode s ++ '"' :: rest) = some (encode s ++ ['"'], rest) := by
  induction s with
  | nil => rfl
  | cons c s ih =>
      rw [encode, List.flatMap_cons, ← encode, List.append_assoc, throughQuote?_encodeChar, ih,
        Option.map_some, List.append_assoc]

/-- The literal of a text ends where it is written to end. -/
theorem literal?_quote (s rest : List Char) : literal? (quote s ++ rest) = some (quote s, rest) := by
  have hform : quote s ++ rest = '"' :: (encode s ++ '"' :: rest) := by simp [quote]
  rw [hform, literal?, throughQuote?_encode]
  rfl

theorem isControl_of_mem_encodeChar (h : d ∈ encodeChar c) : isControl d = false := by
  rcases encodeChar_cases c with ⟨e, he, -, hc⟩ | ⟨he, -⟩ | ⟨he, -, -, hc⟩
  · rw [he] at h
    simp only [List.mem_cons, List.not_mem_nil, or_false] at h
    rcases h with rfl | rfl
    · rfl
    · exact hc
  · rw [he, hex4] at h
    have hdigit (m : Nat) : isControl (hexDigit (m % 16)) = false :=
      (hexDigit_ne (m % 16) (Nat.mod_lt _ (by decide))).2.2.2
    simp only [List.mem_cons, List.not_mem_nil, or_false] at h
    rcases h with rfl | rfl | rfl | rfl | rfl | rfl
    · rfl
    · rfl
    all_goals exact hdigit _
  · rw [he] at h
    obtain rfl := List.mem_singleton.1 h
    exact hc

/-- No control character stands in the literal of a text, line feeds included. -/
theorem isControl_of_mem_quote (h : d ∈ quote s) : isControl d = false := by
  simp only [quote, encode, List.cons_append, List.mem_cons, List.mem_append, List.mem_flatMap,
    List.not_mem_nil, or_false] at h
  rcases h with rfl | ⟨c, -, hc⟩ | rfl
  · rfl
  · exact isControl_of_mem_encodeChar hc
  · rfl

end Quoted

end GoOutline.Text
