import Mathlib.Data.Nat.Digits.Defs
import GoOutline.Proofs.Literals
import GoOutline.Proofs.Quoting

/-!
What string literals denote. A literal is read as the grammar of the language says, with two
liberties: a plus sign may stand for the first digit of a hexadecimal escape, and backquotes may
stand within a raw literal. What is written for a text takes neither.
-/

namespace GoOutline.Text.Quoted

/-- Escapes of one letter, with the characters that they stand for. -/
def letterEscapes : List (Char × Char) :=
  [('a', '\x07'), ('b', '\x08'), ('f', '\x0c'), ('n', '\n'), ('r', '\r'), ('t', '\t'),
   ('v', '\x0b'), ('\\', '\\'), ('"', '"')]

/-- One digit or more, the first one counting most, and their value. -/
def Spells (base : Nat) (ds : List Char) (value : Nat) : Prop :=
  ds ≠ [] ∧ (∀ d ∈ ds, digitValue d < base) ∧
    value = Nat.ofDigits base (ds.map digitValue).reverse

instance (base : Nat) (ds : List Char) (value : Nat) : Decidable (Spells base ds value) :=
  letI := List.decidableBAll (digitValue · < base) ds
  inferInstanceAs (Decidable (_ ∧ _ ∧ _))

/-- So many digits with their value. A loose numeral may have a plus sign in place of its first
digit. -/
def Numeral (loose : Bool) (base n : Nat) (ds : List Char) (value : Nat) : Prop :=
  ds.length = n ∧ (Spells base ds value ∨ loose ∧ ∃ ds', ds = '+' :: ds' ∧ Spells base ds' value)

/-- What stands behind the backslash of an escape, and the character that it denotes. -/
inductive Escape (loose : Bool) : List Char → Char → Prop
  | letter {a c : Char} (h : (a, c) ∈ letterEscapes) : Escape loose [a] c
  | byte {ds : List Char} {c : Char} (h : Numeral loose 16 2 ds c.toNat) (hc : c.toNat < 0x80) :
      Escape loose ('x' :: ds) c
  | short {ds : List Char} {c : Char} (h : Numeral loose 16 4 ds c.toNat) :
      Escape loose ('u' :: ds) c
  | long {ds : List Char} {c : Char} (h : Numeral loose 16 8 ds c.toNat) :
      Escape loose ('U' :: ds) c
  | octal {ds : List Char} {c : Char} (h : Numeral false 8 3 ds c.toNat) (hc : c.toNat < 0x80) :
      Escape loose ds c

/-- What stands between double quotes, and the text that it denotes. -/
inductive Body (loose : Bool) : List Char → List Char → Prop
  | nil : Body loose [] []
  | plain {c : Char} {s v : List Char} (hq : c ≠ '"') (hl : c ≠ '\n') (hb : c ≠ '\\')
      (h : Body loose s v) : Body loose (c :: s) (c :: v)
  | escape {e s v : List Char} {c : Char} (he : Escape loose e c) (h : Body loose s v) :
      Body loose ('\\' :: (e ++ s)) (c :: v)

def backquote : Char := Char.ofNat 0x60

/-- A literal, and the text that it denotes. -/
inductive Denotes (loose : Bool) : List Char → List Char → Prop
  | raw {s : List Char} (h : loose ∨ backquote ∉ s) :
      Denotes loose (backquote :: s ++ [backquote]) (s.filter (· ≠ '\r'))
  | interpreted {s v : List Char} (h : Body loose s v) : Denotes loose ('"' :: s ++ ['"']) v

variable {loose : Bool} {base n value : Nat} {c d : Char} {ds e s rest v : List Char}

section Numerals

theorem numeralValue_eq_ofDigits (base : Nat) (ds : List Char) :
    numeralValue base ds = Nat.ofDigits base (ds.map digitValue).reverse := by
  rw [Nat.ofDigits_eq_foldr, List.foldr_reverse, List.foldl_map, numeralValue]
  congr 1
  funext n d
  simp [Nat.mul_comm, Nat.add_comm]

theorem numeral?_eq_some_iff : numeral? base ds = some value ↔ Spells base ds value := by
  have hall : ds.all (isDigitOf base) = true ↔ ∀ d ∈ ds, digitValue d < base := by
    simp [List.all_eq_true, isDigitOf]
  rw [numeral?, numeralValue_eq_ofDigits, Spells, ← hall]
  cases ds with
  | nil => simp
  | cons d ds => by_cases h : (d :: ds).all (isDigitOf base) <;> simp [h, eq_comm]

theorem digitValue_plus : digitValue '+' = 36 := by decide

/-- No sign is a digit. -/
theorem not_spells_plus (hb : base ≤ 36) : ¬ Spells base ('+' :: ds) value := by
  intro h
  have hlt := h.2.1 '+' List.mem_cons_self
  rw [digitValue_plus] at hlt
  omega

theorem signedNumeral?_eq_some_iff (hb : base ≤ 36) :
    signedNumeral? base ds = some value ↔ Numeral true base ds.length ds value := by
  simp only [Numeral, true_and]
  unfold signedNumeral?
  split
  next ds => simp [numeral?_eq_some_iff, not_spells_plus hb]
  next ds hplus =>
    rw [numeral?_eq_some_iff]
    refine ⟨.inl, fun h => h.resolve_right ?_⟩
    rintro ⟨ds', he, -⟩
    exact hplus ds' he

/-- A numeral of so many characters is taken from the front of a text. -/
theorem fixedWidth_eq_some_iff (hb : base ≤ 36) : fixedWidth n base s = some (value, rest) ↔
    ∃ ds, s = ds ++ rest ∧ Numeral true base n ds value := by
  constructor
  · intro h
    rw [fixedWidth] at h
    split at h
    · cases h
    next hlen =>
      obtain ⟨m, hm, he⟩ := Option.map_eq_some_iff.1 h
      cases he
      have hnum := (signedNumeral?_eq_some_iff hb).1 hm
      rw [List.length_take_of_le (Nat.le_of_not_lt hlen)] at hnum
      exact ⟨s.take n, (List.take_append_drop n s).symm, hnum⟩
  · rintro ⟨ds, rfl, h⟩
    obtain rfl := h.1
    rw [fixedWidth, if_neg (by simp), List.take_left, List.drop_left,
      (signedNumeral?_eq_some_iff hb).2 h]
    rfl

theorem Numeral.mono (h : Numeral false base n ds value) : Numeral loose base n ds value :=
  ⟨h.1, h.2.imp_right fun hl => absurd hl.1 Bool.false_ne_true⟩

theorem Numeral.digit_of_exact (h : Numeral false base n (d :: ds) value) :
    digitValue d < base := by
  rcases h.2 with h | ⟨h, -⟩
  · exact h.2.1 d List.mem_cons_self
  · cases h

/-- A numeral that starts with a digit has no sign. -/
theorem Numeral.exact_of_digit (hb : base ≤ 36) (hd : digitValue d < base)
    (h : Numeral loose base n (d :: ds) value) : Numeral false base n (d :: ds) value := by
  refine ⟨h.1, h.2.imp_right ?_⟩
  rintro ⟨-, ds', he, -⟩
  obtain rfl := (List.cons.inj he).1
  rw [digitValue_plus] at hd
  omega

end Numerals

section Escapes

theorem simpleEscape?_eq_some_iff : simpleEscape? d = some c ↔ (d, c) ∈ letterEscapes := by
  constructor
  · intro h
    unfold simpleEscape? at h
    split at h <;> cases h <;> decide
  · intro h
    simp only [letterEscapes, List.mem_cons, Prod.mk.injEq, List.not_mem_nil, or_false] at h
    rcases h with ⟨rfl, rfl⟩ | ⟨rfl, rfl⟩ | ⟨rfl, rfl⟩ | ⟨rfl, rfl⟩ | ⟨rfl, rfl⟩ | ⟨rfl, rfl⟩ |
      ⟨rfl, rfl⟩ | ⟨rfl, rfl⟩ | ⟨rfl, rfl⟩ <;> rfl

/-- No letter of an escape is an octal digit. -/
theorem simpleEscape?_of_octal (hd : digitValue d < 8) : simpleEscape? d = none := by
  have hall : ∀ p ∈ letterEscapes, 8 ≤ digitValue p.1 := by decide
  refine Option.eq_none_iff_forall_ne_some.2 fun c hc => ?_
  have hle : 8 ≤ digitValue d := hall _ (simpleEscape?_eq_some_iff.1 hc)
  omega

theorem toNat_ofNat_of_isValidChar (h : n.isValidChar) : (Char.ofNat n).toNat = n := by
  rw [Char.ofNat, dif_pos h]
  rfl

theorem asciiEscape_eq_some_iff (hb : base ≤ 36) : asciiEscape n base s = some (c, rest) ↔
    ∃ ds, s = ds ++ rest ∧ Numeral true base n ds c.toNat ∧ c.toNat < 0x80 := by
  constructor
  · intro h
    obtain ⟨⟨m, r⟩, hw, h⟩ := Option.bind_eq_some_iff.1 h
    dsimp only at h
    split at h
    next hm =>
      cases h
      obtain ⟨ds, rfl, hnum⟩ := (fixedWidth_eq_some_iff hb).1 hw
      rw [toNat_ofNat_of_isValidChar (.inl (by omega))]
      exact ⟨ds, rfl, hnum, hm⟩
    · cases h
  · rintro ⟨ds, rfl, hnum, hc⟩
    refine Option.bind_eq_some_iff.2 ⟨_, (fixedWidth_eq_some_iff hb).2 ⟨ds, rfl, hnum⟩, ?_⟩
    dsimp only
    rw [if_pos hc, Char.ofNat_toNat]

theorem scalar?_eq_some_iff : scalar? n = some c ↔ c.toNat = n := by
  rw [scalar?]
  constructor
  · intro h
    split at h
    next hv =>
      cases h
      exact toNat_ofNat_of_isValidChar hv
    · cases h
  · rintro rfl
    exact scalar?_toNat c

theorem scalarEscape_eq_some_iff : scalarEscape n s = some (c, rest) ↔
    ∃ ds, s = ds ++ rest ∧ Numeral true 16 n ds c.toNat := by
  constructor
  · intro h
    obtain ⟨⟨m, r⟩, hw, h⟩ := Option.bind_eq_some_iff.1 h
    obtain ⟨d, hd, h⟩ := Option.bind_eq_some_iff.1 h
    cases h
    obtain rfl := scalar?_eq_some_iff.1 hd
    exact (fixedWidth_eq_some_iff (by decide)).1 hw
  · intro h
    refine Option.bind_eq_some_iff.2 ⟨_, (fixedWidth_eq_some_iff (by decide)).2 h, ?_⟩
    exact Option.bind_eq_some_iff.2 ⟨c, scalar?_toNat c, rfl⟩

theorem escape_of_octal (hd : digitValue d < 8) : escape (d :: s) = asciiEscape 3 8 (d :: s) := by
  have hne {a : Char} (ha : 8 ≤ digitValue a) : d ≠ a := by
    rintro rfl
    omega
  rw [escape, simpleEscape?_of_octal hd]
  dsimp only
  rw [if_neg (hne (by decide)), if_neg (hne (by decide)), if_neg (hne (by decide)),
    if_pos (show isDigitOf 8 d = true from decide_eq_true hd)]

/-- What is read behind a backslash is an escape in front of the rest. -/
theorem escape_eq_some_iff : escape s = some (c, rest) ↔
    ∃ e, s = e ++ rest ∧ Escape true e c := by
  constructor
  · intro h
    cases s with
    | nil => cases h
    | cons a s =>
        simp only [escape] at h
        split at h
        next d hd =>
          cases h
          exact ⟨[a], rfl, .letter (simpleEscape?_eq_some_iff.1 hd)⟩
        split at h
        next ha =>
          obtain ⟨ds, rfl, hnum, hc⟩ := (asciiEscape_eq_some_iff (by decide)).1 h
          exact ⟨'x' :: ds, by rw [ha]; rfl, .byte hnum hc⟩
        split at h
        next ha =>
          obtain ⟨ds, rfl, hnum⟩ := scalarEscape_eq_some_iff.1 h
          exact ⟨'u' :: ds, by rw [ha]; rfl, .short hnum⟩
        split at h
        next ha =>
          obtain ⟨ds, rfl, hnum⟩ := scalarEscape_eq_some_iff.1 h
          exact ⟨'U' :: ds, by rw [ha]; rfl, .long hnum⟩
        split at h
        next hd =>
          obtain ⟨ds, he, hnum, hc⟩ := (asciiEscape_eq_some_iff (by decide)).1 h
          cases ds with
          | nil => cases hnum.1
          | cons d ds =>
              obtain ⟨rfl, rfl⟩ := List.cons.inj he
              have hlt : digitValue a < 8 := of_decide_eq_true hd
              exact ⟨a :: ds, rfl, .octal (hnum.exact_of_digit (by decide) hlt) hc⟩
        · cases h
  · rintro ⟨e, rfl, he⟩
    cases he with
    | letter h =>
        rw [List.singleton_append, escape, simpleEscape?_eq_some_iff.2 h]
    | byte h hc => exact (asciiEscape_eq_some_iff (by decide)).2 ⟨_, rfl, h, hc⟩
    | short h => exact scalarEscape_eq_some_iff.2 ⟨_, rfl, h⟩
    | long h => exact scalarEscape_eq_some_iff.2 ⟨_, rfl, h⟩
    | octal h hc =>
        cases e with
        | nil => cases h.1
        | cons d ds =>
            rw [List.cons_append, escape_of_octal h.digit_of_exact]
            exact (asciiEscape_eq_some_iff (by decide)).2 ⟨d :: ds, rfl, h.mono, hc⟩

end Escapes

section Literals

theorem decode_eq_some_iff : decode s = some v ↔ Body true s v := by
  constructor
  · intro h
    fun_induction decode s generalizing v with
    | case1 =>
        cases h
        exact .nil
    | case2 => cases h
    | case3 => cases h
    | case4 r d rest he _ ih =>
        obtain ⟨w, hw, rfl⟩ := Option.map_eq_some_iff.1 h
        obtain ⟨e, rfl, hescape⟩ := escape_eq_some_iff.1 he
        exact .escape hescape (ih hw)
    | case5 c r hq hb ih =>
        obtain ⟨w, hw, rfl⟩ := Option.map_eq_some_iff.1 h
        rw [not_or] at hq
        exact .plain hq.1 hq.2 hb (ih hw)
  · intro h
    induction h with
    | nil => rw [decode]
    | plain hq hl hb _ ih => rw [decode, if_neg (by simp [hq, hl]), if_neg hb, ih, Option.map_some]
    | escape he _ ih => rw [decode_escape (escape_eq_some_iff.2 ⟨_, rfl, he⟩), ih, Option.map_some]

theorem unquote_interpreted (b : List Char) : unquote ('"' :: b ++ ['"']) = decode b := by
  have hraw : after? "`" ('"' :: b ++ ['"']) = none := rfl
  have hbody : after? "\"" ('"' :: b ++ ['"']) = some (b ++ ['"']) := rfl
  have hend : before? "\"" (b ++ ['"']) = some b := List.isSuffixOf?_eq_some_iff_append_eq.2 rfl
  rw [unquote, hraw, Option.bind_none, hbody, Option.bind_some, hend, Option.bind_some]

theorem unquote_of_denotes (h : Denotes true s v) : unquote s = some v := by
  cases h with
  | raw => exact unquote_raw _
  | interpreted h => rw [unquote_interpreted, decode_eq_some_iff.2 h]

theorem denotes_of_unquote (h : unquote s = some v) : Denotes true s v := by
  rcases exists_of_unquote h with ⟨b, rfl, rfl⟩ | ⟨b, rfl, hb⟩
  · exact .raw (.inl rfl)
  · exact .interpreted (decode_eq_some_iff.1 hb)

end Literals

section Liberties

/-- A sign stands behind the letter of an escape. -/
def Signed (s : List Char) : Prop := ∃ a x b, s = a ++ '\\' :: x :: '+' :: b ∧ x ∈ ['x', 'u', 'U']

/-- What a literal can only be by the loose grammar. -/
def TakesLiberty (s : List Char) : Prop :=
  (∃ b, s = backquote :: b ++ [backquote] ∧ backquote ∈ b) ∨ Signed s

theorem Signed.append_left (h : Signed s) (a : List Char) : Signed (a ++ s) := by
  obtain ⟨a', x, b, rfl, hx⟩ := h
  exact ⟨a ++ a', x, b, (List.append_assoc a a' _).symm, hx⟩

theorem Signed.append_right (h : Signed s) (b : List Char) : Signed (s ++ b) := by
  obtain ⟨a, x, b', rfl, hx⟩ := h
  exact ⟨a, x, b' ++ b, by simp, hx⟩

theorem Numeral.exact_or_plus (h : Numeral loose base n ds value) :
    Numeral false base n ds value ∨ ∃ ds', ds = '+' :: ds' := by
  obtain ⟨hn, h | ⟨-, ds', hds, -⟩⟩ := h
  · exact .inl ⟨hn, .inl h⟩
  · exact .inr ⟨ds', hds⟩

theorem Escape.mono (h : Escape false e c) : Escape loose e c := by
  cases h with
  | letter h => exact .letter h
  | byte h hc => exact .byte h.mono hc
  | short h => exact .short h.mono
  | long h => exact .long h.mono
  | octal h hc => exact .octal h hc

theorem signed_of_plus {x : Char} (hx : x ∈ ['x', 'u', 'U']) (h : ∃ b, ds = '+' :: b) :
    Signed ('\\' :: x :: ds) := by
  obtain ⟨b, rfl⟩ := h
  exact ⟨[], x, b, rfl, hx⟩

theorem Escape.exact_or_signed (h : Escape loose e c) :
    Escape false e c ∨ Signed ('\\' :: e) := by
  cases h with
  | letter h => exact .inl (.letter h)
  | byte h hc => exact h.exact_or_plus.imp (.byte · hc) (signed_of_plus (by simp))
  | short h => exact h.exact_or_plus.imp .short (signed_of_plus (by simp))
  | long h => exact h.exact_or_plus.imp .long (signed_of_plus (by simp))
  | octal h hc => exact .inl (.octal h hc)

theorem Body.mono (h : Body false s v) : Body loose s v := by
  induction h with
  | nil => exact .nil
  | plain hq hl hb _ ih => exact .plain hq hl hb ih
  | escape he _ ih => exact .escape he.mono ih

theorem Body.exact_or_signed (h : Body loose s v) : Body false s v ∨ Signed s := by
  induction h with
  | nil => exact .inl .nil
  | @plain c s v hq hl hb _ ih =>
      exact ih.imp (.plain hq hl hb) fun hs => hs.append_left [c]
  | @escape e s v c he _ ih =>
      rcases he.exact_or_signed with he | hs
      · exact ih.imp (.escape he) fun hs => hs.append_left ('\\' :: e)
      · exact .inr (hs.append_right s)

theorem Denotes.mono (h : Denotes false s v) : Denotes loose s v := by
  cases h with
  | raw h => exact .raw (.inr (h.resolve_left Bool.false_ne_true))
  | interpreted h => exact .interpreted h.mono

theorem Denotes.exact_or_liberty (h : Denotes loose s v) : Denotes false s v ∨ TakesLiberty s := by
  cases h with
  | @raw b h =>
      by_cases hb : backquote ∈ b
      · exact .inr (.inl ⟨b, rfl, hb⟩)
      · exact .inl (.raw (.inr hb))
  | @interpreted b v h =>
      exact h.exact_or_signed.imp .interpreted fun hs =>
        .inr ((hs.append_left ['"']).append_right ['"'])

end Liberties

/-- The number of backslashes at the end of a text. -/
def backslashes (s : List Char) : Nat := (s.reverse.takeWhile (· == '\\')).length

/-- Each double quote is escaped, and so is none behind the text. -/
structure Guarded (s : List Char) : Prop where
  quotes : ∀ a b, s = a ++ '"' :: b → backslashes a % 2 = 1
  stop : backslashes s % 2 = 0

section Guards

variable {p q : List Char}

/-- Backslashes are counted from the last character that is none. -/
theorem backslashes_append (hp : backslashes p % 2 = 0) (q : List Char) :
    backslashes (p ++ q) % 2 = backslashes q % 2 := by
  rw [backslashes, List.reverse_append, List.takeWhile_append]
  split
  next hall =>
    rw [List.length_append, Nat.add_mod, ← backslashes, hp, backslashes, hall, Nat.add_zero,
      Nat.mod_mod]
  next => rw [backslashes]

theorem Guarded.append (hp : Guarded p) (hq : Guarded q) : Guarded (p ++ q) where
  quotes := by
    intro a b h
    rcases List.append_eq_append_iff.1 h with ⟨c, rfl, hc⟩ | ⟨c, rfl, hc⟩
    · rw [backslashes_append hp.stop]
      exact hq.quotes c b hc
    · cases c with
      | nil => exact absurd (hq.quotes [] b hc.symm) (by decide)
      | cons x c =>
          obtain ⟨rfl, -⟩ := List.cons.inj hc
          exact hp.quotes a c rfl
  stop := (backslashes_append hp.stop q).trans hq.stop

theorem guarded_nil : Guarded [] := ⟨by simp, rfl⟩

theorem guarded_of_not_mem (h : '"' ∉ s) (hs : backslashes s % 2 = 0) : Guarded s := by
  refine ⟨fun a b he => absurd ?_ h, hs⟩
  rw [he]
  simp

/-- What stands behind one backslash is escaped. -/
theorem guarded_pair (d : Char) : Guarded ['\\', d] where
  quotes := by
    intro a b h
    cases a with
    | nil => cases (List.cons.inj h).1
    | cons x a =>
        obtain ⟨rfl, h⟩ := List.cons.inj h
        cases a with
        | nil => rfl
        | cons y a => simp at h
  stop := by by_cases hd : d = '\\' <;> simp [backslashes, hd]

theorem guarded_encodeChar (c : Char) : Guarded (encodeChar c) := by
  rcases encodeChar_cases c with ⟨d, he, -⟩ | ⟨he, -⟩ | ⟨he, hq, hb, -⟩
  · rw [he]
    exact guarded_pair d
  · have hdigit (m : Nat) := hexDigit_ne (m % 16) (Nat.mod_lt _ (by decide))
    rw [he]
    refine guarded_of_not_mem ?_ ?_
    · simp [hex4, (hdigit _).1.symm]
    · simp [backslashes, hex4, (hdigit _).2.1]
  · rw [he]
    exact guarded_of_not_mem (by simp [hq.symm]) (by simp [backslashes, hb])

theorem guarded_encode (s : List Char) : Guarded (encode s) := by
  induction s with
  | nil => exact guarded_nil
  | cons c s ih => exact (guarded_encodeChar c).append ih

end Guards

theorem body_encodeChar (c : Char) (h : Body false s v) :
    Body false (encodeChar c ++ s) (c :: v) := by
  rcases encodeChar_cases c with ⟨d, he, hd, -⟩ | ⟨he, hc⟩ | ⟨he, hq, hb, hc⟩
  · rw [he]
    exact .escape (.letter (simpleEscape?_eq_some_iff.1 hd)) h
  · have hhex := numeral?_eq_some_iff.1 (numeral?_hex4 (toNat_lt_of_isControl hc))
    rw [he]
    exact .escape (.short ⟨rfl, .inl hhex⟩) h
  · have hl : c ≠ '\n' := by
      rintro rfl
      cases hc
    rw [he]
    exact .plain hq hl hb h

theorem body_encode (s : List Char) : Body false (encode s) s := by
  induction s with
  | nil => exact .nil
  | cons c s ih => exact body_encodeChar c ih

/-- Whatever a text is, its literal is one by the grammar of the language and denotes the text. No
control character stands in it, line feeds included, and between its double quotes each double quote
is escaped. -/
theorem quote_denotes (s : List Char) :
    unquote (quote s) = some s ∧ Denotes false (quote s) s ∧
      (∀ c ∈ quote s, isControl c = false) ∧
      ∃ body, quote s = '"' :: body ++ ['"'] ∧
        ∀ a b, body = a ++ '"' :: b → backslashes a % 2 = 1 :=
  ⟨unquote_quote s, .interpreted (body_encode s), fun _ hc => isControl_of_mem_quote hc, encode s,
    rfl, (guarded_encode s).quotes⟩

/-- A text is a literal exactly when the loose grammar has it as one, and denotes what it denotes
there. All literals of the language are among them, and any other one takes a liberty. -/
theorem unquote_iff_denotes (s v : List Char) :
    (unquote s = some v ↔ Denotes true s v) ∧ (Denotes false s v → unquote s = some v) ∧
      (unquote s = some v → Denotes false s v ∨ TakesLiberty s) :=
  ⟨⟨denotes_of_unquote, unquote_of_denotes⟩, fun h => unquote_of_denotes h.mono,
    fun h => (denotes_of_unquote h).exact_or_liberty⟩

/-- An escape of each width. -/
theorem unquote_iff_denotes_escapes :
    let s := "\"\\x41\\u00e9\\U0001f600\\101\\t\"".toList
    let v := ['A', 'é', '😀', 'A', '\t']
    Denotes false s v ∧ unquote s = some v := by
  intro s v
  have hx : Escape false ['x', '4', '1'] 'A' := .byte ⟨rfl, .inl (by decide)⟩ (by decide)
  have hu : Escape false ['u', '0', '0', 'e', '9'] 'é' := .short ⟨rfl, .inl (by decide)⟩
  have hU : Escape false ['U', '0', '0', '0', '1', 'f', '6', '0', '0'] '😀' :=
    .long ⟨rfl, .inl (by decide)⟩
  have ho : Escape false ['1', '0', '1'] 'A' := .octal ⟨rfl, .inl (by decide)⟩ (by decide)
  have ht : Escape false ['t'] '\t' := .letter (by decide)
  have hs : Denotes false s v :=
    .interpreted (.escape hx (.escape hu (.escape hU (.escape ho (.escape ht .nil)))))
  exact ⟨hs, (unquote_iff_denotes s v).2.1 hs⟩

theorem not_escape_plus (h : Escape false e c) (he : e ++ s = 'x' :: '+' :: rest) : False := by
  cases h with
  | letter h =>
      obtain rfl := (List.cons.inj he).1
      have hnone : ∀ p ∈ letterEscapes, p.1 ≠ 'x' := by decide
      exact hnone _ h rfl
  | @byte ds c h hc =>
      obtain ⟨hn, h | ⟨hl, -⟩⟩ := h
      · cases ds with
        | nil => cases hn
        | cons d ds =>
            obtain rfl := (List.cons.inj (List.cons.inj he).2).1
            exact not_spells_plus (by decide) h
      · cases hl
  | short h => cases (List.cons.inj he).1
  | long h => cases (List.cons.inj he).1
  | octal h hc =>
      cases e with
      | nil => cases h.1
      | cons d ds =>
          obtain rfl := (List.cons.inj he).1
          exact absurd h.digit_of_exact (by decide)

/-- A sign is taken for a digit, and a backquote within a raw literal for a part of it. -/
theorem not_denotes_liberties :
    let signed := "\"\\x+1\"".toList
    let quoted := "`a`b`".toList
    (unquote signed = some ['\x01'] ∧ ¬ Denotes false signed ['\x01']) ∧
      unquote quoted = some "a`b".toList ∧ ¬ Denotes false quoted "a`b".toList := by
  refine ⟨⟨by decide +kernel, ?_⟩, by decide +kernel, ?_⟩
  · intro h
    generalize hs : "\"\\x+1\"".toList = s at h
    generalize ['\x01'] = v at h
    cases h with
    | raw => cases (List.cons.inj hs).1
    | @interpreted b v h =>
        have hb : ['\\', 'x', '+', '1'] = b := List.append_cancel_right (List.cons.inj hs).2
        cases h with
        | nil => cases hb
        | plain _ _ hne => exact hne (List.cons.inj hb).1.symm
        | escape he => exact not_escape_plus he (List.cons.inj hb).2.symm
  · intro h
    generalize hs : "`a`b`".toList = s at h
    generalize "a`b".toList = v at h
    cases h with
    | @raw b h =>
        have hb : "a`b".toList = b := List.append_cancel_right (List.cons.inj hs).2
        rcases h with h | h
        · cases h
        · rw [← hb] at h
          exact h (by decide)
    | interpreted => cases (List.cons.inj hs).1

end GoOutline.Text.Quoted
