import GoOutline.Proofs.Closings

/-!
Pairs of a key and a value, as struct tags have them. What can be a key is said of its bytes. Pairs
are read as they are written, and tags read back from the literal that is written for them.
-/

namespace GoOutline

open Text

namespace Text.Utf8

variable {b : UInt8} {bs : List UInt8} {c d : Char} {s t : List Char}

/-- The first byte of a character is its number, if that is below 0x80, and all other bytes are not
below 0x80. -/
structure Encodes (c : Char) (b : UInt8) (bs : List UInt8) : Prop where
  bytes : String.utf8EncodeChar c = b :: bs
  first : c.toNat < 0x80 ∧ b = UInt8.ofNat c.toNat ∨ 0x80 ≤ c.toNat ∧ 0x80 ≤ b
  others : ∀ x ∈ bs, 0x80 ≤ x

theorem le_of_mem_encodeChar (hc : 0x80 ≤ c.toNat) : ∀ x ∈ String.utf8EncodeChar c, 0x80 ≤ x := by
  have hhigh {n m : Nat} (hm : 0x80 ≤ m) (hn : n + m < 256) :
      (0x80 : UInt8) ≤ UInt8.ofNat (n + m) := by
    rw [UInt8.le_iff_toNat_le, UInt8.toNat_ofNat_of_lt' hn]
    exact Nat.le_add_left_of_le hm
  have hv : ¬ c.val.toNat ≤ 127 := Nat.not_le.2 hc
  intro x hx
  simp only [String.utf8EncodeChar, if_neg hv] at hx
  split at hx
  · simp only [List.mem_cons, List.not_mem_nil, or_false] at hx
    rcases hx with rfl | rfl <;> exact hhigh (by decide) (by omega)
  split at hx
  · simp only [List.mem_cons, List.not_mem_nil, or_false] at hx
    rcases hx with rfl | rfl | rfl <;> exact hhigh (by decide) (by omega)
  · simp only [List.mem_cons, List.not_mem_nil, or_false] at hx
    rcases hx with rfl | rfl | rfl | rfl <;> exact hhigh (by decide) (by omega)

theorem exists_encodes (c : Char) : ∃ b bs, Encodes c b bs := by
  by_cases hc : c.toNat < 0x80
  · refine ⟨UInt8.ofNat c.toNat, [], ?_, .inl ⟨hc, rfl⟩, by simp⟩
    rw [String.utf8EncodeChar]
    exact if_pos (Nat.le_of_lt_succ hc)
  · have hall := le_of_mem_encodeChar (Nat.le_of_not_lt hc)
    have hne : String.utf8EncodeChar c ≠ [] := by
      rw [← List.length_pos_iff, String.length_utf8EncodeChar]
      exact c.utf8Size_pos
    obtain ⟨b, bs, hb⟩ := List.exists_cons_of_ne_nil hne
    rw [hb, List.forall_mem_cons] at hall
    exact ⟨b, bs, hb, .inr ⟨Nat.le_of_not_lt hc, hall.1⟩, hall.2⟩

theorem Encodes.length (h : Encodes c b bs) : bs.length + 1 = c.utf8Size := by
  rw [← String.length_utf8EncodeChar, h.bytes, List.length_cons]

theorem Encodes.first_eq_iff (h : Encodes c b bs) (hd : d.toNat < 0x80) :
    b = UInt8.ofNat d.toNat ↔ c = d := by
  have hbyte {n : Nat} (hn : n < 0x80) : (UInt8.ofNat n).toNat = n :=
    UInt8.toNat_ofNat_of_lt' (Nat.lt_trans hn (by decide))
  constructor
  · rintro rfl
    rcases h.first with ⟨hc, he⟩ | ⟨-, hb⟩
    · have hn := congrArg UInt8.toNat he
      rw [hbyte hd, hbyte hc] at hn
      rw [← Char.ofNat_toNat c, ← hn, Char.ofNat_toNat]
    · rw [UInt8.le_iff_toNat_le, hbyte hd] at hb
      exact absurd hd (Nat.not_lt.2 hb)
  · rintro rfl
    rcases h.first with ⟨-, he⟩ | ⟨hc, -⟩
    · exact he
    · exact absurd hd (Nat.not_lt.2 hc)

@[simp] theorem encode_nil : encode [] = [] := rfl

@[simp] theorem encode_append (s t : List Char) : encode (s ++ t) = encode s ++ encode t :=
  List.flatMap_append

theorem Encodes.encode (h : Encodes c b bs) (s : List Char) :
    encode (c :: s) = b :: (bs ++ Utf8.encode s) := by
  rw [Utf8.encode, List.flatMap_cons, h.bytes, List.cons_append, Utf8.encode]

theorem length_encode (s : List Char) : (encode s).length = byteLength s := by
  induction s with
  | nil => rfl
  | cons c s ih =>
      obtain ⟨b, bs, h⟩ := exists_encodes c
      rw [h.encode, List.length_cons, List.length_append, ih, byteLength, ← h.length]
      omega

/-- What the first byte of a text says about its first character. -/
theorem head?_encode (hd : d.toNat < 0x80) :
    (encode s).head? = some (UInt8.ofNat d.toNat) ↔ s.head? = some d := by
  cases s with
  | nil => simp
  | cons c s =>
      obtain ⟨b, bs, h⟩ := exists_encodes c
      rw [h.encode, List.head?_cons, List.head?_cons, Option.some_inj, Option.some_inj,
        h.first_eq_iff hd]

end Text.Utf8

namespace Table

variable {α : Type} {es : List (String × α)}

theorem ofFirst_concat (es : List (String × α)) (e : String × α) :
    ofFirst (es ++ [e]) = (ofFirst es).insertNew e.1 e.2 := by
  rw [ofFirst, List.foldl_append]
  rfl

theorem entries_insertNew (t : Table α) (e : String × α) :
    (t.insertNew e.1 e.2).entries = t.entries ++ if e.1 ∈ t.names then [] else [e] := by
  by_cases h : e.1 ∈ t.entries.map Prod.fst
  · rw [insertNew, dif_pos h, names, if_pos h, List.append_nil]
  · rw [insertNew, dif_neg h, names, if_neg h]

/-- Each name stands where it came first. -/
theorem names_ofFirst (es : List (String × α)) :
    (ofFirst es).names = (es.map Prod.fst).eraseDups := by
  induction es using List.reverseRecOn with
  | nil => rfl
  | append_singleton es e ih =>
      rw [ofFirst_concat, names, entries_insertNew, List.map_append, List.map_append,
        List.eraseDups_append, ← ih]
      congr 1
      by_cases h : e.1 ∈ es.map Prod.fst
      · simp [List.removeAll, ih, h]
      · simp only [ih, List.mem_eraseDups, h, if_false, List.removeAll, List.map_cons,
          List.map_nil, List.elem_eq_mem, decide_false, Bool.not_false, List.filter_cons_of_pos,
          List.filter_nil]
        rfl

theorem mem_names_ofFirst {name : String} :
    name ∈ (ofFirst es).names ↔ ∃ e ∈ es, e.1 = name := by
  rw [names_ofFirst, List.mem_eraseDups, List.mem_map]

/-- Each name has the value that it came with first. -/
theorem get?_ofFirst (es : List (String × α)) (name : String) :
    (ofFirst es).get? name = es.lookup name := by
  induction es using List.reverseRecOn with
  | nil => rfl
  | append_singleton es e ih =>
      rw [get?] at ih
      rw [ofFirst_concat, get?, entries_insertNew, List.lookup_append, List.lookup_append, ih]
      by_cases h : e.1 ∈ (ofFirst es).names
      · rw [if_pos h]
        by_cases hn : name = e.1
        · -- The value from before counts.
          subst hn
          obtain ⟨a, ha⟩ : ∃ a, es.lookup e.1 = some a := by
            refine Option.ne_none_iff_exists'.1 fun hnone => ?_
            obtain ⟨d, hd, hde⟩ := mem_names_ofFirst.1 h
            simpa [hde] using List.lookup_eq_none_iff.1 hnone d hd
          rw [ha, Option.some_or, Option.some_or]
        · have hother : [e].lookup name = none := List.lookup_eq_none_iff.2 (by simpa using hn)
          rw [hother, List.lookup_nil]
      · rw [if_neg h]

theorem entries_ofFirst (h : (es.map Prod.fst).Nodup) : (ofFirst es).entries = es := by
  induction es using List.reverseRecOn with
  | nil => rfl
  | append_singleton es e ih =>
      rw [List.map_append, List.nodup_append] at h
      have he : e.1 ∉ es.map Prod.fst := fun hm => h.2.2 e.1 hm e.1 (by simp) rfl
      have hold := ih h.1
      rw [ofFirst_concat, insertNew, dif_neg (by rwa [hold])]
      simp only [hold]

theorem eq_of_entries {t u : Table α} (h : t.entries = u.entries) : t = u := by
  cases t
  cases u
  cases h
  rfl

theorem ofFirst_entries (t : Table α) : ofFirst t.entries = t :=
  eq_of_entries (entries_ofFirst t.nodup)

end Table

namespace Tags

open Quoted

variable {c : Char} {s rest tail : List Char} {key : String} {b : UInt8} {bs : List UInt8}

section Keys

/-- A byte that can be part of a key: above the space, and neither a colon nor a double quote nor
the delete character. -/
def isKeyByte (b : UInt8) : Bool := 0x20 < b && b != 0x3a && b != 0x22 && b != 0x7f

/-- What can be a key. -/
def IsKey (key : String) : Prop := key.toList ≠ [] ∧ ∀ b ∈ Utf8.encode key.toList, isKeyByte b

instance : Decidable (IsKey key) :=
  inferInstanceAs (Decidable (key.toList ≠ [] ∧ ∀ b ∈ Utf8.encode key.toList, isKeyByte b))

theorem isKeyByte_of_le (h : 0x80 ≤ b) : isKeyByte b := by
  have hne {x : UInt8} (hx : x < 0x80) : b ≠ x := by
    rintro rfl
    exact absurd h (UInt8.not_le.2 hx)
  have hlt : 0x20 < b := UInt8.lt_of_lt_of_le (by decide) h
  simp [isKeyByte, hlt, hne]

theorem isKeyChar_of_le (h : 0x80 ≤ c.toNat) : isKeyChar c := by
  have hne {x : Char} (hx : x.toNat < 0x80) : c ≠ x := by
    rintro rfl
    exact absurd h (Nat.not_le.2 hx)
  have hlt : ' ' < c := Nat.lt_of_lt_of_le (by decide : 32 < 0x80) h
  simp [isKeyChar, hlt, hne]

theorem isKeyByte_ofNat : ∀ n < 0x80, isKeyByte (UInt8.ofNat n) = isKeyChar (Char.ofNat n) := by
  decide

/-- The first byte of a character tells whether the character can be part of a key. -/
theorem isKeyByte_first (h : Utf8.Encodes c b bs) : isKeyByte b = isKeyChar c := by
  rcases h.first with ⟨hc, rfl⟩ | ⟨hc, hb⟩
  · rw [isKeyByte_ofNat _ hc, Char.ofNat_toNat]
  · rw [isKeyByte_of_le hb, isKeyChar_of_le hc]

theorem isKeyByte_encode : (∀ b ∈ Utf8.encode s, isKeyByte b) ↔ ∀ c ∈ s, isKeyChar c := by
  induction s with
  | nil => simp
  | cons c s ih =>
      obtain ⟨b, bs, h⟩ := Utf8.exists_encodes c
      have hbs : ∀ x ∈ bs, isKeyByte x := fun x hx => isKeyByte_of_le (h.others x hx)
      rw [h.encode, List.forall_mem_cons, List.forall_mem_append, List.forall_mem_cons, ih,
        isKeyByte_first h]
      exact and_congr_right fun _ => and_iff_right hbs

theorem isKey_iff : IsKey key ↔ key.toList ≠ [] ∧ ∀ c ∈ key.toList, isKeyChar c :=
  and_congr_right fun _ => isKeyByte_encode

theorem takeWhile_encode (s : List Char) :
    (Utf8.encode s).takeWhile isKeyByte = Utf8.encode (s.takeWhile isKeyChar) := by
  induction s with
  | nil => rfl
  | cons c s ih =>
      obtain ⟨b, bs, h⟩ := Utf8.exists_encodes c
      rw [h.encode, List.takeWhile_cons, List.takeWhile_cons, isKeyByte_first h]
      split
      · have hbs : ∀ x ∈ bs, isKeyByte x := fun x hx => isKeyByte_of_le (h.others x hx)
        rw [List.takeWhile_append_of_pos hbs, ih, h.encode]
      · rfl

theorem key?_eq_some_iff {key behind : List Char} : key? s = some (key, behind) ↔
    (key ≠ [] ∧ ∀ c ∈ key, isKeyChar c) ∧ s = key ++ ':' :: behind := by
  constructor
  · intro h
    have hw : ∀ x ∈ s.takeWhile isKeyChar, isKeyChar x := fun _ hx => List.mem_takeWhile_imp hx
    have hs := List.takeWhile_append_dropWhile (p := isKeyChar) (l := s)
    cases hd : s.dropWhile isKeyChar with
    | nil =>
        rw [key?, hd] at h
        cases h
    | cons c t =>
        have hc : isKeyChar c = false := by
          have hnot := List.head?_dropWhile_not isKeyChar s
          simpa [hd] using hnot
        rw [hd] at hs
        rw [← hs, key?_of_append hw hc] at h
        split at h
        next hcolon =>
          cases h
          exact ⟨⟨hcolon.2, hw⟩, by rw [← hcolon.1, hs]⟩
        next => cases h
  · rintro ⟨⟨hne, hk⟩, rfl⟩
    rw [key?_of_append hk (by decide), if_pos ⟨rfl, hne⟩]

end Keys

section Steps

/-- A pair as it is written: any number of spaces, a key, a colon, and a literal between double
quotes that denotes the value. -/
structure Pair where
  spaces : Nat
  key : String
  /-- What stands between the double quotes. -/
  body : List Char
  value : String
  isKey : IsKey key
  denotes : unquote ('"' :: body ++ ['"']) = some value.toList

def Pair.literal (p : Pair) : List Char := '"' :: p.body ++ ['"']

def Pair.text (p : Pair) : List Char :=
  List.replicate p.spaces ' ' ++ p.key.toList ++ ':' :: p.literal

def Pair.entry (p : Pair) : String × String := (p.key, p.value)

/-- The pair in front of a text, and the rest. -/
def next? (s : List Char) : Option ((String × String) × List Char) := do
  let (key, behind) ← key? (s.dropWhile (· == ' '))
  let (literal, rest) ← literal? behind
  let value ← unquote literal
  return ((String.ofList key, String.ofList value), rest)

theorem scan_eq_next (s : List Char) :
    scan s = match next? s with
      | none => []
      | some (entry, rest) => entry :: scan rest := by
  rw [scan_eq, next?]
  cases key? (s.dropWhile (· == ' ')) with
  | none => rfl
  | some x =>
      obtain ⟨key, behind⟩ := x
      cases hl : literal? behind with
      | none => simp [hl]
      | some y =>
          obtain ⟨literal, rest⟩ := y
          cases hu : unquote literal <;> simp [hl, hu]

theorem dropWhile_spaces (p : Pair) (rest : List Char) :
    (p.text ++ rest).dropWhile (· == ' ') = p.key.toList ++ ':' :: (p.literal ++ rest) := by
  obtain ⟨hne, hk⟩ := isKey_iff.1 p.isKey
  obtain ⟨c, t, hct⟩ := List.exists_cons_of_ne_nil hne
  have hc : (c == ' ') = false := by
    have hc := hk c (by simp [hct])
    by_contra hs
    rw [Bool.not_eq_false, beq_iff_eq] at hs
    rw [hs] at hc
    cases hc
  have hspaces : ∀ x ∈ List.replicate p.spaces ' ', (x == ' ') = true := by simp
  rw [Pair.text, List.append_assoc, List.append_assoc, List.dropWhile_append_of_pos hspaces, hct,
    List.cons_append, List.dropWhile_cons_of_neg (by simp [hc])]
  rfl

/-- A pair is read exactly if one is written there. -/
theorem next?_eq_some_iff {entry : String × String} : next? s = some (entry, rest) ↔
    ∃ p : Pair, s = p.text ++ rest ∧ p.entry = entry := by
  constructor
  · intro h
    obtain ⟨⟨key, behind⟩, hk, h⟩ := Option.bind_eq_some_iff.1 h
    obtain ⟨⟨literal, rest⟩, hl, h⟩ := Option.bind_eq_some_iff.1 h
    obtain ⟨value, hv, h⟩ := Option.bind_eq_some_iff.1 h
    cases h
    obtain ⟨hkey, hs⟩ := key?_eq_some_iff.1 hk
    obtain ⟨body, rfl, rfl, -⟩ := literal?_eq_some_iff.1 hl
    have hspaces : s.takeWhile (· == ' ') =
        List.replicate (s.takeWhile (· == ' ')).length ' ' := by
      refine List.eq_replicate_iff.2 ⟨rfl, fun c hc => ?_⟩
      simpa using List.mem_takeWhile_imp hc
    refine ⟨⟨(s.takeWhile (· == ' ')).length, String.ofList key, body, String.ofList value,
      isKey_iff.2 (by simpa using hkey), by simpa using hv⟩, ?_, rfl⟩
    simp only [Pair.text, Pair.literal, String.toList_ofList, ← hspaces]
    rw [List.append_assoc, List.append_assoc, List.cons_append, ← hs,
      List.takeWhile_append_dropWhile]
  · rintro ⟨p, rfl, rfl⟩
    have hk : key? ((p.text ++ rest).dropWhile (· == ' ')) =
        some (p.key.toList, p.literal ++ rest) := by
      rw [dropWhile_spaces]
      exact key?_eq_some_iff.2 ⟨isKey_iff.1 p.isKey, rfl⟩
    have hl : literal? (p.literal ++ rest) = some (p.literal, rest) :=
      literal?_of_unquote p.denotes rest
    have hv : unquote p.literal = some p.value.toList := p.denotes
    simp [next?, hk, hl, hv, Pair.entry]

theorem next?_eq_none_iff : next? s = none ↔ ∀ p : Pair, ¬ p.text <+: s := by
  rw [← not_iff_not, ← ne_eq, Option.ne_none_iff_exists']
  constructor
  · rintro ⟨⟨entry, rest⟩, h⟩ hp
    obtain ⟨p, rfl, -⟩ := next?_eq_some_iff.1 h
    exact hp p (List.prefix_append _ _)
  · intro h
    obtain ⟨p, rest, rfl⟩ : ∃ p : Pair, p.text <+: s := by simpa using h
    exact ⟨_, next?_eq_some_iff.2 ⟨p, rfl, rfl⟩⟩

theorem length_of_next {entry : String × String} (h : next? s = some (entry, rest)) :
    rest.length < s.length := by
  obtain ⟨p, rfl, -⟩ := next?_eq_some_iff.1 h
  simp [Pair.text, Pair.literal]
  omega

end Steps

section Runs

/-- Pairs are read one by one, up to where none follows. -/
theorem scan_pairs (h : ∀ p : Pair, ¬ p.text <+: tail) (ps : List Pair) :
    scan (ps.flatMap Pair.text ++ tail) = ps.map Pair.entry := by
  induction ps with
  | nil =>
      rw [List.flatMap_nil, List.nil_append, scan_eq_next, next?_eq_none_iff.2 h]
      rfl
  | cons p ps ih =>
      have hp : next? (p.text ++ (ps.flatMap Pair.text ++ tail)) =
          some (p.entry, ps.flatMap Pair.text ++ tail) := next?_eq_some_iff.2 ⟨p, rfl, rfl⟩
      rw [List.flatMap_cons, List.append_assoc, scan_eq_next, hp, List.map_cons, ← ih]

/-- Any text starts with as many pairs as it can. -/
theorem exists_pairs (s : List Char) :
    ∃ (ps : List Pair) (tail : List Char), s = ps.flatMap Pair.text ++ tail ∧
      ∀ p : Pair, ¬ p.text <+: tail := by
  induction hn : s.length using Nat.strongRecOn generalizing s with
  | _ n ih =>
      subst hn
      cases h : next? s with
      | none => exact ⟨[], s, rfl, next?_eq_none_iff.1 h⟩
      | some x =>
          obtain ⟨entry, rest⟩ := x
          have hlen := length_of_next h
          obtain ⟨p, rfl, -⟩ := next?_eq_some_iff.1 h
          obtain ⟨ps, tail, rfl, htail⟩ := ih rest.length hlen rest rfl
          exact ⟨p :: ps, tail, by rw [List.flatMap_cons, List.append_assoc], htail⟩

end Runs

section Literals

theorem isKey_of_ofText (s : List Char) {key : String} (h : key ∈ (ofText s).table.names) :
    IsKey key := by
  obtain ⟨ps, tail, rfl, htail⟩ := exists_pairs s
  rw [ofText, scan_pairs htail, Table.mem_names_ofFirst] at h
  obtain ⟨e, he, rfl⟩ := h
  obtain ⟨p, -, rfl⟩ := List.mem_map.1 he
  exact p.isKey

theorem exists_pair {e : String × String} (h : IsKey e.1) (n : Nat) :
    ∃ p : Pair, p.entry = e ∧ p.text = List.replicate n ' ' ++ renderPair e :=
  ⟨⟨n, e.1, Quoted.encode e.2.toList, e.2, h, unquote_quote e.2.toList⟩, rfl,
    List.append_assoc _ _ _⟩

theorem intercalate_cons (sep l : List Char) (ls : List (List Char)) :
    sep.intercalate (l :: ls) = l ++ ls.flatMap (sep ++ ·) := by
  induction ls generalizing l with
  | nil => simp [List.intercalate]
  | cons m ls ih =>
      rw [List.intercalate_cons_cons, ih, List.flatMap_cons, List.append_assoc, List.append_assoc]

theorem exists_pairs_render {t : Tags} (h : ∀ key ∈ t.table.names, IsKey key) :
    ∃ ps : List Pair, ps.map Pair.entry = t.pairs ∧ ps.flatMap Pair.text = t.render := by
  have hall : ∀ e ∈ t.pairs, IsKey e.1 := fun e he => h e.1 (List.mem_map_of_mem he)
  -- Behind the first pair, each one has a space in front.
  have hrow : ∀ es : List (String × String), (∀ e ∈ es, IsKey e.1) → ∃ ps : List Pair,
      ps.map Pair.entry = es ∧ ps.flatMap Pair.text = (es.map renderPair).flatMap ([' '] ++ ·) := by
    intro es hes
    induction es with
    | nil => exact ⟨[], rfl, rfl⟩
    | cons e es ih =>
        obtain ⟨he, hes⟩ := List.forall_mem_cons.1 hes
        obtain ⟨p, hp, ht⟩ := exists_pair he 1
        obtain ⟨ps, hps, hts⟩ := ih hes
        exact ⟨p :: ps, by rw [List.map_cons, hp, hps],
          by rw [List.flatMap_cons, ht, hts, List.map_cons, List.flatMap_cons]; rfl⟩
  rw [render]
  cases hes : t.pairs with
  | nil => exact ⟨[], rfl, rfl⟩
  | cons e es =>
      rw [hes] at hall
      obtain ⟨he, hall⟩ := List.forall_mem_cons.1 hall
      obtain ⟨p, hp, ht⟩ := exists_pair he 0
      obtain ⟨ps, hps, hts⟩ := hrow es hall
      exact ⟨p :: ps, by rw [List.map_cons, hp, hps],
        by rw [List.flatMap_cons, ht, hts, List.map_cons, intercalate_cons]; rfl⟩

/-- Tags are read back as they are written. -/
theorem ofText_render {t : Tags} (h : ∀ key ∈ t.table.names, IsKey key) : ofText t.render = t := by
  obtain ⟨ps, hps, ht⟩ := exists_pairs_render h
  have hend : ∀ p : Pair, ¬ p.text <+: [] := fun p => by simp [Pair.text]
  have hscan := scan_pairs hend ps
  rw [List.append_nil, ht, hps] at hscan
  rw [ofText, hscan, pairs, Table.ofFirst_entries]

theorem le_of_mem_render {t : Tags} (h : ∀ key ∈ t.table.names, IsKey key) (hc : c ∈ t.render) :
    ' ' ≤ c := by
  have hkey {key : String} (hk : key ∈ t.table.names) : ∀ c ∈ key.toList, ' ' ≤ c := by
    intro c hc
    have hc := (isKey_iff.1 (h key hk)).2 c hc
    simp only [isKeyChar, Bool.and_eq_true, decide_eq_true_eq] at hc
    exact Nat.le_of_lt hc.1.1.1
  have hquote {s : List Char} : ∀ c ∈ quote s, ' ' ≤ c := by
    intro c hc
    have hcontrol := isControl_of_mem_quote hc
    rw [isControl, Bool.or_eq_false_iff, decide_eq_false_iff_not] at hcontrol
    exact Nat.le_of_not_lt hcontrol.1
  have hpair : ∀ l ∈ t.pairs.map renderPair, ∀ c ∈ l, ' ' ≤ c := by
    refine List.forall_mem_map.2 fun e he => List.forall_mem_append.2 ⟨?_, ?_⟩
    · exact hkey (List.mem_map_of_mem he)
    · exact List.forall_mem_cons.2 ⟨by decide, hquote⟩
  rw [render] at hc
  cases hl : t.pairs.map renderPair with
  | nil =>
      rw [hl] at hc
      cases hc
  | cons l ls =>
      rw [hl] at hc hpair
      rw [intercalate_cons, List.mem_append, List.mem_flatMap] at hc
      obtain ⟨hfirst, hothers⟩ := List.forall_mem_cons.1 hpair
      rcases hc with hc | ⟨m, hm, hc⟩
      · exact hfirst c hc
      · exact (List.forall_mem_cons (p := (' ' ≤ ·)).2 ⟨by decide, hothers m hm⟩) c hc

theorem not_newline_mem_literal {t : Tags} (h : ∀ key ∈ t.table.names, IsKey key) :
    '\n' ∉ t.literal := by
  have hrender : '\n' ∉ t.render := fun hm => absurd (le_of_mem_render h hm) (by decide)
  rw [literal]
  split
  · exact fun hm => absurd (isControl_of_mem_quote hm) (by decide)
  · simpa using hrender

/-- The literal of tags denotes what they are written as, in either form. -/
theorem unquote_literal {t : Tags} (h : ∀ key ∈ t.table.names, IsKey key) :
    unquote t.literal = some t.render := by
  rw [literal]
  split
  · exact unquote_quote t.render
  · rw [unquote_raw, List.filter_eq_self.2]
    intro c hc
    rw [decide_eq_true_eq]
    rintro rfl
    exact absurd (le_of_mem_render h hc) (by decide)

/-- Tags survive the literal that is written for them, which has one line. What is read from any
text can be written so. -/
theorem literal_denotes :
    (∀ t : Tags, (∀ key ∈ t.table.names, IsKey key) →
      '\n' ∉ t.literal ∧ ∃ content, unquote t.literal = some content ∧ ofText content = t) ∧
    ∀ s, (∀ key ∈ (ofText s).table.names, IsKey key) ∧
      ∃ content, unquote (ofText s).literal = some content ∧ ofText content = ofText s := by
  have hread {t : Tags} (h : ∀ key ∈ t.table.names, IsKey key) :
      ∃ content, unquote t.literal = some content ∧ ofText content = t :=
    ⟨t.render, unquote_literal h, ofText_render h⟩
  refine ⟨fun t h => ⟨not_newline_mem_literal h, hread h⟩, fun s => ?_⟩
  have hkeys : ∀ key ∈ (ofText s).table.names, IsKey key := fun _ => isKey_of_ofText s
  exact ⟨hkeys, hread hkeys⟩

/-- Values of quotes, backslashes, backquotes, line breaks and control characters, behind a key with
a backquote. -/
theorem literal_denotes_controls :
    let t : Tags := ⟨⟨[("\x60k", "\"\\\x60\r\n\x00\x7f"), ("\u00e9", "")], by decide⟩⟩
    '\n' ∉ t.literal ∧ ∃ content, unquote t.literal = some content ∧ ofText content = t :=
  literal_denotes.1 _ (by decide +kernel)

end Literals

end Tags

end GoOutline
