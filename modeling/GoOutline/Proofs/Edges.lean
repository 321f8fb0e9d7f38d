import Mathlib.Data.List.Basic
import GoOutline.Syntax.Lexer

/-!
Edges of a text. No word, number or operator goes on with an edge, so the scanners for them read
what stands in front of an edge as if the text ended there.
-/

namespace GoOutline.Syntax.Lexer

open Text

/-- The characters that an operator, a number or a comment can go on with. -/
def joints : List Char := ['.', '+', '-', '*', '/', '<', '=', '>', '&', '|', '^']

/-- No word, number or operator goes on with this character. -/
def isEdge (c : Char) : Bool := !isIdentifierPart c && !joints.contains c

/-- A text that starts at an edge. -/
def Edge (r : List Char) : Prop := ∀ c ∈ r.head?, isEdge c

variable {c : Char} {p : Char → Bool} {s r y : List Char} {n : Nat}

/-- Delimiters and other signs, none of them a part of a word. -/
def signs : List Char := ['(', ')', '[', ']', '\x7b', '\x7d', ',', ';', '/', '"', '\n', '\\']

theorem isIdentifierPart_of_sign (h : c ∈ signs) : isIdentifierPart c = false := by
  have hall : signs.all (!isIdentifierPart ·) := by decide +kernel
  simpa using List.all_eq_true.1 hall c h

theorem isIdentifierStart_of_sign (h : c ∈ signs) : isIdentifierStart c = false := by
  have hp := isIdentifierPart_of_sign h
  rw [isIdentifierPart, Bool.or_eq_false_iff] at hp
  exact hp.1

theorem isEdge_of_joint (h : joints.contains c) : isEdge c = false := by
  rw [isEdge, h]
  simp

theorem edge_nil : Edge [] := fun _ h => by cases h

theorem edge_cons (h : isEdge c) (r : List Char) : Edge (c :: r) := by
  intro x hx
  cases hx
  exact h

theorem Edge.isEdge (h : Edge (c :: r)) : isEdge c := h c rfl

theorem Edge.ne (h : Edge (c :: r)) {x : Char} (hx : Lexer.isEdge x = false) : c ≠ x := by
  rintro rfl
  rw [h.isEdge] at hx
  cases hx

theorem isIdentifierPart_of_digit {b : Nat} (hb : b ≤ 36) (h : isDigitOf b c) :
    isIdentifierPart c := by
  have hv : digitValue c < 36 := Nat.lt_of_lt_of_le (of_decide_eq_true h) hb
  have hstart (a b : Nat) (hr : (a, b) ∈ startRanges) (ha : a ≤ c.toNat) (hb : c.toNat ≤ b) :
      isIdentifierPart c := by
    have hc : startRanges.contains c.toNat = true := by
      rw [Ranges.contains, List.any_eq_true]
      exact ⟨(a, b), hr, by simp [ha, hb]⟩
    rw [isIdentifierPart, isIdentifierStart, hc, Bool.or_true, Bool.true_or]
  unfold digitValue at hv
  split at hv
  next hd =>
    have hlow : 0x30 ≤ c.toNat := hd.1
    have hhigh : c.toNat ≤ 0x39 := hd.2
    have hc : continueRanges.contains c.toNat = true := by
      rw [Ranges.contains, List.any_eq_true]
      exact ⟨(0x30, 0x39), by decide, by simp [hlow, hhigh]⟩
    rw [isIdentifierPart, hc, Bool.or_true]
  next =>
    split at hv
    next hd => exact hstart 0x61 0x7A (by decide) hd.1 hd.2
    next =>
      split at hv
      next hd => exact hstart 0x41 0x5A (by decide) hd.1 hd.2
      next => omega

theorem isEdge_underscore : isEdge '_' = false := by decide

/-- The digits of some base, none of them an underscore. -/
def Digits (p : Char → Bool) : Prop := ∀ c, p c → isIdentifierPart c ∧ c ≠ '_'

theorem digits_of_base {b : Nat} (hb : b ≤ 36) : Digits (isDigitOf b) := by
  intro c hc
  refine ⟨isIdentifierPart_of_digit hb hc, ?_⟩
  rintro rfl
  have hv : digitValue '_' < 36 := Nat.lt_of_lt_of_le (of_decide_eq_true hc) hb
  exact absurd hv (by decide)

theorem Digits.not_edge (hp : Digits p) (h : isEdge c) : p c = false := by
  rw [← Bool.not_eq_true]
  intro hc
  rw [isEdge, (hp c hc).1] at h
  cases h

theorem moreDigits_of_edge (hp : Digits p) (h : Edge r) : moreDigits p r = 0 := by
  cases r with
  | nil => rfl
  | cons c r =>
      have hc := hp.not_edge h.isEdge
      have hne := h.ne isEdge_underscore
      rw [moreDigits.eq_3 p c r fun _ _ he _ => hne he, if_neg (by simp [hc])]

theorem moreDigits_append (hp : Digits p) (h : Edge r) (s : List Char) :
    moreDigits p (s ++ r) = moreDigits p s := by
  fun_induction moreDigits p s with
  | case1 => exact moreDigits_of_edge hp h
  | case2 c s hc ih =>
      rw [List.cons_append, List.cons_append, moreDigits.eq_2, if_pos hc, ih]
  | case3 c s hc => rw [List.cons_append, List.cons_append, moreDigits.eq_2, if_neg hc]
  | case4 c s hs hc ih =>
      have hne : c ≠ '_' := (hp c hc).2
      rw [List.cons_append, moreDigits.eq_3 p c _ fun _ _ he _ => hne he, if_pos hc, ih]
  | case5 c s hs hc =>
      by_cases hu : c = '_'
      · subst hu
        cases s with
        | nil =>
            cases r with
            | nil => rw [List.append_nil, moreDigits.eq_3 p _ _ hs, if_neg hc]
            | cons x r =>
                have hx := hp.not_edge h.isEdge
                rw [List.cons_append, List.nil_append, moreDigits.eq_2, if_neg (by simp [hx])]
        | cons x s => exact absurd rfl (hs x s rfl)
      · rw [List.cons_append, moreDigits.eq_3 p c _ fun _ _ he _ => hu he, if_neg hc]

theorem digits_append (hp : Digits p) (h : Edge r) (s : List Char) :
    digits p (s ++ r) = digits p s := by
  cases s with
  | nil =>
      cases r with
      | nil => rfl
      | cons c r =>
          have hc := hp.not_edge h.isEdge
          simp [digits, hc]
  | cons c s => rw [List.cons_append, digits, digits, moreDigits_append hp h s]

theorem spacedDigits_append (hp : Digits p) (h : Edge r) (s : List Char) :
    spacedDigits p (s ++ r) = spacedDigits p s := by
  have hd := digits_append hp h
  by_cases hs : ∃ t, s = '_' :: t
  · obtain ⟨t, rfl⟩ := hs
    rw [List.cons_append, spacedDigits, spacedDigits, hd]
  · have hs' : ∀ t, s = '_' :: t → False := fun t ht => hs ⟨t, ht⟩
    have hr : ∀ t, s ++ r = '_' :: t → False := by
      intro t ht
      cases s with
      | nil =>
          rw [List.nil_append] at ht
          subst ht
          exact h.ne isEdge_underscore rfl
      | cons c s => exact hs ⟨s, by rw [(List.cons.inj ht).1]⟩
    rw [spacedDigits.eq_2 p _ hr, spacedDigits.eq_2 p _ hs', hd]

theorem moreDigits_le (p : Char → Bool) (s : List Char) : moreDigits p s ≤ s.length := by
  fun_induction moreDigits p s with
  | case1 => exact Nat.le_refl 0
  | case2 c s _ ih => simp only [List.length_cons]; omega
  | case3 => exact Nat.zero_le _
  | case4 c s _ _ ih => simp only [List.length_cons]; omega
  | case5 => exact Nat.zero_le _

theorem digits_le (p : Char → Bool) (s : List Char) : digits p s ≤ s.length := by
  cases s with
  | nil => exact Nat.le_refl 0
  | cons c s =>
      have h := moreDigits_le p s
      simp only [digits, List.length_cons]
      split
      · omega
      · exact Nat.zero_le _

theorem spacedDigits_le (p : Char → Bool) (s : List Char) : spacedDigits p s ≤ s.length := by
  unfold spacedDigits
  split
  next s =>
    have h := digits_le p s
    split
    · exact Nat.zero_le _
    · simp only [List.length_cons]; omega
  next => exact digits_le p s

/-- Letters that an edge is none of. -/
def Letters (letters : List Char) : Prop := letters.all (!isEdge ·)

theorem Letters.not_mem {letters : List Char} (hl : Letters letters) (h : isEdge c) :
    c ∉ letters := by
  intro hc
  have hn := List.all_eq_true.1 hl c hc
  rw [h] at hn
  cases hn

theorem isEdge_zero : isEdge '0' = false := by
  rw [isEdge, isIdentifierPart_of_digit (b := 10) (by decide) (by decide)]
  rfl

theorem baseLengths_append {letters : List Char} (hl : Letters letters) (hp : Digits p)
    (h : Edge r) (s : List Char) : baseLengths letters p (s ++ r) = baseLengths letters p s := by
  rcases s with _ | ⟨z, _ | ⟨c, s⟩⟩
  · rcases r with _ | ⟨z, r⟩
    · rfl
    · rw [List.nil_append, baseLengths.eq_2]
      · rfl
      · rintro c t he
        exact h.ne isEdge_zero (List.cons.inj he).1
  · rcases r with _ | ⟨x, r⟩
    · rfl
    · have hx := hl.not_mem h.isEdge
      by_cases hz : z = '0'
      · subst hz
        simp [baseLengths, hx]
      · rw [baseLengths.eq_2, baseLengths.eq_2]
        · rintro c t he
          exact hz (List.cons.inj he).1
        · rintro c t he
          exact hz (List.cons.inj he).1
  · by_cases hz : z = '0'
    · subst hz
      simp only [List.cons_append, baseLengths, spacedDigits_append hp h]
    · rw [baseLengths.eq_2, baseLengths.eq_2]
      · rintro c t he
        exact hz (List.cons.inj he).1
      · rintro c t he
        exact hz (List.cons.inj he).1

theorem octalLengths_append (h : Edge r) (s : List Char) :
    octalLengths (s ++ r) = octalLengths s := by
  have hd := spacedDigits_append (digits_of_base (b := 8) (by decide)) h
  rcases s with _ | ⟨z, s⟩
  · rcases r with _ | ⟨z, r⟩
    · rfl
    · rw [List.nil_append, octalLengths.eq_2]
      · rfl
      · rintro t he
        exact h.ne isEdge_zero (List.cons.inj he).1
  · by_cases hz : z = '0'
    · subst hz
      simp only [List.cons_append, octalLengths, hd]
    · rw [octalLengths.eq_2, octalLengths.eq_2]
      · rintro t he
        exact hz (List.cons.inj he).1
      · rintro t he
        exact hz (List.cons.inj he).1

theorem decimalLengths_append (h : Edge r) (s : List Char) :
    decimalLengths (s ++ r) = decimalLengths s := by
  have hd := digits_append (digits_of_base (b := 10) (by decide)) h
  rcases s with _ | ⟨z, s⟩
  · rcases r with _ | ⟨z, r⟩
    · rfl
    · have hz : ∀ t, z :: r = '0' :: t → False := fun t he =>
        h.ne isEdge_zero (List.cons.inj he).1
      rw [List.nil_append, decimalLengths.eq_2 _ hz]
      exact congrArg (fun n => [n]) (hd [])
  · by_cases hz : z = '0'
    · subst hz
      rfl
    · have hz' : ∀ t u, z :: t = '0' :: u → False := fun t u he => hz (List.cons.inj he).1
      rw [List.cons_append, decimalLengths.eq_2 _ (hz' _), decimalLengths.eq_2 _ (hz' _)]
      exact congrArg (fun n => [n]) (hd (z :: s))

theorem integerLengths_append (h : Edge r) (s : List Char) :
    integerLengths (s ++ r) = integerLengths s := by
  have hb : Letters ['b', 'B'] := by unfold Letters; decide
  have ho : Letters ['o', 'O'] := by unfold Letters; decide
  have hx : Letters ['x', 'X'] := by unfold Letters; decide
  have h2 := digits_of_base (b := 2) (by decide)
  have h8 := digits_of_base (b := 8) (by decide)
  have h16 : Digits isHex := digits_of_base (b := 16) (by decide)
  rw [integerLengths, integerLengths, baseLengths_append hb h2 h, baseLengths_append ho h8 h,
    baseLengths_append hx h16 h, octalLengths_append h, decimalLengths_append h]

theorem head?_append_edge (h : Edge r) {x : Char} (hx : isEdge x = false) (s : List Char) :
    (s ++ r).head? = some x ↔ s.head? = some x := by
  cases s with
  | nil =>
      cases r with
      | nil => rfl
      | cons c r => simp [h.ne hx]
  | cons c s => rfl

theorem exponent_append {letters : List Char} (hl : Letters letters) (h : Edge r)
    (s : List Char) : exponent letters (s ++ r) = exponent letters s := by
  cases s with
  | nil =>
      cases r with
      | nil => rfl
      | cons c r => simp [exponent, hl.not_mem h.isEdge]
  | cons c s =>
      have hplus := head?_append_edge h (x := '+') (isEdge_of_joint (by decide)) s
      have hminus := head?_append_edge h (x := '-') (isEdge_of_joint (by decide)) s
      have hdrop (n : Nat) (hn : n ≤ s.length) :
          digits isDecimal ((s ++ r).drop n) = digits isDecimal (s.drop n) := by
        rw [List.drop_append_of_le_length hn]
        exact digits_append (digits_of_base (by decide)) h _
      rw [List.cons_append, exponent, exponent]
      simp only [hplus, hminus]
      by_cases hs : s.head? = some '+' ∨ s.head? = some '-'
      · have hlen : 1 ≤ s.length := by
          cases s with
          | nil => simp at hs
          | cons c s => simp
        simp only [hs, if_true, hdrop 1 hlen]
      · simp only [hs, if_false, hdrop 0 (Nat.zero_le _)]

theorem exponent_le (letters : List Char) (s : List Char) : exponent letters s ≤ s.length := by
  cases s with
  | nil => exact Nat.le_refl 0
  | cons c s =>
      simp only [exponent, List.length_cons]
      generalize hsign : (if s.head? = some '+' ∨ s.head? = some '-' then 1 else 0) = sign
      have hd := digits_le isDecimal (s.drop sign)
      rw [List.length_drop] at hd
      have hle : sign ≤ s.length := by
        cases s with
        | nil =>
            have : sign = 0 := by simpa using hsign.symm
            omega
        | cons x s =>
            have : sign ≤ 1 := by rw [← hsign]; split <;> omega
            simp only [List.length_cons]; omega
      split
      · split
        · exact Nat.zero_le _
        · omega
      · exact Nat.zero_le _

theorem withExponent_append {letters : List Char} (hl : Letters letters) (h : Edge r)
    {s : List Char} (hn : n ≤ s.length) :
    withExponent letters (s ++ r) n = withExponent letters s n := by
  rw [withExponent, withExponent, List.drop_append_of_le_length hn, exponent_append hl h]

theorem withExponent_le (letters : List Char) {s : List Char} (hn : n ≤ s.length) :
    withExponent letters s n ≤ s.length := by
  have he := exponent_le letters (s.drop n)
  rw [List.length_drop] at he
  rw [withExponent]
  omega

section Mantissas

variable {whole fraction : List Char → Nat}

theorem mantissas_append (hw : ∀ s, whole (s ++ r) = whole s) (hle : ∀ s, whole s ≤ s.length)
    (hf : ∀ s, fraction (s ++ r) = fraction s) (h : Edge r) (s : List Char) :
    mantissas whole fraction (s ++ r) = mantissas whole fraction s := by
  rw [mantissas, mantissas, hw, List.drop_append_of_le_length (hle s)]
  cases hs : s.drop (whole s) with
  | nil =>
      cases r with
      | nil => rfl
      | cons c r =>
          have hc : c ≠ '.' := h.ne (isEdge_of_joint (by decide))
          simp [hc]
  | cons c t =>
      by_cases hc : c = '.'
      · subst hc
        simp only [List.cons_append, hf]
      · simp [hc]

theorem mantissas_le (hle : ∀ s, whole s ≤ s.length) (hf : ∀ s, fraction s ≤ s.length)
    (s : List Char) : (∀ n ∈ (mantissas whole fraction s).1, n ≤ s.length) ∧
      ∀ n ∈ (mantissas whole fraction s).2, n ≤ s.length := by
  have hd := hle s
  constructor
  · intro n hn
    simp only [mantissas] at hn
    split at hn
    next t ht =>
      have hlen := congrArg List.length ht
      rw [List.length_drop, List.length_cons] at hlen
      have := hf t
      split at hn
      · cases hn
      · rw [List.mem_singleton] at hn
        omega
    next => cases hn
  · intro n hn
    simp only [mantissas] at hn
    split at hn
    · cases hn
    · rw [List.mem_singleton] at hn
      omega

end Mantissas

theorem digits_isDecimal : Digits isDecimal := digits_of_base (by decide)

theorem digits_isHex : Digits isHex := digits_of_base (by decide)

theorem letters_exponent : Letters ['e', 'E'] := by unfold Letters; decide

theorem letters_power : Letters ['p', 'P'] := by unfold Letters; decide

/-- The lengths of the hexadecimal floating-point numbers at the front of a text. -/
def hexFloats (s : List Char) : List Nat :=
  let m := mantissas (spacedDigits isHex) (digits isHex) s
  ((m.1 ++ m.2).filter fun n => exponent ['p', 'P'] (s.drop n) ≠ 0).map
    fun n => withExponent ['p', 'P'] s n + 2

/-- The lengths of the decimal floating-point numbers at the front of a text. -/
def decimalFloats (s : List Char) : List Nat :=
  let m := mantissas (digits isDecimal) (digits isDecimal) s
  m.1.map (withExponent ['e', 'E'] s) ++
    (m.2.map (withExponent ['e', 'E'] s)).filter (· > digits isDecimal s)

theorem floatLengths_eq (s : List Char) : floatLengths s = decimalFloats s ++
    match s with
    | '0' :: c :: t => if c = 'x' ∨ c = 'X' then hexFloats t else []
    | _ => [] := rfl

theorem hexFloats_append (h : Edge r) (s : List Char) : hexFloats (s ++ r) = hexFloats s := by
  have hm := mantissas_append (spacedDigits_append digits_isHex h) (spacedDigits_le isHex)
    (digits_append digits_isHex h) h s
  have hle := mantissas_le (spacedDigits_le isHex) (digits_le isHex) s
  have hle' : ∀ n ∈ (mantissas (spacedDigits isHex) (digits isHex) s).1 ++
      (mantissas (spacedDigits isHex) (digits isHex) s).2, n ≤ s.length := by
    intro n hn
    exact (List.mem_append.1 hn).elim (hle.1 n) (hle.2 n)
  simp only [hexFloats, hm]
  rw [List.filter_congr fun n hn => ?_]
  · refine List.map_congr_left fun n hn => ?_
    rw [withExponent_append letters_power h (hle' n (List.mem_of_mem_filter hn))]
  · rw [List.drop_append_of_le_length (hle' n hn), exponent_append letters_power h]

theorem decimalFloats_append (h : Edge r) (s : List Char) :
    decimalFloats (s ++ r) = decimalFloats s := by
  have hd := digits_append digits_isDecimal h
  have hm := mantissas_append hd (digits_le isDecimal) hd h s
  have hle := mantissas_le (digits_le isDecimal) (digits_le isDecimal) s
  simp only [decimalFloats, hm, hd]
  congr 1
  · refine List.map_congr_left fun n hn => ?_
    exact withExponent_append letters_exponent h (hle.1 n hn)
  · congr 1
    refine List.map_congr_left fun n hn => ?_
    exact withExponent_append letters_exponent h (hle.2 n hn)

theorem floatLengths_append (h : Edge r) (s : List Char) :
    floatLengths (s ++ r) = floatLengths s := by
  rw [floatLengths_eq, floatLengths_eq, decimalFloats_append h]
  congr 1
  rcases s with _ | ⟨z, _ | ⟨c, s⟩⟩
  · rcases r with _ | ⟨z, r⟩
    · rfl
    · have hz := h.ne isEdge_zero
      simp [hz]
  · rcases r with _ | ⟨x, r⟩
    · rfl
    · have hx : x ≠ 'x' := h.ne (by decide)
      have hX : x ≠ 'X' := h.ne (by decide)
      by_cases hz : z = '0'
      · subst hz
        simp [hx, hX]
      · simp [hz]
  · by_cases hz : z = '0'
    · subst hz
      simp only [List.cons_append, hexFloats_append h]
    · simp [hz]

theorem integerLengths_le (s : List Char) : ∀ n ∈ integerLengths s, n ≤ s.length := by
  have hb (letters : List Char) (p : Char → Bool) : ∀ n ∈ baseLengths letters p s,
      n ≤ s.length := by
    intro n hn
    unfold baseLengths at hn
    split at hn
    next c t =>
      have := spacedDigits_le p t
      split at hn
      · rw [List.mem_singleton] at hn
        simp only [List.length_cons]
        omega
      · cases hn
    next => cases hn
  have ho : ∀ n ∈ octalLengths s, n ≤ s.length := by
    intro n hn
    unfold octalLengths at hn
    split at hn
    next t =>
      have := spacedDigits_le (isDigitOf 8) t
      split at hn
      · cases hn
      · rw [List.mem_singleton] at hn
        simp only [List.length_cons]
        omega
    next => cases hn
  have hd : ∀ n ∈ decimalLengths s, n ≤ s.length := by
    intro n hn
    unfold decimalLengths at hn
    split at hn
    next t =>
      rw [List.mem_singleton] at hn
      simp only [List.length_cons]
      omega
    next =>
      rw [List.mem_singleton] at hn
      exact hn ▸ digits_le isDecimal s
  intro n hn
  simp only [integerLengths, List.mem_append] at hn
  rcases hn with (((hn | hn) | hn) | hn) | hn
  · exact hb _ _ n hn
  · exact hb _ _ n hn
  · exact hb _ _ n hn
  · exact ho n hn
  · exact hd n hn

theorem floatLengths_le (s : List Char) : ∀ n ∈ floatLengths s, n ≤ s.length := by
  have hdec : ∀ n ∈ decimalFloats s, n ≤ s.length := by
    have hle := mantissas_le (digits_le isDecimal) (digits_le isDecimal) s
    intro n hn
    rcases List.mem_append.1 hn with hn | hn
    · obtain ⟨m, hm, rfl⟩ := List.mem_map.1 hn
      exact withExponent_le _ (hle.1 m hm)
    · obtain ⟨m, hm, rfl⟩ := List.mem_map.1 (List.mem_of_mem_filter hn)
      exact withExponent_le _ (hle.2 m hm)
  have hhex (t : List Char) : ∀ n ∈ hexFloats t, n ≤ t.length + 2 := by
    have hle := mantissas_le (spacedDigits_le isHex) (digits_le isHex) t
    intro n hn
    obtain ⟨m, hm, rfl⟩ := List.mem_map.1 hn
    have hm := List.mem_append.1 (List.mem_of_mem_filter hm)
    have := withExponent_le ['p', 'P'] (hm.elim (hle.1 m) (hle.2 m))
    omega
  intro n hn
  rw [floatLengths_eq] at hn
  rcases List.mem_append.1 hn with hn | hn
  · exact hdec n hn
  · split at hn
    next c t _ =>
      split at hn
      · exact hhex t n hn
      · cases hn
    next => cases hn

theorem imaginaryLengths_append (h : Edge r) (s : List Char) :
    imaginaryLengths (s ++ r) = imaginaryLengths s := by
  have hd := digits_append digits_isDecimal h s
  have hle : ∀ n ∈ digits isDecimal s :: integerLengths s ++ floatLengths s, n ≤ s.length := by
    intro n hn
    rcases List.mem_append.1 hn with hn | hn
    · rcases List.mem_cons.1 hn with rfl | hn
      · exact digits_le isDecimal s
      · exact integerLengths_le s n hn
    · exact floatLengths_le s n hn
  rw [imaginaryLengths, imaginaryLengths, hd, integerLengths_append h, floatLengths_append h]
  congr 1
  apply List.filter_congr
  intro n hn
  have hi := head?_append_edge h (x := 'i') (by decide) (s.drop n)
  rw [List.drop_append_of_le_length (hle n hn)]
  have he : ((s.drop n ++ r).head? == some 'i') = ((s.drop n).head? == some 'i') := by
    rw [Bool.eq_iff_iff, beq_iff_eq, beq_iff_eq, hi]
  rw [he]

/-- Where a number ends does not depend on what stands behind an edge. -/
theorem number_append (h : Edge r) (s : List Char) : number (s ++ r) = number s := by
  rw [number, number, integerLengths_append h, floatLengths_append h, imaginaryLengths_append h]

theorem foldl_max_le {ns : List Nat} {b m : Nat} (hb : b ≤ m) (h : ∀ n ∈ ns, n ≤ m) :
    ns.foldl max b ≤ m := by
  induction ns generalizing b with
  | nil => exact hb
  | cons n ns ih =>
      have hn := h n List.mem_cons_self
      exact ih (Nat.max_le.2 ⟨hb, hn⟩) fun k hk => h k (List.mem_cons_of_mem n hk)

theorem number_le (s : List Char) : number s ≤ s.length := by
  apply foldl_max_le (Nat.zero_le _)
  intro n hn
  rcases List.mem_append.1 hn with hn | hn
  · rcases List.mem_append.1 hn with hn | hn
    · exact integerLengths_le s n hn
    · exact floatLengths_le s n hn
  · obtain ⟨m, hm, rfl⟩ := List.mem_map.1 hn
    have hi := (List.mem_filter.1 hm).2
    rw [Bool.and_eq_true, beq_iff_eq] at hi
    by_contra hlt
    rw [List.drop_eq_nil_of_le (by omega)] at hi
    cases hi.2

end GoOutline.Syntax.Lexer
