import GoOutline.Syntax.Token

/-!
Nesting of brackets. Some tokens are balanced when each closing bracket among them closes the last
open one and none stays open. What stands between two brackets is balanced, so a closing bracket
behind balanced tokens is the one that closes what is around them.
-/

namespace GoOutline.Syntax

inductive Bracket where
  | round
  | square
  | curly
deriving DecidableEq, Repr

def Bracket.opening : Bracket → String
  | .round => "("
  | .square => "["
  | .curly => lbrace

def Bracket.closing : Bracket → String
  | .round => ")"
  | .square => "]"
  | .curly => rbrace

theorem Bracket.opening_inj {a b : Bracket} (h : a.opening = b.opening) : a = b := by
  cases a <;> cases b <;> first | rfl | exact absurd h (by decide)

theorem Bracket.closing_inj {a b : Bracket} (h : a.closing = b.closing) : a = b := by
  cases a <;> cases b <;> first | rfl | exact absurd h (by decide)

theorem Bracket.opening_ne_closing (a b : Bracket) : a.opening ≠ b.closing := by
  cases a <;> cases b <;> decide

namespace Token

variable {t : Token} {b : Bracket}

theorem eq_of_is {a b : String} (ha : t.is a) (hb : t.is b) : a = b := by
  simp only [is, Bool.and_eq_true, beq_iff_eq] at ha hb
  rw [← ha.2, hb.2]

theorem is_eq_false_of_is {a b : String} (h : t.is a) (hn : a ≠ b) : t.is b = false := by
  rw [← Bool.not_eq_true]
  exact fun hb => hn (eq_of_is h hb)

theorem kind_of_is {text : String} (h : t.is text) : t.kind = .fixed := by
  simp only [is, Bool.and_eq_true, beq_iff_eq] at h
  exact h.1

theorem exists_is_of_isAny {texts : List String} (h : t.isAny texts) : ∃ text ∈ texts, t.is text := by
  simp only [isAny, Bool.and_eq_true, List.contains_iff_mem] at h
  exact ⟨t.text, h.2, by simpa [is] using h.1⟩

theorem isAny_of_is {text : String} (h : t.is text) (texts : List String) :
    t.isAny texts = texts.contains text := by
  simp only [is, Bool.and_eq_true, beq_iff_eq] at h
  simp [isAny, h.1, h.2]

/-- The bracket with this text. -/
def bracket? (text : Bracket → String) (t : Token) : Option Bracket :=
  [.round, .square, .curly].find? fun b => t.is (text b)

def opens? (t : Token) : Option Bracket := t.bracket? Bracket.opening

def closes? (t : Token) : Option Bracket := t.bracket? Bracket.closing

def isClosing (t : Token) : Bool := t.closes?.isSome

/-- A token that is no bracket. -/
def isPlain (t : Token) : Bool := t.opens?.isNone && t.closes?.isNone

theorem bracket?_eq_some {text : Bracket → String} (ht : ∀ a b, text a = text b → a = b) :
    t.bracket? text = some b ↔ t.is (text b) := by
  constructor
  · exact fun h => List.find?_some (p := fun b => t.is (text b)) h
  · intro h
    have hm : b ∈ [Bracket.round, .square, .curly] := by cases b <;> decide
    cases hf : t.bracket? text with
    | none => exact absurd h (List.find?_eq_none.1 hf b hm)
    | some a =>
      have ha := List.find?_some (p := fun b => t.is (text b)) hf
      rw [ht a b (eq_of_is ha h)]

theorem opens?_eq_some : t.opens? = some b ↔ t.is b.opening :=
  bracket?_eq_some fun _ _ => Bracket.opening_inj

theorem closes?_eq_some : t.closes? = some b ↔ t.is b.closing :=
  bracket?_eq_some fun _ _ => Bracket.closing_inj

theorem opens?_of_closes (h : t.is b.closing) : t.opens? = none := by
  refine Option.eq_none_iff_forall_ne_some.2 fun a ha => ?_
  exact Bracket.opening_ne_closing a b (eq_of_is (opens?_eq_some.1 ha) h)

theorem closes?_of_opens (h : t.is b.opening) : t.closes? = none := by
  refine Option.eq_none_iff_forall_ne_some.2 fun a ha => ?_
  exact Bracket.opening_ne_closing b a (eq_of_is h (closes?_eq_some.1 ha))

theorem isClosing_iff : t.isClosing ↔ ∃ b : Bracket, t.is b.closing := by
  simp only [isClosing, Option.isSome_iff_exists, closes?_eq_some]

theorem not_isClosing_of_isPlain (h : t.isPlain) : ¬ t.isClosing := by
  simp only [isPlain, Bool.and_eq_true, Option.isNone_iff_eq_none] at h
  simp [isClosing, h.2]

theorem isClosing_of_closes (h : t.is b.closing) : t.isClosing := isClosing_iff.2 ⟨b, h⟩

theorem isPlain_of_is {text : String} (h : t.is text)
    (hb : ∀ b : Bracket, text ≠ b.opening ∧ text ≠ b.closing) : t.isPlain := by
  have ho : t.opens? = none := by
    refine Option.eq_none_iff_forall_ne_some.2 fun b hs => (hb b).1 ?_
    exact eq_of_is h (opens?_eq_some.1 hs)
  have hc : t.closes? = none := by
    refine Option.eq_none_iff_forall_ne_some.2 fun b hs => (hb b).2 ?_
    exact eq_of_is h (closes?_eq_some.1 hs)
  simp [isPlain, ho, hc]

theorem isPlain_of_kind (h : t.kind ≠ .fixed) : t.isPlain := by
  have ho : t.opens? = none :=
    Option.eq_none_iff_forall_ne_some.2 fun b hs => h (kind_of_is (opens?_eq_some.1 hs))
  have hc : t.closes? = none :=
    Option.eq_none_iff_forall_ne_some.2 fun b hs => h (kind_of_is (closes?_eq_some.1 hs))
  simp [isPlain, ho, hc]

/-- The brackets that are open behind a token, the last one first. -/
def nest (open_ : List Bracket) (t : Token) : Option (List Bracket) :=
  match t.opens?, t.closes?, open_ with
  | some b, _, bs => some (b :: bs)
  | none, none, bs => some bs
  | none, some b, d :: bs => if d = b then some bs else none
  | none, some _, [] => none

theorem nest_of_plain (h : t.isPlain) (bs : List Bracket) : t.nest bs = some bs := by
  simp only [isPlain, Bool.and_eq_true, Option.isNone_iff_eq_none] at h
  simp only [nest, h.1, h.2]

theorem nest_of_opens (h : t.is b.opening) (bs : List Bracket) : t.nest bs = some (b :: bs) := by
  simp only [nest, opens?_eq_some.2 h]

theorem nest_of_closes (h : t.is b.closing) (bs : List Bracket) :
    t.nest (b :: bs) = some bs := by
  simp only [nest, opens?_of_closes h, closes?_eq_some.2 h, if_true]

theorem nest_one_of_closes {a : Bracket} {ds : List Bracket} (h : t.is a.closing)
    (hn : t.nest [b] = some ds) : a = b ∧ ds = [] := by
  simpa [nest, opens?_of_closes h, closes?_eq_some.2 h, eq_comm] using hn

theorem nest_nil_of_isClosing (h : t.isClosing) : t.nest [] = none := by
  obtain ⟨b, hb⟩ := isClosing_iff.1 h
  simp only [nest, opens?_of_closes hb, closes?_eq_some.2 hb]

/-- A token closes a bracket of the stack, whatever lies below, or the one right below it. -/
theorem nest_append {bs ds : List Bracket} (es : List Bracket) :
    t.nest (bs ++ es) = some ds ↔
      (∃ cs, t.nest bs = some cs ∧ ds = cs ++ es) ∨
        (bs = [] ∧ t.isClosing ∧ t.nest es = some ds) := by
  cases ho : t.opens? with
  | some b =>
    have hc : ¬ t.isClosing := by
      intro hc
      obtain ⟨a, ha⟩ := isClosing_iff.1 hc
      rw [opens?_of_closes ha] at ho
      cases ho
    constructor
    · intro h
      exact .inl ⟨b :: bs, by simp [nest, ho], by simpa [nest, ho] using h.symm⟩
    · rintro (⟨cs, hcs, rfl⟩ | ⟨_, h, _⟩)
      · obtain rfl : b :: bs = cs := by simpa [nest, ho] using hcs
        simp [nest, ho]
      · exact absurd h hc
  | none =>
    cases hc : t.closes? with
    | none =>
      constructor
      · intro h
        exact .inl ⟨bs, by simp [nest, ho, hc], by simpa [nest, ho, hc] using h.symm⟩
      · rintro (⟨cs, hcs, rfl⟩ | ⟨_, h, _⟩)
        · obtain rfl : bs = cs := by simpa [nest, ho, hc] using hcs
          simp [nest, ho, hc]
        · simp [isClosing, hc] at h
    | some b =>
      cases bs with
      | nil => simp [nest, ho, hc, isClosing]
      | cons d bs =>
        by_cases hd : d = b
        · simpa [nest, ho, hc, hd] using eq_comm
        · simp [nest, ho, hc, hd]

end Token

/-- The brackets that are open behind some tokens, the last one first. -/
def nest (open_ : List Bracket) (ts : List Token) : Option (List Bracket) :=
  ts.foldlM Token.nest open_

def Balanced (ts : List Token) : Prop := nest [] ts = some []

section Balanced

variable {ts us rest : List Token} {t c : Token} {b : Bracket} {bs : List Bracket}

theorem nest_cons (bs : List Bracket) (t : Token) (ts : List Token) :
    nest bs (t :: ts) = (t.nest bs).bind (nest · ts) := List.foldlM_cons

theorem nest_append (bs : List Bracket) (ts us : List Token) :
    nest bs (ts ++ us) = (nest bs ts).bind (nest · us) := List.foldlM_append

theorem nest_frame {ds : List Bracket} (h : nest bs ts = some ds) (es : List Bracket) :
    nest (bs ++ es) ts = some (ds ++ es) := by
  induction ts generalizing bs with
  | nil =>
    cases h
    rfl
  | cons t ts ih =>
    rw [nest_cons] at h ⊢
    obtain ⟨cs, ht, h⟩ := Option.bind_eq_some_iff.1 h
    rw [(Token.nest_append es).2 (.inl ⟨cs, ht, rfl⟩), Option.bind_some]
    exact ih h

theorem balanced_nil : Balanced [] := rfl

theorem Balanced.nest (h : Balanced ts) (bs : List Bracket) : nest bs ts = some bs :=
  nest_frame h bs

theorem Balanced.append (h : Balanced ts) (h' : Balanced us) : Balanced (ts ++ us) := by
  rw [Balanced, nest_append, h, Option.bind_some]
  exact h'

theorem Balanced.of_append (h : Balanced (ts ++ us)) (h' : Balanced ts) : Balanced us := by
  rwa [Balanced, nest_append, h', Option.bind_some] at h

theorem balanced_of_isPlain (h : t.isPlain) : Balanced [t] := by
  rw [Balanced, nest_cons, Token.nest_of_plain h]
  rfl

theorem balanced_group {o : Token} (ho : o.is b.opening) (h : Balanced ts) (hc : c.is b.closing) :
    Balanced (o :: (ts ++ [c])) := by
  rw [Balanced, nest_cons, Token.nest_of_opens ho, Option.bind_some, nest_append, h.nest [b],
    Option.bind_some, nest_cons, Token.nest_of_closes hc]
  rfl

theorem not_balanced_of_isClosing (h : t.isClosing) (ts : List Token) : ¬ Balanced (t :: ts) := by
  rw [Balanced, nest_cons, Token.nest_nil_of_isClosing h]
  simp

/-- Balanced tokens end before a bracket that closes nothing among them. -/
theorem Balanced.exists_append (h : Balanced us) (hts : Balanced ts) (hc : c.isClosing)
    {more : List Token} (he : ts ++ c :: rest = us ++ more) :
    ∃ left, ts = us ++ left ∧ more = left ++ c :: rest := by
  rcases List.append_eq_append_iff.1 he with ⟨left, rfl, h'⟩ | ⟨left, rfl, rfl⟩
  · cases left with
    | nil => exact ⟨[], by simp, by simpa using h'.symm⟩
    | cons d left =>
      obtain ⟨rfl, rfl⟩ := List.cons.inj h'
      exact (not_balanced_of_isClosing hc left (h.of_append hts)).elim
  · exact ⟨left, rfl, rfl⟩

theorem exists_closing_of_append (h : nest (bs ++ [b]) ts = some []) :
    ∃ inner c rest, ts = inner ++ c :: rest ∧ nest bs inner = some [] ∧ c.is b.closing ∧
      Balanced rest := by
  induction ts generalizing bs with
  | nil => simp [nest] at h
  | cons t ts ih =>
    rw [nest_cons] at h
    obtain ⟨ds, ht, h⟩ := Option.bind_eq_some_iff.1 h
    rcases (Token.nest_append [b]).1 ht with ⟨cs, hcs, rfl⟩ | ⟨rfl, hc, ht⟩
    · obtain ⟨inner, c, rest, rfl, hi, hc, hr⟩ := ih h
      exact ⟨t :: inner, c, rest, rfl, by rw [nest_cons, hcs]; exact hi, hc, hr⟩
    · obtain ⟨a, ha⟩ := Token.isClosing_iff.1 hc
      obtain ⟨rfl, rfl⟩ := Token.nest_one_of_closes ha ht
      exact ⟨[], t, ts, rfl, rfl, ha, h⟩

/-- An open bracket is closed behind balanced tokens. -/
theorem exists_closing (h : nest [b] ts = some []) :
    ∃ inner c rest, ts = inner ++ c :: rest ∧ Balanced inner ∧ c.is b.closing ∧ Balanced rest :=
  exists_closing_of_append h

end Balanced

end GoOutline.Syntax
