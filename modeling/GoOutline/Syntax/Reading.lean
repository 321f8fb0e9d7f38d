import GoOutline.Syntax.Nesting
import GoOutline.Syntax.Tree

/-!
Reading a list of tokens from the left. A parser takes tokens from the front or fails; after a
failure the next alternative starts where the failed one did. Brackets are taken in pairs, so what
stands behind the bracket that closes the surrounding pair has no influence.
-/

namespace GoOutline.Syntax

/-- A token that can be taken. The end of a text cannot, nor can what starts no token. -/
def Token.isSolid (t : Token) : Bool := t.kind != .stop && t.kind != .stray

theorem Token.isSolid_of_is {t : Token} {text : String} (h : t.is text) : t.isSolid := by
  simp only [Token.is, Bool.and_eq_true, beq_iff_eq] at h
  simp [Token.isSolid, h.1]

/-- Nothing but solid tokens are taken, with all brackets closed, and none is passed over. -/
def Takes {α : Type} (run : List Token → Option (α × List Token)) : Prop :=
  ∀ ⦃ts a rest⦄, run ts = some (a, rest) →
    ∃ used, ts = used ++ rest ∧ (∀ t ∈ used, t.isSolid) ∧ Balanced used

/-- A bracket that closes nothing in front of it hides what follows. -/
def Local {α : Type} (run : List Token → Option (α × List Token)) : Prop :=
  ∀ ⦃pre c rest a left⦄, Balanced pre → c.isClosing →
    run (pre ++ c :: rest) = some (a, left ++ c :: rest) →
      ∀ rest', run (pre ++ c :: rest') = some (a, left ++ c :: rest')

theorem Takes.exists_left {α : Type} {run : List Token → Option (α × List Token)} {c : Token}
    {pre rest mid : List Token} {a : α} (h : Takes run) (hpre : Balanced pre) (hc : c.isClosing)
    (hr : run (pre ++ c :: rest) = some (a, mid)) :
    ∃ left, mid = left ++ c :: rest ∧ Balanced left := by
  obtain ⟨used, he, _, hu⟩ := h hr
  obtain ⟨left, rfl, rfl⟩ := hu.exists_append hpre hc he
  exact ⟨left, rfl, hpre.of_append hu⟩

structure Parser (α : Type) where
  run : List Token → Option (α × List Token)
  takes : Takes run
  isLocal : Local run

namespace Parser

variable {α β : Type}

theorem takes_pure (a : α) : Takes fun ts => some (a, ts) := by
  intro ts b rest h
  cases h
  exact ⟨[], rfl, by simp, balanced_nil⟩

theorem local_pure (a : α) : Local fun ts => some (a, ts) := by
  intro pre c rest b left _ _ h rest'
  simp only [Option.some.injEq, Prod.mk.injEq, List.append_cancel_right_eq] at h ⊢
  exact h

theorem takes_none : Takes fun _ => (none : Option (α × List Token)) := by
  intro ts b rest h
  cases h

theorem local_none : Local fun _ => (none : Option (α × List Token)) := by
  intro pre c rest a left _ _ h
  cases h

theorem takes_bind (p : Parser α) (f : α → Parser β) :
    Takes fun ts => (p.run ts).bind fun x => (f x.1).run x.2 := by
  intro ts b rest h
  obtain ⟨⟨a, mid⟩, ha, hb⟩ := Option.bind_eq_some_iff.1 h
  obtain ⟨used, rfl, hu, hub⟩ := p.takes ha
  obtain ⟨more, rfl, hm, hmb⟩ := (f a).takes hb
  refine ⟨used ++ more, (List.append_assoc used more rest).symm, fun t ht => ?_, hub.append hmb⟩
  exact (List.mem_append.1 ht).elim (hu t) (hm t)

theorem local_bind (p : Parser α) (f : α → Parser β) :
    Local fun ts => (p.run ts).bind fun x => (f x.1).run x.2 := by
  intro pre c rest b left hpre hc h rest'
  obtain ⟨⟨a, mid⟩, ha, hb⟩ := Option.bind_eq_some_iff.1 h
  obtain ⟨mid, rfl, hmid⟩ := p.takes.exists_left hpre hc ha
  show (p.run (pre ++ c :: rest')).bind _ = _
  rw [p.isLocal hpre hc ha rest', Option.bind_some]
  exact (f a).isLocal hmid hc hb rest'

theorem takes_orElse (p q : Parser α) : Takes fun ts => (p.run ts).or (q.run ts) := by
  intro ts b rest h
  rcases Option.or_eq_some_iff.1 h with h | ⟨_, h⟩
  · exact p.takes h
  · exact q.takes h

/-- A failure does not depend on what is hidden either. -/
theorem run_eq_none (p : Parser α) {pre rest : List Token} {c : Token} (hpre : Balanced pre)
    (hc : c.isClosing) (h : p.run (pre ++ c :: rest) = none) (rest' : List Token) :
    p.run (pre ++ c :: rest') = none := by
  rw [← Option.not_isSome_iff_eq_none, Option.isSome_iff_exists]
  rintro ⟨⟨a, mid⟩, ha⟩
  obtain ⟨left, rfl, _⟩ := p.takes.exists_left hpre hc ha
  rw [p.isLocal hpre hc ha rest] at h
  cases h

theorem map_fst_run (p : Parser α) {pre : List Token} {c : Token} (hpre : Balanced pre)
    (hc : c.isClosing) (rest rest' : List Token) :
    (p.run (pre ++ c :: rest)).map Prod.fst = (p.run (pre ++ c :: rest')).map Prod.fst := by
  cases h : p.run (pre ++ c :: rest) with
  | none => rw [p.run_eq_none hpre hc h rest']
  | some x =>
    obtain ⟨a, mid⟩ := x
    obtain ⟨left, rfl, _⟩ := p.takes.exists_left hpre hc h
    rw [p.isLocal hpre hc h rest']
    rfl

theorem local_orElse (p q : Parser α) : Local fun ts => (p.run ts).or (q.run ts) := by
  intro pre c rest a left hpre hc h rest'
  show (p.run (pre ++ c :: rest')).or (q.run (pre ++ c :: rest')) = _
  rcases Option.or_eq_some_iff.1 h with h | ⟨hp, h⟩
  · rw [p.isLocal hpre hc h rest']
    rfl
  · rw [p.run_eq_none hpre hc hp rest', q.isLocal hpre hc h rest']
    rfl

instance : Monad Parser where
  pure a := ⟨fun ts => some (a, ts), takes_pure a, local_pure a⟩
  bind p f := ⟨fun ts => (p.run ts).bind fun x => (f x.1).run x.2, takes_bind p f, local_bind p f⟩

instance : Alternative Parser where
  failure := ⟨fun _ => none, takes_none, local_none⟩
  orElse p q := ⟨fun ts => (p.run ts).or ((q ()).run ts), takes_orElse p (q ()),
    local_orElse p (q ())⟩

/-- What a parser sees where there is no token. -/
def endToken : Token := ⟨.stop, "", default, false, []⟩

/-- The token so many places ahead, or the first on the way that hides what is behind it. -/
def lookAt : Nat → List Token → Token
  | _, [] => endToken
  | 0, t :: _ => t
  | k + 1, t :: ts => if t.isSolid && !t.isClosing then lookAt k ts else t

theorem lookAt_append {c : Token} (hc : c.isClosing) (k : Nat) (pre rest rest' : List Token) :
    lookAt k (pre ++ c :: rest) = lookAt k (pre ++ c :: rest') := by
  induction pre generalizing k with
  | nil =>
    cases k with
    | zero => rfl
    | succ k => simp [lookAt, hc]
  | cons t pre ih =>
    cases k with
    | zero => rfl
    | succ k => simp only [List.cons_append, lookAt, ih k]

def ahead (k : Nat) : Parser Token where
  run ts := some (lookAt k ts, ts)
  takes := by
    intro ts a rest h
    cases h
    exact ⟨[], rfl, by simp, balanced_nil⟩
  isLocal := by
    intro pre c rest a left _ hc h rest'
    simp only [Option.some.injEq, Prod.mk.injEq, List.append_cancel_right_eq] at h ⊢
    rw [lookAt_append hc k pre rest' rest]
    exact h

def peek : Parser Token := ahead 0

def require (b : Bool) : Parser Unit := if b then pure () else failure

/-- Takes a token that is no bracket. -/
def takeOne : List Token → Option (Token × List Token)
  | [] => none
  | t :: ts => if t.isSolid && t.isPlain then some (t, ts) else none

theorem takeOne_eq_some {ts rest : List Token} {t : Token} :
    takeOne ts = some (t, rest) ↔ ts = t :: rest ∧ t.isSolid ∧ t.isPlain := by
  cases ts with
  | nil => simp [takeOne]
  | cons u us =>
    simp only [takeOne, Option.ite_none_right_eq_some, Bool.and_eq_true, Option.some.injEq,
      Prod.mk.injEq, List.cons.injEq]
    constructor
    · rintro ⟨h, rfl, rfl⟩
      exact ⟨⟨rfl, rfl⟩, h⟩
    · rintro ⟨⟨rfl, rfl⟩, h⟩
      exact ⟨h, rfl, rfl⟩

theorem takes_takeOne : Takes takeOne := by
  intro ts a rest h
  obtain ⟨rfl, hs, hp⟩ := takeOne_eq_some.1 h
  exact ⟨[a], rfl, by simpa using hs, balanced_of_isPlain hp⟩

theorem local_takeOne : Local takeOne := by
  intro pre c rest a left _ hc h rest'
  obtain ⟨he, hs, hp⟩ := takeOne_eq_some.1 h
  refine takeOne_eq_some.2 ⟨?_, hs, hp⟩
  cases pre with
  | nil =>
    rw [List.nil_append, List.cons.injEq] at he
    exact absurd (he.1 ▸ hc) (Token.not_isClosing_of_isPlain hp)
  | cons t pre =>
    rw [List.cons_append, List.cons.injEq] at he
    rw [List.cons_append, he.1, List.append_cancel_right he.2]

def advance : Parser Token := ⟨takeOne, takes_takeOne, local_takeOne⟩

/-- Two brackets with what stands between them. -/
structure Grouped (α : Type) where
  opening : Token
  content : α
  closing : Token

def Grouped.delimiters (g : Grouped α) : Delimiters :=
  ⟨g.opening.extent.span, g.closing.extent.span⟩

def takeClosing (b : Bracket) (opening : Token) (content : α) :
    List Token → Option (Grouped α × List Token)
  | [] => none
  | c :: rest => if c.is b.closing then some (⟨opening, content, c⟩, rest) else none

def takeGroup (b : Bracket) (run : List Token → Option (α × List Token)) :
    List Token → Option (Grouped α × List Token)
  | [] => none
  | o :: ts =>
    if o.is b.opening then (run ts).bind fun (a, rest) => takeClosing b o a rest else none

theorem takeGroup_eq_some {b : Bracket} {run : List Token → Option (α × List Token)}
    {ts rest : List Token} {g : Grouped α} : takeGroup b run ts = some (g, rest) ↔
      ∃ us, ts = g.opening :: us ∧ g.opening.is b.opening ∧
        run us = some (g.content, g.closing :: rest) ∧ g.closing.is b.closing := by
  cases ts with
  | nil => simp [takeGroup]
  | cons o us =>
    simp only [takeGroup, Option.ite_none_right_eq_some, Option.bind_eq_some_iff, Prod.exists]
    constructor
    · rintro ⟨ho, a, mid, hr, h⟩
      cases mid with
      | nil => cases h
      | cons c mid =>
        obtain ⟨hc, h⟩ := Option.ite_none_right_eq_some.1 h
        cases h
        exact ⟨us, rfl, ho, hr, hc⟩
    · rintro ⟨_, h, ho, hr, hc⟩
      cases h
      exact ⟨ho, g.content, g.closing :: rest, hr, by rw [takeClosing, if_pos hc]⟩

theorem takes_takeGroup (b : Bracket) (p : Parser α) : Takes (takeGroup b p.run) := by
  intro ts g rest h
  obtain ⟨us, rfl, ho, hr, hc⟩ := takeGroup_eq_some.1 h
  obtain ⟨used, rfl, hs, hu⟩ := p.takes hr
  refine ⟨g.opening :: (used ++ [g.closing]), by simp, ?_, balanced_group ho hu hc⟩
  simpa using ⟨Token.isSolid_of_is ho, fun t ht => ht.elim (hs t) fun ht => ht ▸ Token.isSolid_of_is hc⟩

theorem local_takeGroup (b : Bracket) (p : Parser α) : Local (takeGroup b p.run) := by
  intro pre c rest g left hpre hc h rest'
  obtain ⟨us, he, ho, hr, hg⟩ := takeGroup_eq_some.1 h
  refine takeGroup_eq_some.2 ?_
  cases pre with
  | nil =>
    rw [List.nil_append, List.cons.injEq] at he
    rw [he.1, Token.isClosing, Token.closes?_of_opens ho] at hc
    cases hc
  | cons o pre =>
    rw [List.cons_append, List.cons.injEq] at he
    obtain ⟨rfl, rfl⟩ := he
    change p.run (pre ++ c :: rest) = _ at hr
    rw [Balanced, nest_cons, Token.nest_of_opens ho, Option.bind_some] at hpre
    obtain ⟨inner, d, more, rfl, hi, hd, hmore⟩ := exists_closing hpre
    rw [List.append_assoc, List.cons_append] at hr
    have hdc := Token.isClosing_of_closes hd
    obtain ⟨mid, hmid, hb⟩ := p.takes.exists_left hi hdc hr
    -- The content ends right before the bracket that closes the group.
    cases mid with
    | nil =>
      rw [List.nil_append, List.cons.injEq] at hmid
      obtain ⟨rfl, hmid⟩ := hmid
      obtain rfl := List.append_cancel_right hmid
      refine ⟨inner ++ g.closing :: (left ++ c :: rest'), by simp, ho, ?_, hg⟩
      rw [← List.nil_append (g.closing :: _)] at hr
      exact p.isLocal hi hdc hr _
    | cons e mid =>
      rw [List.cons_append, List.cons.injEq] at hmid
      obtain ⟨rfl, _⟩ := hmid
      exact (not_balanced_of_isClosing (Token.isClosing_of_closes hg) mid hb).elim

def group (b : Bracket) (p : Parser α) : Parser (Grouped α) :=
  ⟨takeGroup b p.run, takes_takeGroup b p, local_takeGroup b p⟩

def expect (text : String) : Parser Token := do
  let t ← peek
  require (t.is text)
  advance

def ofKind (kind : TokenKind) : Parser Token := do
  let t ← peek
  require (t.kind == kind)
  advance

def name : Parser Token := ofKind .name

/-- Takes a token if it is the given one. -/
def accept (text : String) : Parser Bool := do
  let t ← peek
  if t.is text then
    discard advance
    return true
  else
    return false

def attempt (p : Parser α) : Parser (Option α) := (some <$> p) <|> pure none

/-- Reads on where a condition holds. -/
def onlyIf (b : Bool) (p : Parser Unit) : Parser Unit := if b then p else pure ()

/-- What a parser reads where it stands, with nothing taken. -/
def foresee (p : Parser α) : Parser (Option α) where
  run ts := some ((p.run ts).map Prod.fst, ts)
  takes := by
    intro ts a rest h
    cases h
    exact ⟨[], rfl, by simp, balanced_nil⟩
  isLocal := by
    intro pre c rest a left hpre hc h rest'
    rw [Option.some.injEq, Prod.mk.injEq] at h ⊢
    rw [← h.1, p.map_fst_run hpre hc rest rest', List.append_cancel_right h.2]
    exact ⟨rfl, rfl⟩

/-- Reads the same place in two ways. It ends where the second way ends, or else where the first
does. -/
def twice (p : Parser α) (q : Parser β) : Parser (Option α × Option β) := do
  let a ← foresee p
  (do return (a, some (← q))) <|> (do return (some (← p), none))

/-- The tokens that a parser takes, beside what it reads. -/
def taking (p : Parser α) : Parser (List Token × α) where
  run ts := (p.run ts).map fun x => ((ts.take (ts.length - x.2.length), x.1), x.2)
  takes := by
    intro ts a rest h
    obtain ⟨x, hx, h⟩ := Option.map_eq_some_iff.1 h
    cases h
    exact p.takes hx
  isLocal := by
    intro pre c rest a left hpre hc h rest'
    obtain ⟨⟨b, mid⟩, hr, h⟩ := Option.map_eq_some_iff.1 h
    rw [Prod.mk.injEq] at h
    obtain ⟨rfl, rfl⟩ := h
    obtain ⟨used, he, _, hu⟩ := p.takes hr
    obtain ⟨left', rfl, hl⟩ := hu.exists_append hpre hc he
    obtain rfl := List.append_cancel_right hl
    refine Option.map_eq_some_iff.2 ⟨_, p.isLocal hpre hc hr rest', ?_⟩
    simp

/-- From the first of some tokens to the last. -/
def extentOf : List Token → Extent
  | [] => default
  | t :: ts => t.extent.through ((t :: ts).getLast (List.cons_ne_nil t ts)).extent

/-- The place of what a parser takes. -/
def placed (p : Parser α) : Parser (Extent × α) := do
  let (used, a) ← taking p
  return (extentOf used, a)

/-- Items with a comma between any two of them, and perhaps one behind the last, up to a closing
token, which is left. -/
def commaList (closing : String) (item : Parser α) : Nat → Parser (List α)
  | 0 => failure
  | n + 1 => do
    let t ← peek
    if t.is closing then
      return []
    else
      let a ← item
      if ← accept "," then
        return a :: (← commaList closing item n)
      else
        let u ← peek
        require (u.is closing)
        return [a]

/-- Takes a comma. Where lines count, it does not start one. -/
def acceptComma (lines : Bool) : Parser Bool := do
  let t ← peek
  if t.is "," && !(lines && t.newline) then
    discard advance
    return true
  else
    return false

/-- One item or more with a comma between any two of them. -/
def commaSep (lines : Bool) (item : Parser α) : Nat → Parser (List α)
  | 0 => failure
  | n + 1 => do
    let a ← item
    if ← acceptComma lines then
      return a :: (← commaSep lines item n)
    else
      return [a]

def isTerminator (t : Token) : Bool := t.isAny [";", "\x00"]

def commentSiblings (t : Token) : List (Sibling α) := t.comments.map .comment

@[simp] theorem members_commentSiblings (t : Token) :
    members (commentSiblings t : List (Sibling α)) = [] := by
  simp [members, commentSiblings, Sibling.member?]

/-- Members on lines of their own, or with semicolons between them, up to a closing token, which
is left. -/
def memberList (closing : String) (member : Parser α) : Nat → Parser (List (Sibling α))
  | 0 => failure
  | n + 1 => do
    let t ← peek
    if t.is closing then
      return commentSiblings t
    else
      let a ← member
      let u ← peek
      if u.is closing || u.newline then
        return commentSiblings t ++ .member a :: (← memberList closing member n)
      else
        require (isTerminator u)
        discard advance
        return commentSiblings t ++ .member a :: (commentSiblings u ++ (← memberList closing member n))

section Runs

variable {p q : Parser α} {f : α → Parser β} {ts rest : List Token} {t : Token} {a c : α} {b : β}

theorem run_bind (p : Parser α) (f : α → Parser β) (ts : List Token) :
    (p >>= f).run ts = (p.run ts).bind fun x => (f x.1).run x.2 := rfl

theorem run_map (f : α → β) (p : Parser α) (ts : List Token) :
    (f <$> p).run ts = (p.run ts).map fun x => (f x.1, x.2) := by
  show ((p.run ts).bind fun x => (pure (f x.1) : Parser β).run x.2) = _
  cases p.run ts <;> rfl

theorem bind_eq_some : (p >>= f).run ts = some (b, rest) ↔
    ∃ a mid, p.run ts = some (a, mid) ∧ (f a).run mid = some (b, rest) := by
  simp only [run_bind, Option.bind_eq_some_iff, Prod.exists]

theorem pure_eq_some : (pure a : Parser α).run ts = some (c, rest) ↔ a = c ∧ ts = rest := by
  simp [pure]

theorem map_eq_some {f : α → β} : (f <$> p).run ts = some (b, rest) ↔
    ∃ a, p.run ts = some (a, rest) ∧ f a = b := by
  simp only [run_map, Option.map_eq_some_iff, Prod.exists, Prod.mk.injEq]
  constructor
  · rintro ⟨a, r, h, hf, rfl⟩
    exact ⟨a, h, hf⟩
  · rintro ⟨a, h, hf⟩
    exact ⟨a, rest, h, hf, rfl⟩

theorem discard_eq_some {u : PUnit} : (discard p).run ts = some (u, rest) ↔
    ∃ a, p.run ts = some (a, rest) := by
  refine map_eq_some.trans ?_
  simp

theorem seqRight_eq_some {q : Parser β} : (p *> q).run ts = some (b, rest) ↔
    ∃ a mid, p.run ts = some (a, mid) ∧ q.run mid = some (b, rest) := by
  show (p >>= fun _ => q).run ts = some (b, rest) ↔ _
  exact bind_eq_some

theorem failure_eq_some : ¬ (failure : Parser α).run ts = some (a, rest) := by
  simp [failure]

theorem orElse_eq_some : (p <|> q).run ts = some (a, rest) ↔
    p.run ts = some (a, rest) ∨ p.run ts = none ∧ q.run ts = some (a, rest) :=
  Option.or_eq_some_iff

theorem ahead_eq_some {k : Nat} : (ahead k).run ts = some (t, rest) ↔
    t = lookAt k ts ∧ ts = rest := by
  simp [ahead, eq_comm]

theorem peek_eq_some : peek.run ts = some (t, rest) ↔ t = lookAt 0 ts ∧ ts = rest :=
  ahead_eq_some

theorem run_peek_cons (f : Token → Parser β) (t : Token) (ts : List Token) :
    (peek >>= f).run (t :: ts) = (f t).run (t :: ts) := rfl

theorem require_eq_some {b : Bool} {u : Unit} : (require b).run ts = some (u, rest) ↔
    b = true ∧ ts = rest := by
  cases b <;> simp [require, pure, failure]

theorem advance_eq_some : advance.run ts = some (t, rest) ↔
    ts = t :: rest ∧ t.isSolid ∧ t.isPlain := takeOne_eq_some

theorem group_eq_some {b : Bracket} {g : Grouped α} : (group b p).run ts = some (g, rest) ↔
    ∃ us, ts = g.opening :: us ∧ g.opening.is b.opening ∧
      p.run us = some (g.content, g.closing :: rest) ∧ g.closing.is b.closing := takeGroup_eq_some

theorem expect_eq_some {text : String} : (expect text).run ts = some (t, rest) ↔
    ts = t :: rest ∧ t.is text ∧ t.isPlain := by
  simp only [expect, bind_eq_some, peek_eq_some, require_eq_some, advance_eq_some]
  constructor
  · rintro ⟨_, _, ⟨rfl, rfl⟩, _, _, ⟨h, rfl⟩, rfl, _, hp⟩
    exact ⟨rfl, h, hp⟩
  · rintro ⟨rfl, h, hp⟩
    exact ⟨t, _, ⟨rfl, rfl⟩, (), _, ⟨h, rfl⟩, rfl, Token.isSolid_of_is h, hp⟩

theorem ofKind_eq_some {kind : TokenKind} : (ofKind kind).run ts = some (t, rest) ↔
    ts = t :: rest ∧ t.kind = kind ∧ t.isSolid ∧ t.isPlain := by
  simp only [ofKind, bind_eq_some, peek_eq_some, require_eq_some, advance_eq_some, beq_iff_eq]
  constructor
  · rintro ⟨_, _, ⟨rfl, rfl⟩, _, _, ⟨h, rfl⟩, rfl, hs⟩
    exact ⟨rfl, h, hs⟩
  · rintro ⟨rfl, h, hs⟩
    exact ⟨t, _, ⟨rfl, rfl⟩, (), _, ⟨h, rfl⟩, rfl, hs⟩

theorem name_eq_some : name.run ts = some (t, rest) ↔ ts = t :: rest ∧ t.kind = .name := by
  rw [name, ofKind_eq_some]
  constructor
  · rintro ⟨rfl, h, _⟩
    exact ⟨rfl, h⟩
  · rintro ⟨rfl, h⟩
    exact ⟨rfl, h, by simp [Token.isSolid, h], Token.isPlain_of_kind (by simp [h])⟩

theorem accept_eq_some {text : String} {b : Bool} : (accept text).run ts = some (b, rest) ↔
    (b = true ∧ ∃ t, ts = t :: rest ∧ t.is text ∧ t.isPlain) ∨
      (b = false ∧ ts = rest ∧ (lookAt 0 ts).is text = false) := by
  simp only [accept, bind_eq_some, peek_eq_some]
  constructor
  · rintro ⟨_, _, ⟨rfl, rfl⟩, h⟩
    split at h
    next hc =>
      simp only [bind_eq_some, discard_eq_some, advance_eq_some, pure_eq_some] at h
      obtain ⟨_, _, ⟨t, rfl, _, hp⟩, rfl, rfl⟩ := h
      exact .inl ⟨rfl, t, rfl, hc, hp⟩
    next hc =>
      obtain ⟨rfl, rfl⟩ := pure_eq_some.1 h
      exact .inr ⟨rfl, rfl, by simpa using hc⟩
  · rintro (⟨rfl, t, rfl, hc, hp⟩ | ⟨rfl, rfl, hc⟩)
    · refine ⟨t, _, ⟨rfl, rfl⟩, ?_⟩
      simp only [hc, if_true, bind_eq_some, discard_eq_some, advance_eq_some, pure_eq_some]
      exact ⟨(), _, ⟨t, rfl, Token.isSolid_of_is hc, hp⟩, trivial, rfl⟩
    · refine ⟨_, _, ⟨rfl, rfl⟩, ?_⟩
      rw [if_neg (by simpa only [Bool.not_eq_true] using hc)]
      exact pure_eq_some.2 ⟨rfl, rfl⟩

theorem foresee_eq_some {o : Option α} : (foresee p).run ts = some (o, rest) ↔
    o = (p.run ts).map Prod.fst ∧ ts = rest := by
  simp [foresee, eq_comm]

theorem taking_eq_some {used : List Token} : (taking p).run ts = some ((used, a), rest) ↔
    ts = used ++ rest ∧ p.run ts = some (a, rest) := by
  simp only [taking, Option.map_eq_some_iff, Prod.mk.injEq, Prod.exists]
  constructor
  · rintro ⟨a, r, h, ⟨rfl, rfl⟩, rfl⟩
    obtain ⟨used, rfl, _⟩ := p.takes h
    simp [h]
  · rintro ⟨rfl, h⟩
    exact ⟨a, rest, h, ⟨by simp, rfl⟩, rfl⟩

theorem placed_eq_some {e : Extent} : (placed p).run ts = some ((e, a), rest) ↔
    ∃ used, ts = used ++ rest ∧ p.run ts = some (a, rest) ∧ e = extentOf used := by
  simp only [placed, bind_eq_some, taking_eq_some, pure_eq_some, Prod.mk.injEq, Prod.exists]
  constructor
  · rintro ⟨used, a, mid, ⟨h, hp⟩, ⟨rfl, rfl⟩, rfl⟩
    exact ⟨used, h, hp, rfl⟩
  · rintro ⟨used, h, hp, rfl⟩
    exact ⟨used, a, rest, ⟨h, hp⟩, ⟨rfl, rfl⟩, rfl⟩

end Runs

end Parser

end GoOutline.Syntax
