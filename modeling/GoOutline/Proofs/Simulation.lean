import GoOutline.Proofs.Progress
import GoOutline.Proofs.Motion

/-!
Reading the same tokens at other places. A rule reads tokens that have moved as it reads them where
they were, and once its bound covers the tokens, a larger bound makes no difference.
-/

namespace GoOutline.Syntax

variable {α β : Type} {d : Motion} {k : Nat}

theorem Token.kind_ne_stop {t : Token} (h : t.isSolid) : t.kind ≠ .stop := by
  intro hk
  simp [Token.isSolid, hk] at h

/-- The last token is one that cannot be taken. -/
def Ended (ts : List Token) : Prop := ∃ z ∈ ts.getLast?, z.isSolid = false

theorem Ended.ne_nil {ts : List Token} (h : Ended ts) : ts ≠ [] := by
  rintro rfl
  obtain ⟨z, hz, _⟩ := h
  cases hz

theorem Ended.of_append {used rest : List Token} (h : Ended (used ++ rest))
    (hs : ∀ t ∈ used, t.isSolid) : Ended rest := by
  obtain ⟨z, hz, hn⟩ := h
  rw [List.getLast?_append, Option.mem_def, Option.or_eq_some_iff] at hz
  rcases hz with hz | ⟨_, hz⟩
  · exact ⟨z, hz, hn⟩
  · rw [hs z (List.mem_of_getLast? hz)] at hn
    cases hn

theorem Ended.of_cons {t : Token} {ts : List Token} (h : Ended (t :: ts)) (ht : t.isSolid) :
    Ended ts := by
  have hs : Ended ([t] ++ ts) := h
  exact hs.of_append (by simpa using ht)

/-- Tokens up to one that cannot be taken, of which the same pieces can be left out where they have
moved to. -/
structure Readable (d : Motion) (ts : List Token) : Prop where
  ended : Ended ts
  fair : d.Fair ts

namespace Readable

theorem ne_nil {ts : List Token} (h : Readable d ts) : ts ≠ [] := h.ended.ne_nil

theorem of_append {used rest : List Token} (h : Readable d (used ++ rest))
    (hs : ∀ t ∈ used, t.isSolid) : Readable d rest :=
  ⟨h.ended.of_append hs, h.fair.infix (List.suffix_append used rest).isInfix⟩

theorem of_cons {t : Token} {ts : List Token} (h : Readable d (t :: ts)) (ht : t.isSolid) :
    Readable d ts :=
  ⟨h.ended.of_cons ht, h.fair.infix (List.suffix_cons t ts).isInfix⟩

end Readable

theorem Ended.unmoved {ts : List Token} (h : Ended ts) : Readable Motion.none ts :=
  ⟨h, fun _ _ _ _ => Motion.none_judges _⟩

namespace Parser

theorem lookAt_mem {ts : List Token} (h : Ended ts) (j : Nat) : lookAt j ts ∈ ts := by
  induction ts generalizing j with
  | nil => exact absurd rfl h.ne_nil
  | cons t ts ih =>
    cases j with
    | zero => exact List.mem_cons_self
    | succ j =>
      rw [lookAt]
      split
      next ht =>
        rw [Bool.and_eq_true] at ht
        exact List.mem_cons_of_mem t (ih (h.of_cons ht.1) j)
      next => exact List.mem_cons_self

theorem lookAt_token {ts : List Token} (h : Ended ts) (j : Nat) :
    lookAt j (ts.map d.token) = d.token (lookAt j ts) := by
  induction ts generalizing j with
  | nil => exact absurd rfl h.ne_nil
  | cons t ts ih =>
    cases j with
    | zero => rfl
    | succ j =>
      by_cases ht : t.isSolid && !t.isClosing
      · have hd : (d.token t).isSolid && !(d.token t).isClosing := by simpa using ht
        rw [Bool.and_eq_true] at ht
        rw [List.map_cons, lookAt, lookAt, if_pos hd, if_pos (by simpa using ht),
          ih (h.of_cons ht.1)]
      · have hd : ¬ ((d.token t).isSolid && !(d.token t).isClosing) := by simpa using ht
        rw [List.map_cons, lookAt, lookAt, if_neg hd, if_neg ht]

/-- Both ways of reading fail, or both succeed and leave the same tokens. -/
def Agree (d : Motion) (R : α → α → Prop) (o o' : Option (α × List Token)) : Prop :=
  (o = none ∧ o' = none) ∨
    ∃ a b rest, o = some (a, rest) ∧ o' = some (b, rest.map d.token) ∧ R a b

def Maps (f : α → α) (a b : α) : Prop := b = f a

/-- On at most so many tokens, one parser does with moved tokens what another does with them where
they were. -/
def Sim (d : Motion) (k : Nat) (R : α → α → Prop) (p q : Parser α) : Prop :=
  ∀ ⦃ts⦄, Readable d ts → ts.length ≤ k → Agree d R (p.run ts) (q.run (ts.map d.token))

namespace Sim

variable {R : α → α → Prop} {S : β → β → Prop} {p q p' q' : Parser α} {f g : α → Parser β}

theorem zero : Sim d 0 R p q := by
  intro ts he h
  exact absurd (List.eq_nil_of_length_eq_zero (Nat.le_zero.1 h)) he.ne_nil

theorem le {j : Nat} (h : Sim d k R p q) (hj : j ≤ k) : Sim d j R p q :=
  fun _ he hl => h he (Nat.le_trans hl hj)

theorem imp {R' : α → α → Prop} (h : Sim d k R p q) (hr : ∀ a b, R a b → R' a b) :
    Sim d k R' p q := by
  intro ts he hl
  rcases h he hl with hn | ⟨a, b, rest, ha, hb, hab⟩
  · exact .inl hn
  · exact .inr ⟨a, b, rest, ha, hb, hr a b hab⟩

/-- What holds of everything that a parser reads holds of what it reads here. -/
theorem knowing {P : α → Prop} (h : Sim d k R p q)
    (hp : ∀ ⦃ts a rest⦄, p.run ts = some (a, rest) → P a) :
    Sim d k (fun a b => P a ∧ R a b) p q := by
  intro ts he hl
  rcases h he hl with hn | ⟨a, b, rest, ha, hb, hab⟩
  · exact .inl hn
  · exact .inr ⟨a, b, rest, ha, hb, hp ha, hab⟩

theorem pure {a b : α} (h : R a b) : Sim d k R (pure a) (pure b) :=
  fun ts _ _ => .inr ⟨a, b, ts, rfl, rfl, h⟩

theorem failure : Sim d k R failure failure := fun _ _ _ => .inl ⟨rfl, rfl⟩

theorem bind_of_le {j : Nat} (hp : Sim d k R p q) (hf : ∀ a b, R a b → Sim d j S (f a) (g b))
    (hj : ∀ ⦃ts a rest⦄, ts.length ≤ k → p.run ts = some (a, rest) → rest.length ≤ j) :
    Sim d k S (p >>= f) (q >>= g) := by
  intro ts he hl
  rw [run_bind, run_bind]
  rcases hp he hl with ⟨ha, hb⟩ | ⟨a, b, rest, ha, hb, hab⟩
  · exact .inl ⟨by rw [ha]; rfl, by rw [hb]; rfl⟩
  · rw [ha, hb]
    obtain ⟨used, rfl, hs, _⟩ := p.takes ha
    exact hf a b hab (he.of_append hs) (hj hl ha)

theorem bind (hp : Sim d k R p q) (hf : ∀ a b, R a b → Sim d k S (f a) (g b)) :
    Sim d k S (p >>= f) (q >>= g) :=
  hp.bind_of_le hf fun _ _ _ hl ha => Nat.le_trans (length_le ha) hl

/-- Behind a parser that takes a token, fewer tokens are left. -/
theorem step (hc : Consumes p) (hp : Sim d (k + 1) R p q)
    (hf : ∀ a b, R a b → Sim d k S (f a) (g b)) : Sim d (k + 1) S (p >>= f) (q >>= g) := by
  refine hp.bind_of_le hf fun ts a rest hl ha => ?_
  have := hc ha
  omega

theorem bind_maps {v : α → α} (hp : Sim d k (Maps v) p q)
    (hf : ∀ a, Sim d k S (f a) (g (v a))) : Sim d k S (p >>= f) (q >>= g) :=
  hp.bind fun a _ hab => hab ▸ hf a

theorem bind_eq (hp : Sim d k Eq p q) (hf : ∀ a, Sim d k S (f a) (g a)) :
    Sim d k S (p >>= f) (q >>= g) :=
  hp.bind fun a _ hab => hab ▸ hf a

theorem step_maps {v : α → α} (hc : Consumes p) (hp : Sim d (k + 1) (Maps v) p q)
    (hf : ∀ a, Sim d k S (f a) (g (v a))) : Sim d (k + 1) S (p >>= f) (q >>= g) :=
  .step hc hp fun a _ hab => hab ▸ hf a

theorem step_eq (hc : Consumes p) (hp : Sim d (k + 1) Eq p q)
    (hf : ∀ a, Sim d k S (f a) (g a)) : Sim d (k + 1) S (p >>= f) (q >>= g) :=
  .step hc hp fun a _ hab => hab ▸ hf a

theorem map {f g : α → β} (hp : Sim d k R p q) (h : ∀ a b, R a b → S (f a) (g b)) :
    Sim d k S (f <$> p) (g <$> q) :=
  hp.bind fun a b hab => .pure (h a b hab)

theorem discard (hp : Sim d k R p q) : Sim d k Eq (discard p) (discard q) :=
  hp.map fun _ _ _ => rfl

theorem seqRight {r r' : Parser β} (hp : Sim d k R p q) (hr : Sim d k S r r') :
    Sim d k S (p *> r) (q *> r') :=
  hp.bind fun _ _ _ => hr

theorem orElse (hp : Sim d k R p q) (hp' : Sim d k R p' q') :
    Sim d k R (p <|> p') (q <|> q') := by
  intro ts he hl
  show Agree d R ((p.run ts).or (p'.run ts)) ((q.run _).or (q'.run _))
  rcases hp he hl with ⟨ha, hb⟩ | ⟨a, b, rest, ha, hb, hab⟩
  · rw [ha, hb]
    exact hp' he hl
  · exact .inr ⟨a, b, rest, by rw [ha]; rfl, by rw [hb]; rfl, hab⟩

/-- A condition on tokens asks the same of tokens that have moved. -/
theorem ite_of {c c' : Prop} [Decidable c] [Decidable c'] (hc : c' ↔ c)
    (hp : c → Sim d k R p q) (hp' : Sim d k R p' q') :
    Sim d k R (if c then p else p') (if c' then q else q') := by
  by_cases h : c
  · rw [if_pos h, if_pos (hc.2 h)]
    exact hp h
  · rw [if_neg h, if_neg (mt hc.1 h)]
    exact hp'

theorem ite {c c' : Prop} [Decidable c] [Decidable c'] (hc : c' ↔ c) (hp : Sim d k R p q)
    (hp' : Sim d k R p' q') : Sim d k R (if c then p else p') (if c' then q else q') :=
  ite_of hc (fun _ => hp) hp'

theorem require {b b' : Bool} (hb : b' = b) : Sim d k Eq (require b) (require b') :=
  hb ▸ ite .rfl (.pure rfl) .failure

theorem onlyIf {b b' : Bool} {p q : Parser Unit} (hb : b' = b) (h : Sim d k Eq p q) :
    Sim d k Eq (onlyIf b p) (onlyIf b' q) :=
  hb ▸ ite .rfl h (.pure rfl)

theorem ahead (j : Nat) :
    Sim d k (fun t u => u = d.token t ∧ (t.kind ≠ .stop → d.Judges t.extent)) (ahead j) (ahead j) :=
  fun ts he _ => .inr ⟨_, _, ts, rfl, rfl, lookAt_token he.ended j,
    he.fair.judges (lookAt_mem he.ended j)⟩

/-- A look ahead, and what is read in view of it. -/
theorem look {f g : Token → Parser β} (j : Nat) (hf : ∀ t, Sim d k S (f t) (g (d.token t))) :
    Sim d k S (Parser.ahead j >>= f) (Parser.ahead j >>= g) :=
  (ahead j).bind fun t _ ht => ht.1 ▸ hf t

theorem peek {f g : Token → Parser β} (hf : ∀ t, Sim d k S (f t) (g (d.token t))) :
    Sim d k S (Parser.peek >>= f) (Parser.peek >>= g) :=
  look 0 hf

theorem advance : Sim d k (Maps d.token) advance advance := by
  intro ts he _
  cases ts with
  | nil => exact .inl ⟨rfl, rfl⟩
  | cons t ts =>
    by_cases ht : t.isSolid && t.isPlain
    · have hd : (d.token t).isSolid && (d.token t).isPlain := by simpa using ht
      exact .inr ⟨t, d.token t, ts, if_pos ht, if_pos hd, rfl⟩
    · have hd : ¬ ((d.token t).isSolid && (d.token t).isPlain) := by simpa using ht
      exact .inl ⟨if_neg ht, if_neg hd⟩

/-- Behind a token that counts for nothing but its presence. -/
theorem past {f g : PUnit → Parser β} (h : Sim d k S (f ()) (g ())) :
    Sim d (k + 1) S (Functor.discard Parser.advance >>= f) (Functor.discard Parser.advance >>= g) :=
  .step_eq consumes_advance.discard advance.discard fun _ => h

theorem expect (text : String) :
    Sim d k (Maps d.token) (expect text) (expect text) :=
  .peek fun t => (require (by simp)).bind fun _ _ _ => advance

theorem ofKind (kind : TokenKind) :
    Sim d k (Maps d.token) (ofKind kind) (ofKind kind) :=
  .peek fun t => (require (by simp)).bind fun _ _ _ => advance

/-- Behind a token that must be there. -/
theorem behind (text : String) {f g : PUnit → Parser β} (h : Sim d k S (f ()) (g ())) :
    Sim d (k + 1) S (Functor.discard (Parser.expect text) >>= f)
      (Functor.discard (Parser.expect text) >>= g) :=
  .step_eq (consumes_expect text).discard (expect text).discard fun _ => h

/-- A name reads the same wherever it is. -/
theorem name : Sim d k (fun t u => u = d.token t ∧ u.text = t.text) name name :=
  ((ofKind .name).knowing fun _ _ _ h => (name_eq_some.1 h).2).imp fun t u h => by
    obtain ⟨hk, rfl⟩ := h
    exact ⟨rfl, Motion.text_token (by simp [hk])⟩

theorem bind_name {f g : Token → Parser β}
    (hf : ∀ t, (d.token t).text = t.text → Sim d k S (f t) (g (d.token t))) :
    Sim d k S (Parser.name >>= f) (Parser.name >>= g) :=
  name.bind fun t _ ht => by
    obtain ⟨rfl, ht⟩ := ht
    exact hf t ht

theorem step_name {f g : Token → Parser β}
    (hf : ∀ t, (d.token t).text = t.text → Sim d k S (f t) (g (d.token t))) :
    Sim d (k + 1) S (Parser.name >>= f) (Parser.name >>= g) :=
  .step consumes_name name fun t _ ht => by
    obtain ⟨rfl, ht⟩ := ht
    exact hf t ht

theorem accept (text : String) : Sim d k Eq (accept text) (accept text) :=
  .peek fun _ => .ite (by simp) (advance.discard.bind fun _ _ _ => .pure rfl) (.pure rfl)

theorem acceptComma (lines : Bool) : Sim d k Eq (acceptComma lines) (acceptComma lines) :=
  .peek fun _ => .ite (by simp) (advance.discard.bind fun _ _ _ => .pure rfl) (.pure rfl)

theorem attempt (h : Sim d k R p q) : Sim d k (Option.Rel R) (attempt p) (attempt q) :=
  (h.map fun _ _ hab => Option.Rel.some hab).orElse (.pure .none)

theorem foresee (h : Sim d k R p q) : Sim d k (Option.Rel R) (foresee p) (foresee q) := by
  intro ts he hl
  rcases h he hl with ⟨ha, hb⟩ | ⟨a, b, rest, ha, hb, hab⟩
  · exact .inr ⟨none, none, ts, by simp [Parser.foresee, ha], by simp [Parser.foresee, hb], .none⟩
  · exact .inr ⟨some a, some b, ts, by simp [Parser.foresee, ha], by simp [Parser.foresee, hb],
      .some hab⟩

theorem twice {p' q' : Parser β} (h : Sim d k R p q) (h' : Sim d k S p' q') :
    Sim d k (fun x y => Option.Rel R x.1 y.1 ∧ Option.Rel S x.2 y.2) (twice p p') (twice q q') :=
  h.foresee.bind fun _ _ ho =>
    (h'.bind fun _ _ hab => .pure ⟨ho, .some hab⟩).orElse
      (h.bind fun _ _ hab => .pure ⟨.some hab, .none⟩)

theorem taking (hc : Consumes p) (h : Sim d k R p q) :
    Sim d k (fun x y => x.1 ≠ [] ∧ d.Judges (extentOf x.1) ∧ y.1 = x.1.map d.token ∧ R x.2 y.2)
      (taking p) (taking q) := by
  intro ts he hl
  rcases h he hl with ⟨ha, hb⟩ | ⟨a, b, rest, ha, hb, hab⟩
  · exact .inl ⟨by simp [Parser.taking, ha], by simp [Parser.taking, hb]⟩
  · obtain ⟨used, rfl, hs, _⟩ := p.takes ha
    rw [List.map_append] at hb
    have hj := he.fair used (List.prefix_append used rest).isInfix (hc.ne_nil ha)
      fun t ht => Token.kind_ne_stop (hs t ht)
    exact .inr ⟨(used, a), (used.map d.token, b), rest, taking_eq_some.2 ⟨rfl, ha⟩,
      List.map_append ▸ taking_eq_some.2 ⟨rfl, hb⟩, hc.ne_nil ha, hj, rfl, hab⟩

/-- A piece at its place, which counts for as much where it has moved to. -/
theorem weighed (hc : Consumes p) (h : Sim d k R p q) :
    Sim d k (fun x y => d.Judges x.1 ∧ y.1 = d.extent x.1 ∧ R x.2 y.2) (placed p) (placed q) := by
  refine (h.taking hc).bind ?_
  rintro ⟨used, a⟩ ⟨_, b⟩ ⟨hu, hj, rfl, hab⟩
  exact .pure ⟨hj, d.extentOf_token hu, hab⟩

theorem placed (hc : Consumes p) (h : Sim d k R p q) :
    Sim d k (fun x y => y.1 = d.extent x.1 ∧ R x.2 y.2) (placed p) (placed q) :=
  (h.weighed hc).imp fun _ _ hxy => hxy.2

end Sim

/-- Groups at moved places with matching contents. -/
structure Grouped.Moved (d : Motion) (R : α → α → Prop) (g h : Grouped α) : Prop where
  opening : h.opening = d.token g.opening
  content : R g.content h.content
  closing : h.closing = d.token g.closing
  judged : d.Judges g.closing.extent

theorem Grouped.Moved.delimiters {R : α → α → Prop} {g h : Grouped α} (hm : g.Moved d R h) :
    h.delimiters = d.delimiters g.delimiters := by
  rw [Grouped.delimiters, hm.opening, hm.closing]
  rfl

namespace Sim

variable {R : α → α → Prop} {p q : Parser α} {n n' : Nat}

theorem group {b : Bracket} (h : Sim d k R p q) :
    Sim d (k + 1) (Grouped.Moved d R) (group b p) (group b q) := by
  intro ts he hl
  cases ts with
  | nil => exact absurd rfl he.ne_nil
  | cons o us =>
    by_cases ho : o.is b.opening
    · have hd : (d.token o).is b.opening := by simpa using ho
      have hus := he.of_cons (Token.isSolid_of_is ho)
      show Agree d _ (takeGroup b p.run (o :: us)) (takeGroup b q.run (d.token o :: us.map d.token))
      rw [takeGroup, takeGroup, if_pos ho, if_pos hd]
      rcases h hus (Nat.le_of_succ_le_succ hl) with ⟨ha, hb⟩ | ⟨a, b', mid, ha, hb, hab⟩
      · exact .inl ⟨by rw [ha]; rfl, by rw [hb]; rfl⟩
      · rw [ha, hb, Option.bind_some, Option.bind_some]
        obtain ⟨used, rfl, hs, _⟩ := p.takes ha
        cases mid with
        | nil => exact absurd rfl (hus.of_append hs).ne_nil
        | cons c rest =>
          by_cases hc : c.is b.closing
          · have hdc : (d.token c).is b.closing := by simpa using hc
            exact .inr ⟨⟨o, a, c⟩, ⟨d.token o, b', d.token c⟩, rest, if_pos hc, if_pos hdc,
              rfl, hab, rfl, (hus.of_append hs).fair.judges List.mem_cons_self
                (Token.kind_ne_stop (Token.isSolid_of_is hc))⟩
          · have hdc : ¬ (d.token c).is b.closing := by simpa using hc
            exact .inl ⟨if_neg hc, if_neg hdc⟩
    · have hd : ¬ (d.token o).is b.opening := by simpa using ho
      exact .inl ⟨if_neg ho, if_neg hd⟩

theorem commaList (closing : String) (hc : Consumes p) (h : Sim d k R p q) (hn : k < n)
    (hn' : k < n') :
    Sim d k (List.Forall₂ R) (commaList closing p n) (commaList closing q n') := by
  induction n generalizing k n' with
  | zero => exact absurd hn (Nat.not_lt_zero k)
  | succ n ih =>
    obtain ⟨n', rfl⟩ := Nat.exists_eq_succ_of_ne_zero (Nat.ne_zero_of_lt hn')
    cases k with
    | zero => exact .zero
    | succ k =>
      have hr := ih (h.le (Nat.le_succ k)) (Nat.lt_of_succ_lt_succ hn) (Nat.lt_of_succ_lt_succ hn')
      refine .peek fun t => .ite (by simp) (.pure .nil) (.step hc h fun a b hab => ?_)
      refine .bind (accept ",") fun more _ hm => hm ▸ .ite (by simp) ?_ ?_
      · exact hr.bind fun as bs hs => .pure (.cons hab hs)
      · exact .peek fun u => .bind (require (by simp)) fun _ _ _ => .pure (.cons hab .nil)

theorem commaSep (lines : Bool) (hc : Consumes p) (h : Sim d k R p q) (hn : k < n) (hn' : k < n') :
    Sim d k (List.Forall₂ R) (commaSep lines p n) (commaSep lines q n') := by
  induction n generalizing k n' with
  | zero => exact absurd hn (Nat.not_lt_zero k)
  | succ n ih =>
    obtain ⟨n', rfl⟩ := Nat.exists_eq_succ_of_ne_zero (Nat.ne_zero_of_lt hn')
    cases k with
    | zero => exact .zero
    | succ k =>
      have hr := ih (h.le (Nat.le_succ k)) (Nat.lt_of_succ_lt_succ hn) (Nat.lt_of_succ_lt_succ hn')
      refine .step hc h fun a b hab => ?_
      refine .bind (acceptComma lines) fun more _ hm => hm ▸ .ite (by simp) ?_ ?_
      · exact hr.bind fun as bs hs => .pure (.cons hab hs)
      · exact .pure (.cons hab .nil)

theorem memberList (closing : String) {f : α → α} (hc : Consumes p) (h : Sim d k (Maps f) p q)
    (hn : k < n) (hn' : k < n') :
    Sim d k (Maps (List.map (d.sibling f))) (memberList closing p n) (memberList closing q n') := by
  induction n generalizing k n' with
  | zero => exact absurd hn (Nat.not_lt_zero k)
  | succ n ih =>
    obtain ⟨n', rfl⟩ := Nat.exists_eq_succ_of_ne_zero (Nat.ne_zero_of_lt hn')
    cases k with
    | zero => exact .zero
    | succ k =>
      have hr := ih (h.le (Nat.le_succ k)) (Nat.lt_of_succ_lt_succ hn) (Nat.lt_of_succ_lt_succ hn')
      refine .peek fun t => .ite (by simp) (.pure (d.commentSiblings_token f t)) (.step hc h ?_)
      rintro a _ rfl
      refine .peek fun u => .ite (by simp) (hr.bind ?_) (.bind (require (by simp)) fun _ _ _ => ?_)
      · rintro as _ rfl
        refine .pure ?_
        rw [Maps, d.commentSiblings_token f t, List.map_append, List.map_cons]
        rfl
      · refine .bind advance.discard fun _ _ _ => hr.bind ?_
        rintro as _ rfl
        refine .pure ?_
        rw [Maps, d.commentSiblings_token f t, d.commentSiblings_token f u, List.map_append,
          List.map_cons, List.map_append]
        rfl

theorem forgiven {e : Extent} (he : d.Judges e) :
    Sim d k Eq (Grammar.forgiven e) (Grammar.forgiven (d.extent e)) := by
  refine (ahead 0).bind fun t _ ht => ht.1 ▸ .look 1 fun u => .pure ?_
  have hc : decide (Grammar.forgivenFrom ≤ Grammar.dropCost (d.extent e)) =
      decide (Grammar.forgivenFrom ≤ Grammar.dropCost e) := decide_eq_decide.2 he
  rw [hc, Motion.endsAlone_token, Motion.kind_token]
  cases hk : t.kind != .stop with
  | false => rfl
  | true => rw [(ht.2 (by simpa using hk)).isCheap]

end Sim

theorem isSome_of_rel {R : α → α → Prop} {o o' : Option α} (h : Option.Rel R o o') :
    o'.isSome = o.isSome := by
  cases h <;> rfl

theorem eq_map_of_forall₂ {f : α → α} {as bs : List α} (h : List.Forall₂ (Maps f) as bs) :
    bs = as.map f := by
  induction h with
  | nil => rfl
  | cons hab _ ih => rw [List.map_cons, ← ih, hab]

end Parser

end GoOutline.Syntax
