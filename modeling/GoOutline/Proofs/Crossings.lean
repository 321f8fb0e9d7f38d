import GoOutline.Proofs.Fences

/-!
Heads of methods. Up to its name, a method reads like the type of a function, so where a type is
expected a rule may go over a fence. Whether it does, and how far, does not depend on what follows the
head.
-/

namespace GoOutline.Syntax

/-- What is left of two fences behind a type that has been read of the head of a method. -/
structure Crossed (zs zs' rs rs' : List Token) : Prop where
  used : ∃ front t, zs = front ++ t :: rs ∧ zs' = front ++ t :: rs' ∧ t.is "]" = false
  next : ∃ t us us', rs = t :: us ∧ rs' = t :: us' ∧ (t.kind = .name ∨ t.is "(")

/-- What is left of a fence is less than the fence. -/
theorem Crossed.ne_append {zs zs' rs rs' left : List Token} (h : Crossed zs zs' rs rs') :
    rs ≠ left ++ zs := by
  obtain ⟨front, t, rfl, -⟩ := h.used
  intro he
  have hlength := congrArg List.length he
  simp only [List.length_append, List.length_cons] at hlength
  omega

namespace Parser

variable {α β : Type} {p q : Parser α} {f : α → Parser β} {pre : List Token}

/-- In front of one fence or the other a parser fails, or it reads the same and takes the same, which
may be the head of a method. -/
def Passes (pre : List Token) (p : Parser α) : Prop :=
  ∀ ⦃zs zs'⦄, Fences zs zs' →
    (p.run (pre ++ zs) = none ∧ p.run (pre ++ zs') = none) ∨
    (∃ a left, p.run (pre ++ zs) = some (a, left ++ zs) ∧ p.run (pre ++ zs') = some (a, left ++ zs')) ∨
    ∃ a rs rs', Crossed zs zs' rs rs' ∧ p.run (pre ++ zs) = some (a, rs) ∧
      p.run (pre ++ zs') = some (a, rs')

def Passing (p : Parser α) : Prop := ∀ ⦃pre⦄, Balanced pre → Passes pre p

/-- In front of a name or a parenthesis a parser takes nothing, and nothing behind matters. -/
def Idles (p : Parser α) : Prop :=
  ∀ ⦃t : Token⦄, t.kind = .name ∨ t.is "(" → (∀ us, p.run (t :: us) = none) ∨
    ∃ a, ∀ us, p.run (t :: us) = some (a, t :: us)

/-- In front of a name or a parenthesis a parser fails. -/
def Refuses (p : Parser α) : Prop :=
  ∀ ⦃t : Token⦄, t.kind = .name ∨ t.is "(" → ∀ us, p.run (t :: us) = none

/-- What a parser takes in front of one fence, it takes in front of the other. It may go on behind the
fence and come to something else there. -/
def Agrees (p : Parser α) : Prop :=
  ∀ ⦃pre zs zs' left⦄ ⦃a : α⦄, Balanced pre → Fences zs zs' →
    p.run (pre ++ zs) = some (a, left ++ zs) → p.run (pre ++ zs') = some (a, left ++ zs')

theorem HaltsBehind.passes (h : HaltsBehind pre p) : Passes pre p := by
  intro zs zs' hz
  rcases h hz with h | h
  · exact .inl h
  · exact .inr (.inl h)

theorem Stops.passing (h : Stops p) : Passing p := fun _ hpre => (h.behind hpre).passes

theorem Passing.agrees (h : Passing p) : Agrees p := by
  intro pre zs zs' left a hpre hz hrun
  rcases h hpre hz with ⟨hno, -⟩ | ⟨b, left', hb, hb'⟩ | ⟨b, rs, rs', hc, hb, -⟩
  · rw [hno] at hrun
    cases hrun
  · rw [hb] at hrun
    obtain ⟨rfl, hl⟩ := Prod.mk.inj (Option.some.inj hrun)
    rw [hb', List.append_cancel_right hl]
  · rw [hb] at hrun
    exact absurd (Prod.mk.inj (Option.some.inj hrun)).2 hc.ne_append

theorem Stops.agrees (h : Stops p) : Agrees p := h.passing.agrees

namespace Idles

theorem pure (a : α) : Idles (pure a : Parser α) := fun _ _ => .inr ⟨a, fun _ => rfl⟩

theorem failure : Idles (failure : Parser α) := fun _ _ => .inl fun _ => rfl

end Idles

theorem Refuses.bind (hp : Refuses p) : Refuses (p >>= f) := by
  intro t ht us
  rw [run_bind, hp ht]
  rfl

theorem refuses_group {b : Bracket} (hb : b ≠ .round) (p : Parser α) : Refuses (group b p) := by
  intro t ht us
  have hno : ¬ t.is b.opening := by
    rcases ht with ht | ht
    · intro ho
      rw [Token.kind_of_is ho] at ht
      cases ht
    · rw [Token.is_eq_false_of_is ht (by cases b <;> first | decide | exact absurd rfl hb)]
      simp
  exact if_neg hno

namespace Passes

theorem bind (hpre : Balanced pre) (hp : Passes pre p) (hf : ∀ a, Passing (f a))
    (hi : ∀ a, Idles (f a)) : Passes pre (p >>= f) := by
  intro zs zs' hz
  simp only [run_bind]
  rcases hp hz with ⟨ha, hb⟩ | ⟨a, left, ha, hb⟩ | ⟨a, rs, rs', hc, ha, hb⟩
  · exact .inl ⟨by rw [ha]; rfl, by rw [hb]; rfl⟩
  · rw [ha, hb]
    exact hf a (balanced_left hpre ha) hz
  · rw [ha, hb]
    obtain ⟨t, us, us', rfl, rfl, ht⟩ := hc.next
    rcases hi a ht with hno | ⟨b, hb⟩
    · exact .inl ⟨hno us, hno us'⟩
    · exact .inr (.inr ⟨b, _, _, hc, hb us, hb us'⟩)

theorem ite {c : Prop} [Decidable c] (hp : Passes pre p) (hq : Passes pre q) :
    Passes pre (if c then p else q) := by
  split
  · exact hp
  · exact hq

end Passes

/-- A parser that goes up to a fence at most, and behind it one that may pass. -/
theorem Halts.passes_bind (hp : Halts p) (hf : ∀ a, Passing (f a)) (hpre : Balanced pre)
    (hne : pre ≠ []) : Passes pre (p >>= f) := by
  intro zs zs' hz
  simp only [run_bind]
  rcases hp hpre hne hz with ⟨ha, hb⟩ | ⟨a, left, ha, hb⟩
  · exact .inl ⟨by rw [ha]; rfl, by rw [hb]; rfl⟩
  · rw [ha, hb]
    exact hf a (balanced_left hpre ha) hz

theorem Stops.passing_bind (hp : Stops p) (hf : ∀ a, Passing (f a)) : Passing (p >>= f) := by
  intro pre hpre zs zs' hz
  simp only [run_bind]
  rcases hp.behind hpre hz with ⟨ha, hb⟩ | ⟨a, left, ha, hb⟩
  · exact .inl ⟨by rw [ha]; rfl, by rw [hb]; rfl⟩
  · rw [ha, hb]
    exact hf a (balanced_left hpre ha) hz

namespace Passing

theorem bind (hp : Passing p) (hf : ∀ a, Passing (f a)) (hi : ∀ a, Idles (f a)) :
    Passing (p >>= f) := fun _ hpre => (hp hpre).bind hpre hf hi

theorem pure (a : α) : Passing (pure a : Parser α) := (Stops.pure a).passing

theorem ite {c : Prop} [Decidable c] (hp : Passing p) (hq : Passing q) :
    Passing (if c then p else q) := fun _ hpre => .ite (hp hpre) (hq hpre)

theorem returns (hp : Passing p) (g : α → β) : Passing (p >>= fun a => Pure.pure (g a)) :=
  hp.bind (fun a => .pure (g a)) fun a => .pure (g a)

theorem map (hp : Passing p) (g : α → β) : Passing (g <$> p) := hp.returns g

theorem discard (hp : Passing p) : Passing (discard p) := hp.map _

theorem taking (hp : Passing p) : Passing (taking p) := by
  intro pre hpre zs zs' hz
  rcases hp hpre hz with ⟨ha, hb⟩ | ⟨a, left, ha, hb⟩ | ⟨a, rs, rs', hc, ha, hb⟩
  · exact .inl ⟨by simp [Parser.taking, ha], by simp [Parser.taking, hb]⟩
  · obtain ⟨used, he, _⟩ := p.takes ha
    rw [← List.append_assoc] at he
    obtain rfl := List.append_cancel_right he
    exact .inr (.inl ⟨(used, a), left, taking_eq_some.2 ⟨by simp, ha⟩, taking_eq_some.2 ⟨by simp, hb⟩⟩)
  · obtain ⟨front, t, hfront, hfront', -⟩ := hc.used
    refine .inr (.inr ⟨(pre ++ front ++ [t], a), rs, rs', hc, taking_eq_some.2 ⟨?_, ha⟩,
      taking_eq_some.2 ⟨?_, hb⟩⟩)
    · rw [hfront]
      simp
    · rw [hfront']
      simp

theorem placed (hp : Passing p) : Passing (placed p) :=
  hp.taking.returns _

/-- What is seen ahead does not depend on the fence. -/
theorem foresee (hp : Passing p) : Stops (foresee p) := by
  have hbehind {pre : List Token} (hpre : Balanced pre) : HaltsBehind pre (Parser.foresee p) := by
    intro zs zs' hz
    rcases hp hpre hz with ⟨ha, hb⟩ | ⟨a, left, ha, hb⟩ | ⟨a, rs, rs', -, ha, hb⟩
    · exact .inr ⟨none, pre, by simp [Parser.foresee, ha], by simp [Parser.foresee, hb]⟩
    · exact .inr ⟨some a, pre, by simp [Parser.foresee, ha], by simp [Parser.foresee, hb]⟩
    · exact .inr ⟨some a, pre, by simp [Parser.foresee, ha], by simp [Parser.foresee, hb]⟩
  exact ⟨fun _ hpre _ => hbehind hpre, hbehind balanced_nil⟩

/-- What refuses the rest of a head does not let it pass. -/
theorem stops_bind (hp : Passing p) (hf : ∀ a, Stops (f a)) (hr : ∀ a, Refuses (f a)) :
    Stops (p >>= f) := by
  have hbehind {pre : List Token} (hpre : Balanced pre) : HaltsBehind pre (p >>= f) := by
    intro zs zs' hz
    simp only [run_bind]
    rcases hp hpre hz with ⟨ha, hb⟩ | ⟨a, left, ha, hb⟩ | ⟨a, rs, rs', hc, ha, hb⟩
    · exact .inl ⟨by rw [ha]; rfl, by rw [hb]; rfl⟩
    · rw [ha, hb]
      exact (hf a).behind (balanced_left hpre ha) hz
    · obtain ⟨t, us, us', rfl, rfl, ht⟩ := hc.next
      rw [ha, hb]
      exact .inl ⟨hr a ht us, hr a ht us'⟩
  exact ⟨fun _ hpre _ => hbehind hpre, hbehind balanced_nil⟩

/-- A look at the next token, in front of a fence or at one. -/
theorem peek {f : Token → Parser β} (hf : ∀ t pre, Balanced (t :: pre) → Passes (t :: pre) (f t))
    (hz : Passes [] (Parser.peek >>= f)) : Passing (Parser.peek >>= f) := by
  intro pre hpre
  cases pre with
  | nil => exact hz
  | cons t pre => exact hf t pre hpre

/-- A look at the next token, of which nothing matters that fences alike differ in. -/
theorem glance {f : Token → Parser β} (hf : ∀ t, Passing (f t))
    (hz : ∀ z z', Mute z → Mute z' → f z = f z') : Passing (Parser.peek >>= f) := by
  refine .peek (fun t pre hb => hf t hb) fun zs zs' hzs => ?_
  obtain ⟨z, us, z', us', rfl, rfl, -, -, -, hm⟩ := hzs.exists_cons
  have he : f z = f z' := by
    rcases hm with ⟨h, h'⟩ | rfl
    · exact hz z z' h h'
    · rfl
  have hpass := hf z balanced_nil hzs
  simp only [List.nil_append, run_peek_cons] at hpass ⊢
  rwa [← he]

end Passing

namespace Agrees

theorem bind (hp : Agrees p) (hf : ∀ a, Agrees (f a)) : Agrees (p >>= f) := by
  intro pre zs zs' left b hpre hz hrun
  obtain ⟨a, mid, ha, hb⟩ := bind_eq_some.1 hrun
  obtain ⟨used, rfl, -⟩ := (f a).takes hb
  rw [← List.append_assoc] at ha hb
  have hmid := hp hpre hz ha
  exact bind_eq_some.2 ⟨a, _, hmid, hf a (balanced_left hpre ha) hz hb⟩

theorem pure (a : α) : Agrees (pure a : Parser α) := (Stops.pure a).agrees

theorem ite {c : Prop} [Decidable c] (hp : Agrees p) (hq : Agrees q) :
    Agrees (if c then p else q) := by
  split
  · exact hp
  · exact hq

theorem map (hp : Agrees p) (g : α → β) : Agrees (g <$> p) := hp.bind fun a => .pure (g a)

theorem discard (hp : Agrees p) : Agrees (discard p) := hp.map _

theorem seqRight {r : Parser β} (hp : Agrees p) (hr : Agrees r) : Agrees (p *> r) := hp.bind fun _ => hr

theorem orElse (hp : Passing p) (hq : Agrees q) : Agrees (p <|> q) := by
  intro pre zs zs' left a hpre hz hrun
  refine orElse_eq_some.2 ?_
  rcases orElse_eq_some.1 hrun with h | ⟨hno, h⟩
  · exact .inl (hp.agrees hpre hz h)
  · refine .inr ⟨?_, hq hpre hz h⟩
    rcases hp hpre hz with ⟨-, hno'⟩ | ⟨_, _, hb, -⟩ | ⟨_, _, _, -, hb, -⟩
    · exact hno'
    · rw [hno] at hb
      cases hb
    · rw [hno] at hb
      cases hb

/-- Alternatives that take a token have none to take at a fence. -/
theorem orElse_of_consumes (hp : Halts p) (hq : Agrees q) (hc : Consumes p) (hc' : Consumes q) :
    Agrees (p <|> q) := by
  intro pre zs zs' left a hpre hz hrun
  rcases pre with _ | ⟨t, pre⟩
  · have hlength := hc.orElse hc' hrun
    simp only [List.nil_append, List.length_append] at hlength
    omega
  refine orElse_eq_some.2 ?_
  have hbehind := hp hpre (List.cons_ne_nil t pre) hz
  rcases orElse_eq_some.1 hrun with h | ⟨hno, h⟩
  · rcases hbehind with ⟨hno, -⟩ | ⟨b, left', hb, hb'⟩
    · rw [hno] at h
      cases h
    · rw [hb] at h
      obtain ⟨rfl, hl⟩ := Prod.mk.inj (Option.some.inj h)
      exact .inl (by rw [hb', List.append_cancel_right hl])
  · rcases hbehind with ⟨-, hno'⟩ | ⟨b, left', hb, -⟩
    · exact .inr ⟨hno', hq hpre hz h⟩
    · rw [hno] at hb
      cases hb

theorem advance : Agrees advance := by
  intro pre zs zs' left t hpre hz hrun
  obtain ⟨he, hs, hp⟩ := advance_eq_some.1 hrun
  rcases pre with _ | ⟨u, pre⟩
  · have hlength := congrArg List.length he
    simp only [List.nil_append, List.length_cons, List.length_append] at hlength
    omega
  · obtain ⟨rfl, hl⟩ := List.cons.inj he
    rw [← List.append_cancel_right hl]
    exact advance_eq_some.2 ⟨rfl, hs, hp⟩

theorem taking (hp : Agrees p) : Agrees (taking p) := by
  rintro pre zs zs' left ⟨used, a⟩ hpre hz hrun
  obtain ⟨he, ha⟩ := taking_eq_some.1 hrun
  rw [← List.append_assoc] at he
  obtain rfl := List.append_cancel_right he
  exact taking_eq_some.2 ⟨by simp, hp hpre hz ha⟩

theorem placed (hp : Agrees p) : Agrees (placed p) := hp.taking.bind fun _ => .pure _

theorem commaSep (lines : Bool) (hp : Agrees p) (n : Nat) : Agrees (commaSep lines p n) := by
  induction n with
  | zero => exact Stops.failure.agrees
  | succ n ih =>
      refine hp.bind fun a => (Stops.acceptComma lines).agrees.bind fun more => .ite ?_ (.pure _)
      exact ih.bind fun as => .pure _

/-- A look at the next token, of which nothing matters that fences alike differ in. -/
theorem peek {f : Token → Parser β} (hf : ∀ t, Agrees (f t))
    (hz : ∀ z z', Mute z → Mute z' → Grammar.endsAlone z = Grammar.endsAlone z' → f z = f z') :
    Agrees (Parser.peek >>= f) := by
  intro pre zs zs' left b hpre hzs hrun
  rcases pre with _ | ⟨t, pre⟩
  · obtain ⟨z, us, z', us', rfl, rfl, -, -, ha, hm⟩ := hzs.exists_cons
    have he : f z = f z' := by
      rcases hm with ⟨h, h'⟩ | rfl
      · exact hz z z' h h' ha
      · rfl
    have hnew : (f z).run (z' :: us') = _ := hf z hpre hzs hrun
    rw [he] at hnew
    exact hnew
  · exact hf t hpre hzs hrun

/-- A look at the next three tokens. -/
theorem look {f : Token → Token → Token → Parser β} (hf : ∀ t u v, Agrees (f t u v))
    (hv : ∀ t u z z', Balanced [t, u] → Fence z → Fence z' → f t u z = f t u z')
    (hu : ∀ t z z' v v', Fence z → Fence z' → f t z v = f t z' v')
    (ht : ∀ z z' u u' v v', Fence z → Fence z' → (Mute z ∧ Mute z' ∨ z = z') → f z u v = f z' u' v') :
    Agrees (Parser.peek >>= fun t => ahead 1 >>= fun u => ahead 2 >>= fun v => f t u v) := by
  intro pre zs zs' left b hpre hz hrun
  have hnew : (f _ _ _).run (pre ++ zs') = some (b, left ++ zs') := hf _ _ _ hpre hz hrun
  rw [look_congr hz hpre hv hu ht] at hnew
  exact hnew

end Agrees

end Parser

end GoOutline.Syntax
