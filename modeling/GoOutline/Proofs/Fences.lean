import GoOutline.Proofs.Rules

/-!
Fences between declarations. Outside of brackets only a declaration of types takes its keyword, and
only a function takes its head, but for a method that stands where a type is expected. So what a rule
does in front of such a fence, or in front of the end of the text, does not depend on what follows.
-/

namespace GoOutline.Syntax

/-- A keyword that only a declaration takes, or the end of the text. -/
def Mute (z : Token) : Prop := z.is "type" ∨ z.kind = .stop

abbrev fences : List String := ["type", "func"]

/-- The keyword of a declaration of types or of a function, or the end of the text. -/
def Fence (z : Token) : Prop := z.isAny fences ∨ z.kind = .stop

/-- Two ways to go on that start with fences which nothing in front of them can tell apart. -/
inductive Fences : List Token → List Token → Prop where
  | mute {z z' : Token} (h : Mute z) (h' : Mute z')
      (ha : Grammar.endsAlone z = Grammar.endsAlone z') (rest rest' : List Token) :
      Fences (z :: rest) (z' :: rest')
  | function {w u : Token} (hw : w.is "func") (hu : u.kind = .name) (rest rest' : List Token) :
      Fences (w :: u :: rest) (w :: u :: rest')
  | method {w o c u q : Token} {ts : List Token} (hw : w.is "func") (ho : o.is "(") (hts : Balanced ts)
      (hc : c.is ")") (hu : u.kind = .name) (hq : q.is "(") (rest rest' : List Token) :
      Fences (w :: o :: (ts ++ c :: u :: q :: rest)) (w :: o :: (ts ++ c :: u :: q :: rest'))

namespace Fence

variable {z : Token}

theorem is_eq_false (h : Fence z) {s : String} (hs : s ∉ fences) : z.is s = false := by
  rcases h with h | h
  · obtain ⟨text, ht, hz⟩ := Token.exists_is_of_isAny h
    rw [← Bool.not_eq_true]
    exact fun hi => hs (Token.eq_of_is hi hz ▸ ht)
  · simp [Token.is, h]

theorem isAny_eq_false (h : Fence z) {l : List String} (hl : l.all (!fences.contains ·)) :
    z.isAny l = false := by
  rcases h with h | h
  · obtain ⟨text, ht, hz⟩ := Token.exists_is_of_isAny h
    rw [Token.isAny_of_is hz, ← Bool.not_eq_true, List.contains_iff_mem]
    intro hm
    have hfree := List.all_eq_true.1 hl text hm
    simp [ht] at hfree
  · simp [Token.isAny, h]

theorem kind_beq (h : Fence z) {kind : TokenKind} (hf : kind ≠ .fixed) (hs : kind ≠ .stop) :
    (z.kind == kind) = false := by
  rw [beq_eq_false_iff_ne]
  rcases h with h | h
  · obtain ⟨text, -, hz⟩ := Token.exists_is_of_isAny h
    rw [Token.kind_of_is hz]
    exact hf.symm
  · rw [h]
    exact hs.symm

theorem takesArgs (h : Fence z) (p : Grammar.Place) : Grammar.takesArgs p z = false := by
  simp [Grammar.takesArgs, h.is_eq_false (s := "[") (by decide)]

theorem isFree (h : Fence z) : Grammar.isFree z = false := by
  rw [Grammar.isFree, h.kind_beq (by decide) (by decide)]
  rfl

theorem isBinary (h : Fence z) (m : Grammar.Mode) : Grammar.isBinary m z = false := by
  rw [Grammar.isBinary, h.isAny_eq_false (by decide)]
  rfl

end Fence

namespace Mute

variable {z : Token}

theorem fence (h : Mute z) : Fence z := by
  rcases h with h | h
  · exact .inl ((Token.isAny_of_is h _).trans (by decide))
  · exact .inr h

theorem is_func (h : Mute z) : z.is "func" = false := by
  rcases h with h | h
  · exact Token.is_eq_false_of_is h (by decide)
  · simp [Token.is, h]

theorem startsType (h : Mute z) : Grammar.startsType z = false := by
  rw [Grammar.startsType, h.fence.kind_beq (by decide) (by decide)]
  rcases h with h | h
  · exact (Token.isAny_of_is h _).trans (by decide)
  · simp [Token.isAny, h]

end Mute

namespace Fences

variable {zs zs' : List Token}

theorem symm (h : Fences zs zs') : Fences zs' zs := by
  cases h with
  | mute h h' ha rest rest' => exact .mute h' h ha.symm rest' rest
  | function hw hu rest rest' => exact .function hw hu rest' rest
  | method hw ho hts hc hu hq rest rest' => exact .method hw ho hts hc hu hq rest' rest

/-- Both start with a fence, with the same one if it is the keyword of a function. -/
theorem exists_cons (h : Fences zs zs') : ∃ z us z' us', zs = z :: us ∧ zs' = z' :: us' ∧ Fence z ∧
    Fence z' ∧ Grammar.endsAlone z = Grammar.endsAlone z' ∧ (Mute z ∧ Mute z' ∨ z = z') := by
  have hfunc {w : Token} (hw : w.is "func") : Fence w := .inl ((Token.isAny_of_is hw _).trans (by decide))
  cases h with
  | mute h h' ha rest rest' => exact ⟨_, _, _, _, rfl, rfl, h.fence, h'.fence, ha, .inl ⟨h, h'⟩⟩
  | function hw hu rest rest' => exact ⟨_, _, _, _, rfl, rfl, hfunc hw, hfunc hw, rfl, .inr rfl⟩
  | method hw ho hts hc hu hq rest rest' => exact ⟨_, _, _, _, rfl, rfl, hfunc hw, hfunc hw, rfl, .inr rfl⟩

end Fences

namespace Parser

variable {α β : Type} {p q : Parser α} {f : α → Parser β} {pre : List Token}

/-- A token in front is taken, or nothing is. -/
theorem run_past (g : PUnit → Parser β) (t : Token) (ts : List Token) :
    (Functor.discard advance >>= g).run (t :: ts) =
      if t.isSolid && t.isPlain then (g ()).run ts else none := by
  show ((advance.run (t :: ts)).bind _).bind _ = _
  by_cases ht : t.isSolid && t.isPlain
  · rw [show advance.run (t :: ts) = some (t, ts) from if_pos ht, if_pos ht]
    rfl
  · rw [show advance.run (t :: ts) = none from if_neg ht, if_neg ht]
    rfl

/-- In front of one fence or the other a parser fails, or it reads the same and takes the same. -/
def HaltsBehind (pre : List Token) (p : Parser α) : Prop :=
  ∀ ⦃zs zs'⦄, Fences zs zs' →
    (p.run (pre ++ zs) = none ∧ p.run (pre ++ zs') = none) ∨
    ∃ a left, p.run (pre ++ zs) = some (a, left ++ zs) ∧ p.run (pre ++ zs') = some (a, left ++ zs')

/-- Behind some tokens, a parser goes on up to a fence at most. -/
def Halts (p : Parser α) : Prop := ∀ ⦃pre⦄, Balanced pre → pre ≠ [] → HaltsBehind pre p

/-- Right in front of a fence, a parser takes nothing. -/
def Still (p : Parser α) : Prop := HaltsBehind [] p

structure Stops (p : Parser α) : Prop where
  halts : Halts p
  still : Still p

theorem Stops.behind (h : Stops p) (hpre : Balanced pre) : HaltsBehind pre p := by
  cases pre with
  | nil => exact h.still
  | cons t pre => exact h.halts hpre (List.cons_ne_nil t pre)

theorem balanced_left {zs left : List Token} {a : α} (hpre : Balanced pre)
    (h : p.run (pre ++ zs) = some (a, left ++ zs)) : Balanced left := by
  obtain ⟨used, he, _, hu⟩ := p.takes h
  rw [← List.append_assoc] at he
  rw [List.append_cancel_right he] at hpre
  exact hpre.of_append hu

/-- What stands behind two brackets has no influence on what is read between them. -/
theorem group_hides {b : Bracket} (p : Parser α) {o c : Token} {ts : List Token} (ho : o.is b.opening)
    (hts : Balanced ts) (hc : c.is b.closing) :
    (∀ us, (group b p).run (o :: (ts ++ c :: us)) = none) ∨
      ∃ g, ∀ us, (group b p).run (o :: (ts ++ c :: us)) = some (g, us) := by
  have hcl := Token.isClosing_of_closes hc
  have hrun (us : List Token) : (group b p).run (o :: (ts ++ c :: us)) =
      (p.run (ts ++ c :: us)).bind fun x => takeClosing b o x.1 x.2 := if_pos ho
  simp only [hrun]
  cases hr : p.run (ts ++ c :: []) with
  | none => exact .inl fun us => by rw [p.run_eq_none hts hcl hr]; rfl
  | some x =>
      obtain ⟨a, mid⟩ := x
      obtain ⟨left, rfl, hl⟩ := p.takes.exists_left hts hcl hr
      have hsame (us : List Token) : p.run (ts ++ c :: us) = some (a, left ++ c :: us) :=
        p.isLocal hts hcl hr us
      simp only [hsame, Option.bind_some]
      cases left with
      | nil => exact .inr ⟨⟨o, a, c⟩, fun us => if_pos hc⟩
      | cons d left =>
          refine .inl fun us => if_neg fun hd => ?_
          exact not_balanced_of_isClosing (Token.isClosing_of_closes hd) left hl

namespace HaltsBehind

theorem bind (hpre : Balanced pre) (hp : HaltsBehind pre p) (hf : ∀ a, Stops (f a)) :
    HaltsBehind pre (p >>= f) := by
  intro zs zs' hz
  rw [run_bind, run_bind]
  rcases hp hz with ⟨ha, hb⟩ | ⟨a, left, ha, hb⟩
  · exact .inl ⟨by rw [ha]; rfl, by rw [hb]; rfl⟩
  · rw [ha, hb]
    exact (hf a).behind (balanced_left hpre ha) hz

theorem pure (a : α) : HaltsBehind pre (pure a) := fun _ _ _ => .inr ⟨a, pre, rfl, rfl⟩

theorem failure : HaltsBehind pre (failure : Parser α) := fun _ _ _ => .inl ⟨rfl, rfl⟩

theorem orElse (hp : HaltsBehind pre p) (hq : HaltsBehind pre q) : HaltsBehind pre (p <|> q) := by
  intro zs zs' hz
  show (Option.or _ _ = none ∧ Option.or _ _ = none) ∨ _
  rcases hp hz with ⟨ha, hb⟩ | ⟨a, left, ha, hb⟩
  · rw [ha, hb]
    rcases hq hz with ⟨hc, hd⟩ | ⟨a, left, hc, hd⟩
    · exact .inl ⟨hc, hd⟩
    · refine .inr ⟨a, left, ?_, ?_⟩
      · show Option.or _ _ = _
        rw [ha, hc]
        rfl
      · show Option.or _ _ = _
        rw [hb, hd]
        rfl
  · refine .inr ⟨a, left, ?_, ?_⟩
    · show Option.or _ _ = _
      rw [ha]
      rfl
    · show Option.or _ _ = _
      rw [hb]
      rfl

theorem ite {c : Prop} [Decidable c] (hp : HaltsBehind pre p) (hq : HaltsBehind pre q) :
    HaltsBehind pre (if c then p else q) := by
  split
  · exact hp
  · exact hq

/-- A token in front is taken, or nothing is. -/
theorem past {g : PUnit → Parser β} (hg : HaltsBehind pre (g ())) (t : Token) :
    HaltsBehind (t :: pre) (Functor.discard advance >>= g) := by
  intro zs zs' hz
  rw [List.cons_append, List.cons_append, run_past, run_past]
  split
  · exact hg hz
  · exact .inl ⟨rfl, rfl⟩

end HaltsBehind

namespace Halts

theorem bind (hp : Halts p) (hf : ∀ a, Stops (f a)) : Halts (p >>= f) :=
  fun _ hpre hne => (hp hpre hne).bind hpre hf

theorem pure (a : α) : Halts (pure a) := fun _ _ _ => .pure a

theorem failure : Halts (failure : Parser α) := fun _ _ _ => .failure

theorem ite {c : Prop} [Decidable c] (hp : Halts p) (hq : Halts q) :
    Halts (if c then p else q) := fun _ hpre hne => .ite (hp hpre hne) (hq hpre hne)

theorem orElse (hp : Halts p) (hq : Halts q) : Halts (p <|> q) :=
  fun _ hpre hne => .orElse (hp hpre hne) (hq hpre hne)

theorem advance : Halts advance := by
  intro pre hpre hne zs zs' hz
  cases pre with
  | nil => exact absurd rfl hne
  | cons t pre =>
      by_cases ht : t.isSolid && t.isPlain
      · exact .inr ⟨t, pre, if_pos ht, if_pos ht⟩
      · exact .inl ⟨if_neg ht, if_neg ht⟩

theorem peek {f : Token → Parser β} (hf : ∀ t, Halts (f t)) : Halts (Parser.peek >>= f) := by
  intro pre hpre hne zs zs' hz
  obtain ⟨t, pre, rfl⟩ := List.exists_cons_of_ne_nil hne
  exact hf t hpre hne hz

theorem expect (text : String) : Halts (expect text) := by
  refine peek fun t => ?_
  cases t.is text
  · exact .failure
  · exact advance

end Halts

namespace Stops

theorem bind (hp : Stops p) (hf : ∀ a, Stops (f a)) : Stops (p >>= f) :=
  ⟨hp.halts.bind hf, hp.still.bind balanced_nil hf⟩

theorem pure (a : α) : Stops (pure a) := ⟨.pure a, .pure a⟩

theorem failure : Stops (failure : Parser α) := ⟨.failure, .failure⟩

theorem ite {c : Prop} [Decidable c] (hp : Stops p) (hq : Stops q) :
    Stops (if c then p else q) := ⟨.ite hp.halts hq.halts, .ite hp.still hq.still⟩

theorem orElse (hp : Stops p) (hq : Stops q) : Stops (p <|> q) :=
  ⟨.orElse hp.halts hq.halts, .orElse hp.still hq.still⟩

theorem map (hp : Stops p) (g : α → β) : Stops (g <$> p) := hp.bind fun a => .pure (g a)

theorem discard (hp : Stops p) : Stops (discard p) := hp.map _

theorem taking (hp : Stops p) : Stops (taking p) := by
  have hbehind {pre : List Token} (h : HaltsBehind pre p) : HaltsBehind pre (Parser.taking p) := by
    intro zs zs' hz
    rcases h hz with ⟨ha, hb⟩ | ⟨a, left, ha, hb⟩
    · exact .inl ⟨by simp [Parser.taking, ha], by simp [Parser.taking, hb]⟩
    · obtain ⟨used, he, _⟩ := p.takes ha
      rw [← List.append_assoc] at he
      obtain rfl := List.append_cancel_right he
      exact .inr ⟨(used, a), left, taking_eq_some.2 ⟨by simp, ha⟩, taking_eq_some.2 ⟨by simp, hb⟩⟩
  exact ⟨fun _ hpre hne => hbehind (hp.halts hpre hne), hbehind hp.still⟩

theorem placed (hp : Stops p) : Stops (placed p) := hp.taking.bind fun _ => .pure _

theorem seqRight {r : Parser β} (hp : Stops p) (hr : Stops r) : Stops (p *> r) :=
  hp.bind fun _ => hr

theorem require (b : Bool) : Stops (require b) := ite (.pure ()) .failure

/-- A look at the next token. What is read in view of a fence may not depend on which one it is. -/
theorem peek {f : Token → Parser β} {g : Parser β} (hf : ∀ t, Halts (f t))
    (hz : ∀ z, Fence z → f z = g) (hg : Still g) : Stops (Parser.peek >>= f) := by
  refine ⟨fun pre hpre hne => ?_, fun zs zs' hzs => ?_⟩
  · cases pre with
    | nil => exact absurd rfl hne
    | cons t pre => exact fun zs zs' hzs => hf t hpre hne hzs
  · obtain ⟨z, us, z', us', rfl, rfl, h, h', -⟩ := hzs.exists_cons
    have hstill := hg hzs
    rw [← hz z h] at hstill
    show ((f z).run _ = none ∧ (f z').run _ = none) ∨
      ∃ a left, (f z).run _ = some _ ∧ (f z').run _ = some _
    rwa [hz z' h', ← hz z h]

theorem ofKind {kind : TokenKind} (hf : kind ≠ .fixed) (hs : kind ≠ .stop) :
    Stops (ofKind kind) := by
  refine .peek (g := Alternative.failure) (fun t => ?_) (fun z hz => ?_) .failure
  · cases t.kind == kind
    · exact .failure
    · exact Halts.advance
  · rw [hz.kind_beq hf hs]
    rfl

theorem name : Stops name := ofKind (by decide) (by decide)

theorem expect {s : String} (hs : s ∉ fences) : Stops (expect s) := by
  refine .peek (g := Alternative.failure) (fun t => ?_) (fun z hz => ?_) .failure
  · cases t.is s
    · exact .failure
    · exact Halts.advance
  · rw [hz.is_eq_false hs]
    rfl

theorem accept {text : String} (ht : text ∉ fences) : Stops (accept text) := by
  refine .peek (g := Pure.pure false) (fun t => ?_) (fun z hz => ?_) (.pure false)
  · exact .ite (.bind (.bind Halts.advance fun _ => .pure _) fun _ => .pure true) (.pure false)
  · simp [hz.is_eq_false ht]

theorem acceptComma (lines : Bool) : Stops (acceptComma lines) := by
  refine .peek (g := Pure.pure false) (fun t => ?_) (fun z hz => ?_) (.pure false)
  · exact .ite (.bind (.bind Halts.advance fun _ => .pure _) fun _ => .pure true) (.pure false)
  · simp [hz.is_eq_false (s := ",") (by decide)]

/-- Brackets hide their content, and no fence is one. -/
theorem group (b : Bracket) (p : Parser α) : Stops (group b p) := by
  refine ⟨fun pre hpre hne zs zs' hz => ?_, fun zs zs' hz => ?_⟩
  · rcases pre with _ | ⟨o, pre⟩
    · exact absurd rfl hne
    by_cases ho : o.is b.opening
    · rw [Balanced, nest_cons, Token.nest_of_opens ho, Option.bind_some] at hpre
      obtain ⟨inner, c, more, rfl, hi, hc, -⟩ := exists_closing hpre
      simp only [List.append_assoc, List.cons_append]
      rcases group_hides p ho hi hc with hno | ⟨g, hg⟩
      · exact .inl ⟨hno _, hno _⟩
      · exact .inr ⟨g, more, hg _, hg _⟩
    · exact .inl ⟨if_neg ho, if_neg ho⟩
  · have hn (z : Token) (h : Fence z) : ¬ z.is b.opening := by
      rw [h.is_eq_false (by cases b <;> decide)]
      simp
    obtain ⟨z, us, z', us', rfl, rfl, h, h', -⟩ := hz.exists_cons
    exact .inl ⟨if_neg (hn z h), if_neg (hn z' h')⟩

/-- Behind a token that counts for nothing but its presence. -/
theorem past {g : PUnit → Parser β} (hg : Stops (g ())) :
    Halts (Functor.discard Parser.advance >>= g) :=
  .bind (.bind Halts.advance fun _ => .pure _) fun _ => hg

end Stops

section Look

variable {γ : Type} {zs zs' : List Token}

/-- What is seen of a fence and behind it, when nothing that is seen there matters. -/
theorem look_congr {f : Token → Token → Token → γ} (hz : Fences zs zs') (hpre : Balanced pre)
    (hv : ∀ t u z z', Balanced [t, u] → Fence z → Fence z' → f t u z = f t u z')
    (hu : ∀ t z z' v v', Fence z → Fence z' → f t z v = f t z' v')
    (ht : ∀ z z' u u' v v', Fence z → Fence z' → (Mute z ∧ Mute z' ∨ z = z') → f z u v = f z' u' v') :
    f (lookAt 0 (pre ++ zs)) (lookAt 1 (pre ++ zs)) (lookAt 2 (pre ++ zs)) =
      f (lookAt 0 (pre ++ zs')) (lookAt 1 (pre ++ zs')) (lookAt 2 (pre ++ zs')) := by
  obtain ⟨z, us, z', us', rfl, rfl, h, h', -, hm⟩ := hz.exists_cons
  rcases pre with _ | ⟨t, pre⟩
  · exact ht _ _ _ _ _ _ h h' hm
  by_cases hs : t.isSolid && !t.isClosing
  · rcases pre with _ | ⟨u, _ | ⟨v, pre⟩⟩
    · simp only [List.cons_append, List.nil_append, lookAt, hs, if_true]
      exact hu _ _ _ _ _ h h'
    · by_cases ha : u.isSolid && !u.isClosing
      · simp only [List.cons_append, List.nil_append, lookAt, hs, ha, if_true]
        exact hv _ _ _ _ hpre h h'
      · simp only [List.cons_append, List.nil_append, lookAt, hs, ha]
        rfl
    · rfl
  · simp only [List.cons_append, lookAt, hs]
    rfl

end Look

/-- A look at the next three tokens. What is read in view of them may not depend on a fence among
them, nor on anything behind it. -/
theorem Stops.look {f : Token → Token → Token → Parser β}
    (hf : ∀ t u v pre, Balanced (t :: pre) →
      (pre = [] → t.isSolid → t.isClosing = false → Fence u) → HaltsBehind (t :: pre) (f t u v))
    (hv : ∀ t u z z', Balanced [t, u] → Fence z → Fence z' → f t u z = f t u z')
    (hu : ∀ t z z' v v', Fence z → Fence z' → f t z v = f t z' v')
    (ht : ∀ z z' u u' v v', Fence z → Fence z' → (Mute z ∧ Mute z' ∨ z = z') → f z u v = f z' u' v')
    (hg : ∀ z u v, Fence z → Still (f z u v)) :
    Stops (Parser.peek >>= fun t => ahead 1 >>= fun u => ahead 2 >>= fun v => f t u v) := by
  have hrun (ts : List Token) : (Parser.peek >>= fun t => ahead 1 >>= fun u => ahead 2 >>= fun v =>
      f t u v).run ts = (f (lookAt 0 ts) (lookAt 1 ts) (lookAt 2 ts)).run ts := rfl
  refine ⟨fun pre hpre hne zs zs' hz => ?_, fun zs zs' hz => ?_⟩
  · rw [hrun, hrun, ← look_congr hz hpre hv hu ht]
    obtain ⟨z, us, -, -, rfl, -, h, -⟩ := hz.exists_cons
    rcases pre with _ | ⟨t, pre⟩
    · exact absurd rfl hne
    refine hf t _ _ pre hpre (fun hnil hs hc => ?_) hz
    subst hnil
    simp only [List.cons_append, List.nil_append, lookAt, hs, hc, Bool.not_false, Bool.and_self, if_true]
    exact h
  · rw [hrun, hrun, ← look_congr hz balanced_nil hv hu ht]
    obtain ⟨z, us, -, -, rfl, -, h, -⟩ := hz.exists_cons
    exact hg z _ _ h hz

end Parser

end GoOutline.Syntax
