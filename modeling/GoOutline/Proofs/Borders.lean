import GoOutline.Proofs.Rules

/-!
Borders of a piece. A rule that takes some tokens and leaves the next one takes the same tokens when
the next one is another that it leaves too, whatever stands behind it.
-/

namespace GoOutline.Syntax

namespace Parser

variable {α β : Type} {C : Token → Prop} {E : Token → Token → Prop} {p q : Parser α}

/-- What one parser takes in front of a token that it leaves, the other takes in front of a token
that replaces this one. -/
def Follows (C : Token → Prop) (E : Token → Token → Prop) (p q : Parser α) : Prop :=
  ∀ ⦃seg z z' rest a⦄, (∀ t ∈ seg, C t) → E z z' → p.run (seg ++ z :: rest) = some (a, z :: rest) →
    ∀ rest', q.run (seg ++ z' :: rest') = some (a, z' :: rest')

/-- A token of the piece itself is left as it is. -/
def Same (C : Token → Prop) (z z' : Token) : Prop := C z ∧ z = z'

namespace Follows

theorem imp {E' : Token → Token → Prop} (h : Follows C E p q) (he : ∀ z z', E' z z' → E z z') :
    Follows C E' p q :=
  fun _ _ _ _ _ hs hz hr => h hs (he _ _ hz) hr

theorem weaken {C' : Token → Prop} (h : Follows C E p q) (hc : ∀ t, C' t → C t) :
    Follows C' E p q :=
  fun _ _ _ _ _ hs hz hr => h (fun t ht => hc t (hs t ht)) hz hr

theorem pure (a : α) : Follows C E (pure a) (pure a) := by
  intro seg z z' rest b _ _ hr rest'
  obtain ⟨rfl, he⟩ := pure_eq_some.1 hr
  have hseg : seg = [] := by simpa using he
  subst hseg
  rfl

theorem failure : Follows C E (failure : Parser α) q :=
  fun _ _ _ _ _ _ _ hr => (failure_eq_some hr).elim

/-- What is taken ends inside of the piece or with it. -/
theorem bind {f g : α → Parser β} (hC : ∀ t, C t → E t t) (hp : Follows C E p q)
    (hf : ∀ a, Follows C E (f a) (g a)) : Follows C E (p >>= f) (q >>= g) := by
  intro seg z z' rest b hs hz hr rest'
  obtain ⟨a, mid, ha, hb⟩ := bind_eq_some.1 hr
  obtain ⟨used, he, _⟩ := p.takes ha
  obtain ⟨more, rfl, _⟩ := (f a).takes hb
  obtain rfl : seg = used ++ more := by
    rw [← List.append_assoc] at he
    exact List.append_cancel_right he
  refine bind_eq_some.2 ⟨a, more ++ z' :: rest', ?_, ?_⟩
  · cases more with
    | nil =>
        rw [List.append_nil] at hs ⊢
        exact hp hs hz (by simpa using ha) rest'
    | cons y more =>
        have hy : C y := hs y (by simp)
        have hu : ∀ t ∈ used, C t := fun t ht => hs t (List.mem_append_left _ ht)
        rw [List.append_assoc, List.cons_append]
        exact hp hu (hC y hy) (by simpa using ha) _
  · exact hf a (fun t ht => hs t (List.mem_append_right _ ht)) hz hb rest'

/-- In front of something that takes a token, a piece ends inside of a larger one. -/
theorem bind_consumes {f g : α → Parser β} (hp : Follows C (Same C) p q)
    (hc : ∀ a, Consumes (f a)) (hf : ∀ a, Follows C E (f a) (g a)) :
    Follows C E (p >>= f) (q >>= g) := by
  intro seg z z' rest b hs hz hr rest'
  obtain ⟨a, mid, ha, hb⟩ := bind_eq_some.1 hr
  obtain ⟨used, he, _⟩ := p.takes ha
  obtain ⟨more, rfl, _⟩ := (f a).takes hb
  obtain rfl : seg = used ++ more := by
    rw [← List.append_assoc] at he
    exact List.append_cancel_right he
  have hne : more ≠ [] := (hc a).ne_nil hb
  refine bind_eq_some.2 ⟨a, more ++ z' :: rest', ?_, ?_⟩
  · cases more with
    | nil => exact absurd rfl hne
    | cons y more =>
        have hy : C y := hs y (by simp)
        have hu : ∀ t ∈ used, C t := fun t ht => hs t (List.mem_append_left _ ht)
        rw [List.append_assoc, List.cons_append]
        exact hp hu ⟨hy, rfl⟩ (by simpa using ha) _
  · exact hf a (fun t ht => hs t (List.mem_append_right _ ht)) hz hb rest'

theorem map {f : α → β} (hp : Follows C E p q) : Follows C E (f <$> p) (f <$> q) := by
  intro seg z z' rest b hs hz hr rest'
  obtain ⟨a, ha, rfl⟩ := map_eq_some.1 hr
  exact map_eq_some.2 ⟨a, hp hs hz ha rest', rfl⟩

theorem discard (hp : Follows C E p q) : Follows C E (discard p) (discard q) := hp.map

theorem ite {c : Prop} [Decidable c] {p' q' : Parser α} (hp : Follows C E p q)
    (hp' : Follows C E p' q') : Follows C E (if c then p else p') (if c then q else q') := by
  split
  · exact hp
  · exact hp'

theorem require (b : Bool) : Follows C E (require b) (require b) := ite (.pure ()) .failure

theorem advance : Follows C E advance advance := by
  intro seg z z' rest t hs _ hr rest'
  obtain ⟨he, hsolid, hplain⟩ := advance_eq_some.1 hr
  have hseg : seg = [t] := (List.append_left_inj (z :: rest)).1 (by simpa using he)
  subst hseg
  exact advance_eq_some.2 ⟨rfl, hsolid, hplain⟩

/-- A look at the first token of a piece that is not empty. -/
theorem peek {f g : Token → Parser β} (hc : Consumes (Parser.peek >>= f))
    (hf : ∀ t, C t → Follows C E (f t) (g t)) :
    Follows C E (Parser.peek >>= f) (Parser.peek >>= g) := by
  intro seg z z' rest b hs hz hr rest'
  cases seg with
  | nil => exact absurd (hc hr) (Nat.lt_irrefl _)
  | cons t seg => exact hf t (hs t List.mem_cons_self) hs hz hr rest'

/-- A look at what is behind a piece, where nothing goes on with one border nor with the other. -/
theorem stay {f g : Token → Parser β} {b : β} (hf : ∀ t, C t → Follows C E (f t) (g t))
    (hz : ∀ z z' rest a, E z z' → (f z).run (z :: rest) = some (a, z :: rest) → a = b ∧ g z' = Pure.pure b) :
    Follows C E (Parser.peek >>= f) (Parser.peek >>= g) := by
  intro seg z z' rest a hs hzz hr rest'
  cases seg with
  | nil =>
      obtain ⟨rfl, hg⟩ := hz z z' rest a hzz hr
      show (g z').run (z' :: rest') = _
      rw [hg]
      rfl
  | cons t seg => exact hf t (hs t List.mem_cons_self) hs hzz hr rest'

/-- What is read behind a piece if the next token goes on with it. -/
theorem whenever {c c' : Token → Bool} {r r' : Parser β} (b : β) (hr : Consumes r)
    (hc : ∀ t, C t → c t = c' t) (hz : ∀ z z', E z z' → c z = c' z') (h : Follows C E r r') :
    Follows C E (Parser.peek >>= fun t => if c t then r else Pure.pure b)
      (Parser.peek >>= fun t => if c' t then r' else Pure.pure b) := by
  refine .stay (b := b) (fun t ht => ?_) fun z z' rest a hzz ha => ?_
  · rw [hc t ht]
    exact .ite h (.pure b)
  · rw [← hz z z' hzz]
    split at ha
    · exact absurd (hr ha) (Nat.lt_irrefl _)
    next hn =>
      rw [if_neg hn]
      exact ⟨(pure_eq_some.1 ha).1.symm, rfl⟩

theorem ofKind (kind : TokenKind) : Follows C E (ofKind kind) (ofKind kind) :=
  .peek (consumes_ofKind kind) fun _ _ =>
    .bind_consumes (.require _) (fun _ => consumes_advance) fun _ => .advance

theorem name : Follows C E name name := ofKind .name

theorem expect (text : String) : Follows C E (expect text) (expect text) :=
  .peek (consumes_expect text) fun _ _ =>
    .bind_consumes (.require _) (fun _ => consumes_advance) fun _ => .advance

/-- A token that may go on with a piece, in front of something that takes a token. -/
theorem accept (text : String) : Follows C (Same C) (accept text) (accept text) :=
  .whenever _ (consumes_advance.discard.bind _) (fun _ _ => rfl) (fun _ _ h => by rw [h.2])
    (.bind (fun _ ht => ⟨ht, rfl⟩) Follows.advance.discard fun _ => .pure true)

theorem acceptComma (lines : Bool) : Follows C (Same C) (acceptComma lines) (acceptComma lines) :=
  .whenever _ (consumes_advance.discard.bind _) (fun _ _ => rfl) (fun _ _ h => by rw [h.2])
    (.bind (fun _ ht => ⟨ht, rfl⟩) Follows.advance.discard fun _ => .pure true)

theorem commaSep (lines : Bool) (hp : Follows C (Same C) p q) (n : Nat) :
    Follows C (Same C) (commaSep lines p n) (commaSep lines q n) := by
  have hC (t : Token) (ht : C t) : Same C t t := ⟨ht, rfl⟩
  induction n with
  | zero => exact .failure
  | succ n ih =>
      refine .bind hC hp fun a => .bind hC (.acceptComma lines) fun more => .ite ?_ (.pure _)
      exact .bind hC ih fun as => .pure _

theorem placed (hp : Follows C E p q) : Follows C E (placed p) (placed q) := by
  rintro seg z z' rest ⟨e, a⟩ hs hz hr rest'
  obtain ⟨used, he, ha, rfl⟩ := placed_eq_some.1 hr
  obtain rfl := List.append_cancel_right he
  exact placed_eq_some.2 ⟨_, rfl, hp hs hz ha rest', rfl⟩

/-- Brackets hide what is behind them. -/
theorem group (b : Bracket) (p : Parser α) : Follows C E (group b p) (group b p) := by
  intro seg z z' rest g _ _ hr rest'
  obtain ⟨us, he, ho, hi, hc⟩ := group_eq_some.1 hr
  obtain ⟨mid, rfl, _, hmid⟩ := p.takes hi
  obtain rfl : seg = g.opening :: mid ++ [g.closing] :=
    (List.append_left_inj (z :: rest)).1 (by simpa using he)
  have hin : p.run (mid ++ g.closing :: z :: rest) = some (g.content, [] ++ g.closing :: z :: rest) := by
    simpa using hi
  have hl := p.isLocal hmid (Token.isClosing_of_closes hc) hin (z' :: rest')
  exact group_eq_some.2 ⟨mid ++ g.closing :: z' :: rest', by simp, ho, hl, hc⟩

end Follows

end Parser

end GoOutline.Syntax
