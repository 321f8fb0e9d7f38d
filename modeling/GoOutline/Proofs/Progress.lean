import GoOutline.Syntax.Parser

/-!
Rules that cannot succeed on nothing. A rule that stands for a piece of source takes a token
whenever it succeeds, which is why repeating it comes to an end.
-/

namespace GoOutline.Syntax

namespace Parser

variable {α β : Type} {p q : Parser α} {f : α → Parser β}

/-- A parser that takes a token whenever it succeeds. -/
def Consumes (p : Parser α) : Prop :=
  ∀ ⦃ts a rest⦄, p.run ts = some (a, rest) → rest.length < ts.length

theorem length_le {ts rest : List Token} {a : α} (h : p.run ts = some (a, rest)) :
    rest.length ≤ ts.length := by
  obtain ⟨used, rfl, _⟩ := p.takes h
  simp

theorem Consumes.ne_nil {used rest : List Token} {a : α} (h : Consumes p)
    (hr : p.run (used ++ rest) = some (a, rest)) : used ≠ [] := by
  rintro rfl
  exact absurd (h hr) (Nat.lt_irrefl _)

theorem Consumes.bind (h : Consumes p) (f : α → Parser β) : Consumes (p >>= f) := by
  intro ts b rest hr
  obtain ⟨a, mid, ha, hb⟩ := bind_eq_some.1 hr
  exact Nat.lt_of_le_of_lt (length_le hb) (h ha)

theorem Consumes.behind (p : Parser α) (h : ∀ a, Consumes (f a)) : Consumes (p >>= f) := by
  intro ts b rest hr
  obtain ⟨a, mid, ha, hb⟩ := bind_eq_some.1 hr
  exact Nat.lt_of_lt_of_le (h a hb) (length_le ha)

theorem Consumes.map (h : Consumes p) (f : α → β) : Consumes (f <$> p) := by
  intro ts b rest hr
  obtain ⟨a, ha, _⟩ := map_eq_some.1 hr
  exact h ha

theorem Consumes.discard (h : Consumes p) : Consumes (discard p) := h.map _

theorem Consumes.ite {c : Prop} [Decidable c] (hp : Consumes p) (hq : Consumes q) :
    Consumes (if c then p else q) := by
  split
  · exact hp
  · exact hq

theorem Consumes.orElse (hp : Consumes p) (hq : Consumes q) : Consumes (p <|> q) := by
  intro ts a rest h
  rcases orElse_eq_some.1 h with h | ⟨_, h⟩
  · exact hp h
  · exact hq h

theorem consumes_failure : Consumes (failure : Parser α) := fun _ _ _ h => (failure_eq_some h).elim

theorem consumes_advance : Consumes advance := by
  intro ts t rest h
  rw [(advance_eq_some.1 h).1]
  simp

theorem consumes_group (b : Bracket) (p : Parser α) : Consumes (group b p) := by
  intro ts g rest h
  obtain ⟨us, rfl, _, hr, _⟩ := group_eq_some.1 h
  have hle := length_le hr
  simp only [List.length_cons] at hle ⊢
  omega

theorem consumes_ofKind (kind : TokenKind) : Consumes (ofKind kind) :=
  .behind _ fun _ => .behind _ fun _ => consumes_advance

theorem consumes_name : Consumes name := consumes_ofKind .name

theorem consumes_expect (text : String) : Consumes (expect text) :=
  .behind _ fun _ => .behind _ fun _ => consumes_advance

theorem Consumes.placed (h : Consumes p) : Consumes (placed p) := by
  intro ts a rest hr
  obtain ⟨used, rfl, hp, _⟩ := placed_eq_some.1 hr
  exact h hp

theorem Consumes.taking (h : Consumes p) : Consumes (taking p) := by
  rintro ts ⟨used, a⟩ rest hr
  exact h (taking_eq_some.1 hr).2

theorem Consumes.commaSep {lines : Bool} (h : Consumes p) (n : Nat) :
    Consumes (commaSep lines p n) := by
  cases n with
  | zero => exact consumes_failure
  | succ n => exact h.bind _

theorem Consumes.twice {q : Parser β} (hp : Consumes p) (hq : Consumes q) :
    Consumes (twice p q) :=
  .behind _ fun _ => (hq.bind _).orElse (hp.bind _)

/-- What a parser reads has a property. -/
def Yields (p : Parser α) (P : α → Prop) : Prop := ∀ ⦃ts a rest⦄, p.run ts = some (a, rest) → P a

section Yields

variable {P : α → Prop} {Q : β → Prop}

theorem yields_pure {a : α} (h : P a) : Yields (pure a) P := by
  intro ts b rest hr
  rw [← (pure_eq_some.1 hr).1]
  exact h

theorem yields_failure : Yields (failure : Parser α) P := fun _ _ _ h => (failure_eq_some h).elim

theorem Yields.bind (hp : Yields p P) (h : ∀ a, P a → Yields (f a) Q) : Yields (p >>= f) Q := by
  intro ts b rest hr
  obtain ⟨a, mid, ha, hb⟩ := bind_eq_some.1 hr
  exact h a (hp ha) hb

theorem Yields.behind (p : Parser α) (h : ∀ a, Yields (f a) Q) : Yields (p >>= f) Q := by
  intro ts b rest hr
  obtain ⟨a, mid, _, hb⟩ := bind_eq_some.1 hr
  exact h a hb

theorem Yields.ite {c : Prop} [Decidable c] (hp : Yields p P) (hq : Yields q P) :
    Yields (if c then p else q) P := by
  split
  · exact hp
  · exact hq

end Yields

end Parser

namespace Grammar

open Syntax.Parser

theorem consumes_namedType (n : Nat) (p : Place) : Consumes (namedType n p) := by
  cases n with
  | zero => exact consumes_failure
  | succ n => exact (consumes_name.bind _).bind _

theorem consumes_paramList (n : Nat) : Consumes (paramList n) := by
  cases n with
  | zero => exact consumes_failure
  | succ n => exact (consumes_group _ _).bind _

theorem consumes_structBody (n : Nat) : Consumes (structBody n) := by
  cases n with
  | zero => exact consumes_failure
  | succ n => exact (consumes_expect _).discard.bind _

theorem consumes_interfaceBody (n : Nat) : Consumes (interfaceBody n) := by
  cases n with
  | zero => exact consumes_failure
  | succ n => exact (consumes_expect _).discard.bind _

theorem consumes_typeForm (n : Nat) (p : Place) : Consumes (typeForm n p) := by
  cases n with
  | zero => exact consumes_failure
  | succ n =>
      refine .behind _ fun t => ?_
      refine .ite (consumes_namedType n p) ?_
      refine .ite (consumes_advance.discard.bind _) ?_
      refine .ite ((consumes_group _ _).discard.bind _) ?_
      refine .ite ((consumes_group _ _).bind _) ?_
      refine .ite (consumes_advance.discard.bind _) ?_
      refine .ite (consumes_advance.discard.bind _) ?_
      refine .ite (consumes_advance.discard.bind _) ?_
      refine .ite (consumes_advance.discard.bind _) ?_
      refine .ite (consumes_advance.discard.bind _) ?_
      refine .ite ((consumes_structBody n).discard.bind _) ?_
      exact .ite ((consumes_interfaceBody n).discard.bind _) consumes_failure

theorem consumes_typeExpr (n : Nat) (p : Place) : Consumes (typeExpr n p) := by
  cases n with
  | zero => exact consumes_failure
  | succ n => exact (consumes_typeForm n p).placed.bind _

theorem consumes_unionType (n : Nat) (p : Place) : Consumes (unionType n p) := by
  cases n with
  | zero => exact consumes_failure
  | succ n => exact (consumes_typeExpr n p).bind _

theorem consumes_unnamedEntry (n : Nat) : Consumes (unnamedEntry n) := by
  cases n with
  | zero => exact consumes_failure
  | succ n => exact (consumes_typeExpr n .inner).bind _

theorem consumes_namedEntry (n : Nat) : Consumes (namedEntry n) := by
  cases n with
  | zero => exact consumes_failure
  | succ n => exact consumes_name.bind _

theorem consumes_paramEntry (n : Nat) : Consumes (paramEntry n) := by
  cases n with
  | zero => exact consumes_failure
  | succ n =>
      refine .behind _ fun t => .behind _ fun u => ?_
      refine .ite (consumes_advance.discard.bind _) (.ite ?_ (consumes_unnamedEntry n))
      refine .ite (consumes_advance.discard.bind _) (.ite (consumes_advance.discard.bind _) ?_)
      refine .ite (consumes_unnamedEntry n) ?_
      exact .ite ((consumes_unnamedEntry n).orElse (consumes_namedEntry n)) (consumes_namedEntry n)

theorem consumes_embeddedField (n : Nat) : Consumes (embeddedField n) := by
  cases n with
  | zero => exact consumes_failure
  | succ n => exact (consumes_namedType n .line).placed.bind _

theorem consumes_namedFields (n : Nat) : Consumes (namedFields n) := by
  cases n with
  | zero => exact consumes_failure
  | succ n => exact (consumes_name.commaSep n).bind _

theorem consumes_fieldHead (n : Nat) : Consumes (fieldHead n) := by
  cases n with
  | zero => exact consumes_failure
  | succ n =>
      refine .behind _ fun t => .behind _ fun u => .ite (consumes_advance.discard.bind _) ?_
      refine .ite (consumes_embeddedField n) ?_
      exact .ite ((consumes_embeddedField n).orElse (consumes_namedFields n))
        (consumes_namedFields n)

theorem consumes_fieldDecl (n : Nat) : Consumes (fieldDecl n) := by
  cases n with
  | zero => exact consumes_failure
  | succ n => exact ((consumes_fieldHead n).bind _).placed.bind _

theorem consumes_interfaceElem (n : Nat) : Consumes (interfaceElem n) := by
  cases n with
  | zero => exact consumes_failure
  | succ n =>
      refine .behind _ fun t => .behind _ fun u => .ite ?_ ?_
      · exact (consumes_name.bind _).placed.bind _
      · exact (consumes_unionType n .line).placed.bind _

theorem consumes_typeEntry (n : Nat) : Consumes (typeEntry n) := by
  cases n with
  | zero => exact consumes_failure
  | succ n => exact (consumes_name.bind _).placed.bind _

theorem consumes_importSpec : Consumes importSpec :=
  .bind (.placed (.behind _ fun _ => (consumes_ofKind _).bind _)) _

theorem consumes_typeParam (n : Nat) : Consumes (typeParam n) := by
  cases n with
  | zero => exact consumes_failure
  | succ n => exact consumes_name.discard.bind _

theorem consumes_typeDecl (n : Nat) : Consumes (typeDecl n) := by
  cases n with
  | zero => exact consumes_failure
  | succ n => exact (consumes_expect _).discard.bind _

theorem consumes_constSpec (n : Nat) : Consumes (constSpec n) := by
  cases n with
  | zero => exact consumes_failure
  | succ n => exact (consumes_name.commaSep n).discard.bind _

theorem consumes_varSpec (n : Nat) : Consumes (varSpec n) := by
  cases n with
  | zero => exact consumes_failure
  | succ n => exact (consumes_name.commaSep n).discard.bind _

theorem consumes_valueSpec (constant : Bool) (n : Nat) : Consumes (valueSpec constant n) := by
  cases n with
  | zero => exact consumes_failure
  | succ n => exact .ite (consumes_constSpec n) (consumes_varSpec n)

theorem consumes_valueDecl (n : Nat) : Consumes (valueDecl n) := by
  cases n with
  | zero => exact consumes_failure
  | succ n => exact consumes_advance.bind _

theorem consumes_block (n : Nat) : Consumes (block n) := by
  cases n with
  | zero => exact consumes_failure
  | succ n => exact (consumes_group _ _).bind _

theorem consumes_literalValue (n : Nat) : Consumes (literalValue n) := by
  cases n with
  | zero => exact consumes_failure
  | succ n => exact (consumes_group _ _).discard

theorem consumes_typeArgs (n : Nat) : Consumes (typeArgs n) := by
  cases n with
  | zero => exact consumes_failure
  | succ n => exact (consumes_group _ _).bind _

theorem consumes_bracketed (n : Nat) : Consumes (bracketed n) := by
  cases n with
  | zero => exact consumes_failure
  | succ n => exact ((consumes_typeArgs n).twice (consumes_group _ _)).bind _

theorem consumes_parenthesized (n : Nat) : Consumes (parenthesized n) := by
  cases n with
  | zero => exact consumes_failure
  | succ n => exact ((consumes_typeExpr n _).twice (consumes_group _ _)).bind _

theorem consumes_funcLiteral (n : Nat) : Consumes (funcLiteral n) := by
  cases n with
  | zero => exact consumes_failure
  | succ n => exact (consumes_expect _).discard.bind _

theorem consumes_arrayLiteral (n : Nat) (m : Mode) : Consumes (arrayLiteral n m) := by
  cases n with
  | zero => exact consumes_failure
  | succ n => exact (consumes_group _ _).discard.bind _

theorem consumes_closedType (n : Nat) (m : Mode) (literal : Bool) :
    Consumes (closedType n m literal) := by
  cases n with
  | zero => exact consumes_failure
  | succ n => exact (consumes_typeExpr n _).discard.bind _

theorem consumes_openType (n : Nat) (m : Mode) : Consumes (openType n m) := by
  cases n with
  | zero => exact consumes_failure
  | succ n => exact .behind _ fun _ => .behind _ fun _ => (consumes_typeExpr n _).discard.bind _

theorem consumes_typeOperand (n : Nat) (m : Mode) (literal : Bool) :
    Consumes (typeOperand n m literal) := by
  cases n with
  | zero => exact consumes_failure
  | succ n =>
      refine (consumes_closedType n m literal).orElse ((consumes_openType n m).orElse ?_)
      exact .behind _ fun _ => (consumes_typeExpr n _).discard.bind _

theorem consumes_operand (n : Nat) (m : Mode) : Consumes (operand n m) := by
  cases n with
  | zero => exact consumes_failure
  | succ n =>
      refine .behind _ fun t => .ite (consumes_advance.discard.bind _) ?_
      refine .ite (consumes_advance.discard.bind _) ?_
      refine .ite ((consumes_parenthesized n).bind _) ?_
      have hf := (consumes_funcLiteral n).bind fun _ => postfixes n m .value
      refine .ite (hf.orElse (consumes_typeOperand n m false)) ?_
      refine .ite ?_ (consumes_typeOperand n m _)
      exact (consumes_arrayLiteral n m).orElse (consumes_typeOperand n m true)

theorem consumes_unary (n : Nat) (m : Mode) : Consumes (unary n m) := by
  cases n with
  | zero => exact consumes_failure
  | succ n =>
      exact .behind _ fun _ => .ite (consumes_advance.discard.bind _) (consumes_operand n m)

theorem consumes_expr (n : Nat) (m : Mode) : Consumes (expr n m) := by
  cases n with
  | zero => exact consumes_failure
  | succ n => exact (consumes_unary n m).bind _

theorem consumes_argument (n : Nat) : Consumes (argument n) := by
  cases n with
  | zero => exact consumes_failure
  | succ n => exact (consumes_expr n _).bind _

theorem consumes_literalElement (n : Nat) : Consumes (literalElement n) := by
  cases n with
  | zero => exact consumes_failure
  | succ n => exact .behind _ fun _ => .ite (consumes_literalValue n) (consumes_expr n _)

theorem consumes_keyedElement (n : Nat) : Consumes (keyedElement n) := by
  cases n with
  | zero => exact consumes_failure
  | succ n => exact (consumes_literalElement n).bind _

theorem consumes_simple (n : Nat) (m right : Mode) : Consumes (simple n m right) := by
  cases n with
  | zero => exact consumes_failure
  | succ n => exact (consumes_expr n _).bind _

theorem consumes_ifStatement (n : Nat) : Consumes (ifStatement n) := by
  cases n with
  | zero => exact consumes_failure
  | succ n => exact (consumes_expect _).discard.bind _

theorem consumes_forStatement (n : Nat) : Consumes (forStatement n) := by
  cases n with
  | zero => exact consumes_failure
  | succ n => exact (consumes_expect _).discard.bind _

theorem consumes_switchStatement (n : Nat) : Consumes (switchStatement n) := by
  cases n with
  | zero => exact consumes_failure
  | succ n => exact (consumes_expect _).discard.bind _

theorem consumes_statement (n : Nat) : Consumes (statement n) := by
  cases n with
  | zero => exact consumes_failure
  | succ n =>
      refine .behind _ fun t => .behind _ fun u => .ite (consumes_valueDecl n) ?_
      refine .ite (consumes_typeDecl n).discard ?_
      refine .ite (consumes_advance.discard.bind _) ?_
      refine .ite (consumes_advance.discard.bind _) ?_
      refine .ite (consumes_ifStatement n) ?_
      refine .ite (consumes_forStatement n) ?_
      refine .ite (consumes_switchStatement n) ?_
      refine .ite (consumes_advance.discard.bind _) ?_
      refine .ite (consumes_advance.discard.bind _) ?_
      refine .ite (consumes_advance.discard.bind _) ?_
      refine .ite consumes_advance.discard ?_
      refine .ite (consumes_block n).discard ?_
      exact .ite (consumes_advance.discard.bind _) (consumes_simple n _ _).discard

theorem consumes_funcDecl (n : Nat) : Consumes (funcDecl n) := by
  cases n with
  | zero => exact consumes_failure
  | succ n => exact (consumes_expect _).discard.bind _

theorem consumes_itemKind (n : Nat) : Consumes (itemKind n) := by
  have hs : Consumes (statement n) := consumes_statement n
  have hp : Consumes packageClause := (consumes_expect _).discard.bind _
  refine .behind _ fun t => .ite (hp.bind _) ?_
  refine .ite (((consumes_expect _).bind _).map _) (.ite ((consumes_typeDecl n).map _) ?_)
  refine .ite ((consumes_valueDecl n).bind _) (.ite (.behind _ fun method => ?_) (hs.bind _))
  exact ((consumes_funcDecl n).map _).orElse ((Consumes.behind _ fun _ => hs).bind _)

end Grammar

end GoOutline.Syntax
