import GoOutline.Proofs.Rules

/-!
Expressions further on in a text.
-/

namespace GoOutline.Syntax.Grammar

open Syntax.Parser

variable {d : Motion} {k n n' : Nat}

theorem sim_expr {m : Mode} (h : Calls d (16 * (k + 1) + 8) n n') :
    Sim d (k + 1) Eq (expr (n + 1) m) (expr (n' + 1) m) := by
  refine .step_eq (consumes_unary n m) (h.same (.unary m) rfl) fun _ => .peek fun t => ?_
  exact .ite (by simp) (.bind_eq Sim.advance.discard fun _ => h.less (.expr m)) (.pure rfl)

theorem sim_unary {m : Mode} (h : Calls d (16 * (k + 1) + 7) n n') :
    Sim d (k + 1) Eq (unary (n + 1) m) (unary (n' + 1) m) :=
  .peek fun _ => .ite (by simp) (.past (h.less (.unary m))) (h.same (.operand m) rfl)

theorem sim_operand {m : Mode} (h : Calls d (16 * (k + 1) + 6) n n') :
    Sim d (k + 1) Eq (operand (n + 1) m) (operand (n' + 1) m) := by
  refine .peek fun t => .ite (by simp) (.past (h.less (.postfixes m .value))) ?_
  refine .ite_of (by simp) (fun hname => .past ?_) ?_
  · rw [beq_iff_eq] at hname
    rw [Motion.text_token (by simp [hname])]
    exact h.less (.postfixes m (.ofName t.text))
  refine .ite (by simp) ?_ ?_
  · exact .bind_eq (h.same .parenthesized rfl) fun s => h.same (.postfixes m s) rfl
  refine .ite (by simp) (.orElse ?_ (h.same (.typeOperand m false) rfl)) ?_
  · exact .bind_eq (h.same .funcLiteral rfl) fun _ => h.same (.postfixes m .value) rfl
  rw [Motion.isAny_token]
  refine .ite (by simp) ?_ (h.same (.typeOperand m (t.isAny ["map", "struct"])) rfl)
  exact (h.same (.arrayLiteral m) rfl).orElse (h.same (.typeOperand m true) rfl)

theorem sim_parenthesized (h : Calls d (16 * (k + 1) + 4) n n') :
    Sim d (k + 1) Eq (parenthesized (n + 1)) (parenthesized (n' + 1)) := by
  refine .bind ((h.same (.typeExpr .inner) rfl).twice (h.less (.expr .inner)).group) ?_
  rintro ⟨type, value⟩ ⟨type', value'⟩ ⟨ht, hv⟩
  show Sim d (k + 1) Eq (if value.isSome then _ else _) (if value'.isSome then _ else _)
  rw [isSome_of_rel ht, isSome_of_rel hv]
  exact .ite (by simp) (.pure rfl) (.bind_eq (h.same .applied rfl) fun _ => .pure rfl)

theorem sim_funcLiteral (h : Calls d (16 * (k + 1) + 0) n n') :
    Sim d (k + 1) Eq (funcLiteral (n + 1)) (funcLiteral (n' + 1)) := by
  refine .behind "func" (.bind_eq (h.less .paramList).discard fun _ => ?_)
  exact .bind_eq (h.less (.resultList .inner)).discard fun _ => (h.less .block).discard

theorem sim_arrayLiteral {m : Mode} (h : Calls d (16 * (k + 1) + 0) n n') :
    Sim d (k + 1) Eq (arrayLiteral (n + 1) m) (arrayLiteral (n' + 1) m) := by
  refine .step_eq (consumes_group _ _).discard (Sim.expect "...").group.discard fun _ => ?_
  refine .bind_eq (h.less (.typeExpr .inner)).discard fun _ => ?_
  exact .bind_eq (h.less .literalValue) fun _ => h.less (.postfixes m .value)

theorem sim_typeOperand {m : Mode} {b : Bool} (h : Calls d (16 * (k + 1) + 5) n n') :
    Sim d (k + 1) Eq (typeOperand (n + 1) m b) (typeOperand (n' + 1) m b) := by
  refine (h.same (.closedType m b) rfl).orElse ((h.same (.openType m) rfl).orElse ?_)
  refine .bind_eq (.require (by simp)) fun _ => ?_
  exact .bind_eq (h.same (.typeExpr .inner) rfl).discard fun _ => h.same (.typedLiteral m) rfl

theorem sim_closedType {m : Mode} {b : Bool} (h : Calls d (16 * (k + 1) + 4) n n') :
    Sim d (k + 1) Eq (closedType (n + 1) m b) (closedType (n' + 1) m b) :=
  .bind_eq (h.same (.typeExpr .inner) rfl).discard fun _ => h.same (.behindType m b) rfl

theorem sim_behindType {m : Mode} {b : Bool} (h : Calls d (16 * (k + 1) + 3) n n') :
    Sim d (k + 1) Eq (behindType (n + 1) m b) (behindType (n' + 1) m b) := by
  refine .orElse (.bind_eq (.require (by simp)) fun _ => .ite (by simp) ?_ ?_) ?_
  · exact h.same (.typedLiteral m) rfl
  · exact h.same (.headerLiteral m) rfl
  · exact .bind_eq (h.same .applied rfl) fun _ => h.same (.postfixes m .value) rfl

theorem getLast_isBracket {ts : List Token} :
    (ts.map d.token).getLast?.any (·.is "]") = ts.getLast?.any (·.is "]") := by
  rw [List.getLast?_map, Option.any_map]
  simp

theorem sim_openType {m : Mode} (h : Calls d (16 * (k + 1) + 3) n n') :
    Sim d (k + 1) Eq (openType (n + 1) m) (openType (n' + 1) m) := by
  have ht := (h.same (.typeExpr .inner) rfl).taking (consumes_typeExpr n .inner)
  refine .bind ht.foresee fun a b hab => ?_
  refine .bind_eq (.require ?_) fun _ => ?_
  · cases hab with
    | none => rfl
    | @some x y hxy =>
      obtain ⟨used, type⟩ := x
      obtain ⟨_, type'⟩ := y
      obtain ⟨_, _, rfl, _⟩ := hxy
      exact getLast_isBracket
  refine .bind_eq (h.same (.typeExpr .bare) rfl).discard fun _ => ?_
  exact .bind_eq (h.same .instantiation rfl) fun _ => h.same (.postfixes m .value) rfl

theorem sim_typedLiteral {m : Mode} (h : Calls d (16 * (k + 1) + 1) n n') :
    Sim d (k + 1) Eq (typedLiteral (n + 1) m) (typedLiteral (n' + 1) m) :=
  .step_eq (consumes_literalValue n) (h.same .literalValue rfl) fun _ =>
    h.less (.postfixes m .value)

theorem sim_applied (h : Calls d (16 * (k + 1) + 1) n n') :
    Sim d (k + 1) Eq (applied (n + 1)) (applied (n' + 1)) := by
  refine .peek fun t => .ite (by simp) (Sim.discard (R := Grouped.Moved d Eq) (.group ?_))
    (h.same .instantiation rfl)
  exact .bind_eq (h.less (.expr .inner)) fun _ => .accept ","

theorem sim_instantiation (h : Calls d (16 * (k + 1) + 0) n n') :
    Sim d (k + 1) Eq (instantiation (n + 1)) (instantiation (n' + 1)) := by
  have hl := (h.less (.typeExpr .inner)).commaList "]" (consumes_typeExpr n _) h.lt_left h.lt_right
  refine .bind hl.group fun a b hab => ?_
  rw [eq_map_of_forall₂ hab.content, List.isEmpty_map]
  exact .require (by simp)

theorem sim_postfixes {m : Mode} {s : Shape} (h : Calls d (16 * (k + 1) + 2) n n') :
    Sim d (k + 1) Eq (postfixes (n + 1) m s) (postfixes (n' + 1) m s) := by
  have hv := h.less (.postfixes m .value)
  refine .peek fun t => .look 1 fun u => .look 2 fun v => ?_
  refine .ite (by simp) (.pure rfl) (.ite (by simp) .failure ?_)
  refine .ite (by simp) (.past (.bind_eq Sim.advance.discard fun _ => ?_)) ?_
  · exact h.less (.postfixes m s.selected)
  refine .ite (by simp) (.past (.bind_eq ?_ fun _ => hv)) ?_
  · exact ((h.less (.typeExpr .inner)).group.le (Nat.le_succ k)).discard
  refine .ite (by simp) (.step_eq (consumes_bracketed n) (h.same .bracketed rfl) fun b => ?_) ?_
  · cases s.bracketed? b with
    | some s => exact h.less (.postfixes m s)
    | none => exact .failure
  refine .ite (by simp) (.step_eq (consumes_group _ _).discard ?_ fun _ => hv) ?_
  · exact (h.less (.callOperands (s == .allocator))).group.discard
  refine .ite (by simp) (.ite (by simp) ?_ (.ite (by simp) (.pure rfl) ?_)) (.require (by simp))
  · exact .step_eq (consumes_literalValue n) (h.same .literalValue rfl) fun _ => hv
  · exact (h.same (.headerLiteral m) rfl).orElse (.require (by simp))

theorem sim_headerLiteral {m : Mode} (h : Calls d (16 * (k + 1) + 1) n n') :
    Sim d (k + 1) Eq (headerLiteral (n + 1) m) (headerLiteral (n' + 1) m) := by
  refine .step_eq (consumes_literalValue n) (h.same .literalValue rfl) fun _ => .peek fun t => ?_
  exact .bind_eq (.require (by simp)) fun _ => h.less (.postfixes m .value)

theorem sim_bracketed (h : Calls d (16 * (k + 1) + 1) n n') :
    Sim d (k + 1) Eq (bracketed (n + 1)) (bracketed (n' + 1)) := by
  refine .bind ((h.same .typeArgs rfl).twice (h.less .index).group) ?_
  rintro ⟨types, value⟩ ⟨types', value'⟩ ⟨ht, hv⟩
  obtain rfl : types = types' := by
    cases ht with
    | none => rfl
    | some h => exact congrArg some h
  cases hv with
  | none => exact .pure rfl
  | some _ => exact .pure rfl

theorem sim_index (h : Calls d (16 * (k + 1) + 10) n n') :
    Sim d (k + 1) Eq (index (n + 1)) (index (n' + 1)) := by
  refine .peek fun t => .bind_eq (.onlyIf (by simp) (h.same (.expr .inner) rfl)) fun _ => ?_
  exact .bind_eq (.accept ":") fun sliced => .onlyIf (by simp) (h.same .upperBounds rfl)

theorem sim_upperBounds (h : Calls d (16 * (k + 1) + 9) n n') :
    Sim d (k + 1) Eq (upperBounds (n + 1)) (upperBounds (n' + 1)) := by
  have hv := h.same (.expr .inner) rfl
  refine .peek fun t => .ite (by simp) (.pure rfl) (.bind_eq hv fun _ => ?_)
  exact .bind_eq (.accept ":") fun capped => .onlyIf (by simp) hv

theorem sim_callOperands {a : Bool} (h : Calls d (16 * (k + 1) + 10) n n') :
    Sim d (k + 1) Eq (callOperands (n + 1) a) (callOperands (n' + 1) a) := by
  have hl := h.left
  have hr := h.right
  refine .ite (by simp) (h.same .allocation rfl) ?_
  exact ((h.same .argument rfl).commaList ")" (consumes_argument n) (by omega)
    (by omega)).discard

theorem sim_allocation (h : Calls d (16 * (k + 1) + 9) n n') :
    Sim d (k + 1) Eq (allocation (n + 1)) (allocation (n' + 1)) := by
  have hl := h.left
  have hr := h.right
  refine .peek fun t => .ite (by simp) (.pure rfl) ?_
  refine .bind_eq (h.same (.typeExpr .inner) rfl).discard fun _ => ?_
  refine .bind_eq (.accept ",") fun sized => .onlyIf (by simp) ?_
  exact ((h.same (.expr .inner) rfl).commaList ")" (consumes_expr n _) (by omega)
    (by omega)).discard

theorem sim_argument (h : Calls d (16 * (k + 1) + 9) n n') :
    Sim d (k + 1) Eq (argument (n + 1)) (argument (n' + 1)) := by
  refine .bind_eq (h.same (.expr .inner) rfl) fun _ => ?_
  exact .bind_eq (Sim.accept "...").discard fun _ => .peek fun t => .require (by simp)

theorem sim_literalValue (h : Calls d (16 * (k + 1) + 0) n n') :
    Sim d (k + 1) Eq (literalValue (n + 1)) (literalValue (n' + 1)) :=
  (h.less .literalElements).group.discard

theorem sim_literalElements (h : Calls d (16 * (k + 1) + 11) n n') :
    Sim d (k + 1) Eq (literalElements (n + 1)) (literalElements (n' + 1)) := by
  have hl := h.left
  have hr := h.right
  refine .bind_eq (.accept ",") fun empty => .onlyIf (by simp) ?_
  exact ((h.same .keyedElement rfl).commaList rbrace (consumes_keyedElement n) (by omega)
    (by omega)).discard

theorem sim_keyedElement (h : Calls d (16 * (k + 1) + 10) n n') :
    Sim d (k + 1) Eq (keyedElement (n + 1)) (keyedElement (n' + 1)) := by
  have he := h.same .literalElement rfl
  exact .bind_eq he fun _ => .bind_eq (.accept ":") fun keyed => .onlyIf (by simp) he

theorem sim_literalElement (h : Calls d (16 * (k + 1) + 9) n n') :
    Sim d (k + 1) Eq (literalElement (n + 1)) (literalElement (n' + 1)) :=
  .peek fun _ => .ite (by simp) (h.same .literalValue rfl) (h.same (.expr .inner) rfl)

end GoOutline.Syntax.Grammar
