import GoOutline.Proofs.Rules

/-!
Statements further on in a text.
-/

namespace GoOutline.Syntax.Grammar

open Syntax.Parser

variable {d : Motion} {k n n' : Nat}

theorem sim_statements (h : Calls d (16 * (k + 1) + 12) n n') :
    Sim d (k + 1) Eq (statements (n + 1)) (statements (n' + 1)) := by
  refine .peek fun t => .look 1 fun u => .look 2 fun v => ?_
  refine .ite (by simp) (.pure rfl) (.ite (by simp) ?_ ?_)
  · exact .past Sim.advance.discard
  · refine .step_eq (consumes_statement n) (h.same .statement rfl) fun _ => .peek fun w => ?_
    refine .ite (by simp) (.pure rfl) (.ite (by simp) (h.less .statements) ?_)
    refine .bind_eq (.require (by simp)) fun _ => ?_
    exact .bind_eq Sim.advance.discard fun _ => h.less .statements

theorem sim_statement (h : Calls d (16 * (k + 1) + 11) n n') :
    Sim d (k + 1) Eq (statement (n + 1)) (statement (n' + 1)) := by
  refine .peek fun t => .look 1 fun u => .ite (by simp) (h.same .valueDecl rfl) ?_
  refine .ite (by simp) (h.same .typeDecl rfl).discard ?_
  refine .ite (by simp) (.past (.peek fun v => .ite (by simp) (.pure rfl) ?_)) ?_
  · exact ((h.less (.expr .statement)).commaSep true (consumes_expr n _) h.lt_left
      h.lt_right).discard
  refine .ite (by simp) (.past (h.less (.expr .statement))) ?_
  refine .ite (by simp) (h.same .ifStatement rfl) ?_
  refine .ite (by simp) (h.same .forStatement rfl) ?_
  refine .ite (by simp) (h.same .switchStatement rfl) ?_
  refine .ite (by simp) (.past ((h.less (.clauses .channels)).group.le (Nat.le_succ k)).discard) ?_
  refine .ite (by simp) (.past (.peek fun v => .ite (by simp) Sim.advance.discard (.pure rfl))) ?_
  refine .ite (by simp) (.past Sim.name.discard) ?_
  refine .ite (by simp) Sim.advance.discard ?_
  refine .ite (by simp) (h.same .block rfl).discard ?_
  refine .ite (by simp) (.past (.bind_eq Sim.advance.discard fun _ => h.less .statement)) ?_
  exact (h.same (.simple .statement .statement) rfl).discard

theorem sim_simple {m r : Mode} (h : Calls d (16 * (k + 1) + 10) n n') :
    Sim d (k + 1) Eq (simple (n + 1) m r) (simple (n' + 1) m r) := by
  refine .step_eq (consumes_expr n m.first) (h.same (.expr m.first) rfl) fun _ => ?_
  refine .bind_eq (h.less (.others m.lines)) fun several => .peek fun t => ?_
  refine .ite (by simp) (.pure rfl) (.ite (by simp) ?_ (.ite (by simp) ?_ (.ite (by simp) ?_ ?_)))
  · exact .bind_eq Sim.advance.discard fun _ => .bind_eq (.require (by simp)) fun _ => .pure rfl
  · refine .bind_eq Sim.advance.discard fun _ => .bind_eq (.require (by simp)) fun _ => ?_
    exact .bind_eq (h.less (.expr r)) fun _ => .pure rfl
  · have hr := (h.less (.expr r)).commaSep m.lines (consumes_expr n r) h.lt_left h.lt_right
    exact .bind_eq Sim.advance.discard fun _ => .bind_eq hr.discard fun _ => .pure rfl
  · exact .bind_eq (.require (by simp)) fun _ => .pure rfl

theorem sim_others {l : Bool} (h : Calls d (16 * (k + 1) + 9) n n') :
    Sim d (k + 1) Eq (others (n + 1) l) (others (n' + 1) l) := by
  have hl := h.left
  have hr := h.right
  refine .bind_eq (.acceptComma l) fun several => .bind_eq (.onlyIf (by simp) ?_) fun _ => .pure rfl
  exact ((h.same (.expr .inner) rfl).commaSep false (consumes_expr n _) (by omega)
    (by omega)).discard

theorem sim_ifStatement (h : Calls d (16 * (k + 1) + 0) n n') :
    Sim d (k + 1) Eq (ifStatement (n + 1)) (ifStatement (n' + 1)) := by
  refine .behind "if" (.bind_eq (h.less .ifHeader) fun _ => ?_)
  exact .bind_eq (h.less .block).discard fun _ => h.less .elseBranch

theorem sim_ifHeader (h : Calls d (16 * (k + 1) + 11) n n') :
    Sim d (k + 1) Eq (ifHeader (n + 1)) (ifHeader (n' + 1)) := by
  refine .bind_eq (h.same (.simple .header .inner) rfl) fun condition => ?_
  refine .bind_eq (.accept ";") fun more => ?_
  exact .ite (by simp) (h.same (.expr .header) rfl) (.require (by simp))

theorem sim_elseBranch (h : Calls d (16 * (k + 1) + 0) n n') :
    Sim d (k + 1) Eq (elseBranch (n + 1)) (elseBranch (n' + 1)) := by
  refine .peek fun t => .ite (by simp) (.past (.peek fun u => ?_)) (.pure rfl)
  exact .ite (by simp) (h.less .ifStatement) (h.less .block).discard

theorem sim_forStatement (h : Calls d (16 * (k + 1) + 0) n n') :
    Sim d (k + 1) Eq (forStatement (n + 1)) (forStatement (n' + 1)) :=
  .behind "for" (.bind_eq (h.less .forHeader) fun _ => (h.less .block).discard)

theorem sim_forHeader (h : Calls d (16 * (k + 1) + 13) n n') :
    Sim d (k + 1) Eq (forHeader (n + 1)) (forHeader (n' + 1)) :=
  .peek fun _ =>
    .ite (by simp) (.pure rfl) ((h.same .rangeClause rfl).orElse (h.same .forClause rfl))

theorem sim_rangeClause (h : Calls d (16 * (k + 1) + 10) n n') :
    Sim d (k + 1) Eq (rangeClause (n + 1)) (rangeClause (n' + 1)) := by
  have hv := h.same (.expr .header) rfl
  refine .bind_eq (.accept "range") fun bare => .ite (by simp) hv ?_
  refine .bind_eq (h.same (.expr Mode.header.first) rfl) fun _ => ?_
  refine .bind_eq (h.same (.others false) rfl).discard fun _ => ?_
  refine .bind_maps .advance fun t => .bind_eq (.require (by simp)) fun _ => ?_
  exact .bind_eq (Sim.expect "range").discard fun _ => hv

theorem sim_forClause (h : Calls d (16 * (k + 1) + 12) n n') :
    Sim d (k + 1) Eq (forClause (n + 1)) (forClause (n' + 1)) := by
  refine .bind_eq (h.same .forStart rfl) fun condition => ?_
  refine .bind_eq (.accept ";") fun more => .ite (by simp) (.peek fun u => ?_) (.require (by simp))
  refine .bind_eq (.onlyIf (by simp) (h.same (.expr .inner) rfl)) fun _ => ?_
  refine .bind_eq (Sim.expect ";").discard fun _ => .peek fun v => ?_
  exact .onlyIf (by simp) (h.same (.simple .header .header) rfl).discard

theorem sim_forStart (h : Calls d (16 * (k + 1) + 11) n n') :
    Sim d (k + 1) Eq (forStart (n + 1)) (forStart (n' + 1)) :=
  .peek fun _ => .ite (by simp) (.pure rfl) (h.same (.simple .header .inner) rfl)

theorem sim_switchStatement (h : Calls d (16 * (k + 1) + 0) n n') :
    Sim d (k + 1) Eq (switchStatement (n + 1)) (switchStatement (n' + 1)) := by
  refine .behind "switch" (.bind_eq (h.less .switchHeader) fun cases => ?_)
  exact ((h.less (.clauses cases)).group.le (Nat.le_succ k)).discard

theorem sim_switchHeader (h : Calls d (16 * (k + 1) + 14) n n') :
    Sim d (k + 1) Eq (switchHeader (n + 1)) (switchHeader (n' + 1)) := by
  refine .peek fun t => .ite (by simp) (.pure rfl) (.orElse ?_ (h.same .switchValue rfl))
  exact .bind_eq (h.same (.typeGuard Mode.header.first) rfl) fun _ => .pure rfl

theorem sim_switchValue (h : Calls d (16 * (k + 1) + 13) n n') :
    Sim d (k + 1) Eq (switchValue (n + 1)) (switchValue (n' + 1)) := by
  refine .bind_eq (h.same (.simple .header .inner) rfl) fun value => ?_
  refine .bind_eq (.accept ";") fun more => .ite (by simp) (h.same .switchTag rfl) ?_
  exact .bind_eq (.require (by simp)) fun _ => .pure rfl

theorem sim_switchTag (h : Calls d (16 * (k + 1) + 12) n n') :
    Sim d (k + 1) Eq (switchTag (n + 1)) (switchTag (n' + 1)) := by
  refine .peek fun t => .ite (by simp) (.pure rfl) (.orElse ?_ ?_)
  · exact .bind_eq (h.same (.typeGuard .header) rfl) fun _ => .pure rfl
  · exact .bind_eq (h.same (.expr .header) rfl) fun _ => .pure rfl

theorem sim_typeGuard {m : Mode} (h : Calls d (16 * (k + 1) + 11) n n') :
    Sim d (k + 1) Eq (typeGuard (n + 1) m) (typeGuard (n' + 1) m) := by
  refine .bind (h.same (.guardNames m) rfl).attempt fun a b hab => ?_
  rw [isSome_of_rel hab]
  have ho := h.same (.operand (if a.isSome then .inner else .header)) rfl
  refine .bind_eq ho fun _ => .behind "." ?_
  exact ((Sim.expect "type").group.le (Nat.le_succ k)).discard

theorem sim_guardNames {m : Mode} (h : Calls d (16 * (k + 1) + 10) n n') :
    Sim d (k + 1) Eq (guardNames (n + 1) m) (guardNames (n' + 1) m) := by
  refine .bind_eq (h.same (.expr m) rfl) fun _ => ?_
  exact .bind_eq (h.same (.others false) rfl).discard fun _ => (Sim.expect ":=").discard

theorem sim_clauses {c : Cases} (h : Calls d (16 * (k + 1) + 12) n n') :
    Sim d (k + 1) Eq (clauses (n + 1) c) (clauses (n' + 1) c) := by
  refine .peek fun t => .ite (by simp) (.pure rfl) ?_
  refine .bind_eq (h.same (.clauseHead c) rfl) fun _ => ?_
  exact .behind ":" (.bind_eq (h.less .statements) fun _ => h.less (.clauses c))

theorem sim_clauseHead {c : Cases} (h : Calls d (16 * (k + 1) + 11) n n') :
    Sim d (k + 1) Eq (clauseHead (n + 1) c) (clauseHead (n' + 1) c) := by
  have hl := h.left
  have hr := h.right
  refine .bind_eq (.accept "case") fun listed => .ite (by simp) ?_ (Sim.expect "default").discard
  cases c with
  | types =>
    exact ((h.same (.typeExpr .inner) rfl).commaSep false (consumes_typeExpr n _) (by omega)
      (by omega)).discard
  | values =>
    exact ((h.same (.expr .inner) rfl).commaSep false (consumes_expr n _) (by omega)
      (by omega)).discard
  | channels => exact h.same .communication rfl

theorem sim_communication (h : Calls d (16 * (k + 1) + 10) n n') :
    Sim d (k + 1) Eq (communication (n + 1)) (communication (n' + 1)) := by
  have hv := h.same (.expr .inner) rfl
  refine .bind_eq (h.same (.expr .channel) rfl) fun _ => ?_
  refine .bind_eq (h.same (.others false) rfl) fun several => .peek fun t => .ite (by simp) ?_ ?_
  · exact .bind_eq Sim.advance.discard fun _ => hv
  · refine .bind_eq (.require (by simp)) fun _ => ?_
    exact .bind_eq (.accept "<-") fun sent => .onlyIf (by simp) hv

end GoOutline.Syntax.Grammar
