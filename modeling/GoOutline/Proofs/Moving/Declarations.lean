import Mathlib.Data.List.Forall2
import GoOutline.Proofs.Moving.Types

/-!
Declarations further on in a text.
-/

namespace GoOutline.Syntax.Grammar

open Syntax.Parser

variable {d : Motion} {k n n' : Nat}

theorem sim_typeParams (h : Calls d (16 * (k + 1) + 0) n n') :
    Sim d (k + 1) Eq (typeParams (n + 1)) (typeParams (n' + 1)) := by
  have hl := (h.less .typeParam).commaList "]" (consumes_typeParam n) h.lt_left h.lt_right
  refine .bind hl.group fun a b hab => ?_
  have he : List.Forall₂ Eq a.content b.content := hab.content
  rw [List.forall₂_eq_eq_eq] at he
  rw [he]
  exact .require (by simp)

theorem sim_typeParam (h : Calls d (16 * (k + 1) + 0) n n') :
    Sim d (k + 1) Eq (typeParam (n + 1)) (typeParam (n' + 1)) := by
  refine .step_eq consumes_name.discard Sim.name.discard fun _ => .peek fun t => ?_
  refine .ite (by simp) (.pure rfl) ?_
  exact .bind_eq (h.less (.unionType .inner)).discard fun _ => .pure rfl

theorem sim_typeBody (h : Calls d (16 * (k + 1) + 3) n n') :
    Sim d (k + 1) (Maps d.body) (typeBody (n + 1)) (typeBody (n' + 1)) := by
  refine .peek fun t => .ite (by simp) ?_ (.ite (by simp) ?_ ?_)
  · refine .bind ((h.same .structBody rfl).placed (consumes_structBody n)) ?_
    rintro ⟨e, b⟩ ⟨_, _⟩ ⟨rfl, hb⟩
    cases hb
    exact .pure rfl
  · refine .bind ((h.same .interfaceBody rfl).placed (consumes_interfaceBody n)) ?_
    rintro ⟨e, b⟩ ⟨_, _⟩ ⟨rfl, hb⟩
    cases hb
    exact .pure rfl
  · exact .bind_maps (h.same (.typeExpr .line) rfl) fun type => .pure rfl

theorem sim_typeRight (h : Calls d (16 * (k + 1) + 4) n n') :
    Sim d (k + 1) (Maps (Option.map d.body)) (typeRight (n + 1)) (typeRight (n' + 1)) := by
  refine .bind_eq (.accept "=") fun same => .ite (by simp) ?_ ?_
  · exact .bind_eq (h.same (.typeExpr .line) rfl).discard fun _ => .pure rfl
  · exact .bind_maps (h.same .typeBody rfl) fun b => .pure rfl

theorem sim_typeEntry (h : Calls d (16 * (k + 1) + 0) n n') :
    Sim d (k + 1) (Maps d.typeEntry) (typeEntry (n + 1)) (typeEntry (n' + 1)) := by
  refine .bind (.placed (R := Maps (Prod.map id (Option.map d.body))) (consumes_name.bind _) ?_) ?_
  · refine .step_name fun t ht => .bind_maps (h.less .typeBehind) fun b => ?_
    rw [ht]
    exact .pure rfl
  · rintro ⟨e, name, b⟩ ⟨_, _, _⟩ ⟨rfl, hb⟩
    cases hb
    refine .pure ?_
    cases b <;> rfl

theorem sim_typeBehind (h : Calls d (16 * (k + 1) + 5) n n') :
    Sim d (k + 1) (Maps (Option.map d.body)) (typeBehind (n + 1)) (typeBehind (n' + 1)) := by
  have hr := h.same .typeRight rfl
  refine .peek fun t => .look 1 fun u => .look 2 fun v => .ite (by simp) (.orElse ?_ ?_) hr
  · exact .bind_eq (.require (by simp)) fun _ => hr
  · refine .bind_eq (.bind_eq (.require (by simp)) fun _ => h.same .typeParams rfl) fun _ => hr

theorem sim_typeDecl (h : Calls d (16 * (k + 1) + 0) n n') :
    Sim d (k + 1) (Maps d.typeDecl) (typeDecl (n + 1)) (typeDecl (n' + 1)) := by
  refine .behind "type" (.peek fun t => .ite (by simp) ?_ ?_)
  · have hl := (h.less .typeEntry).memberList ")" (consumes_typeEntry n) h.lt_left h.lt_right
    refine .bind (hl.group.le (Nat.le_succ k)) fun a b hab => .pure ?_
    rw [hab.content, hab.opening, d.commentSiblings_token d.typeEntry]
    show _ = d.typeDecl _
    rw [Motion.typeDecl, List.map_append]
  · exact .bind_maps (h.less .typeEntry) fun e => .pure rfl

theorem sim_valueDecl (h : Calls d (16 * (k + 1) + 0) n n') :
    Sim d (k + 1) Eq (valueDecl (n + 1)) (valueDecl (n' + 1)) := by
  refine .step_maps consumes_advance .advance fun keyword => ?_
  refine .bind_eq (.require (by simp)) fun _ => ?_
  rw [Motion.is_token]
  refine .peek fun t => .ite (by simp) ?_ (h.less (.valueSpec (keyword.is "const")))
  have hs := (h.less (.valueSpecs (keyword.is "const"))).group (b := .round)
  refine .bind (hs.le (Nat.le_succ k)) fun a b hab => .peek fun u => ?_
  rw [← hab.content, hab.closing, hab.judged.isCheap]
  exact .require (by simp)

theorem sim_valueSpecs {c : Bool} (h : Calls d (16 * (k + 1) + 2) n n') :
    Sim d (k + 1) Eq (valueSpecs c (n + 1)) (valueSpecs c (n' + 1)) := by
  have hr := h.less (.valueSpecs c)
  refine .peek fun t => .ite (by simp) (.pure rfl) ?_
  refine .step (consumes_valueSpec c n).placed
    ((h.same (.valueSpec c) rfl).weighed (consumes_valueSpec c n)) ?_
  rintro ⟨e, _⟩ ⟨_, _⟩ ⟨hj, rfl, _⟩
  refine .peek fun u => .ite (by simp) hr (.ite (by simp) ?_ (.ite (by simp) ?_ ?_))
  · exact .bind_eq Sim.advance.discard fun _ => hr
  · exact .bind_eq (.require (decide_eq_decide.2 hj)) fun _ => .pure rfl
  · exact .bind_eq (.forgiven hj) fun skipped => .bind_eq (.require (by simp)) fun _ => hr

theorem sim_valueSpec {c : Bool} (h : Calls d (16 * (k + 1) + 1) n n') :
    Sim d (k + 1) Eq (valueSpec c (n + 1)) (valueSpec c (n' + 1)) :=
  .ite (by simp) (h.same .constSpec rfl) (h.same .varSpec rfl)

/-- The values behind an equals sign. -/
theorem sim_values (h : Calls d (16 * (k + 1) + 0) n n') :
    Sim d k Eq (discard (commaSep true (expr n .statement) n))
      (discard (commaSep true (expr n' .statement) n')) :=
  ((h.less (.expr .statement)).commaSep true (consumes_expr n _) h.lt_left h.lt_right).discard

theorem sim_names {lines : Bool} (h : Calls d (16 * (k + 1) + 0) n n') :
    Sim d (k + 1) Eq (discard (commaSep lines name n)) (discard (commaSep lines name n')) := by
  have hl := h.left
  have hr := h.right
  exact (Sim.name.commaSep lines consumes_name (by omega) (by omega)).discard

theorem sim_constSpec (h : Calls d (16 * (k + 1) + 0) n n') :
    Sim d (k + 1) Eq (constSpec (n + 1)) (constSpec (n' + 1)) := by
  have hv := sim_values h
  refine .step_eq (consumes_name.commaSep n).discard (sim_names h) fun _ => .peek fun t => ?_
  refine .ite (by simp) (.pure rfl) (.ite (by simp) ?_ (.ite (by simp) ?_ (.pure rfl)))
  · exact .bind_eq Sim.advance.discard fun _ => hv
  refine .bind_eq (h.less (.typeExpr .inner)).discard fun _ => ?_
  exact .bind_eq (Sim.expect "=").discard fun _ => hv

theorem sim_varSpec (h : Calls d (16 * (k + 1) + 0) n n') :
    Sim d (k + 1) Eq (varSpec (n + 1)) (varSpec (n' + 1)) := by
  have hv := sim_values h
  refine .step_eq (consumes_name.commaSep n).discard (sim_names h) fun _ => ?_
  refine .bind_eq (.accept "=") fun untyped => .ite (by simp) hv ?_
  refine .bind_eq (h.less (.typeExpr .line)).discard fun _ => .peek fun t => ?_
  refine .ite (by simp) ?_ (.pure rfl)
  exact .bind_eq Sim.advance.discard fun _ => hv

theorem sim_funcDecl (h : Calls d (16 * (k + 1) + 0) n n') :
    Sim d (k + 1) (Maps d.func) (funcDecl (n + 1)) (funcDecl (n' + 1)) := by
  refine .behind "func" (.bind_maps (h.less .receiver) fun r => .bind_name fun name hname => ?_)
  rw [Option.isNone_map, hname]
  refine .bind_eq (h.less (.funcTypeParams r.isNone)) fun _ => ?_
  refine .bind_maps (h.less .paramList) fun params => ?_
  refine .bind_maps (h.less (.resultList .line)) fun results => ?_
  exact .bind_maps (h.less .body) fun braces => .pure rfl

theorem sim_receiver (h : Calls d (16 * (k + 1) + 1) n n') :
    Sim d (k + 1) (Maps (Option.map d.paramList)) (receiver (n + 1)) (receiver (n' + 1)) :=
  .peek fun _ =>
    .ite (by simp) ((h.same .paramList rfl).map fun _ _ hab => congrArg some hab) (.pure rfl)

theorem sim_funcTypeParams {a : Bool} (h : Calls d (16 * (k + 1) + 1) n n') :
    Sim d (k + 1) Eq (funcTypeParams (n + 1) a) (funcTypeParams (n' + 1) a) :=
  .peek fun _ =>
    .ite (by simp) (.bind_eq (.require (by simp)) fun _ => h.same .typeParams rfl) (.pure rfl)

theorem sim_body (h : Calls d (16 * (k + 1) + 1) n n') :
    Sim d (k + 1) (Maps (Option.map d.delimiters)) (body (n + 1)) (body (n' + 1)) :=
  .peek fun _ =>
    .ite (by simp) ((h.same .block rfl).map fun _ _ hab => congrArg some hab) (.pure rfl)

theorem sim_block (h : Calls d (16 * (k + 1) + 0) n n') :
    Sim d (k + 1) (Maps d.delimiters) (block (n + 1)) (block (n' + 1)) :=
  .bind (h.less .statements).group fun _ _ hab => .pure hab.delimiters

end GoOutline.Syntax.Grammar
