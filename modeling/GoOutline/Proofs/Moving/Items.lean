import GoOutline.Proofs.Moving.Declarations
import GoOutline.Proofs.Moving.Expressions
import GoOutline.Proofs.Moving.Statements

/-!
Whole lists of items further on in a text.
-/

namespace GoOutline.Syntax.Grammar

open Syntax.Parser

variable {d : Motion} {k n n' : Nat}

/-- A rule reads the same in moved tokens, and at any bound that covers them. -/
theorem sim_rule {α : Type} (r : Rule α) (hn : 16 * k + r.rank < n) (hn' : 16 * k + r.rank < n') :
    Sim d k (r.Moves d) (r.parser n) (r.parser n') := by
  induction hb : 16 * k + r.rank using Nat.strongRecOn generalizing α k n n' with
  | _ b ih =>
    cases k with
    | zero => exact .zero
    | succ k =>
      obtain ⟨n, rfl⟩ := Nat.exists_eq_succ_of_ne_zero (Nat.ne_zero_of_lt hn)
      obtain ⟨n', rfl⟩ := Nat.exists_eq_succ_of_ne_zero (Nat.ne_zero_of_lt hn')
      have hc : Calls d (16 * (k + 1) + r.rank) n n' := by
        refine ⟨Nat.le_of_lt_succ hn, Nat.le_of_lt_succ hn', fun r' j hj => ?_⟩
        exact ih _ (hb ▸ hj) r' (by omega) (by omega) rfl
      cases r with
      | typeExpr _ => exact sim_typeExpr hc
      | typeForm _ => exact sim_typeForm hc
      | arrayLength => exact sim_arrayLength hc
      | namedType _ => exact sim_namedType hc
      | typeArgs => exact sim_typeArgs hc
      | unionType _ => exact sim_unionType hc
      | paramList => exact sim_paramList hc
      | paramEntries => exact sim_paramEntries hc
      | paramEntry => exact sim_paramEntry hc
      | unnamedEntry => exact sim_unnamedEntry hc
      | namedEntry => exact sim_namedEntry hc
      | resultList _ => exact sim_resultList hc
      | structBody => exact sim_structBody hc
      | fieldDecl => exact sim_fieldDecl hc
      | fieldHead => exact sim_fieldHead hc
      | embeddedField => exact sim_embeddedField hc
      | namedFields => exact sim_namedFields hc
      | interfaceBody => exact sim_interfaceBody hc
      | interfaceElem => exact sim_interfaceElem hc
      | typeParams => exact sim_typeParams hc
      | typeParam => exact sim_typeParam hc
      | typeBody => exact sim_typeBody hc
      | typeRight => exact sim_typeRight hc
      | typeEntry => exact sim_typeEntry hc
      | typeBehind => exact sim_typeBehind hc
      | typeDecl => exact sim_typeDecl hc
      | valueDecl => exact sim_valueDecl hc
      | valueSpecs _ => exact sim_valueSpecs hc
      | valueSpec _ => exact sim_valueSpec hc
      | constSpec => exact sim_constSpec hc
      | varSpec => exact sim_varSpec hc
      | funcDecl => exact sim_funcDecl hc
      | receiver => exact sim_receiver hc
      | funcTypeParams _ => exact sim_funcTypeParams hc
      | body => exact sim_body hc
      | block => exact sim_block hc
      | statements => exact sim_statements hc
      | statement => exact sim_statement hc
      | simple _ _ => exact sim_simple hc
      | others _ => exact sim_others hc
      | ifStatement => exact sim_ifStatement hc
      | ifHeader => exact sim_ifHeader hc
      | elseBranch => exact sim_elseBranch hc
      | forStatement => exact sim_forStatement hc
      | forHeader => exact sim_forHeader hc
      | rangeClause => exact sim_rangeClause hc
      | forClause => exact sim_forClause hc
      | forStart => exact sim_forStart hc
      | switchStatement => exact sim_switchStatement hc
      | switchHeader => exact sim_switchHeader hc
      | switchValue => exact sim_switchValue hc
      | switchTag => exact sim_switchTag hc
      | typeGuard _ => exact sim_typeGuard hc
      | guardNames _ => exact sim_guardNames hc
      | clauses _ => exact sim_clauses hc
      | clauseHead _ => exact sim_clauseHead hc
      | communication => exact sim_communication hc
      | expr _ => exact sim_expr hc
      | unary _ => exact sim_unary hc
      | operand _ => exact sim_operand hc
      | parenthesized => exact sim_parenthesized hc
      | funcLiteral => exact sim_funcLiteral hc
      | arrayLiteral _ => exact sim_arrayLiteral hc
      | typeOperand _ _ => exact sim_typeOperand hc
      | closedType _ _ => exact sim_closedType hc
      | behindType _ _ => exact sim_behindType hc
      | openType _ => exact sim_openType hc
      | typedLiteral _ => exact sim_typedLiteral hc
      | applied => exact sim_applied hc
      | instantiation => exact sim_instantiation hc
      | postfixes _ _ => exact sim_postfixes hc
      | headerLiteral _ => exact sim_headerLiteral hc
      | bracketed => exact sim_bracketed hc
      | index => exact sim_index hc
      | upperBounds => exact sim_upperBounds hc
      | callOperands _ => exact sim_callOperands hc
      | allocation => exact sim_allocation hc
      | argument => exact sim_argument hc
      | literalValue => exact sim_literalValue hc
      | literalElements => exact sim_literalElements hc
      | keyedElement => exact sim_keyedElement hc
      | literalElement => exact sim_literalElement hc

theorem sim_importName :
    Sim d k (fun t u => u.map (·.text) = t.map (·.text)) importName importName := by
  have hs : Sim d k (Maps (Option.map d.token)) importName importName :=
    .peek fun _ => .ite (by simp) (Sim.advance.map fun _ _ h => congrArg some h) (.pure rfl)
  refine (hs.knowing (P := fun t => ∀ u ∈ t, u.kind ≠ .string) fun ts a rest h => ?_).imp ?_
  · obtain ⟨t, _, hp, h⟩ := bind_eq_some.1 h
    obtain ⟨rfl, rfl⟩ := peek_eq_some.1 hp
    split at h
    next hc =>
      obtain ⟨u, hu, rfl⟩ := map_eq_some.1 h
      obtain ⟨rfl, _⟩ := advance_eq_some.1 hu
      have hc : u.kind = .name ∨ u.is "." := by simpa [lookAt] using hc
      rintro _ ⟨⟩ hk
      rcases hc with hc | hc
      · cases hc.symm.trans hk
      · cases (Token.kind_of_is hc).symm.trans hk
    next =>
      obtain ⟨rfl, _⟩ := pure_eq_some.1 h
      simp
  · rintro (_ | t) _ ⟨ht, rfl⟩
    · rfl
    · exact congrArg some (Motion.text_token (ht t rfl))

theorem sim_importPath :
    Sim d k (fun t u => u.text = d.literal t.text) (ofKind .string) (ofKind .string) :=
  ((Sim.ofKind .string).knowing fun _ _ _ h => (ofKind_eq_some.1 h).2.1).imp fun t u h => by
    obtain ⟨hk, rfl⟩ := h
    exact Motion.text_token_of_string hk

theorem sim_importSpec : Sim d k (Maps d.importSpec) importSpec importSpec := by
  refine .bind (.placed (R := fun x y => y.1.map (·.text) = x.1.map (·.text) ∧
    y.2.text = d.literal x.2.text) (.behind _ fun _ => (consumes_ofKind _).bind _) ?_) ?_
  · exact .bind sim_importName fun _ _ hn => .bind sim_importPath fun _ _ hp => .pure ⟨hn, hp⟩
  · rintro ⟨e, name, path⟩ ⟨_, name', path'⟩ ⟨rfl, hn, hp⟩
    refine .pure ?_
    rw [Maps, hn, hp]
    rfl

theorem sim_importDecl (hn : k < n) (hn' : k < n') :
    Sim d k (Maps d.importDecl) (importDecl n) (importDecl n') := by
  cases k with
  | zero => exact .zero
  | succ k =>
    refine .bind_maps (.expect "import") fun keyword => .peek fun t => .ite (by simp) ?_ ?_
    · have hs : Sim d k (Maps d.importSpec) importSpec importSpec := sim_importSpec
      have hl := hs.memberList ")" consumes_importSpec (Nat.lt_of_succ_lt hn)
        (Nat.lt_of_succ_lt hn')
      refine .bind hl.group fun a b hab => .pure ?_
      rw [hab.delimiters, hab.content, d.members_sibling]
      rfl
    · exact .bind_maps sim_importSpec fun spec => .pure rfl

theorem sim_packageClause :
    Sim d k (fun t u => u = d.token t ∧ u.text = t.text) packageClause packageClause :=
  .bind_eq (Sim.expect "package").discard fun _ => .name

theorem sim_itemKind (hn : 16 * k + 15 < n) (hn' : 16 * k + 15 < n') :
    Sim d k (Maps d.kind) (itemKind n) (itemKind n') := by
  have call {α : Type} (r : Rule α) : Sim d k (r.Moves d) (r.parser n) (r.parser n') :=
    sim_rule r (by have := r.rank_lt; omega) (by have := r.rank_lt; omega)
  have hs : Sim d k (Maps d.kind) (statement n *> pure .statement)
      (statement n' *> pure .statement) :=
    .bind_eq (call .statement) fun _ => .pure rfl
  refine .peek fun t => .ite (by simp) (.bind sim_packageClause fun name _ hname => .pure ?_) ?_
  · rw [hname.2, hname.1]
    rfl
  refine .ite (by simp) ((sim_importDecl (by omega) (by omega)).map fun _ _ h => congrArg _ h) ?_
  refine .ite (by simp) ((call .typeDecl).map fun _ _ h => congrArg _ h) ?_
  refine .ite (by simp) (.bind_eq (call .valueDecl) fun _ => .pure rfl) (.ite (by simp) ?_ hs)
  refine .bind (R := Option.Rel (Maps d.token)) (Sim.foresee ?_) fun a b hab => .orElse ?_ ?_
  · have hp : Sim d k (Maps d.token) peek peek := (Sim.ahead 0).imp fun _ _ h => h.1
    exact (((Sim.expect "func").seqRight (call .paramList)).seqRight .name).seqRight hp
  · exact (call .funcDecl).map fun _ _ h => congrArg _ h
  · have he : b.any (·.is "(") = a.any (·.is "(") := by
      cases hab with
      | none => rfl
      | some h => rw [Option.any_some, Option.any_some, h, Motion.is_token]
    rw [he]
    exact .bind_eq (.bind_eq (.require (by simp)) fun _ => call .statement) fun _ => .pure rfl

theorem any_token (ts : List Token) {p : Token → Bool} (h : ∀ t, p (d.token t) = p t) :
    (ts.map d.token).any p = ts.any p := by
  simp [Function.comp_def, h]

theorem nestsExpression_token (ts : List Token) :
    nestsExpression (ts.map d.token) = nestsExpression ts := by
  rw [nestsExpression, any_token ts fun t => Motion.isAny_token t _, List.head?_map,
    Option.any_map, Option.any_map, List.length_map]
  simp [nestsExpression]

theorem endsText_kind (i : ItemKind) (ts : List Token) :
    endsText (d.kind i) (ts.map d.token) = endsText i ts := by
  cases i <;> simp only [endsText, Motion.kind, nestsExpression_token]

theorem sim_itemList {j j' : Nat} (hn : 16 * k + 15 < n) (hn' : 16 * k + 15 < n') (hj : k < j)
    (hj' : k < j') :
    Sim d k (Maps (List.map (d.sibling d.item))) (itemList n j) (itemList n' j') := by
  induction j generalizing k j' with
  | zero => exact absurd hj (Nat.not_lt_zero k)
  | succ j ih =>
    obtain ⟨j', rfl⟩ := Nat.exists_eq_succ_of_ne_zero (Nat.ne_zero_of_lt hj')
    cases k with
    | zero => exact .zero
    | succ k =>
      have hr := @ih k j' (by omega) (by omega) (by omega) (by omega)
      refine .peek fun t => .ite (by simp) (.pure (d.commentSiblings_token d.item t)) ?_
      have ht := (sim_itemKind hn hn').taking (consumes_itemKind n) (d := d)
      refine .step (consumes_itemKind n).taking ht ?_
      rintro ⟨used, kind⟩ ⟨_, _⟩ ⟨hu, hj, rfl, rfl⟩
      have item : commentSiblings (d.token t) ++
          [Sibling.member (Item.mk (extentOf (used.map d.token)) (d.kind kind))] =
            (commentSiblings t ++ [Sibling.member (Item.mk (extentOf used) kind)]).map
              (d.sibling d.item) := by
        rw [d.extentOf_token hu, d.commentSiblings_token d.item, List.map_append]
        rfl
      refine .peek fun u => ?_
      refine .ite (by simp) (.bind_maps hr fun items => .pure ?_) (.ite (by simp) ?_ ?_)
      · show _ = List.map _ _
        rw [List.map_append, ← item]
      · refine .bind_eq Sim.advance.discard fun _ => .bind_maps hr fun items => .pure ?_
        show _ = List.map _ _
        rw [List.map_append, List.map_append, ← item, d.commentSiblings_token d.item u]
      · show Sim d k _ (forgiven (extentOf used) >>= _)
          (forgiven (extentOf (used.map d.token)) >>= _)
        rw [d.extentOf_token hu,
          show endsText (Motion.kind d kind) _ = _ from endsText_kind kind used]
        refine .bind_eq (.forgiven hj) fun skipped => .bind_eq (.require (by simp)) fun _ => ?_
        refine .bind_maps hr fun items => .pure ?_
        show _ = List.map _ _
        rw [List.map_append, ← item, d.extentOf_token hu]

end GoOutline.Syntax.Grammar
