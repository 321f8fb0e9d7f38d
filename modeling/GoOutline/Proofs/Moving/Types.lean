import GoOutline.Proofs.Rules

/-!
Types, parameters and members further on in a text.
-/

namespace GoOutline.Syntax.Grammar

open Syntax.Parser

variable {d : Motion} {k n n' : Nat}

theorem builds_other : Builds d .other .other := fun _ => rfl

theorem sim_typeName (p : Place) : Sim d k (Builds d) (typeName p) (typeName p) := by
  refine .bind_name fun first hfirst => .peek fun t => ?_
  rw [hfirst]
  refine .ite (by simp) (.bind_eq Sim.advance.discard fun _ => .bind_name fun second hsecond => ?_)
    (.pure fun _ => rfl)
  rw [hsecond]
  exact .pure fun _ => rfl

theorem sim_typeExpr {p : Place} (h : Calls d (16 * (k + 1) + 2) n n') :
    Sim d (k + 1) (Maps d.type) (typeExpr (n + 1) p) (typeExpr (n' + 1) p) := by
  refine .bind ((h.same (.typeForm p) rfl).placed (consumes_typeForm n p)) ?_
  rintro ⟨e, build⟩ ⟨_, build'⟩ ⟨rfl, hb⟩
  exact .pure (hb e.span)

theorem sim_typeForm {p : Place} (h : Calls d (16 * (k + 1) + 1) n n') :
    Sim d (k + 1) (Builds d) (typeForm (n + 1) p) (typeForm (n' + 1) p) := by
  refine .peek fun t => .ite (by simp) (h.same (.namedType p) rfl) ?_
  refine .ite (by simp) (.past ?_) ?_
  · exact .bind_maps (h.less (.typeExpr p)) fun elem => .pure fun _ => rfl
  refine .ite (by simp) ?_ ?_
  · exact .bind_eq (h.less (.typeExpr .inner)).group.discard fun _ => .pure builds_other
  refine .ite (by simp) ?_ ?_
  · refine .step (consumes_group _ _) (h.less .arrayLength).group fun a b hab => ?_
    refine .bind_maps (h.less (.typeExpr p)) fun elem => .pure ?_
    rw [hab.content]
    cases a.content <;> exact fun _ => rfl
  refine .ite (by simp) (.past ?_) ?_
  · refine .bind ((h.less (.typeExpr .inner)).group.le (Nat.le_succ k)) fun a b hab => ?_
    refine .bind_maps (h.less (.typeExpr p)) fun value => .pure fun _ => ?_
    rw [hab.content]
    rfl
  refine .ite (by simp) (.past (.bind_eq (Sim.accept "<-").discard fun _ => ?_)) ?_
  · exact .bind_eq (h.less (.typeExpr p)).discard fun _ => .pure builds_other
  refine .ite (by simp) (.past (.bind_eq (Sim.expect "chan").discard fun _ => ?_)) ?_
  · exact .bind_eq (h.less (.typeExpr p)).discard fun _ => .pure builds_other
  refine .ite (by simp) (.past ?_) ?_
  · refine .bind_eq (h.less (.typeExpr p)).discard fun _ => .peek fun u => ?_
    refine .ite (by simp) ?_ (.pure builds_other)
    exact .bind_eq (h.less .typeArgs).discard fun _ => .pure builds_other
  refine .ite (by simp) (.past (.bind_maps (h.less .paramList) fun params => ?_)) ?_
  · refine .bind_maps (h.less (.resultList p)) fun results => .pure fun s => ?_
    rw [Motion.type, d.params_eq_map, d.params_eq_map]
    rfl
  refine .ite (by simp) ?_ (.ite (by simp) ?_ .failure)
  · exact .bind_eq (h.same .structBody rfl).discard fun _ => .pure builds_other
  · exact .bind_eq (h.same .interfaceBody rfl).discard fun _ => .pure builds_other

theorem sim_arrayLength (h : Calls d (16 * (k + 1) + 9) n n') :
    Sim d (k + 1) (Maps (Option.map d.span)) (arrayLength (n + 1)) (arrayLength (n' + 1)) := by
  refine .peek fun t => .ite (by simp) (.pure rfl) ?_
  refine .bind ((h.same (.expr .inner) rfl).placed (consumes_expr n .inner)) ?_
  rintro ⟨e, _⟩ ⟨_, _⟩ ⟨rfl, _⟩
  exact .pure rfl

theorem sim_namedType {p : Place} (h : Calls d (16 * (k + 1) + 0) n n') :
    Sim d (k + 1) (Builds d) (namedType (n + 1) p) (namedType (n' + 1) p) := by
  refine .step (consumes_name.bind _) (sim_typeName p) fun a b hab => ?_
  refine .peek fun u => .ite (by simp) ?_ (.pure hab)
  exact .bind_eq (h.less .typeArgs).discard fun _ => .pure builds_other

theorem sim_typeArgs (h : Calls d (16 * (k + 1) + 0) n n') :
    Sim d (k + 1) Eq (typeArgs (n + 1)) (typeArgs (n' + 1)) := by
  have hl := (h.less (.unionType .inner)).commaList "]" (consumes_unionType n .inner) h.lt_left
    h.lt_right
  refine .bind hl.group fun a b hab => ?_
  rw [eq_map_of_forall₂ hab.content, List.isEmpty_map, List.all_map]
  refine .bind_eq (.require (by simp)) fun _ => .pure ?_
  simp [Function.comp_def]

theorem sim_unionType {p : Place} (h : Calls d (16 * (k + 1) + 3) n n') :
    Sim d (k + 1) (Maps (Prod.map d.type (List.map d.type))) (unionType (n + 1) p)
      (unionType (n' + 1) p) := by
  refine .step_maps (consumes_typeExpr n p) (h.same (.typeExpr p) rfl) fun first => ?_
  refine .peek fun t => .ite (by simp) (.bind_eq Sim.advance.discard fun _ => ?_) (.pure rfl)
  refine .bind_maps (h.less (.unionType p)) ?_
  rintro ⟨second, more⟩
  exact .pure rfl

theorem groupParams_map_entry (pending : List (Span × String)) (entries : List ParamEntry) :
    groupParams (pending.map (Prod.map d.span id)) (entries.map d.entry) =
      (groupParams pending entries).map d.param := by
  fun_induction groupParams pending entries with
  | case1 pending => simp [groupParams, unnamedParam, Motion.param, Motion.type, Function.comp_def]
  | case2 pending span name rest ih =>
    rw [← ih]
    simp [groupParams, Motion.entry]
  | case3 pending span name type rest start ih =>
    rw [List.map_cons, Motion.entry, groupParams, List.map_cons, ← ih]
    cases pending <;> simp [Motion.param, Motion.span, start, Function.comp_def]
  | case4 pending decl rest ih =>
    rw [List.map_cons, Motion.entry, groupParams, List.map_append, List.map_cons, ← ih]
    simp [unnamedParam, Motion.param, Motion.type, Function.comp_def]

theorem sim_paramList (h : Calls d (16 * (k + 1) + 0) n n') :
    Sim d (k + 1) (Maps d.paramList) (paramList (n + 1)) (paramList (n' + 1)) := by
  refine .bind (h.less .paramEntries).group fun a b hab => .pure ?_
  rw [hab.delimiters, hab.content]
  show _ = d.paramList _
  rw [Motion.paramList, ← groupParams_map_entry]
  rfl

theorem sim_paramEntries (h : Calls d (16 * (k + 1) + 5) n n') :
    Sim d (k + 1) (Maps (List.map d.entry)) (paramEntries (n + 1)) (paramEntries (n' + 1)) := by
  refine .peek fun t => .ite (by simp) (.past (.pure rfl)) ?_
  have hl := h.left
  have hr := h.right
  refine ((h.same .paramEntry rfl).commaList ")" (consumes_paramEntry n) ?_ ?_).imp ?_
  · omega
  · omega
  · exact fun as bs => eq_map_of_forall₂

theorem sim_paramEntry (h : Calls d (16 * (k + 1) + 4) n n') :
    Sim d (k + 1) (Maps d.entry) (paramEntry (n + 1)) (paramEntry (n' + 1)) := by
  have hu := h.same .unnamedEntry rfl
  have hn := h.same .namedEntry rfl
  have complete (t : Token) (names : List String) (type : TypeExpr) :
      ParamEntry.complete (.mk ⟨(d.token t).extent.span.start, (d.type type).span.stop⟩ names
        (d.type type) true) =
      d.entry (.complete (.mk ⟨t.extent.span.start, type.span.stop⟩ names type true)) := by
    rw [d.span_type]
    rfl
  refine .peek fun t => .look 1 fun u => ?_
  refine .ite (by simp) (.past ?_) (.ite_of (by simp) (fun hname => ?_) hu)
  · exact .bind_maps (h.less (.typeExpr .inner)) fun type => .pure (complete t [] type)
  have htext : (d.token t).text = t.text := by
    rw [beq_iff_eq] at hname
    exact Motion.text_token (by simp [hname])
  rw [htext]
  refine .ite (by simp) ?_ ?_
  · refine .past (.bind_eq Sim.advance.discard fun _ => ?_)
    exact .bind_maps (h.less (.typeExpr .inner)) fun type => .pure (complete t [t.text] type)
  · exact .ite (by simp) (.past (.pure rfl)) (.ite (by simp) hu (.ite (by simp) (hu.orElse hn) hn))

theorem sim_unnamedEntry (h : Calls d (16 * (k + 1) + 3) n n') :
    Sim d (k + 1) (Maps d.entry) (unnamedEntry (n + 1)) (unnamedEntry (n' + 1)) := by
  refine .bind_maps (h.same (.typeExpr .inner) rfl) fun type => .peek fun t => ?_
  refine .bind_eq (.require (by simp)) fun _ => .pure ?_
  rw [d.span_type]
  rfl

theorem sim_namedEntry (h : Calls d (16 * (k + 1) + 0) n n') :
    Sim d (k + 1) (Maps d.entry) (namedEntry (n + 1)) (namedEntry (n' + 1)) := by
  refine .step_name fun t ht => ?_
  refine .bind_maps (h.less (.typeExpr .inner)) fun type => .pure ?_
  rw [d.span_type, ht]
  rfl

theorem sim_resultList {p : Place} (h : Calls d (16 * (k + 1) + 3) n n') :
    Sim d (k + 1) (Maps (List.map d.param)) (resultList (n + 1) p) (resultList (n' + 1) p) := by
  refine .peek fun t => ?_
  refine .ite (by simp) (.pure rfl) (.ite (by simp) ?_ (.ite (by simp) ?_ (.pure rfl)))
  · exact .bind_maps (h.same .paramList rfl) fun results => .pure rfl
  · refine .bind_maps (h.same (.typeExpr p) rfl) fun type => .pure ?_
    rw [d.span_type]
    rfl

theorem sim_structBody (h : Calls d (16 * (k + 1) + 0) n n') :
    Sim d (k + 1) (Maps d.struct) (structBody (n + 1)) (structBody (n' + 1)) := by
  refine .behind "struct" ?_
  have hl := (h.less .fieldDecl).memberList rbrace (consumes_fieldDecl n) h.lt_left h.lt_right
  refine .bind (hl.group.le (Nat.le_succ k)) fun a b hab => .pure ?_
  rw [hab.delimiters, hab.content]
  rfl

theorem sim_fieldTag :
    Sim d k (fun t u => u.map (·.text) = (t.map (·.text)).map d.literal) fieldTag fieldTag := by
  have hs : Sim d k (Maps (Option.map d.token)) fieldTag fieldTag :=
    .peek fun t => .ite (by simp) (Sim.advance.map fun _ _ h => congrArg some h) (.pure rfl)
  refine (hs.knowing (P := fun t => ∀ u ∈ t, u.kind = .string) fun ts a rest h => ?_).imp ?_
  · obtain ⟨t, _, hp, h⟩ := bind_eq_some.1 h
    obtain ⟨rfl, rfl⟩ := peek_eq_some.1 hp
    split at h
    next hc =>
      obtain ⟨u, hu, rfl⟩ := map_eq_some.1 h
      obtain ⟨rfl, _⟩ := advance_eq_some.1 hu
      rintro _ ⟨⟩
      simp only [Bool.and_eq_true, beq_iff_eq] at hc
      exact hc.1
    next =>
      obtain ⟨rfl, _⟩ := pure_eq_some.1 h
      simp
  · rintro (_ | t) _ ⟨ht, rfl⟩
    · rfl
    · exact congrArg some (Motion.text_token_of_string (ht t rfl))

theorem sim_fieldDecl (h : Calls d (16 * (k + 1) + 3) n n') :
    Sim d (k + 1) (Maps d.field) (fieldDecl (n + 1)) (fieldDecl (n' + 1)) := by
  refine .bind (.placed (R := Maps (Prod.map id (Prod.map d.type (Option.map d.literal))))
    ((consumes_fieldHead n).bind _) ?_) ?_
  · refine .bind_maps (h.same .fieldHead rfl) ?_
    rintro ⟨head, type⟩
    refine .bind sim_fieldTag fun t u htu => .pure ?_
    rw [htu]
    rfl
  · rintro ⟨e, head, type, tag⟩ ⟨_, _, _, _⟩ ⟨rfl, hb⟩
    cases hb
    exact .pure rfl

theorem sim_fieldHead (h : Calls d (16 * (k + 1) + 2) n n') :
    Sim d (k + 1) (Maps (Prod.map id d.type)) (fieldHead (n + 1)) (fieldHead (n' + 1)) := by
  have he := h.same .embeddedField rfl
  have hn := h.same .namedFields rfl
  refine .peek fun t => .look 1 fun u => .ite (by simp) (.past ?_) ?_
  · refine .bind_eq (.require (by simp)) fun _ => ?_
    exact .bind_maps (h.less (.typeExpr .line)) fun type => .pure rfl
  · exact .ite (by simp) he (.ite (by simp) (he.orElse hn) hn)

theorem sim_embeddedField (h : Calls d (16 * (k + 1) + 1) n n') :
    Sim d (k + 1) (Maps (Prod.map id d.type)) (embeddedField (n + 1)) (embeddedField (n' + 1)) := by
  refine .bind ((h.same (.namedType .line) rfl).placed (consumes_namedType n .line)) ?_
  rintro ⟨e, build⟩ ⟨_, build'⟩ ⟨rfl, hb⟩
  refine .peek fun t => .bind_eq (.require (by simp)) fun _ => .pure ?_
  exact congrArg (FieldHead.embedded false, ·) (hb e.span)

theorem sim_namedFields (h : Calls d (16 * (k + 1) + 0) n n') :
    Sim d (k + 1) (Maps (Prod.map id d.type)) (namedFields (n + 1)) (namedFields (n' + 1)) := by
  have hl := h.left
  have hr := h.right
  refine .step (consumes_name.commaSep n)
    (Sim.name.commaSep false consumes_name (by omega) (by omega)) fun as bs hs => ?_
  have hnames : bs.map (·.text) = as.map (·.text) := by
    induction hs with
    | nil => rfl
    | cons hab _ ih => rw [List.map_cons, List.map_cons, hab.2, ih]
  refine .bind_maps (h.less (.typeExpr .line)) fun type => .pure ?_
  rw [hnames]
  rfl

theorem sim_interfaceBody (h : Calls d (16 * (k + 1) + 0) n n') :
    Sim d (k + 1) (Maps d.interface) (interfaceBody (n + 1)) (interfaceBody (n' + 1)) := by
  refine .behind "interface" ?_
  have hl := (h.less .interfaceElem).memberList rbrace (consumes_interfaceElem n) h.lt_left
    h.lt_right
  refine .bind (hl.group.le (Nat.le_succ k)) fun a b hab => .pure ?_
  rw [hab.delimiters, hab.content, hab.opening, d.commentSiblings_token d.elem]
  show _ = d.interface _
  rw [Motion.interface, List.map_append]

theorem sim_interfaceElem (h : Calls d (16 * (k + 1) + 4) n n') :
    Sim d (k + 1) (Maps d.elem) (interfaceElem (n + 1)) (interfaceElem (n' + 1)) := by
  refine .peek fun t => .look 1 fun u => .ite (by simp) (.bind (.placed
    (R := Maps (Prod.map id (Prod.map d.paramList (List.map d.param))))
    (consumes_name.bind _) ?_) ?_)
    (.bind ((h.same (.unionType .line) rfl).placed (consumes_unionType n .line)) ?_)
  · refine .step_name fun name hname => ?_
    refine .bind_maps (h.less .paramList) fun params => ?_
    refine .bind_maps (h.less (.resultList .line)) fun results => .pure ?_
    rw [hname]
    rfl
  · rintro ⟨e, name, params, results⟩ ⟨_, _, _, _⟩ ⟨rfl, hb⟩
    cases hb
    exact .pure rfl
  · rintro ⟨e, first, more⟩ ⟨_, _, _⟩ ⟨rfl, hb⟩
    cases hb
    exact .pure rfl

end GoOutline.Syntax.Grammar
