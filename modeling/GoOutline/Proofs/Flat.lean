import GoOutline.Proofs.Crossings

/-!
Rules outside of brackets. What a rule for a type, a value or a function takes in front of a fence
does not depend on the fence, nor on what stands behind it.
-/

namespace GoOutline.Syntax.Grammar

open Syntax.Parser

variable {m : Mode}

section Stops

theorem stops_typeName (p : Place) : Stops (typeName p) := by
  refine Stops.name.bind fun first => .peek (g := pure (.name · first.text)) (fun t => ?_)
    (fun z hz => ?_) (.pure _)
  · exact .ite (Stops.past (Stops.name.bind fun second => .pure _)) (.pure _)
  · simp [hz.is_eq_false]

theorem stops_typeArgs (n : Nat) : Stops (typeArgs n) := by
  cases n with
  | zero => exact .failure
  | succ n => exact (Stops.group _ _).bind fun _ => (Stops.require _).bind fun _ => .pure _

theorem stops_namedType (n : Nat) (p : Place) : Stops (namedType n p) := by
  cases n with
  | zero => exact .failure
  | succ n =>
      refine (stops_typeName p).bind fun form => .peek (g := pure form) (fun u => ?_) (fun z hz => ?_)
        (.pure _)
      · exact .ite ((stops_typeArgs n).discard.bind fun _ => .pure _).halts (.pure _)
      · simp [hz.takesArgs]

theorem stops_typeParams (n : Nat) : Stops (typeParams n) := by
  cases n with
  | zero => exact .failure
  | succ n => exact (Stops.group _ _).bind fun _ => .require _

theorem stops_paramList (n : Nat) : Stops (paramList n) := by
  cases n with
  | zero => exact .failure
  | succ n => exact (Stops.group _ _).bind fun _ => .pure _

theorem stops_structBody (n : Nat) : Stops (structBody n) := by
  cases n with
  | zero => exact .failure
  | succ n =>
      exact (Stops.expect (by decide)).discard.bind fun _ => (Stops.group _ _).bind fun _ => .pure _

theorem stops_interfaceBody (n : Nat) : Stops (interfaceBody n) := by
  cases n with
  | zero => exact .failure
  | succ n =>
      exact (Stops.expect (by decide)).discard.bind fun _ => (Stops.group _ _).bind fun _ => .pure _

theorem stops_block (n : Nat) : Stops (block n) := by
  cases n with
  | zero => exact .failure
  | succ n => exact (Stops.group _ _).bind fun _ => .pure _

theorem stops_literalValue (n : Nat) : Stops (literalValue n) := by
  cases n with
  | zero => exact .failure
  | succ n => exact (Stops.group _ _).discard

theorem stops_instantiation (n : Nat) : Stops (instantiation n) := by
  cases n with
  | zero => exact .failure
  | succ n => exact (Stops.group _ _).bind fun _ => .require _

theorem stops_receiver (n : Nat) : Stops (receiver n) := by
  cases n with
  | zero => exact .failure
  | succ n =>
      refine .peek (g := pure none) (fun t => .ite ?_ (.pure _)) (fun z hz => ?_) (.pure _)
      · exact ((stops_paramList n).map some).halts
      · simp [hz.is_eq_false]

theorem stops_funcTypeParams (n : Nat) (allowed : Bool) : Stops (funcTypeParams n allowed) := by
  cases n with
  | zero => exact .failure
  | succ n =>
      refine .peek (g := pure ()) (fun t => .ite ?_ (.pure _)) (fun z hz => ?_) (.pure _)
      · exact ((Stops.require _).bind fun _ => stops_typeParams n).halts
      · simp [hz.is_eq_false]

theorem stops_body (n : Nat) : Stops (body n) := by
  cases n with
  | zero => exact .failure
  | succ n =>
      refine .peek (g := pure none) (fun t => .ite ?_ (.pure _)) (fun z hz => ?_) (.pure _)
      · exact ((stops_block n).map some).halts
      · simp [hz.is_eq_false (s := lbrace) (by decide)]

theorem stops_applied (n : Nat) : Stops (applied n) := by
  cases n with
  | zero => exact .failure
  | succ n =>
      refine .peek (fun t => .ite (Stops.group _ _).discard.halts (stops_instantiation n).halts)
        (fun z hz => ?_) (stops_instantiation n).still
      simp [hz.is_eq_false]

theorem stops_bracketed (n : Nat) : Stops (bracketed n) := by
  cases n with
  | zero => exact .failure
  | succ n =>
      refine Stops.bind ?_ fun r => ?_
      · exact (stops_typeArgs n).passing.foresee.bind fun _ =>
          .orElse ((Stops.group _ _).bind fun _ => .pure _) ((stops_typeArgs n).bind fun _ => .pure _)
      · obtain ⟨types, index⟩ := r
        cases index <;> exact .pure _

theorem not_opens_of_balanced {l : List Token} {t : Token} {b : Bracket}
    (h : Balanced (l ++ [t])) : ¬ t.is b.opening := by
  intro ht
  rw [Balanced, nest_append] at h
  obtain ⟨bs, _, hb⟩ := Option.bind_eq_some_iff.1 h
  rw [nest_cons, Token.nest_of_opens ht, Option.bind_some] at hb
  cases hb

theorem stops_postfixes (n : Nat) (hm : m.literals) (shape : Shape) : Stops (postfixes n m shape) := by
  induction n generalizing shape with
  | zero => exact .failure
  | succ n hp =>
      refine .look (fun t u v pre hb hfence => ?_) (fun t u z z' hb hz hz' => ?_)
        (fun t z z' v v' hz hz' => ?_) (fun z z' u u' v v' hz hz' hsame => ?_) (fun z u v hz => ?_)
      · refine .ite (.pure _) (.ite .failure ?_)
        split
        next hname =>
          rw [Bool.and_eq_true] at hname
          have hplain : t.isPlain := Token.isPlain_of_is hname.1 fun b => by cases b <;> decide
          refine .past ?_ t
          cases pre with
          | nil =>
              have hclosing : t.isClosing = false := by
                simpa using Token.not_isClosing_of_isPlain hplain
              have hu := hfence rfl (Token.isSolid_of_is hname.1) hclosing
              rw [hu.kind_beq (by decide) (by decide)] at hname
              exact absurd hname.2 (by simp)
          | cons a pre =>
              have htail : Balanced ([t] ++ (a :: pre)) := hb
              exact Stops.past (hp _) (htail.of_append (balanced_of_isPlain hplain)) (by simp)
        next =>
          refine .ite (Stops.past ((Stops.group _ _).discard.bind fun _ => hp _) hb (by simp)) ?_
          refine .ite (((stops_bracketed n).bind fun b => ?_).behind hb) ?_
          · cases shape.bracketed? b
            · exact .failure
            · exact hp _
          refine .ite (((Stops.group _ _).discard.bind fun _ => hp _).behind hb) (.ite ?_ ?_)
          · exact ((stops_literalValue n).bind fun _ => hp _).behind hb
          · exact (Stops.require _).behind hb
      · have hu : ¬ u.is "(" := not_opens_of_balanced (b := .round) (l := [t]) hb
        simp [hu]
      · simp [hz.is_eq_false, hz'.is_eq_false, hz.kind_beq, hz'.kind_beq]
      · have hbrace : z.is lbrace = false := hz.is_eq_false (by decide)
        have hbrace' : z'.is lbrace = false := hz'.is_eq_false (by decide)
        cases hc : shape.isComplete <;>
          simp [hz.is_eq_false, hz'.is_eq_false, hbrace, hbrace', require]
      · have hbrace : z.is lbrace = false := hz.is_eq_false (by decide)
        simp only [hz.is_eq_false (s := ".") (by decide), hz.is_eq_false (s := "[") (by decide),
          hz.is_eq_false (s := "(") (by decide), hbrace, Bool.false_and, Bool.false_eq_true, if_false]
        exact .ite (.pure _) (Stops.require _).still

theorem stops_typedLiteral (n : Nat) (hm : m.literals) : Stops (typedLiteral n m) := by
  cases n with
  | zero => exact .failure
  | succ n => exact (stops_literalValue n).bind fun _ => stops_postfixes n hm .value

theorem stops_behindType (n : Nat) (hm : m.literals) (literal : Bool) :
    Stops (behindType n m literal) := by
  cases n with
  | zero => exact .failure
  | succ n =>
      refine .orElse ((Stops.require literal).seqRight ?_) ?_
      · rw [if_pos hm]
        exact stops_typedLiteral n hm
      · exact (stops_applied n).bind fun _ => stops_postfixes n hm .value

end Stops

section Types

variable {u q w : Token} (n : Nat) (p : Place)

/-- A called name is read as a name, whatever it is called with. -/
theorem typeExpr_called (hu : u.kind = .name) (hq : q.is "(") :
    (∀ us, (typeExpr n p).run (u :: q :: us) = none) ∨
      ∃ e, ∀ us, (typeExpr n p).run (u :: q :: us) = some (e, q :: us) := by
  rcases n with _ | _ | _ | n
  · exact .inl fun _ => rfl
  · exact .inl fun _ => rfl
  · refine .inl fun us => ?_
    simp [typeExpr, typeForm, namedType, placed, taking, hu, run_bind, peek, ahead, lookAt, failure]
  · refine .inr ⟨.name (extentOf [u]).span u.text, fun us => ?_⟩
    have hname : (typeName p).run (u :: q :: us) = some ((.name · u.text), q :: us) := by
      refine bind_eq_some.2 ⟨u, _, name_eq_some.2 ⟨rfl, hu⟩, ?_⟩
      rw [run_peek_cons, if_neg (by simp [Token.is_eq_false_of_is hq])]
      rfl
    have hnamed : (namedType (n + 1) p).run (u :: q :: us) = some ((.name · u.text), q :: us) := by
      refine bind_eq_some.2 ⟨_, _, hname, ?_⟩
      rw [run_peek_cons, if_neg (by simp [takesArgs, Token.is_eq_false_of_is hq])]
      rfl
    have hform : (typeForm (n + 2) p).run (u :: q :: us) = some ((.name · u.text), q :: us) := by
      rw [typeForm, run_peek_cons, if_pos (by simpa using hu)]
      exact hnamed
    exact bind_eq_some.2 ⟨_, _, placed_eq_some.2 ⟨[u], rfl, hform, rfl⟩, rfl⟩

/-- A called name is the only result, or it is none if it stands on a line of its own. -/
theorem resultList_called (hu : u.kind = .name) (hq : q.is "(") :
    (∀ us, (resultList n p).run (u :: q :: us) = none) ∨
      (∃ v, ∀ us, (resultList n p).run (u :: q :: us) = some (v, q :: us)) ∨
      ∃ v, ∀ us, (resultList n p).run (u :: q :: us) = some (v, u :: q :: us) := by
  rcases n with _ | n
  · exact .inl fun _ => rfl
  by_cases hline : p == .line && u.newline
  · refine .inr (.inr ⟨[], fun us => ?_⟩)
    rw [resultList, run_peek_cons, if_pos hline]
    rfl
  have hround : u.is "(" = false := by simp [Token.is, hu]
  have hstarts : startsType u := by simp [startsType, hu]
  have hrun (us : List Token) : (resultList (n + 1) p).run (u :: q :: us) =
      (typeExpr n p >>= fun type => pure [ParamDecl.mk type.span [] type false]).run (u :: q :: us) := by
    rw [resultList, run_peek_cons, if_neg hline, if_neg (by simp [hround]), if_pos hstarts]
  simp only [hrun, run_bind]
  rcases typeExpr_called n p hu hq with hno | ⟨e, he⟩
  · exact .inl fun us => by rw [hno]; rfl
  · exact .inr (.inl ⟨[.mk e.span [] e false], fun us => by rw [he]; rfl⟩)

theorem run_typeForm_func (hw : w.is "func") (us : List Token) : (typeForm (n + 1) p).run (w :: us) =
    (paramList n >>= fun params => resultList n p >>= fun results =>
      pure (TypeExpr.function · params.decls results)).run us := by
  have hplain : w.isPlain := Token.isPlain_of_is hw fun b => by cases b <;> decide
  rw [typeForm, run_peek_cons]
  simp only [Token.kind_of_is hw, Token.is_eq_false_of_is hw, hw, reduceCtorEq, beq_iff_eq, ne_eq,
    String.reduceEq, not_false_eq_true, Bool.false_eq_true, if_false, if_true]
  rw [run_past, if_pos (by simp [Token.isSolid_of_is hw, hplain])]

/-- At a fence, nothing but the head of a method is read as a type. -/
theorem passes_typeForm_nil : Passes [] (typeForm n p) := by
  intro zs zs' hz
  rcases n with _ | n
  · exact .inl ⟨rfl, rfl⟩
  cases hz with
  | mute h h' ha rest rest' =>
      have hno {z : Token} (h : Mute z) (rest : List Token) : (typeForm (n + 1) p).run (z :: rest) = none := by
        rw [typeForm, run_peek_cons]
        simp [h.fence.is_eq_false, h.fence.kind_beq, h.is_func]
        rfl
      exact .inl ⟨hno h rest, hno h' rest'⟩
  | @function w u hw hu rest rest' =>
      have hno (rest : List Token) : (typeForm (n + 1) p).run (w :: u :: rest) = none := by
        rw [run_typeForm_func n p hw]
        rcases n with _ | n
        · rfl
        · have hround : ¬ u.is "(" := by simp [Token.is, hu]
          have hgroup : (group .round (paramEntries n)).run (u :: rest) = none := if_neg hround
          rw [paramList, run_bind, run_bind, hgroup]
          rfl
      exact .inl ⟨hno rest, hno rest'⟩
  | @method w o c u q ts hw ho hts hc hu hq rest rest' =>
      have hparams : (∀ us, (paramList n).run (o :: (ts ++ c :: us)) = none) ∨
          ∃ v, ∀ us, (paramList n).run (o :: (ts ++ c :: us)) = some (v, us) := by
        rcases n with _ | n
        · exact .inl fun _ => rfl
        rcases group_hides (b := .round) (paramEntries n) ho hts hc with hno | ⟨g, hg⟩
        · exact .inl fun us => by rw [paramList, run_bind, hno]; rfl
        · exact .inr ⟨⟨g.delimiters, groupParams [] g.content⟩,
            fun us => by rw [paramList, run_bind, hg]; rfl⟩
      simp only [List.nil_append, run_typeForm_func n p hw, run_bind]
      rcases hparams with hno | ⟨v, hv⟩
      · exact .inl ⟨by rw [hno]; rfl, by rw [hno]; rfl⟩
      simp only [hv, Option.bind_some]
      rcases resultList_called n p hu hq with hno | ⟨r, hr⟩ | ⟨r, hr⟩
      · exact .inl ⟨by rw [hno]; rfl, by rw [hno]; rfl⟩
      · refine .inr (.inr ⟨_, q :: rest, q :: rest', ⟨⟨w :: o :: (ts ++ [c]), u, by simp, by simp, ?_⟩,
          q, rest, rest', rfl, rfl, .inr hq⟩, by rw [hr]; rfl, by rw [hr]; rfl⟩)
        simp [Token.is, hu]
      · refine .inr (.inr ⟨_, u :: q :: rest, u :: q :: rest', ⟨⟨w :: o :: ts, c, by simp, by simp, ?_⟩,
          u, q :: rest, q :: rest', rfl, rfl, .inl hu⟩, by rw [hr]; rfl, by rw [hr]; rfl⟩)
        exact Token.is_eq_false_of_is hc (by decide)

/-- A type goes up to a fence at most, or over the head of a method. -/
theorem passing_types : (∀ p, Passing (typeExpr n p)) ∧ (∀ p, Passing (typeForm n p)) ∧
    ∀ p, Passing (resultList n p) := by
  induction n with
  | zero => exact ⟨fun _ => Stops.failure.passing, fun _ => Stops.failure.passing,
      fun _ => Stops.failure.passing⟩
  | succ n ih =>
      obtain ⟨htype, hform, hresults⟩ := ih
      refine ⟨fun p => (hform p).placed.returns _, fun p => ?_, fun p => ?_⟩
      · refine .peek (fun t pre hb => ?_) (passes_typeForm_nil (n + 1) p)
        have hpast {g : PUnit → Parser (Span → TypeExpr)} (hg : Passing (g ())) :
            Passes (t :: pre) (discard advance >>= g) :=
          (Halts.advance.bind fun _ => .pure _).passes_bind (fun _ => hg) hb (by simp)
        refine .ite ((stops_namedType n p).passing hb) ?_
        refine .ite (hpast ((htype p).returns _)) ?_
        refine .ite (((Stops.group _ _).discard.bind fun _ => .pure _).passing hb) ?_
        refine .ite ((Stops.group _ _).halts.passes_bind (fun length => ?_) hb (by simp)) ?_
        · refine (htype p).bind (fun elem => ?_) fun elem => ?_
          · cases length.content <;> exact .pure _
          · cases length.content <;> exact .pure _
        refine .ite (hpast ((Stops.group _ _).passing_bind fun key => (htype p).returns _)) ?_
        refine .ite (hpast ((Stops.accept (by decide)).discard.passing_bind fun _ =>
          (htype p).discard.returns _)) ?_
        refine .ite (hpast ((Stops.expect (by decide)).discard.passing_bind fun _ =>
          (htype p).discard.returns _)) ?_
        refine .ite (hpast ((htype p).discard.bind (fun _ => ?_) fun _ => ?_)) ?_
        · refine (Stops.peek (g := pure .other) (fun u => .ite ?_ (.pure _)) (fun z hz => ?_)
            (.pure _)).passing
          · exact ((stops_typeArgs n).discard.bind fun _ => .pure _).halts
          · simp [hz.takesArgs]
        · intro t ht
          have hbracket : t.is "[" = false := by
            rcases ht with ht | ht
            · simp [Token.is, ht]
            · exact Token.is_eq_false_of_is ht (by decide)
          exact .inr ⟨.other, fun us => by rw [run_peek_cons, if_neg (by simp [takesArgs, hbracket])]; rfl⟩
        refine .ite (hpast ((stops_paramList n).passing_bind fun params => (hresults p).returns _)) ?_
        refine .ite (((stops_structBody n).discard.bind fun _ => .pure _).passing hb) ?_
        exact .ite (((stops_interfaceBody n).discard.bind fun _ => .pure _).passing hb)
          (Stops.failure.passing hb)
      · refine .glance (fun t => ?_) fun z z' hz hz' => ?_
        · refine .ite (.pure _) (.ite ((stops_paramList n).bind fun _ => .pure _).passing (.ite ?_ (.pure _)))
          exact (htype p).returns _
        · simp [hz.fence.is_eq_false, hz.startsType, hz'.fence.is_eq_false, hz'.startsType]

theorem passing_typeExpr : Passing (typeExpr n p) := (passing_types n).1 p

theorem passing_resultList : Passing (resultList n p) := (passing_types n).2.2 p

theorem passing_typeBody : Passing (typeBody n) := by
  cases n with
  | zero => exact Stops.failure.passing
  | succ n =>
      refine .glance (fun t => .ite ?_ (.ite ?_ ?_)) fun z z' hz hz' => ?_
      · exact ((stops_structBody n).placed.bind fun _ => .pure _).passing
      · exact ((stops_interfaceBody n).placed.bind fun _ => .pure _).passing
      · exact (passing_typeExpr n .line).returns _
      · simp [hz.fence.is_eq_false, hz'.fence.is_eq_false]

theorem passing_typeRight : Passing (typeRight n) := by
  cases n with
  | zero => exact Stops.failure.passing
  | succ n =>
      refine (Stops.accept (by decide)).passing_bind fun same => .ite ?_ ?_
      · exact (passing_typeExpr n .line).discard.returns _
      · exact (passing_typeBody n).returns _

end Types

section Values

variable (n : Nat)

theorem refuses_block : Refuses (block n) := by
  cases n with
  | zero => exact fun _ _ _ => rfl
  | succ n => exact (refuses_group (by decide) _).bind

theorem refuses_literalValue : Refuses (literalValue n) := by
  cases n with
  | zero => exact fun _ _ _ => rfl
  | succ n => exact (refuses_group (by decide) _).bind

/-- The head of a method has a name where the body of a literal would start. -/
theorem halts_funcLiteral : Halts (funcLiteral n) := by
  cases n with
  | zero => exact .failure
  | succ n =>
      refine .bind (.bind (Halts.expect "func") fun _ => .pure _) fun _ => ?_
      refine (stops_paramList n).discard.bind fun _ => ?_
      exact (passing_resultList n .inner).discard.stops_bind (fun _ => (stops_block n).discard)
        fun _ => (refuses_block n).bind

theorem stops_arrayLiteral (hm : m.literals) : Stops (arrayLiteral n m) := by
  cases n with
  | zero => exact .failure
  | succ n =>
      refine (Stops.group _ _).discard.bind fun _ => ?_
      refine (passing_typeExpr n .inner).discard.stops_bind (fun _ => ?_) fun _ => ?_
      · exact (stops_literalValue n).bind fun _ => stops_postfixes n hm .value
      · exact (refuses_literalValue n).bind

theorem agrees_closedType (hm : m.literals) (literal : Bool) : Agrees (closedType n m literal) := by
  cases n with
  | zero => exact Stops.failure.agrees
  | succ n =>
      exact (passing_typeExpr n .inner).discard.agrees.bind fun _ =>
        (stops_behindType n hm literal).agrees

theorem agrees_openType (hm : m.literals) : Agrees (openType n m) := by
  cases n with
  | zero => exact Stops.failure.agrees
  | succ n =>
      refine (passing_typeExpr n .inner).taking.foresee.agrees.bind fun type => ?_
      refine (Stops.require _).agrees.bind fun _ => ?_
      refine (passing_typeExpr n .bare).discard.agrees.bind fun _ => ?_
      exact (stops_instantiation n).agrees.bind fun _ => (stops_postfixes n hm .value).agrees

/-- Where a type goes over the head of a method, it leaves no brackets at its end to come back for. -/
theorem agrees_typeOperand (hm : m.literals) (literal : Bool) : Agrees (typeOperand n m literal) := by
  rcases n with _ | n
  · exact Stops.failure.agrees
  intro pre zs zs' left a hpre hz hrun
  rcases orElse_eq_some.1 hrun with h | ⟨hno, h⟩
  · exact orElse_eq_some.2 (.inl (agrees_closedType n hm literal hpre hz h))
  rcases orElse_eq_some.1 h with h | ⟨-, h⟩
  · refine orElse_eq_some.2 (.inr ⟨?_, orElse_eq_some.2 (.inl (agrees_openType n hm hpre hz h))⟩)
    rcases n with _ | n
    · rfl
    have hrun (ts : List Token) : (closedType (n + 1) m literal).run ts =
        ((typeExpr n .inner).run ts).bind fun x => (behindType n m literal).run x.2 := by
      show (((typeExpr n .inner).run ts).bind _).bind _ = _
      cases (typeExpr n .inner).run ts <;> rfl
    rw [hrun] at hno ⊢
    rcases passing_typeExpr n .inner hpre hz with ⟨-, hb⟩ | ⟨e, left', ha, hb⟩ | ⟨e, rs, rs', hc, ha, -⟩
    · rw [hb]
      rfl
    · rw [ha] at hno
      rw [hb]
      rcases (stops_behindType n hm literal).behind (balanced_left hpre ha) hz with ⟨-, hb⟩ | ⟨b, _, hb, -⟩
      · exact hb
      · exact absurd (hb.symm.trans hno) (by simp)
    · obtain ⟨front, t, hfront, -, ht⟩ := hc.used
      have htaking : (taking (typeExpr n .inner)).run (pre ++ zs) =
          some ((pre ++ front ++ [t], e), rs) := taking_eq_some.2 ⟨by rw [hfront]; simp, ha⟩
      obtain ⟨type, _, hforesee, h⟩ := bind_eq_some.1 h
      obtain ⟨rfl, rfl⟩ := foresee_eq_some.1 hforesee
      obtain ⟨_, _, hreq, -⟩ := bind_eq_some.1 h
      rw [htaking] at hreq
      obtain ⟨hlast, -⟩ := require_eq_some.1 hreq
      simp [ht] at hlast
  · obtain ⟨_, _, hreq, -⟩ := bind_eq_some.1 h
    obtain ⟨hliteral, -⟩ := require_eq_some.1 hreq
    simp [hm] at hliteral

theorem agrees_parenthesized : Agrees (parenthesized n) := by
  cases n with
  | zero => exact Stops.failure.agrees
  | succ n =>
      refine Agrees.bind ?_ fun r => ?_
      · refine (passing_typeExpr n .inner).foresee.agrees.bind fun type => .orElse ?_ ?_
        · exact ((Stops.group _ _).bind fun _ => .pure _).passing
        · exact (passing_typeExpr n .inner).agrees.bind fun _ => .pure _
      · exact .ite (.pure _) ((stops_applied n).bind fun _ => .pure _).agrees

theorem agrees_operand (hm : m.literals) : Agrees (operand n m) := by
  cases n with
  | zero => exact Stops.failure.agrees
  | succ n =>
      have hp (s : Shape) : Agrees (postfixes n m s) := (stops_postfixes n hm s).agrees
      have ht := agrees_typeOperand n hm
      refine .peek (fun t => ?_) fun z z' hz hz' _ => ?_
      · refine .ite (Agrees.advance.discard.bind fun _ => hp _)
          (.ite (Agrees.advance.discard.bind fun _ => hp _) (.ite ?_ (.ite ?_ (.ite ?_ (ht _)))))
        · exact (agrees_parenthesized n).bind fun s => hp s
        · refine .orElse_of_consumes ?_ (ht false) ?_ (consumes_typeOperand n m false)
          · exact (halts_funcLiteral n).bind fun _ => stops_postfixes n hm .value
          · exact (consumes_funcLiteral n).bind _
        · exact .orElse (stops_arrayLiteral n hm).passing (ht true)
      · simp [hz.fence.kind_beq, hz'.fence.kind_beq, hz.fence.is_eq_false, hz'.fence.is_eq_false,
          hz.is_func, hz'.is_func, hz.fence.isAny_eq_false (l := ["map", "struct"]) (by decide),
          hz'.fence.isAny_eq_false (l := ["map", "struct"]) (by decide)]

theorem agrees_expr (hm : m.literals) : Agrees (expr n m) ∧ Agrees (unary n m) := by
  induction n with
  | zero => exact ⟨Stops.failure.agrees, Stops.failure.agrees⟩
  | succ n ih =>
      obtain ⟨hexpr, hunary⟩ := ih
      constructor
      · refine hunary.bind fun _ => .peek (fun t => ?_) fun z z' hz hz' _ => ?_
        · exact .ite (Agrees.advance.discard.bind fun _ => hexpr) (.pure _)
        · simp [hz.fence.isBinary, hz'.fence.isBinary]
      · refine .peek (fun t => ?_) fun z z' hz hz' _ => ?_
        · exact .ite (Agrees.advance.discard.bind fun _ => hunary) (agrees_operand n hm)
        · simp [hz.fence.isAny_eq_false (l := unaryOperators) (by decide),
            hz'.fence.isAny_eq_false (l := unaryOperators) (by decide)]

theorem agrees_exprs : Agrees (discard (commaSep true (expr n .statement) n)) :=
  ((agrees_expr n rfl).1.commaSep true n).discard

end Values

section Declarations

variable (n : Nat)

theorem agrees_constSpec : Agrees (constSpec n) := by
  cases n with
  | zero => exact Stops.failure.agrees
  | succ n =>
      refine (Stops.name.agrees.commaSep true n).discard.bind fun _ => ?_
      refine .peek (fun t => .ite (.pure _) (.ite ?_ (.ite ?_ (.pure _)))) fun z z' hz hz' _ => ?_
      · exact Agrees.advance.discard.bind fun _ => agrees_exprs n
      · refine (passing_typeExpr n .inner).discard.agrees.bind fun _ => ?_
        exact (Stops.expect (by decide)).discard.agrees.bind fun _ => agrees_exprs n
      · simp [hz.fence.is_eq_false, hz'.fence.is_eq_false, hz.startsType, hz'.startsType]

theorem agrees_varSpec : Agrees (varSpec n) := by
  cases n with
  | zero => exact Stops.failure.agrees
  | succ n =>
      refine (Stops.name.agrees.commaSep false n).discard.bind fun _ => ?_
      refine (Stops.accept (by decide)).agrees.bind fun untyped => .ite (agrees_exprs n) ?_
      refine (passing_typeExpr n .line).discard.agrees.bind fun _ => ?_
      refine .peek (fun t => .ite ?_ (.pure _)) fun z z' hz hz' _ => ?_
      · exact Agrees.advance.discard.bind fun _ => agrees_exprs n
      · simp [hz.fence.is_eq_false, hz'.fence.is_eq_false]

theorem agrees_valueSpec (constant : Bool) : Agrees (valueSpec constant n) := by
  cases n with
  | zero => exact Stops.failure.agrees
  | succ n => exact .ite (agrees_constSpec n) (agrees_varSpec n)

theorem agrees_valueDecl : Agrees (valueDecl n) := by
  cases n with
  | zero => exact Stops.failure.agrees
  | succ n =>
      refine Agrees.advance.bind fun keyword => (Stops.require _).agrees.bind fun _ => ?_
      refine .peek (fun t => .ite ?_ (agrees_valueSpec n _)) fun z z' hz hz' _ => ?_
      · refine (Stops.group _ _).agrees.bind fun specs => .peek (fun u => (Stops.require _).agrees) ?_
        intro z z' _ _ ha
        rw [ha]
      · simp [hz.fence.is_eq_false, hz'.fence.is_eq_false]

theorem isFree_of_balanced {t u : Token} (h : Balanced [t, u]) (ht : t.is "[") :
    isFree u = false := by
  rw [Balanced, nest_cons, Token.nest_of_opens (b := .square) ht, Option.bind_some] at h
  obtain ⟨inner, c, rest, he, _, hc, _⟩ := exists_closing h
  have hu : u.is "]" := by
    cases inner with
    | nil => exact (List.cons.inj he).1 ▸ hc
    | cons a inner => simp at he
  simp only [Token.is, Bool.and_eq_true, beq_iff_eq] at hu
  simp [isFree, hu.1]

theorem agrees_typeBehind : Agrees (typeBehind n) := by
  cases n with
  | zero => exact Stops.failure.agrees
  | succ n =>
      have hr : Passing (typeRight n) := passing_typeRight n
      refine .look (fun t u v => .ite (.orElse ?_ ?_) hr.agrees) (fun t u z z' hb hz hz' => ?_)
        (fun t z z' v v' hz hz' => ?_) fun z z' u u' v v' hz hz' _ => ?_
      · exact (Stops.require _).passing_bind fun _ => hr
      · exact ((Stops.require _).seqRight (stops_typeParams n)).agrees.seqRight hr.agrees
      · by_cases ht : t.is "["
        · simp [isFree_of_balanced hb ht]
        · simp [ht]
      · simp [hz.isFree, hz'.isFree]
      · simp [hz.is_eq_false, hz'.is_eq_false]

theorem agrees_typeEntry : Agrees (typeEntry n) := by
  cases n with
  | zero => exact Stops.failure.agrees
  | succ n =>
      refine Agrees.bind (.placed (Stops.name.agrees.bind fun name => ?_)) fun e => ?_
      · exact (agrees_typeBehind n).bind fun body => .pure _
      · obtain ⟨extent, name, body⟩ := e
        cases body <;> exact .pure _

theorem agrees_expect (text : String) : Agrees (expect text) := by
  intro pre zs zs' left t hpre hz hrun
  obtain ⟨he, ht, hp⟩ := expect_eq_some.1 hrun
  have hadvance := Agrees.advance hpre hz (advance_eq_some.2 ⟨he, Token.isSolid_of_is ht, hp⟩)
  exact expect_eq_some.2 ⟨(advance_eq_some.1 hadvance).1, ht, hp⟩

theorem agrees_typeDecl : Agrees (typeDecl n) := by
  cases n with
  | zero => exact Stops.failure.agrees
  | succ n =>
      refine (agrees_expect "type").discard.bind fun _ => ?_
      refine .peek (fun t => .ite ?_ ?_) fun z z' hz hz' _ => ?_
      · exact ((Stops.group _ _).bind fun entries => .pure _).agrees
      · exact (agrees_typeEntry n).bind fun _ => .pure _
      · simp [hz.fence.is_eq_false, hz'.fence.is_eq_false]

theorem agrees_funcDecl : Agrees (funcDecl n) := by
  cases n with
  | zero => exact Stops.failure.agrees
  | succ n =>
      refine (agrees_expect "func").discard.bind fun _ => (stops_receiver n).agrees.bind fun receiver => ?_
      refine Stops.name.agrees.bind fun name => ?_
      refine (stops_funcTypeParams n receiver.isNone).agrees.bind fun _ => ?_
      refine (stops_paramList n).agrees.bind fun params => ?_
      refine (passing_resultList n .line).agrees.bind fun results => ?_
      exact (stops_body n).agrees.bind fun braces => .pure _

end Declarations

end GoOutline.Syntax.Grammar
