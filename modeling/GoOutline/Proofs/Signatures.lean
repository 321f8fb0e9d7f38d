import GoOutline.Proofs.Growth
import GoOutline.Proofs.Members

/-!
Functions with another body. All in front of the brace that opens the body of a function is read the
same whatever the body holds, and what stands behind the body moves on with it.
-/

namespace GoOutline.Syntax.Grammar

open Syntax.Parser

variable {n : Nat} {ts us rest : List Token} {t o c : Token} {decl : FuncDecl} {b : Delimiters}

/-- A function up to its body. -/
def signature (n : Nat) : Parser FuncDecl := do
  discard (expect "func")
  let receiver ← receiver n
  let name ← name
  funcTypeParams n receiver.isNone
  let params ← paramList n
  let results ← resultList n .line
  return ⟨receiver, name.text, params, results, none⟩

theorem funcDecl_eq_some : (funcDecl (n + 1)).run ts = some (decl, rest) ↔
    ∃ mid, (signature n).run ts = some ({ decl with braces := none }, mid) ∧
      (body n).run mid = some (decl.braces, rest) := by
  simp only [funcDecl, signature, bind_eq_some, pure_eq_some]
  constructor
  · rintro ⟨_, _, hk, r, _, hr, t, _, ht, _, _, hg, params, _, hp, results, _, hs, braces, _, hb, rfl, rfl⟩
    exact ⟨_, ⟨_, _, hk, r, _, hr, t, _, ht, _, _, hg, params, _, hp, results, _, hs, rfl, rfl⟩, hb⟩
  · rintro ⟨_, ⟨_, _, hk, r, _, hr, t, _, ht, _, _, hg, params, _, hp, results, _, hs, hd, rfl⟩, hb⟩
    refine ⟨_, _, hk, r, _, hr, t, _, ht, _, _, hg, params, _, hp, results, _, hs, _, _, hb, ?_, rfl⟩
    obtain ⟨receiver, name, params', results', braces⟩ := decl
    cases hd
    rfl

theorem body_eq_some : (body (n + 1)).run ts = some (some b, rest) ↔
    ∃ o us, ts = o :: us ∧ o.is lbrace ∧ o.newline = false ∧ (block n).run ts = some (b, rest) := by
  constructor
  · intro h
    rcases ts with _ | ⟨o, us⟩
    · cases h
    rw [body, run_peek_cons] at h
    split at h
    next ho =>
      obtain ⟨_, hb, he⟩ := map_eq_some.1 h
      cases he
      rw [Bool.and_eq_true, Bool.not_eq_true'] at ho
      exact ⟨o, us, rfl, ho.1, ho.2, hb⟩
    next =>
      cases (pure_eq_some.1 h).1
  · rintro ⟨o, us, rfl, ho, hn, hb⟩
    rw [body, run_peek_cons, if_pos (by simp [ho, hn])]
    exact map_eq_some.2 ⟨b, hb, rfl⟩

theorem block_eq_some : (block (n + 1)).run ts = some (b, rest) ↔
    ∃ o us c, ts = o :: us ∧ o.is lbrace ∧ (statements n).run us = some ((), c :: rest) ∧
      c.is rbrace ∧ b = ⟨o.extent.span, c.extent.span⟩ := by
  simp only [block, bind_eq_some, pure_eq_some, group_eq_some]
  constructor
  · rintro ⟨g, _, ⟨us, rfl, ho, hs, hc⟩, rfl, rfl⟩
    exact ⟨g.opening, us, g.closing, rfl, ho, hs, hc, rfl⟩
  · rintro ⟨o, us, c, rfl, ho, hs, hc, rfl⟩
    exact ⟨⟨o, (), c⟩, rest, ⟨us, rfl, ho, hs, hc⟩, rfl, rfl⟩

section Follows

theorem follows_receiver (n : Nat) : Follows Any Eq (receiver n) (receiver n) := by
  cases n with
  | zero => exact .failure
  | succ n =>
      exact .whenever none ((consumes_paramList n).map _) (fun _ _ => rfl) (fun _ _ h => by rw [h])
        (follows_paramList (fun _ _ => rfl) n).map

theorem follows_funcTypeParams (n : Nat) (allowed : Bool) :
    Follows Any Eq (funcTypeParams n allowed) (funcTypeParams n allowed) := by
  cases n with
  | zero => exact .failure
  | succ n =>
      refine .whenever () (.behind _ fun _ => consumes_typeParams n) (fun _ _ => rfl)
        (fun _ _ h => by rw [h]) ?_
      exact .bind (fun _ _ => rfl) (.require _) fun _ => follows_typeParams n

/-- What follows a signature has no influence on it. -/
theorem follows_signature (n : Nat) : Follows Any Eq (signature n) (signature n) := by
  have hr : Follows Any Eq (resultList n .line) (resultList n .line) :=
    ((turns .line .line n).resultList.weaken fun _ _ => .inl rfl).imp fun _ _ h => .inl ⟨.inl rfl, h⟩
  refine .bind (fun _ _ => rfl) (Follows.expect _).discard fun _ => ?_
  refine .bind (fun _ _ => rfl) (follows_receiver n) fun r => .bind (fun _ _ => rfl) .name fun name => ?_
  refine .bind (fun _ _ => rfl) (follows_funcTypeParams n _) fun _ => ?_
  refine .bind (fun _ _ => rfl) (follows_paramList (fun _ _ => rfl) n) fun params => ?_
  exact .bind (fun _ _ => rfl) hr fun results => .pure _

end Follows

/-- The parameters of a function stand in parentheses. -/
theorem paramList_cons {l : ParamList} (h : (paramList n).run ts = some (l, rest)) :
    ∃ p us c, ts = p :: (us ++ c :: rest) ∧ p.is "(" ∧ Balanced us ∧ c.is ")" := by
  cases n with
  | zero => exact (failure_eq_some h).elim
  | succ n =>
      obtain ⟨g, _, hg, he⟩ := bind_eq_some.1 h
      obtain ⟨-, rfl⟩ := pure_eq_some.1 he
      obtain ⟨_, rfl, ho, hp, hc⟩ := group_eq_some.1 hg
      obtain ⟨us, rfl, -, hb⟩ := Parser.takes _ hp
      exact ⟨g.opening, us, g.closing, rfl, ho, hb, hc⟩

theorem receiver_eq_some {r : Option ParamList} (h : (receiver n).run ts = some (r, rest)) :
    (r = none ∧ ts = rest) ∨ r.isSome ∧
      ∃ p us c, ts = p :: (us ++ c :: rest) ∧ p.is "(" ∧ Balanced us ∧ c.is ")" := by
  cases n with
  | zero => exact (failure_eq_some h).elim
  | succ n =>
      obtain ⟨t, _, hp, h⟩ := bind_eq_some.1 h
      obtain ⟨-, rfl⟩ := peek_eq_some.1 hp
      split at h
      next =>
        obtain ⟨l, hl, rfl⟩ := map_eq_some.1 h
        exact .inr ⟨rfl, paramList_cons hl⟩
      next =>
        obtain ⟨rfl, rfl⟩ := pure_eq_some.1 h
        exact .inl ⟨rfl, rfl⟩

/-- Methods go on with their parameters. -/
theorem funcTypeParams_none (h : (funcTypeParams n false).run ts = some ((), rest)) : ts = rest := by
  cases n with
  | zero => exact (failure_eq_some h).elim
  | succ n =>
      obtain ⟨t, _, hp, h⟩ := bind_eq_some.1 h
      obtain ⟨-, rfl⟩ := peek_eq_some.1 hp
      split at h
      next =>
        obtain ⟨_, _, hq, -⟩ := bind_eq_some.1 h
        cases (require_eq_some.1 hq).1
      next => exact (pure_eq_some.1 h).2

/-- A signature is a fence, of which nothing depends on what follows it. -/
theorem exists_fences (h : (signature n).run ts = some (decl, rest)) :
    ∃ t v head, ts = t :: v :: head ++ rest ∧ t.is "func" ∧
      ∀ rest', Fences ts (t :: v :: head ++ rest') := by
  obtain ⟨_, r₁, hk, h⟩ := bind_eq_some.1 h
  obtain ⟨r, r₂, hr, h⟩ := bind_eq_some.1 h
  obtain ⟨u, r₃, hu, h⟩ := bind_eq_some.1 h
  obtain ⟨_, r₄, hg, h⟩ := bind_eq_some.1 h
  obtain ⟨params, r₅, hp, h⟩ := bind_eq_some.1 h
  obtain ⟨results, r₆, hs, h⟩ := bind_eq_some.1 h
  obtain ⟨-, rfl⟩ := pure_eq_some.1 h
  obtain ⟨t, hk⟩ := discard_eq_some.1 hk
  obtain ⟨rfl, ht, -⟩ := expect_eq_some.1 hk
  obtain ⟨rfl, hname⟩ := name_eq_some.1 hu
  obtain ⟨q, ps, d, rfl, hq, -, -⟩ := paramList_cons hp
  obtain ⟨res, rfl, -, -⟩ := Parser.takes _ hs
  rcases receiver_eq_some hr with ⟨rfl, rfl⟩ | ⟨hsome, p, us, c, rfl, hopen, hus, hclose⟩
  · obtain ⟨gen, rfl, -, -⟩ := Parser.takes _ hg
    refine ⟨t, u, gen ++ q :: (ps ++ d :: res), by simp, ht, fun rest' => ?_⟩
    exact .function ht hname _ _
  · rw [Option.isNone_eq_false_iff.2 hsome] at hg
    obtain rfl := funcTypeParams_none hg
    refine ⟨t, p, us ++ c :: u :: q :: (ps ++ d :: res), by simp, ht, fun rest' => ?_⟩
    simpa using Fences.method ht hopen hus hclose hname hq (ps ++ d :: (res ++ r₆))
      (ps ++ d :: (res ++ rest'))

/-- A function starts with its keyword. -/
theorem itemKind_func : (itemKind n).run (t :: ts) = some (.func decl, rest) ↔
    t.is "func" ∧ (funcDecl n).run (t :: ts) = some (decl, rest) := by
  constructor
  · intro h
    rcases rule_of_itemKind h with ⟨_, hkind, -⟩ | ⟨_, hkind, hd⟩ | ⟨-, hno⟩
    · cases hkind
    · cases hkind
      exact hd
    · exact (hno decl rfl).elim
  · rintro ⟨ht, hd⟩
    rw [itemKind, run_peek_cons, if_neg (by simp [Token.is_eq_false_of_is ht]),
      if_neg (by simp [Token.is_eq_false_of_is ht]), if_neg (by simp [Token.is_eq_false_of_is ht]),
      if_neg (by simp [Token.isAny_of_is ht]), if_pos ht]
    have hfunc : (ItemKind.func <$> funcDecl n).run (t :: ts) = some (.func decl, rest) :=
      map_eq_some.2 ⟨decl, hd, rfl⟩
    exact bind_eq_some.2 ⟨_, _, foresee_eq_some.2 ⟨rfl, rfl⟩, orElse_eq_some.2 (.inl hfunc)⟩

theorem statements_shut {c : Token} (h : (statements n).run ts = some ((), rest)) (hc : c.is rbrace)
    (us : List Token) : (statements n).run (c :: us) = some ((), c :: us) := by
  cases n with
  | zero => exact (failure_eq_some h).elim
  | succ n =>
      have hends : endsStatements c := by simp [endsStatements, Token.isAny_of_is hc]
      show (if endsStatements c then (pure () : Parser Unit) else _).run _ = _
      rw [if_pos hends]
      rfl

/-- The tokens of a function around its body. What is in front of the braces is read the same in front of
another body. -/
theorem funcDecl_bodied (h : (funcDecl (n + 3)).run us = some (decl, rest)) (hb : decl.braces = some b) :
    ∃ t v head o inner c, us = t :: v :: head ++ o :: (inner ++ c :: rest) ∧ t.is "func" ∧ o.is lbrace ∧
      c.is rbrace ∧ b = ⟨o.extent.span, c.extent.span⟩ ∧
      (statements n).run (inner ++ c :: rest) = some ((), c :: rest) ∧
      (∀ us', Fences us (t :: v :: head ++ us')) ∧
      ∀ inner' c' rest', (statements n).run (inner' ++ c' :: rest') = some ((), c' :: rest') →
        c'.is rbrace →
        (funcDecl (n + 3)).run (t :: v :: head ++ o :: (inner' ++ c' :: rest')) =
          some ({ decl with braces := some ⟨o.extent.span, c'.extent.span⟩ }, rest') := by
  obtain ⟨mid, hs, hbody⟩ := funcDecl_eq_some.1 h
  rw [hb] at hbody
  obtain ⟨o, us, rfl, ho, hline, hblock⟩ := body_eq_some.1 hbody
  obtain ⟨_, _, c, he, -, hinner, hc, rfl⟩ := block_eq_some.1 hblock
  obtain ⟨rfl, rfl⟩ := List.cons.inj he
  obtain ⟨inner, rfl, -, -⟩ := Parser.takes _ hinner
  obtain ⟨t, v, head, rfl, ht, hfences⟩ := exists_fences hs
  refine ⟨t, v, head, o, inner, c, rfl, ht, ho, hc, rfl, hinner, hfences,
    fun inner' c' rest' hinner' hc' => ?_⟩
  have hs' : (signature (n + 2)).run (t :: v :: head ++ o :: (inner' ++ c' :: rest')) =
      some ({ decl with braces := none }, o :: (inner' ++ c' :: rest')) :=
    follows_signature (n + 2) (fun _ _ => trivial) rfl hs _
  refine funcDecl_eq_some.2 ⟨_, hs', body_eq_some.2 ⟨o, _, rfl, ho, hline, ?_⟩⟩
  exact block_eq_some.2 ⟨o, _, c', rfl, ho, hinner', hc', rfl⟩

/-- The tokens around the body of a function in a list of items. -/
structure Bodied (ts front : List Token) (o : Token) (inner : List Token) (c : Token)
    (post : List Token) (pre : List (Sibling Item)) (extent : Extent) (decl : FuncDecl)
    (suf : List (Sibling Item)) : Prop where
  tokens : ts = front ++ o :: (inner ++ c :: post)
  opening : o.is lbrace
  closing : c.is rbrace
  braces : decl.braces = some ⟨o.extent.span, c.extent.span⟩
  row : ∃ t ∈ front, extent.row = t.extent.row
  lastRow : extent.lastRow = c.extent.lastRow
  /-- What is in front of the body is read of the tokens up to it. -/
  before : ∀ d : Motion, (∀ t ∈ front, d.token t = t) → d.token o = o →
    pre.map (d.sibling d.item) = pre ∧
      d.func { decl with braces := none } = { decl with braces := none }
  /-- What is behind the body is read of the tokens behind it. -/
  behind : ∀ d : Motion, (∀ t ∈ post, d.token t = t) → suf.map (d.sibling d.item) = suf

namespace Itemized

/-- A brace right where a body is opened. -/
def shut (o : Token) : Token := ⟨.fixed, rbrace, o.extent, false, []⟩

/-- The end of a text right where a body is opened. -/
def stopped (o : Token) : Token := ⟨.stop, "", o.extent, true, []⟩

theorem token_eq_of_extent {d : Motion} (h : d.token o = o) {kind : TokenKind} (hk : kind ≠ .string)
    (text : String) (newline : Bool) :
    d.token ⟨kind, text, o.extent, newline, []⟩ = ⟨kind, text, o.extent, newline, []⟩ := by
  have he : d.extent o.extent = o.extent := congrArg Token.extent h
  simp [Motion.token, he, hk]

/-- A list of items is read the same up to the body of a function where the body is another one. -/
theorem replace_body {pre suf : List (Sibling Item)} {extent : Extent}
    (h : Itemized (n + 3) ts (pre ++ .member ⟨extent, .func decl⟩ :: suf) rest)
    (hk : ∀ i ∈ members pre, i.kind ≠ .statement) (hb : decl.braces = some b) :
    ∃ front z o inner c sep u us more used, ts = front ++ o :: (inner ++ c :: (sep ++ u :: us)) ∧
      z ∈ front ∧ (∀ y ∈ front ++ o :: (inner ++ c :: sep), y.isSolid) ∧ o.is lbrace ∧ c.is rbrace ∧
      b = ⟨o.extent.span, c.extent.span⟩ ∧ extent = z.extent.through c.extent ∧
      suf = sep.flatMap commentSiblings ++ more ∧ Itemized (n + 3) (u :: us) more rest ∧
      (statements n).run (inner ++ c :: (sep ++ u :: us)) = some ((), c :: (sep ++ u :: us)) ∧
      extentOf used = extent ∧ Parted used (.func decl) sep u us ∧
      ∀ inner' c' sep' u' us' more' rest',
        (statements n).run (inner' ++ c' :: (sep' ++ u' :: us')) = some ((), c' :: (sep' ++ u' :: us')) →
        c'.is rbrace →
        (∀ used kind, extentOf used = z.extent.through c'.extent → endsText kind used →
          Parted used kind sep' u' us') →
        Itemized (n + 3) (u' :: us') more' rest' →
        Itemized (n + 3) (front ++ o :: (inner' ++ c' :: (sep' ++ u' :: us')))
          (pre ++ .member ⟨z.extent.through c'.extent,
            .func { decl with braces := some ⟨o.extent.span, c'.extent.span⟩ }⟩ ::
              (sep'.flatMap commentSiblings ++ more')) rest' := by
  obtain ⟨before, z, seg, sep, u, us, more, rfl, hsolid, rfl, hkind, hsep, hmore, rfl, hnext⟩ := h.replace hk
  obtain ⟨-, hdecl⟩ := itemKind_func.1 hkind
  obtain ⟨t, v, head, o, inner, c, hus, ht, ho, hc, rfl, hinner, hfences, hgrow⟩ := funcDecl_bodied hdecl hb
  obtain ⟨rfl, hrest⟩ := List.cons.inj hus
  obtain rfl : seg = v :: head ++ o :: (inner ++ [c]) :=
    (List.append_left_inj (sep ++ u :: us)).1 (hrest.trans (by simp))
  have hextent (inner : List Token) (c : Token) :
      extentOf (z :: (v :: head ++ o :: (inner ++ [c]))) = z.extent.through c.extent := by
    have hlast : z :: (v :: head ++ o :: (inner ++ [c])) = z :: (v :: head ++ o :: inner) ++ [c] := by simp
    rw [hlast, extentOf_append_singleton]
  have hitem : ∀ y ∈ z :: (v :: head ++ o :: (inner ++ [c])), y.isSolid := (itemKind (n + 3)).solid hkind
  have hsep' := hsep.solid
  refine ⟨before ++ z :: v :: head, z, o, inner, c, sep, u, us, more, _, by simp, by simp, fun y hy => ?_, ho,
    hc, rfl, hextent inner c, rfl, hmore, hinner, rfl, hsep,
    fun inner' c' sep' u' us' more' rest' hinner' hc' hparted hmore' => ?_⟩
  · simp only [List.mem_append, List.mem_cons] at hy hitem
    grind
  · have hlist : z :: v :: head ++ o :: (inner' ++ c' :: (sep' ++ u' :: us')) =
        z :: (v :: head ++ o :: (inner' ++ [c'])) ++ (sep' ++ u' :: us') := by simp
    have hkind' := itemKind_func.2 ⟨ht, hgrow inner' c' _ hinner' hc'⟩
    have hfront := hfences (o :: (inner' ++ c' :: (sep' ++ u' :: us')))
    rw [hlist] at hfront
    change (itemKind (n + 3)).run (z :: v :: head ++ o :: (inner' ++ c' :: (sep' ++ u' :: us'))) = _ at hkind'
    rw [hlist] at hkind'
    have hall := hnext _ _ _ _ _ _ _ hkind' (hparted _ _ (hextent inner' c') rfl) hmore' rfl hfront
    rw [hextent] at hall
    simpa using hall

/-- A list of items is read the same where a function has another body, and what is behind moves on. -/
theorem rebody {pre suf : List (Sibling Item)} {extent : Extent}
    (h : Itemized (n + 3) ts (pre ++ .member ⟨extent, .func decl⟩ :: suf) rest)
    (hn : Covered (n + 3) ts) (hk : ∀ i ∈ members pre, i.kind ≠ .statement) (hb : decl.braces = some b) :
    ∃ front o inner c post, Bodied ts front o inner c post pre extent decl suf ∧
      ∀ (d : Shift) inner' c', c'.is rbrace → c'.extent = d.motion.extent c.extent →
        (∀ t ∈ post, d.Reaches t.extent) →
        (statements n).run (inner' ++ c' :: post.map d.motion.token) =
          some ((), c' :: post.map d.motion.token) →
        forgivenFrom ≤ dropCost (d.widerExtent extent) →
        Itemized (n + 3) (front ++ o :: (inner' ++ c' :: post.map d.motion.token))
          (pre ++ .member ⟨d.widerExtent extent,
            .func { decl with braces := some ⟨o.extent.span, c'.extent.span⟩ }⟩ ::
              suf.map (d.motion.sibling d.motion.item)) (rest.map d.motion.token) := by
  obtain ⟨front, z, o, inner, c, sep, u, us, more, used, rfl, hz, hsolid, ho, hc, rfl, rfl, rfl, hmore, hinner,
    hused, hsep, hnext⟩ := h.replace_body hk hb
  have hcu : Covered (n + 3) (u :: us) :=
    Covered.append (l := front ++ o :: (inner ++ c :: sep)) (by simpa using hn) hsolid
  refine ⟨front, o, inner, c, sep ++ u :: us, ⟨rfl, ho, hc, hb, ⟨z, hz, rfl⟩, rfl, fun d hd hdo => ?_,
    fun d hd => ?_⟩, ?_⟩
  · -- The list up to the body, with an empty body and nothing behind it, has no token that moves.
    have hshut := hnext [] (shut o) [] (stopped o) [] [] _ (statements_shut hinner rfl _) rfl
      (fun _ _ _ _ => .inl ⟨rfl, .inl rfl⟩) (.stop rfl)
    have hbound := hn.bound
    have hcovered : Covered (n + 3) (front ++ o :: ([] ++ shut o :: ([] ++ stopped o :: []))) :=
      ⟨⟨stopped o, by simp, rfl⟩, by simp at hbound ⊢; omega⟩
    have hfixed := hshut.fixed (d := d) hcovered fun y hy => by
      simp only [List.nil_append, List.mem_append, List.mem_cons, List.not_mem_nil, or_false] at hy
      rcases hy with hy | rfl | rfl | rfl
      · exact hd y hy
      · exact hdo
      · exact token_eq_of_extent hdo (by decide) _ _
      · exact token_eq_of_extent hdo (by decide) _ _
    rw [List.map_append, List.map_cons] at hfixed
    obtain ⟨hpre, hitem⟩ := List.append_inj hfixed (by simp)
    have hfunc := ItemKind.func.inj (Item.mk.inj (Sibling.member.inj (List.cons.inj hitem).1)).2
    refine ⟨hpre, ?_⟩
    simp only [Motion.func, FuncDecl.mk.injEq] at hfunc ⊢
    exact ⟨hfunc.1, hfunc.2.1, hfunc.2.2.1, hfunc.2.2.2.1, rfl⟩
  · rw [List.map_append, siblings_fixed fun y hy => hd y (List.mem_append_left _ hy),
      hmore.fixed hcu fun y hy => hd y (List.mem_append_right sep hy)]
  intro d inner' c' hc' hmoved hreach hinner' hcost
  have hpost : (sep ++ u :: us).map d.motion.token =
      sep.map d.motion.token ++ d.motion.token u :: us.map d.motion.token := by simp
  have hreach' : ∀ y ∈ u :: us, d.Reaches y.extent := fun y hy => hreach y (List.mem_append_right sep hy)
  have hwider : z.extent.through c'.extent = d.widerExtent (z.extent.through c.extent) := by
    rw [hmoved]
    rfl
  rw [hpost] at hinner' ⊢
  have hall := hnext inner' c' _ _ _ _ _ hinner' hc' (fun used' kind he hends => ?_)
    (hmore.move hcu (Shift.fair hreach'))
  · rwa [hwider, hsep.siblings, ← List.map_append] at hall
  · rw [← hused] at hwider hcost
    exact hsep.grown hcu.ended (hreach' u List.mem_cons_self) (he.trans hwider) hcost fun _ => hends

end Itemized

end GoOutline.Syntax.Grammar
