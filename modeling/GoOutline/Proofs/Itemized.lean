import GoOutline.Proofs.Holes

/-!
Lists of items. A declaration in front of another one is read the same whatever that is, and where one
grows, what stands behind it moves on.
-/

namespace GoOutline.Syntax.Grammar

open Syntax.Parser

variable {n : Nat} {ts us rest : List Token}

/-- Behind a declaration without a break, what follows can be told apart. -/
def mayDrop (e : Extent) (t u : Token) : Bool :=
  forgivenFrom ≤ dropCost e && !(t.kind != .stop && isCheap t && endsAlone u)

/-- What stands between an item and the token behind it that goes on: a line feed or a semicolon, or
nothing if this is forgiven or the end of the text. -/
def Parted (used : List Token) (kind : ItemKind) (sep : List Token) (u : Token) (us : List Token) :
    Prop :=
  (sep = [] ∧ (u.newline ∨ (isTerminator u = false ∧ (mayDrop (extentOf used) u (lookAt 1 (u :: us)) ∨
    (u.kind == .stop && endsText kind used))))) ∨
  ∃ s, sep = [s] ∧ s.newline = false ∧ isTerminator s

/-- A list of items up to the end of the text, without a bound on their number. -/
inductive Itemized (n : Nat) : List Token → List (Sibling Item) → List Token → Prop where
  | stop {t : Token} {rest : List Token} (ht : t.kind = .stop) :
      Itemized n (t :: rest) (commentSiblings t) (t :: rest)
  | next {t u : Token} {seg sep us rest : List Token} {kind : ItemKind} {more : List (Sibling Item)}
      (ht : t.kind ≠ .stop)
      (hk : (itemKind n).run (t :: seg ++ (sep ++ u :: us)) = some (kind, sep ++ u :: us))
      (hs : Parted (t :: seg) kind sep u us) (h : Itemized n (u :: us) more rest) :
      Itemized n (t :: seg ++ (sep ++ u :: us))
        (commentSiblings t ++ .member ⟨extentOf (t :: seg), kind⟩ ::
          (sep.flatMap commentSiblings ++ more)) rest

theorem forgiven_run (e : Extent) (u : Token) (us : List Token) :
    (forgiven e).run (u :: us) = some (mayDrop e u (lookAt 1 (u :: us)), u :: us) := rfl

theorem itemized_of_itemList {k : Nat} {items : List (Sibling Item)} (he : Ended ts)
    (h : (itemList n k).run ts = some (items, rest)) : Itemized n ts items rest := by
  induction k generalizing ts items with
  | zero => cases h
  | succ k ih =>
      rcases ts with _ | ⟨t, ts⟩
      · exact absurd rfl he.ne_nil
      rw [itemList, run_peek_cons] at h
      split at h
      next ht =>
        obtain ⟨rfl, rfl⟩ := pure_eq_some.1 h
        exact .stop (by simpa using ht)
      next ht =>
        obtain ⟨⟨used, kind⟩, mid, htake, hrest⟩ := bind_eq_some.1 h
        obtain ⟨hu, hk⟩ := taking_eq_some.1 htake
        have hsolid : ∀ x ∈ used, x.isSolid := (itemKind n).solid (hu ▸ hk)
        have hmid : Ended mid := (hu ▸ he).of_append hsolid
        obtain ⟨seg, rfl⟩ := (consumes_itemKind n).exists_cons hk
        obtain rfl : t :: seg = used :=
          (List.append_left_inj mid).1 (by rw [← hu]; rfl)
        have ht' : t.kind ≠ .stop := by simpa using ht
        rcases mid with _ | ⟨u, us⟩
        · exact absurd rfl hmid.ne_nil
        rw [run_peek_cons] at hrest
        split at hrest
        next hn =>
          obtain ⟨more, _, hm, hend⟩ := bind_eq_some.1 hrest
          obtain ⟨rfl, rfl⟩ := pure_eq_some.1 hend
          have hs : Parted (t :: seg) kind [] u us := .inl ⟨rfl, .inl hn⟩
          have hnext := Itemized.next ht' hk hs (ih hmid hm)
          simpa using hnext
        next hn =>
          rw [Bool.not_eq_true] at hn
          split at hrest
          next hterm =>
            obtain ⟨_, _, hv, hend⟩ := bind_eq_some.1 hrest
            obtain ⟨v, hv⟩ := discard_eq_some.1 hv
            rw [advance_of_isTerminator hterm] at hv
            cases hv
            obtain ⟨more, _, hm, hend⟩ := bind_eq_some.1 hend
            obtain ⟨rfl, rfl⟩ := pure_eq_some.1 hend
            have hus : Ended us := by
              obtain ⟨text, _, hs⟩ := Token.exists_is_of_isAny hterm
              exact hmid.of_cons (Token.isSolid_of_is hs)
            rcases us with _ | ⟨w, ws⟩
            · exact absurd rfl hus.ne_nil
            have hs : Parted (t :: seg) kind [u] w ws := .inr ⟨u, rfl, hn, hterm⟩
            have hnext := Itemized.next ht' hk hs (ih hus hm)
            simpa using hnext
          next hterm =>
            rw [Bool.not_eq_true] at hterm
            obtain ⟨_, _, hf, hend⟩ := bind_eq_some.1 hrest
            rw [forgiven_run] at hf
            cases hf
            obtain ⟨_, _, hq, hend⟩ := bind_eq_some.1 hend
            obtain ⟨hcond, rfl⟩ := require_eq_some.1 hq
            obtain ⟨more, _, hm, hend⟩ := bind_eq_some.1 hend
            obtain ⟨rfl, rfl⟩ := pure_eq_some.1 hend
            have hs : Parted (t :: seg) kind [] u us :=
              .inl ⟨rfl, .inr ⟨hterm, by simpa using hcond⟩⟩
            have hnext := Itemized.next ht' hk hs (ih hmid hm)
            simpa using hnext

namespace Itemized

theorem itemList {items : List (Sibling Item)} (h : Itemized n ts items rest) {k : Nat}
    (hk : (members items).length < k) : (itemList n k).run ts = some (items, rest) := by
  induction h generalizing k with
  | stop ht =>
      obtain ⟨k, rfl⟩ := Nat.exists_eq_succ_of_ne_zero (Nat.ne_zero_of_lt hk)
      rw [Grammar.itemList, run_peek_cons, if_pos (by simpa using ht)]
      rfl
  | @next t u seg sep us rest kind more ht hkind hs h ih =>
      obtain ⟨k, rfl⟩ := Nat.exists_eq_succ_of_ne_zero (Nat.ne_zero_of_lt hk)
      have hm := ih (k := k) (by simp at hk; omega)
      have htake : (taking (itemKind n)).run (t :: seg ++ (sep ++ u :: us)) =
          some ((t :: seg, kind), sep ++ u :: us) := taking_eq_some.2 ⟨rfl, hkind⟩
      rw [List.cons_append] at htake ⊢
      rw [Grammar.itemList, run_peek_cons, if_neg (by simpa using ht), run_bind, htake,
        Option.bind_some]
      rcases hs with ⟨rfl, hs⟩ | ⟨s, rfl, hn, hterm⟩
      · show (peek >>= _).run (u :: us) = _
        rw [run_peek_cons]
        by_cases hn : u.newline
        · rw [if_pos hn, run_bind, hm]
          simp [pure]
        · obtain ⟨hterm, hcond⟩ := hs.resolve_left hn
          have hq : (require (mayDrop (extentOf (t :: seg)) u (lookAt 1 (u :: us)) ||
              (u.kind == .stop && endsText kind (t :: seg)))).run (u :: us) = some ((), u :: us) :=
            require_eq_some.2 ⟨by simpa using hcond, rfl⟩
          rw [if_neg hn, if_neg (by simp [hterm]), run_bind, forgiven_run, Option.bind_some, run_bind,
            hq, Option.bind_some, run_bind, hm]
          simp [pure]
      · have hv : (discard advance).run (s :: u :: us) = some (⟨⟩, u :: us) :=
          discard_eq_some.2 ⟨s, advance_of_isTerminator hterm _⟩
        show (peek >>= _).run (s :: u :: us) = _
        rw [run_peek_cons, if_neg (by simp [hn]), if_pos hterm, run_bind, hv, Option.bind_some,
          run_bind, hm]
        simp [pure]

end Itemized

theorem agrees_importSpec : Agrees importSpec := by
  have hname : Stops importName := by
    refine .peek (g := pure none) (fun t => .ite ?_ (.pure _)) (fun z hz => ?_) (.pure _)
    · exact .bind Halts.advance fun _ => .pure _
    · simp [hz.is_eq_false, hz.kind_beq]
  refine Agrees.bind (.placed (hname.agrees.bind fun name => ?_)) fun x => .pure _
  exact (Stops.ofKind (by decide) (by decide)).agrees.bind fun path => .pure _

theorem agrees_importDecl (n : Nat) : Agrees (importDecl n) := by
  refine (agrees_expect "import").bind fun keyword => .peek (fun t => .ite ?_ ?_) fun z z' hz hz' _ => ?_
  · exact ((Stops.group _ _).bind fun specs => .pure _).agrees
  · exact agrees_importSpec.bind fun spec => .pure _
  · simp [hz.fence.is_eq_false, hz'.fence.is_eq_false]

theorem agrees_package : Agrees (packageClause >>= fun name =>
    pure (ItemKind.package name.text name.extent.span)) :=
  ((agrees_expect "package").discard.bind fun _ => Stops.name.agrees).bind fun _ => .pure _

/-- A declaration is read the same in front of fences that cannot be told apart. -/
theorem itemKind_ahead {pre left zs zs' : List Token} {kind : ItemKind}
    (hpre : Balanced pre) (hne : pre ≠ []) (hz : Fences zs zs')
    (h : (itemKind n).run (pre ++ zs) = some (kind, left ++ zs)) (hk : kind ≠ .statement) :
    (itemKind n).run (pre ++ zs') = some (kind, left ++ zs') := by
  obtain ⟨t, pre, rfl⟩ := List.exists_cons_of_ne_nil hne
  rw [List.cons_append, itemKind, run_peek_cons] at h ⊢
  rw [← List.cons_append] at h ⊢
  split at h
  next ht =>
    rw [if_pos ht]
    exact agrees_package hpre hz h
  next ht =>
    rw [if_neg ht]
    split at h
    next ht =>
      rw [if_pos ht]
      exact (agrees_importDecl n).map ItemKind.imports hpre hz h
    next ht =>
      rw [if_neg ht]
      split at h
      next ht =>
        rw [if_pos ht]
        exact (agrees_typeDecl n).map ItemKind.types hpre hz h
      next ht =>
        rw [if_neg ht]
        split at h
        next ht =>
          rw [if_pos ht]
          have hvalues : Agrees (valueDecl n >>= fun _ => pure ItemKind.values) :=
            (agrees_valueDecl n).bind fun _ => .pure _
          exact hvalues hpre hz h
        next ht =>
          rw [if_neg ht]
          split at h
          next ht =>
            rw [if_pos ht]
            obtain ⟨method, _, hm, h⟩ := bind_eq_some.1 h
            obtain ⟨_, rfl⟩ := foresee_eq_some.1 hm
            refine bind_eq_some.2 ⟨_, _, foresee_eq_some.2 ⟨rfl, rfl⟩, orElse_eq_some.2 (.inl ?_)⟩
            rcases orElse_eq_some.1 h with h | ⟨_, h⟩
            · exact (agrees_funcDecl n).map ItemKind.func hpre hz h
            · obtain ⟨_, _, _, hend⟩ := seqRight_eq_some.1 h
              exact absurd (pure_eq_some.1 hend).1.symm hk
          next ht =>
            obtain ⟨_, _, _, hend⟩ := bind_eq_some.1 h
            exact absurd (pure_eq_some.1 hend).1.symm hk

/-- What an item is shows which rule has read it. -/
theorem rule_of_itemKind {t : Token} {kind : ItemKind} (h : (itemKind n).run (t :: ts) = some (kind, rest)) :
    (∃ d, kind = .types d ∧ t.is "type" ∧ (typeDecl n).run (t :: ts) = some (d, rest)) ∨
      (∃ d, kind = .func d ∧ t.is "func" ∧ (funcDecl n).run (t :: ts) = some (d, rest)) ∨
      (∀ d, kind ≠ .types d) ∧ ∀ d, kind ≠ .func d := by
  rw [itemKind, run_peek_cons] at h
  split at h
  next =>
    obtain ⟨_, _, _, hend⟩ := bind_eq_some.1 h
    cases (pure_eq_some.1 hend).1
    exact .inr (.inr (by simp))
  next =>
    split at h
    next =>
      obtain ⟨_, _, rfl⟩ := map_eq_some.1 h
      exact .inr (.inr (by simp))
    next =>
      split at h
      next ht =>
        obtain ⟨d, hd, rfl⟩ := map_eq_some.1 h
        exact .inl ⟨d, rfl, ht, hd⟩
      next =>
        split at h
        next =>
          obtain ⟨_, _, _, hend⟩ := bind_eq_some.1 h
          cases (pure_eq_some.1 hend).1
          exact .inr (.inr (by simp))
        next =>
          split at h
          next ht =>
            obtain ⟨_, _, hm, h⟩ := bind_eq_some.1 h
            obtain ⟨_, rfl⟩ := foresee_eq_some.1 hm
            rcases orElse_eq_some.1 h with h | ⟨_, h⟩
            · obtain ⟨d, hd, rfl⟩ := map_eq_some.1 h
              exact .inr (.inl ⟨d, rfl, ht, hd⟩)
            · obtain ⟨_, _, _, hend⟩ := seqRight_eq_some.1 h
              cases (pure_eq_some.1 hend).1
              exact .inr (.inr (by simp))
          next =>
            obtain ⟨_, _, _, hend⟩ := bind_eq_some.1 h
            cases (pure_eq_some.1 hend).1
            exact .inr (.inr (by simp))

/-- A declaration of types starts with its keyword. -/
theorem itemKind_types {t : Token} {d : TypeDecl} :
    (itemKind n).run (t :: ts) = some (.types d, rest) ↔
      t.is "type" ∧ (typeDecl n).run (t :: ts) = some (d, rest) := by
  constructor
  · intro h
    rcases rule_of_itemKind h with ⟨_, hkind, hd⟩ | ⟨_, hkind, -⟩ | ⟨hno, -⟩
    · cases hkind
      exact hd
    · cases hkind
    · exact (hno d rfl).elim
  · rintro ⟨ht, hd⟩
    rw [itemKind, run_peek_cons, if_neg (by simp [Token.is_eq_false_of_is ht]),
      if_neg (by simp [Token.is_eq_false_of_is ht]), if_pos ht]
    exact map_eq_some.2 ⟨d, hd, rfl⟩

theorem Parted.members {α : Type} {used sep : List Token} {kind : ItemKind} {u : Token}
    (h : Parted used kind sep u us) :
    members (sep.flatMap commentSiblings : List (Sibling α)) = [] := by
  rcases h with ⟨rfl, _⟩ | ⟨s, rfl, _⟩
  · rfl
  · simp

theorem Parted.balanced {used sep : List Token} {kind : ItemKind} {u : Token}
    (h : Parted used kind sep u us) : Balanced sep := by
  rcases h with ⟨rfl, _⟩ | ⟨s, rfl, _, hs⟩
  · exact balanced_nil
  · obtain ⟨_, _, hp⟩ := advance_eq_some.1 (advance_of_isTerminator hs [])
    exact balanced_of_isPlain hp

theorem Parted.solid {used sep : List Token} {kind : ItemKind} {u : Token}
    (h : Parted used kind sep u us) : ∀ t ∈ sep, t.isSolid := by
  rcases h with ⟨rfl, _⟩ | ⟨s, rfl, _, hs⟩
  · simp
  · obtain ⟨text, _, hs⟩ := Token.exists_is_of_isAny hs
    simpa using Token.isSolid_of_is hs

/-- Behind an item, what is seen of the end of the text is that it ends. -/
theorem Parted.restop {used sep pre after : List Token} {kind : ItemKind} {u z z' : Token}
    (h : Parted used kind sep u us) (he : u :: us = pre ++ z :: after)
    (ha : endsAlone z = endsAlone z') (hline : z'.newline) (after' : List Token) :
    ∃ v vs, pre ++ z' :: after' = v :: vs ∧ Parted used kind sep v vs := by
  rcases pre with _ | ⟨v, pre⟩
  · refine ⟨z', after', rfl, ?_⟩
    rcases h with ⟨hnil, _⟩ | h
    · exact .inl ⟨hnil, .inl hline⟩
    · exact .inr h
  · rw [List.cons_append] at he
    obtain ⟨rfl, rfl⟩ := List.cons.inj he
    refine ⟨u, pre ++ z' :: after', rfl, ?_⟩
    have hl : endsAlone (lookAt 1 (u :: (pre ++ z' :: after'))) =
        endsAlone (lookAt 1 (u :: (pre ++ z :: after))) := by
      cases pre with
      | nil =>
          simp only [List.nil_append, lookAt]
          split
          · exact ha.symm
          · rfl
      | cons w pre => rfl
    rcases h with ⟨hnil, h⟩ | h
    · exact .inl ⟨hnil, by simpa only [mayDrop, hl] using h⟩
    · exact .inr h

theorem lookAt_one_behind {z : Token} {us us' : List Token} (h : lookAt 1 (z :: us') = lookAt 1 (z :: us))
    (before : List Token) : lookAt 1 (before ++ z :: us') = lookAt 1 (before ++ z :: us) := by
  rcases before with _ | ⟨x, _ | ⟨y, before⟩⟩
  · exact h
  · rfl
  · rfl

namespace Itemized

/-- The items in front of one of them, and the list from there on. What is in front is read the same in
front of another list that starts alike. -/
theorem split {pre suf : List (Sibling Item)} {i : Item} (h : Itemized n ts (pre ++ .member i :: suf) rest)
    (hk : ∀ i ∈ members pre, i.kind ≠ .statement) :
    ∃ before z us pre', ts = before ++ z :: us ∧ Balanced before ∧ (∀ t ∈ before, t.isSolid) ∧
      pre = pre' ++ commentSiblings z ∧
      Itemized n (z :: us) (commentSiblings z ++ .member i :: suf) rest ∧
      ∀ us' items' rest', lookAt 1 (z :: us') = lookAt 1 (z :: us) → Fences (z :: us) (z :: us') →
        Itemized n (z :: us') items' rest' →
          Itemized n (before ++ z :: us') (pre' ++ items') rest' := by
  generalize hs : pre ++ .member i :: suf = items at h
  induction h generalizing pre with
  | stop ht =>
      have hm := congrArg members hs
      simp at hm
  | @next t u seg sep us rest kind more ht hkind hsep h ih =>
      obtain ⟨pre, rfl, hm⟩ := exists_of_members_eq_nil (members_commentSiblings t) hs.symm
      rcases pre with _ | ⟨x, pre⟩
      · obtain ⟨hx, rfl⟩ := List.cons.inj hm
        cases hx
        exact ⟨[], t, _, [], rfl, balanced_nil, by simp, by simp, .next ht hkind hsep h,
          fun _ _ _ _ _ hl => hl⟩
      · obtain ⟨rfl, hrest⟩ := List.cons.inj hm
        obtain ⟨pre, rfl, hsuf⟩ := exists_of_members_eq_nil hsep.members hrest
        have hkinds : ∀ i ∈ members pre, i.kind ≠ .statement := fun i hi => hk i (by simp [hi])
        obtain ⟨before, z, vs, pre', he, hb, hsolid, rfl, hl, hnext⟩ := ih hkinds hsuf.symm
        have hseg : Balanced (t :: seg) := by
          obtain ⟨_, hu, _, hb⟩ := (itemKind n).takes hkind
          rwa [List.append_cancel_right hu]
        refine ⟨t :: seg ++ (sep ++ before), z, vs,
          commentSiblings t ++ .member ⟨extentOf (t :: seg), kind⟩ ::
            (sep.flatMap commentSiblings ++ pre'), by rw [he]; simp,
          hseg.append (hsep.balanced.append hb), ?_, by simp, hl, ?_⟩
        · intro y hy
          rcases List.mem_append.1 hy with hy | hy
          · exact (itemKind n).solid hkind y hy
          · exact (List.mem_append.1 hy).elim (hsep.solid y) (hsolid y)
        intro us' items' rest' hlook hz hl'
        have hmore := hnext us' items' rest' hlook hz hl'
        have hold : (itemKind n).run (t :: seg ++ (sep ++ before) ++ z :: vs) =
            some (kind, sep ++ before ++ z :: vs) := by
          rw [he] at hkind
          simpa using hkind
        have hdecl : kind ≠ .statement := hk ⟨extentOf (t :: seg), kind⟩ (by simp)
        have hnew := itemKind_ahead (hseg.append (hsep.balanced.append hb)) (by simp) hz hold hdecl
        have hlook' : lookAt 1 (before ++ z :: us') = lookAt 1 (u :: us) := by
          rw [he]
          exact lookAt_one_behind hlook before
        obtain ⟨ws, hw⟩ : ∃ ws, before ++ z :: us' = u :: ws := by
          rcases before with _ | ⟨x, before⟩
          · exact ⟨us', by rw [← (List.cons.inj he).1]; rfl⟩
          · exact ⟨before ++ z :: us', by rw [← (List.cons.inj he).1]; rfl⟩
        rw [hw] at hmore hlook'
        have hsep' : Parted (t :: seg) kind sep u ws := by
          rcases hsep with ⟨hnil, h⟩ | h
          · exact .inl ⟨hnil, by rwa [hlook']⟩
          · exact .inr h
        have hitem := Itemized.next ht (by simpa [hw] using hnew) hsep' hmore
        simpa [hw] using hitem

theorem length_members {items : List (Sibling Item)} (h : Itemized n ts items rest) :
    (members items).length + rest.length ≤ ts.length := by
  induction h with
  | stop ht => simp
  | @next t u seg sep us rest kind more ht hk hs h ih =>
      simp only [List.length_append, List.length_cons, members_append, members_commentSiblings,
        members_member, hs.members, List.nil_append] at ih ⊢
      omega

/-- A list of items takes everything up to the end of the text. -/
theorem takes {items : List (Sibling Item)} (h : Itemized n ts items rest) :
    ∃ pre z after, ts = pre ++ z :: after ∧ rest = z :: after ∧ z.kind = .stop ∧
      ∀ t ∈ pre, t.isSolid := by
  induction h with
  | @stop t rest ht => exact ⟨[], t, rest, rfl, rfl, ht, by simp⟩
  | @next t u seg sep us rest kind more ht hk hs h ih =>
      obtain ⟨pre, z, after, he, rfl, hz, hpre⟩ := ih
      refine ⟨t :: seg ++ sep ++ pre, z, after, by rw [he]; simp, rfl, hz, fun x hx => ?_⟩
      rcases List.mem_append.1 hx with hx | hx
      · rcases List.mem_append.1 hx with hx | hx
        · exact (itemKind n).solid hk x hx
        · exact hs.solid x hx
      · exact hpre x hx

/-- The same tokens have one list of items. -/
theorem unique {items items' : List (Sibling Item)} {rest' : List Token}
    (h : Itemized n ts items rest) (h' : Itemized n ts items' rest') : items = items' := by
  have hk := h.itemList (k := (members items).length + (members items').length + 1) (by omega)
  rw [h'.itemList (by omega)] at hk
  exact (Prod.mk.inj (Option.some.inj hk)).1.symm

/-- The same list at other places, with another bound. -/
theorem relocate {d : Motion} {m : Nat} {items : List (Sibling Item)} (h : Itemized n ts items rest)
    (hn : Covered n ts) (hm : Covered m ts) (hd : d.Fair ts) :
    Itemized m (ts.map d.token) (items.map (d.sibling d.item)) (rest.map d.token) := by
  have hb := hn.bound
  have hb' := hm.bound
  have hlen := h.length_members
  have hs : Sim d ts.length (Maps (List.map (d.sibling d.item)))
      (Grammar.itemList n n) (Grammar.itemList m m) :=
    sim_itemList (by omega) (by omega) (by omega) (by omega)
  rcases hs ⟨hn.ended, hd⟩ (Nat.le_refl _) with ⟨hno, _⟩ | ⟨items', moved, rest', ha, hm, rfl⟩
  · rw [h.itemList (by omega)] at hno
    cases hno
  · rw [h.itemList (by omega)] at ha
    cases ha
    refine itemized_of_itemList ?_ hm
    obtain ⟨y, hy, hys⟩ := hn.ended
    exact ⟨d.token y, by rw [List.getLast?_map, hy]; rfl, hys⟩

theorem move {d : Motion} {items : List (Sibling Item)} (h : Itemized n ts items rest)
    (hn : Covered n ts) (hd : d.Fair ts) :
    Itemized n (ts.map d.token) (items.map (d.sibling d.item)) (rest.map d.token) :=
  h.relocate hn hn hd

/-- The bound does not matter. -/
theorem rebound {m : Nat} {items : List (Sibling Item)} (h : Itemized n ts items rest)
    (hn : Covered n ts) (hm : Covered m ts) : Itemized m ts items rest := by
  have hr := h.relocate (d := Motion.none) hn hm fun _ _ _ _ => Motion.none_judges _
  rwa [Motion.map_none Motion.none_token, Motion.map_none Motion.none_token,
    Motion.map_none (Motion.none_sibling Motion.none_item)] at hr

/-- Items whose tokens stay stay. -/
theorem fixed {d : Motion} {items : List (Sibling Item)} (h : Itemized n ts items rest)
    (hn : Covered n ts) (hd : ∀ t ∈ ts, d.token t = t) :
    items.map (d.sibling d.item) = items := by
  have hm := h.move hn (Motion.fair_of_fixed hd)
  rw [(List.map_congr_left hd).trans (List.map_id ts)] at hm
  exact hm.unique h

/-- A list of declarations goes on in another way at its end, on a line of its own. -/
theorem restop {z z' : Token} {after : List Token} {items : List (Sibling Item)}
    (h : Itemized n ts items (z :: after)) (hz : Mute z) (hz' : Mute z')
    (ha : endsAlone z = endsAlone z') (hline : z'.newline)
    (hk : ∀ i ∈ members items, i.kind ≠ .statement) (after' : List Token) :
    ∃ pre front, ts = pre ++ z :: after ∧ items = front ++ commentSiblings z ∧
      ∀ more rest', Itemized n (z' :: after') more rest' →
        Itemized n (pre ++ z' :: after') (front ++ more) rest' := by
  suffices hmain : ∃ pre front, ts = pre ++ z :: after ∧ Balanced pre ∧
      items = front ++ commentSiblings z ∧ ∀ more rest', Itemized n (z' :: after') more rest' →
        Itemized n (pre ++ z' :: after') (front ++ more) rest' by
    obtain ⟨pre, front, hts, -, hitems, hnext⟩ := hmain
    exact ⟨pre, front, hts, hitems, hnext⟩
  generalize hrest : z :: after = rest at h
  induction h with
  | stop ht =>
      cases hrest
      exact ⟨[], [], rfl, balanced_nil, rfl, fun _ _ h => h⟩
  | @next t u seg sep us rest kind more ht hkind hsep h ih =>
      subst hrest
      have hkinds : ∀ i ∈ members more, i.kind ≠ .statement := fun i hi => hk i (by simp [hi])
      obtain ⟨pre, front, he, hb, rfl, hnext⟩ := ih hkinds rfl
      have hseg : Balanced (t :: seg) := by
        obtain ⟨_, hu, _, hb⟩ := (itemKind n).takes hkind
        rwa [List.append_cancel_right hu]
      have hbal : Balanced (t :: seg ++ (sep ++ pre)) := hseg.append (hsep.balanced.append hb)
      have hold : (itemKind n).run (t :: seg ++ (sep ++ pre) ++ z :: after) =
          some (kind, sep ++ pre ++ z :: after) := by
        rw [he] at hkind
        simpa using hkind
      have hdecl : kind ≠ .statement := hk ⟨extentOf (t :: seg), kind⟩ (by simp)
      have hnew := itemKind_ahead hbal (by simp) (.mute hz hz' ha after after') hold hdecl
      refine ⟨t :: seg ++ (sep ++ pre), commentSiblings t ++ .member ⟨extentOf (t :: seg), kind⟩ ::
        (sep.flatMap commentSiblings ++ front), by rw [he]; simp, hbal, by simp,
        fun items' rest' hl => ?_⟩
      obtain ⟨v, vs, hv, hpart⟩ := hsep.restop he ha hline after'
      have hmore := hnext items' rest' hl
      rw [hv] at hmore
      have hitem := Itemized.next ht (by simpa [hv] using hnew) hpart hmore
      simpa [hv] using hitem

end Itemized

end GoOutline.Syntax.Grammar
