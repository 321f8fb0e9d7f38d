import GoOutline.Proofs.Members

/-!
Lists of members. What a list reads does not depend on the bound for its members, and a list is
read piece by piece, each member up to the token behind it.
-/

namespace GoOutline.Syntax.Parser

/-- What separates a member from the token behind it that goes on: a line feed or a semicolon. -/
def Separates (closing : String) (sep : List Token) (u : Token) : Prop :=
  (sep = [] ∧ (u.is closing || u.newline)) ∨
    ∃ s, sep = [s] ∧ (s.is closing || s.newline) = false ∧ isTerminator s

/-- A list of members up to its closing token, without a bound on their number. -/
inductive Gathered {α : Type} (closing : String) (p : Parser α) :
    List Token → List (Sibling α) → List Token → Prop where
  | closed {c : Token} {rest : List Token} (hc : c.is closing) :
      Gathered closing p (c :: rest) (commentSiblings c) (c :: rest)
  | next {t u : Token} {ts sep us rest : List Token} {a : α} {more : List (Sibling α)}
      (ht : t.is closing = false) (ha : p.run (t :: ts) = some (a, sep ++ u :: us))
      (hs : Separates closing sep u) (h : Gathered closing p (u :: us) more rest) :
      Gathered closing p (t :: ts)
        (commentSiblings t ++ .member a :: (sep.flatMap commentSiblings ++ more)) rest

variable {α : Type} {p : Parser α} {closing : String} {as : List (Sibling α)}
  {ts rest : List Token}

/-- What is no member stands in front of all members or behind the first one. -/
theorem exists_of_members_eq_nil {front more pre suf : List (Sibling α)} {a : α}
    (hf : members front = []) (h : front ++ more = pre ++ .member a :: suf) :
    ∃ pre', pre = front ++ pre' ∧ more = pre' ++ .member a :: suf := by
  rcases List.append_eq_append_iff.1 h with ⟨pre', hp, hm⟩ | ⟨more', hp, hm⟩
  · exact ⟨pre', hp, hm⟩
  · rcases more' with _ | ⟨x, more'⟩
    · exact ⟨[], by simpa using hp.symm, hm.symm⟩
    · obtain rfl := (List.cons.inj hm).1
      simp [hp] at hf

theorem solid {used : List Token} {a : α} (p : Parser α)
    (h : p.run (used ++ rest) = some (a, rest)) : ∀ t ∈ used, t.isSolid := by
  obtain ⟨_, he, hs, _⟩ := p.takes h
  rwa [List.append_cancel_right he]

theorem Consumes.exists_cons {t : Token} {a : α} (hc : Consumes p)
    (h : p.run (t :: ts) = some (a, rest)) : ∃ seg, ts = seg ++ rest := by
  obtain ⟨used, he, _⟩ := p.takes h
  rcases used with _ | ⟨u, seg⟩
  · rw [List.nil_append] at he
    rw [← he] at h
    exact absurd (hc h) (Nat.lt_irrefl _)
  · obtain ⟨rfl, rfl⟩ := List.cons.inj he
    exact ⟨seg, rfl⟩

theorem advance_of_isTerminator {u : Token} (h : isTerminator u) (us : List Token) :
    advance.run (u :: us) = some (u, us) := by
  obtain ⟨text, ht, h⟩ := Token.exists_is_of_isAny h
  refine advance_eq_some.2 ⟨rfl, Token.isSolid_of_is h, Token.isPlain_of_is h fun b => ?_⟩
  simp only [List.mem_cons, List.not_mem_nil, or_false] at ht
  rcases ht with rfl | rfl <;> cases b <;> decide

theorem Separates.members {sep : List Token} {u : Token} (h : Separates closing sep u) :
    members (sep.flatMap commentSiblings : List (Sibling α)) = [] := by
  rcases h with ⟨rfl, _⟩ | ⟨s, rfl, _⟩
  · rfl
  · simp

theorem Separates.solid {sep : List Token} {u : Token} (h : Separates closing sep u) :
    ∀ t ∈ sep, t.isSolid := by
  rcases h with ⟨rfl, _⟩ | ⟨s, rfl, _, hs⟩
  · simp
  · obtain ⟨text, _, hs⟩ := Token.exists_is_of_isAny hs
    simpa using Token.isSolid_of_is hs

theorem Gathered.exists_cons (h : Gathered closing p ts as rest) : ∃ t us, ts = t :: us := by
  cases h <;> exact ⟨_, _, rfl⟩

theorem gathered_of_memberList (hc : Consumes p) {k : Nat}
    (h : (memberList closing p k).run ts = some (as, rest)) : Gathered closing p ts as rest := by
  induction k generalizing ts as with
  | zero => cases h
  | succ k ih =>
      rcases ts with _ | ⟨t, ts⟩
      · obtain ⟨_, _, ht, h⟩ := bind_eq_some.1 h
        obtain ⟨rfl, rfl⟩ := peek_eq_some.1 ht
        obtain ⟨_, _, ha, _⟩ := bind_eq_some.1 h
        exact absurd (hc ha) (Nat.not_lt_zero _)
      rw [memberList, run_peek_cons] at h
      split at h
      next ht =>
        obtain ⟨rfl, rfl⟩ := pure_eq_some.1 h
        exact .closed ht
      next ht =>
        obtain ⟨a, mid, ha, h⟩ := bind_eq_some.1 h
        rw [Bool.not_eq_true] at ht
        rcases mid with _ | ⟨u, us⟩
        · cases h
        rw [run_peek_cons] at h
        split at h
        next hu =>
          obtain ⟨more, _, hm, h⟩ := bind_eq_some.1 h
          obtain ⟨rfl, rfl⟩ := pure_eq_some.1 h
          have hs : Separates closing [] u := .inl ⟨rfl, hu⟩
          refine .next ht ?_ hs (ih hm)
          exact ha
        next hu =>
          obtain ⟨_, _, hq, h⟩ := bind_eq_some.1 h
          obtain ⟨hs, rfl⟩ := require_eq_some.1 hq
          obtain ⟨_, _, hv, h⟩ := bind_eq_some.1 h
          obtain ⟨v, hv⟩ := discard_eq_some.1 hv
          obtain ⟨hv, _⟩ := advance_eq_some.1 hv
          obtain ⟨rfl, rfl⟩ := List.cons.inj hv
          obtain ⟨more, _, hm, h⟩ := bind_eq_some.1 h
          obtain ⟨rfl, rfl⟩ := pure_eq_some.1 h
          have hl := ih hm
          obtain ⟨w, ws, rfl⟩ := hl.exists_cons
          have hsep : Separates closing [u] w := .inr ⟨u, rfl, by simpa using hu, hs⟩
          have hnext := Gathered.next ht ha hsep hl
          simpa using hnext

namespace Gathered

theorem memberList (h : Gathered closing p ts as rest) {k : Nat} (hk : (members as).length < k) :
    (memberList closing p k).run ts = some (as, rest) := by
  induction h generalizing k with
  | closed hc =>
      obtain ⟨k, rfl⟩ := Nat.exists_eq_succ_of_ne_zero (Nat.ne_zero_of_lt hk)
      rw [Parser.memberList, run_peek_cons, if_pos hc]
      rfl
  | @next t u ts sep us rest a more ht ha hs h ih =>
      obtain ⟨k, rfl⟩ := Nat.exists_eq_succ_of_ne_zero (Nat.ne_zero_of_lt hk)
      have hm := ih (k := k) (by simp at hk; omega)
      rw [Parser.memberList, run_peek_cons, if_neg (by simp [ht]), run_bind, ha, Option.bind_some]
      rcases hs with ⟨rfl, hu⟩ | ⟨s, rfl, hs, hterm⟩
      · show (peek >>= _).run (u :: us) = _
        rw [run_peek_cons, if_pos hu, run_bind, hm]
        rfl
      · have hv : (discard advance).run (s :: u :: us) = some (⟨⟩, u :: us) :=
          discard_eq_some.2 ⟨s, advance_of_isTerminator hterm _⟩
        show (peek >>= _).run (s :: u :: us) = _
        rw [run_peek_cons, if_neg (by simp [hs]), hterm, run_bind]
        show (discard advance >>= _).run _ = _
        rw [run_bind, hv, Option.bind_some, run_bind, hm]
        simp
        rfl

theorem exists_append (h : Gathered closing p ts as rest) : ∃ used, ts = used ++ rest := by
  induction h with
  | closed hc => exact ⟨[], rfl⟩
  | @next t u ts sep us rest a more ht ha hs h ih =>
      obtain ⟨more, hm⟩ := ih
      obtain ⟨used, he, _⟩ := p.takes ha
      exact ⟨used ++ sep ++ more, by rw [he, hm, List.append_assoc, List.append_assoc]⟩

theorem length_members (h : Gathered closing p ts as rest) (hc : Consumes p) :
    (members as).length + rest.length ≤ ts.length := by
  induction h with
  | closed hc => simp
  | @next t u ts sep us rest a more ht ha hs h ih =>
      have hlt := hc ha
      simp only [List.length_append, List.length_cons, members_append, members_commentSiblings,
        members_member, hs.members, List.nil_append] at hlt ih ⊢
      omega

/-- The comments in front of the closing token stand at the end. -/
theorem exists_front {c : Token} {post : List Token} (h : Gathered closing p ts as (c :: post)) :
    ∃ front, as = front ++ commentSiblings c := by
  generalize hr : c :: post = rest at h
  induction h with
  | closed hc =>
      obtain ⟨rfl, rfl⟩ := List.cons.inj hr
      exact ⟨[], rfl⟩
  | @next t u us sep vs rest b more ht hb hsep h ih =>
      obtain ⟨front, rfl⟩ := ih hr
      exact ⟨commentSiblings t ++ .member b :: (sep.flatMap commentSiblings ++ front), by simp⟩

/-- The first member of a list and what goes on behind it. -/
theorem uncons {t : Token} {a : α} {suf : List (Sibling α)}
    (h : Gathered closing p (t :: ts) (commentSiblings t ++ .member a :: suf) rest) :
    ∃ sep u us more, p.run (t :: ts) = some (a, sep ++ u :: us) ∧ t.is closing = false ∧
      Separates closing sep u ∧ Gathered closing p (u :: us) more rest ∧
      suf = sep.flatMap commentSiblings ++ more := by
  generalize hss : t :: ts = ss at h
  generalize has : commentSiblings t ++ .member a :: suf = as at h
  cases h with
  | closed hc =>
      have hm := congrArg members has
      simp at hm
  | @next t' u ts' sep us _ b more ht hb hs hl =>
      obtain ⟨rfl, rfl⟩ := List.cons.inj hss
      obtain ⟨hx, rfl⟩ := List.cons.inj (List.append_cancel_left has)
      cases hx
      exact ⟨sep, u, us, more, hb, ht, hs, hl, rfl⟩

/-- A member on lines of its own in front of the closing token. -/
theorem append {E : Token → Token → Prop} {c c' z : Token} {post post' new : List Token} {a : α}
    (h : Gathered closing p (ts ++ c :: post) as (c :: post)) (hc : Consumes p)
    (hp : Follows Grammar.Any E p p) (hE : ∀ t, E t t) (hz : E c z) (hn : z.newline)
    (ho : z.is closing = false) (ha : p.run (z :: (new ++ c' :: post')) = some (a, c' :: post'))
    (hc' : c'.is closing) :
    ∃ front, as = front ++ commentSiblings c ∧
      Gathered closing p (ts ++ z :: (new ++ c' :: post'))
        (front ++ (commentSiblings z ++ .member a :: commentSiblings c')) (c' :: post') := by
  generalize hss : ts ++ c :: post = ss at h
  generalize hr : c :: post = rest at h
  have hany (seg : List Token) : ∀ t ∈ seg, Grammar.Any t := fun _ _ => trivial
  induction h generalizing ts with
  | @closed d rest hd =>
      cases hr
      obtain rfl : ts = [] := by simpa using hss
      have hs : Separates closing [] c' := .inl ⟨rfl, by simp [hc']⟩
      refine ⟨[], rfl, .next ho ?_ hs (.closed hc')⟩
      exact ha
  | @next t u us sep vs rest b more ht hb hs h ih =>
      subst hr
      obtain ⟨used, he⟩ := h.exists_append
      obtain ⟨seg, rfl⟩ := hc.exists_cons hb
      obtain rfl : ts = t :: seg ++ (sep ++ used) :=
        (List.append_left_inj (c :: post)).1 (by rw [hss, he]; simp)
      obtain ⟨front, rfl, hl⟩ := ih he.symm rfl
      refine ⟨commentSiblings t ++ .member b :: (sep.flatMap commentSiblings ++ front), by simp, ?_⟩
      simp only [List.append_assoc, List.cons_append]
      have hcommon {w x : List Token} (hw : w ≠ []) (hb : p.run (t :: seg ++ (w ++ x)) = some (b, w ++ x))
          (x' : List Token) : p.run (t :: seg ++ (w ++ x')) = some (b, w ++ x') := by
        obtain ⟨y, w, rfl⟩ := List.exists_cons_of_ne_nil hw
        exact hp (hany (t :: seg)) (hE y) hb _
      rcases used with _ | ⟨y, used⟩
      · obtain ⟨rfl, rfl⟩ := List.cons.inj he
        rcases hs with ⟨rfl, _⟩ | ⟨s, rfl, hs⟩
        · have hsep : Separates closing [] z := .inl ⟨rfl, by simp [hn]⟩
          refine .next ht ?_ hsep hl
          exact hp (hany (t :: seg)) hz hb _
        · exact .next ht (hcommon (List.cons_ne_nil s []) hb _) (.inr ⟨s, rfl, hs⟩) hl
      · obtain ⟨rfl, rfl⟩ := List.cons.inj he
        refine .next ht ?_ hs hl
        have hnext := hcommon (w := sep ++ [u]) (by simp) (by simpa using hb)
        simpa using hnext _

/-- The list in front of a member and the list from there on. What is in front is read the same in
front of another list that starts with the same token. -/
theorem split {K : List Token → Prop} {pre suf : List (Sibling α)} {a : α}
    (h : Gathered closing p ts (pre ++ .member a :: suf) rest) (hc : Consumes p)
    (hK : ∀ seg more, K (seg ++ more) → (∀ t ∈ seg, t.isSolid) → K more)
    (hp : ∀ ⦃seg z rest b⦄, K (seg ++ z :: rest) → p.run (seg ++ z :: rest) = some (b, z :: rest) →
      ∀ rest', p.run (seg ++ z :: rest') = some (b, z :: rest'))
    (hts : K ts) :
    ∃ before z us pre', ts = before ++ z :: us ∧ pre = pre' ++ commentSiblings z ∧
      K (z :: us) ∧ Gathered closing p (z :: us) (commentSiblings z ++ .member a :: suf) rest ∧
      ∀ us' as' rest', Gathered closing p (z :: us') as' rest' →
        Gathered closing p (before ++ z :: us') (pre' ++ as') rest' := by
  generalize hs : pre ++ .member a :: suf = as at h
  induction h generalizing pre with
  | @closed c rest hc' =>
      have hm := congrArg members hs
      simp at hm
  | @next t u us sep vs rest b more ht hb hsep h ih =>
      obtain ⟨pre, rfl, hm⟩ := exists_of_members_eq_nil (members_commentSiblings t) hs.symm
      obtain ⟨seg, rfl⟩ := hc.exists_cons hb
      have hsolid : ∀ x ∈ t :: seg, x.isSolid := p.solid hb
      rcases pre with _ | ⟨x, pre⟩
      · obtain ⟨hx, rfl⟩ := List.cons.inj hm
        cases hx
        exact ⟨[], t, _, [], rfl, by simp, hts, .next ht hb hsep h, fun _ _ _ hl => hl⟩
      · obtain ⟨rfl, hrest⟩ := List.cons.inj hm
        obtain ⟨pre, rfl, hsuf⟩ := exists_of_members_eq_nil hsep.members hrest
        have hfront : ∀ x ∈ t :: seg ++ sep, x.isSolid := fun x hx =>
          (List.mem_append.1 hx).elim (hsolid x) (hsep.solid x)
        have hK' : K (u :: vs) := hK (t :: seg ++ sep) _ (by simpa using hts) hfront
        obtain ⟨before, z, us, pre', he, rfl, hk, hl, hnext⟩ := ih hK' hsuf.symm
        refine ⟨t :: seg ++ (sep ++ before), z, us,
          commentSiblings t ++ .member b :: (sep.flatMap commentSiblings ++ pre'), ?_, ?_, hk, hl, ?_⟩
        · rw [he]
          simp
        · simp
        · intro us' as' rest' hl'
          have hm := hnext us' as' rest' hl'
          have hcommon (w : Token) (ws ws' : List Token)
              (hb : p.run (t :: seg ++ (sep ++ w :: ws)) = some (b, sep ++ w :: ws))
              (hts : K (t :: seg ++ (sep ++ w :: ws))) :
              p.run (t :: seg ++ (sep ++ w :: ws')) = some (b, sep ++ w :: ws') := by
            rcases sep with _ | ⟨y, sep⟩
            · exact hp hts hb _
            · exact hp hts hb _
          simp only [List.append_assoc, List.cons_append] at hm ⊢
          rcases before with _ | ⟨y, before⟩
          · obtain ⟨rfl, rfl⟩ := List.cons.inj he
            exact .next ht (hcommon _ _ _ hb hts) hsep hm
          · obtain ⟨rfl, rfl⟩ := List.cons.inj he
            exact .next ht (hcommon _ _ _ hb hts) hsep hm

end Gathered

end GoOutline.Syntax.Parser
