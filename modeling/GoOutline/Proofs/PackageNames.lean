import GoOutline.Proofs.Arrangement
import GoOutline.Proofs.Origins

/-!
Package names that are found without a look at the rest of the text. Items close the brackets that
they open, so in a text that has a tree a package clause among its items stands in no brackets, and the
search passes over it only for an earlier clause.
-/

namespace GoOutline

namespace Syntax

open Syntax.Parser Docs

variable {ts us rest front back : List Token} {k t : Token} {name : String} {n : Nat} {i : Item}

/-- The keyword of a package clause, and the name behind it. -/
def IsClause (k t : Token) : Prop := k.is "package" ∧ t.kind = .name

theorem Token.depthBehind_length {bs ds : List Bracket} (h : t.nest bs = some ds) :
    t.depthBehind bs.length = ds.length := by
  rw [Token.depthBehind]
  cases ho : t.opens? with
  | some b =>
      obtain rfl : b :: bs = ds := by simpa [Token.nest, ho] using h
      rfl
  | none =>
      cases hc : t.closes? with
      | none =>
          obtain rfl : bs = ds := by simpa [Token.nest, ho, hc] using h
          simp [Token.isClosing, hc]
      | some b =>
          cases bs with
          | nil => simp [Token.nest, ho, hc] at h
          | cons d bs =>
              obtain ⟨-, rfl⟩ : d = b ∧ bs = ds := by simpa [Token.nest, ho, hc] using h
              simp [Token.isClosing, hc]

theorem suffix_clausesAmong_cons (depth : Nat) (t : Token) (hne : ts ≠ []) :
    clausesAmong (t.depthBehind depth) ts <:+ clausesAmong depth (t :: ts) := by
  obtain ⟨u, ts, rfl⟩ := List.exists_cons_of_ne_nil hne
  rw [clausesAmong]
  split
  · exact List.suffix_cons _ _
  · exact List.suffix_rfl

/-- The clauses behind some tokens are among all of them. -/
theorem suffix_clausesAmong {bs ds : List Bracket} (h : nest bs front = some ds) (hne : us ≠ []) :
    clausesAmong ds.length us <:+ clausesAmong bs.length (front ++ us) := by
  induction front generalizing bs with
  | nil =>
      cases h
      exact List.suffix_rfl
  | cons t front ih =>
      rw [nest_cons] at h
      obtain ⟨cs, ht, h⟩ := Option.bind_eq_some_iff.1 h
      refine (ih h).trans ?_
      rw [← Token.depthBehind_length ht]
      exact suffix_clausesAmong_cons _ _ (by simp [hne])

theorem clausesAmong_clause (h : IsClause k t) (ts : List Token) :
    ∃ more, clausesAmong 0 (k :: t :: ts) = t.text :: more := by
  rw [clausesAmong, if_pos (by simpa [IsClause] using h)]
  exact ⟨_, rfl⟩

/-- A clause behind brackets that are closed is not passed over for nothing. -/
theorem clausesAmong_ne_nil (h : IsClause k t) (hb : Balanced front) (ts : List Token) :
    clausesAmong 0 (front ++ k :: t :: ts) ≠ [] := by
  obtain ⟨more, he⟩ := clausesAmong_clause h ts
  have hs : clausesAmong 0 (k :: t :: ts) <:+ clausesAmong 0 (front ++ k :: t :: ts) :=
    suffix_clausesAmong hb (List.cons_ne_nil _ _)
  intro hnil
  rw [hnil, he, List.suffix_nil] at hs
  cases hs

theorem packageName?_clause {text : List Char} (h : IsClause k t)
    (he : Lexer.tokens text = k :: t :: ts) : packageName? text = some t.text := by
  obtain ⟨more, hc⟩ := clausesAmong_clause h ts
  rw [packageName?, ClauseReader.packageName?, packageClauses, he, hc]
  rfl

theorem packageName?_ne_none {text : List Char} (h : IsClause k t) (hb : Balanced front)
    (he : Lexer.tokens text = front ++ k :: t :: ts) : packageName? text ≠ none := by
  obtain ⟨name, more, hc⟩ := List.exists_cons_of_ne_nil (clausesAmong_ne_nil h hb ts)
  rw [packageName?, ClauseReader.packageName?, packageClauses, he, hc]
  simp

/-- A clause in brackets is none. -/
example : packageName? "func f() \x7b\n\tpackage x\n\x7d\n".toList = none := by decide +kernel

namespace Grammar

theorem clause_of_itemKind {place : Span}
    (h : (itemKind n).run ts = some (.package name place, rest)) :
    ∃ k t, ts = k :: t :: rest ∧ IsClause k t ∧ name = t.text := by
  obtain ⟨u, _, hp, h⟩ := bind_eq_some.1 h
  obtain ⟨rfl, rfl⟩ := peek_eq_some.1 hp
  split at h
  · simp only [packageClause, Parser.name, bind_eq_some, discard_eq_some, expect_eq_some,
      ofKind_eq_some, pure_eq_some] at h
    obtain ⟨t, _, ⟨_, _, ⟨k, rfl, hk⟩, rfl, ht⟩, he, rfl⟩ := h
    cases he
    exact ⟨k, t, rfl, ⟨hk.1, ht.1⟩, rfl⟩
  split at h
  · obtain ⟨d, -, hd⟩ := map_eq_some.1 h
    cases hd
  split at h
  · obtain ⟨d, -, hd⟩ := map_eq_some.1 h
    cases hd
  split at h
  · obtain ⟨_, _, _, hp⟩ := bind_eq_some.1 h
    cases (pure_eq_some.1 hp).1
  split at h
  · obtain ⟨m, _, hm, hr⟩ := bind_eq_some.1 h
    rcases orElse_eq_some.1 hr with hf | ⟨_, hr⟩
    · obtain ⟨f, -, hf⟩ := map_eq_some.1 hf
      cases hf
    · obtain ⟨_, _, _, hp⟩ := seqRight_eq_some.1 hr
      cases (pure_eq_some.1 hp).1
  · obtain ⟨_, _, _, hp⟩ := bind_eq_some.1 h
    cases (pure_eq_some.1 hp).1

/-- The first item is read at the front. -/
theorem Itemized.first {items : List (Sibling Item)} {more : List Item}
    (h : Itemized n ts items rest) (hm : members items = i :: more) :
    ∃ back, (itemKind n).run ts = some (i.kind, back) := by
  cases h with
  | stop ht => simp at hm
  | next ht hk hs h =>
      rw [members_append, members_commentSiblings, List.nil_append, members_member] at hm
      obtain ⟨rfl, -⟩ := List.cons.inj hm
      exact ⟨_, hk⟩

/-- Every item is read behind tokens that close all brackets. -/
theorem Itemized.exists_front {items : List (Sibling Item)} (h : Itemized n ts items rest) :
    ∀ i ∈ members items, ∃ front us back, ts = front ++ us ∧ Balanced front ∧
      (itemKind n).run us = some (i.kind, back) := by
  induction h with
  | stop ht => simp
  | @next t u seg sep us rest kind more ht hk hsep h ih =>
      intro i hi
      rw [members_append, members_commentSiblings, List.nil_append, members_member, members_append,
        hsep.members, List.nil_append] at hi
      rcases List.mem_cons.1 hi with rfl | hi
      · exact ⟨[], _, _, rfl, balanced_nil, hk⟩
      · obtain ⟨front, vs, back, he, hb, hrun⟩ := ih i hi
        obtain ⟨used, hu, -, hused⟩ := (itemKind n).takes hk
        rw [List.append_cancel_right hu]
        exact ⟨used ++ (sep ++ front), vs, back, by simp [he],
          hused.append (hsep.balanced.append hb), hrun⟩

end Grammar

end Syntax

namespace Outline

open Syntax Syntax.Layout Docs

variable {text : List Char}

theorem packageName?_of_layoutOf {layout : Layout} (h : layoutOf text = .ok layout) :
    packageName? text = some layout.package := by
  obtain ⟨tree, htree, hitems, -⟩ := layoutOf_eq_ok h
  obtain ⟨us, z, ht, -, -, -, hi⟩ := ofText?_eq_some htree
  obtain ⟨d, front, he, hk, -⟩ := ofItems_eq_ok hitems
  have hm := congrArg (List.map Documented.item) he
  rw [map_item_attach, List.map_cons] at hm
  obtain ⟨back, hrun⟩ := hi.first hm
  rw [hk] at hrun
  obtain ⟨k, t, htokens, hc, hname⟩ := Grammar.clause_of_itemKind hrun
  rw [packageName?_clause hc (ht.trans htokens), hname]

theorem layoutOf_of_packageName? {tree : Tree} (h : Tree.ofText? text = some tree)
    (hnone : packageName? text = none) : layoutOf text = .error .missingPackage := by
  refine (layoutOf_missing_iff h).2 fun i hi => ?_
  obtain ⟨us, z, ht, -, -, -, hitems⟩ := ofText?_eq_some h
  obtain ⟨front, vs, rest, hs, hb, hrun⟩ := hitems.exists_front i hi
  by_contra hp
  rw [Bool.not_eq_false, isPackage] at hp
  split at hp
  next name place hk =>
    rw [hk] at hrun
    obtain ⟨k, t, rfl, hc, -⟩ := Grammar.clause_of_itemKind hrun
    exact packageName?_ne_none hc hb (ht.trans hs) hnone
  next => cases hp

/-- A search for the package name that looks at nothing else finds the package of every text that is
accepted. In a text that has a tree it finds none only if the layout has no package clause. -/
theorem packageName?_agrees (text : List Char) :
    (∀ dialect find o, ofText dialect find text = .ok o → packageName? text = some o.package) ∧
    (∀ tree, Tree.ofText? text = some tree → packageName? text = none →
      layoutOf text = .error .missingPackage) := by
  refine ⟨fun dialect find o h => ?_, fun tree h => layoutOf_of_packageName? h⟩
  obtain ⟨layout, hl, ho⟩ := bind_eq_ok.1 h
  obtain ⟨declared, -, hdecl⟩ := bind_eq_ok.1 ho
  cases hdecl
  exact packageName?_of_layoutOf hl

/-- A file with comments around its package clause, and one without a clause. -/
theorem packageName?_agrees_commented :
    let text := "/* package a */ package // package b\nc\n\nfunc f() {}\n".toList
    (∃ o, ofText ⟨"gen", false⟩ (Package.findInTable default) text = .ok o ∧ o.package = "c" ∧
      packageName? text = some "c") ∧
    let bare := "func f() {}\n".toList
    (Tree.ofText? bare).isSome ∧ packageName? bare = none ∧
      layoutOf bare = .error .missingPackage := by
  intro text
  have hok : (·.package) <$> ofText ⟨"gen", false⟩ (Package.findInTable default) text = .ok "c" := by
    decide +kernel
  obtain ⟨o, ho, hpackage⟩ := map_eq_ok.1 hok
  refine ⟨⟨o, ho, hpackage, ?_⟩, ?_⟩
  · rw [← hpackage]
    exact (packageName?_agrees text).1 _ _ o ho
  · intro bare
    have hsome : (Tree.ofText? bare).isSome := by decide +kernel
    have hnone : packageName? bare = none := by decide +kernel
    obtain ⟨tree, htree⟩ := Option.isSome_iff_exists.1 hsome
    exact ⟨hsome, hnone, (packageName?_agrees bare).2 tree htree hnone⟩

end Outline

end GoOutline
