import GoOutline.Outline.Read
import GoOutline.Proofs.Itemized
import GoOutline.Proofs.Layouts
import GoOutline.Proofs.Verbatim

/-!
The tree and the layout of a settled text. They are those of the text, at the places everything has
moved to.
-/

namespace GoOutline

open Text Syntax Syntax.Parser Docs

namespace Syntax.Lexer

variable {s : List Char} {n : Nat} {st : State}

theorem kind_of_literal {kind : TokenKind} (h : literal s = some (kind, n)) :
    kind ∈ [TokenKind.string, .rune, .number] := by
  have hmap {o : Option Nat} {k : TokenKind} (hk : k ∈ [TokenKind.string, .rune, .number])
      (h : (o.map fun n => (k, n + 1)) = some (kind, n)) :
      kind ∈ [TokenKind.string, .rune, .number] := by
    obtain ⟨_, _, he⟩ := Option.map_eq_some_iff.1 h
    exact (Prod.mk.inj he).1 ▸ hk
  cases s with
  | nil => cases h
  | cons c s =>
      simp only [literal] at h
      split at h
      · exact hmap (by decide) h
      split at h
      · exact hmap (by decide) h
      split at h
      · exact hmap (by decide) h
      split at h
      · cases h
        decide
      · cases h

theorem piece_ne_stop (s : List Char) : (piece s).1 ≠ .token .stop := by
  unfold piece
  split
  · simp
  split
  · simp
  split
  · dsimp only
    split <;> simp
  split
  next hl =>
    rintro hk
    rw [PieceKind.token.inj hk] at hl
    exact absurd (kind_of_literal hl) (by decide)
  split <;> simp

theorem emit_ne_stop (s : List Char) : ∀ t ∈ emit st (pieces s), t.kind ≠ .stop := by
  fun_induction pieces s generalizing st with
  | case1 => simp [emit]
  | case2 c r ih =>
      intro t ht
      rw [emit] at ht
      rcases List.mem_append.1 ht with ht | ht
      · rintro hk
        refine piece_ne_stop (c :: r) ?_
        unfold State.token? at ht
        split at ht
        next kind hkind =>
          obtain rfl := List.mem_singleton.1 ht
          dsimp only at hkind hk
          rw [hkind, hk]
        next => cases ht
      · exact ih t ht

/-- The end of a text is the last of its tokens, and no other is an end. -/
theorem exists_tokens (text : List Char) :
    ∃ us z, tokens text = us ++ [z] ∧ z.kind = .stop ∧ ∀ u ∈ us, u.kind ≠ .stop := by
  unfold tokens
  split
  · exact ⟨_, _, scan_eq _ _, rfl, emit_ne_stop _⟩
  · exact ⟨_, _, scan_eq _ _, rfl, emit_ne_stop _⟩

end Syntax.Lexer

namespace Syntax

open Lexer Grammar

variable {text : List Char} {items : List (Sibling Item)}

/-- The bound on a tree covers the tokens of the text. -/
theorem covered_tokens (text : List Char) :
    Covered (16 * ((tokens text).length + 1)) (tokens text) := by
  obtain ⟨us, z, ht, hz, -⟩ := exists_tokens text
  refine ⟨⟨z, by rw [ht, List.getLast?_concat]; rfl, by simp [Token.isSolid, hz]⟩, by omega⟩

/-- A text has a tree if its items go up to its end, all tokens in front of the end being solid. -/
theorem ofText?_eq_some {tree : Tree} (h : Tree.ofText? text = some tree) :
    ∃ us z, tokens text = us ++ [z] ∧ z.kind = .stop ∧ (∀ u ∈ us, u.isSolid) ∧
      Covered (16 * ((tokens text).length + 1)) (us ++ [z]) ∧
      Itemized (16 * ((tokens text).length + 1)) (us ++ [z]) tree.items [z] := by
  obtain ⟨⟨items, rest⟩, hrun, rfl⟩ := Option.map_eq_some_iff.1 h
  have hi := itemized_of_itemList (covered_tokens text).ended hrun
  obtain ⟨us, z, ht, hz, hus⟩ := exists_tokens text
  obtain ⟨pre, y, after, he, rfl, hy, hpre⟩ := hi.takes
  obtain ⟨rfl, rfl, rfl⟩ : us = pre ∧ z = y ∧ after = [] := by
    rw [ht] at he
    rcases List.eq_nil_or_concat' after with rfl | ⟨init, x, rfl⟩
    · have := List.append_inj' he rfl
      exact ⟨this.1, List.singleton_inj.1 this.2, rfl⟩
    · rw [← List.cons_append, ← List.append_assoc] at he
      have hu := List.append_inj_left' he rfl
      exact absurd hy (hus y (by simp [hu]))
  have hcov := covered_tokens text
  refine ⟨us, z, ht, hz, hpre, ?_⟩
  rw [← ht]
  exact ⟨hcov, hi⟩

theorem ofText?_of_itemized {us : List Token} {z : Token} (ht : tokens text = us ++ [z])
    (h : Itemized (16 * ((tokens text).length + 1)) (us ++ [z]) items [z]) :
    Tree.ofText? text = some ⟨items⟩ := by
  have hlen := h.length_members
  have hrun := h.itemList (k := 16 * ((tokens text).length + 1)) (by rw [ht]; omega)
  rw [← ht] at hrun
  rw [Tree.ofText?, hrun]
  rfl

theorem item_ne_statement {d : Motion} (hk : ∀ i ∈ members items, i.kind ≠ .statement) :
    ∀ i ∈ members (items.map (d.sibling d.item)), i.kind ≠ .statement := by
  rw [d.members_sibling]
  intro i hi
  obtain ⟨j, hj, rfl⟩ := List.mem_map.1 hi
  have hne := hk j hj
  obtain ⟨e, kind⟩ := j
  cases kind <;> simp_all [Motion.item, Motion.kind]

/-- Declarations in front of the end of a text, and in front of an end on a line of its own. -/
theorem Grammar.Itemized.restop_last {n : Nat} {us : List Token} {z z' : Token}
    (h : Itemized n (us ++ [z]) items [z]) (hz : z.kind = .stop) (hz' : z'.kind = .stop)
    (hline : z'.newline) (hk : ∀ i ∈ members items, i.kind ≠ .statement) :
    ∃ front, items = front ++ commentSiblings z ∧
      Itemized n (us ++ [z']) (front ++ commentSiblings z') [z'] := by
  have halone : endsAlone z = endsAlone z' := by simp [endsAlone, hz, hz']
  obtain ⟨pre, front, he, hf, hnew⟩ := h.restop (.inr hz) (.inr hz') halone hline hk []
  obtain rfl := List.append_cancel_right he
  exact ⟨front, hf, hnew _ _ (.stop hz')⟩

/-- What does not move the tokens of a text moves none of its declarations. -/
theorem item_of_fixed {d : Motion} {tree : Tree} (h : Tree.ofText? text = some tree)
    (hk : ∀ i ∈ members tree.items, i.kind ≠ .statement)
    (hd : ∀ t ∈ tokens text, t.kind ≠ .stop → d.token t = t) :
    ∀ i ∈ members tree.items, d.item i = i := by
  obtain ⟨us, z, ht, hz, hus, hcov, hi⟩ := ofText?_eq_some h
  have hfix : ∀ t ∈ us, d.token t = t := fun t hm =>
    hd t (by rw [ht]; exact List.mem_append_left _ hm) (Token.kind_ne_stop (hus t hm))
  have hmap : us.map d.token = us := (List.map_congr_left hfix).trans (List.map_id us)
  have hmoved := hi.move hcov ((Motion.fair_of_fixed hfix).concat hz)
  rw [List.map_append, hmap] at hmoved
  -- both lists in front of the same end
  let y : Token := { z with newline := true }
  obtain ⟨front, hitems, hl⟩ := hi.restop_last hz (show y.kind = .stop from hz) rfl hk
  obtain ⟨front', hitems', hl'⟩ := hmoved.restop_last hz (show y.kind = .stop from hz) rfl
    (item_ne_statement hk)
  have hfront : front = front' := List.append_cancel_right (hl.unique hl')
  have hmem : (members tree.items).map d.item = members tree.items := by
    have h' := congrArg members hitems'
    rw [d.members_sibling, members_append, members_commentSiblings, List.append_nil] at h'
    rw [h', hitems, hfront, members_append, members_commentSiblings, List.append_nil]
  exact List.map_inj_left.1 (hmem.trans (List.map_id _).symm)

/-- A text with a tree has nothing but tokens. -/
theorem alike_of_tree {tree : Tree} (h : Tree.ofText? text = some tree) :
    Alike text (tokens text) (tokens (settle text ++ ['\n'])) := by
  obtain ⟨us, z, ht, hz, hus, -, -⟩ := ofText?_eq_some h
  refine alike_tokens fun t hm => ?_
  rw [ht] at hm
  rcases List.mem_append.1 hm with hm | hm
  · have hsolid := hus t hm
    simp only [Token.isSolid, Bool.and_eq_true, bne_iff_ne] at hsolid
    exact hsolid.2
  · rw [List.mem_singleton.1 hm, hz]
    decide

theorem seated_of_tree {tree : Tree} (h : Tree.ofText? text = some tree) :
    ∀ t ∈ tokens text, t.kind ≠ .stop → Seated text t := by
  obtain ⟨ts, z, z', ht, -, hz, -, -, hseat⟩ := alike_of_tree h
  intro t hm hk
  rw [ht] at hm
  rcases List.mem_append.1 hm with hm | hm
  · exact hseat t hm
  · exact absurd (List.mem_singleton.1 hm ▸ hz) hk

/-- The settled text has the tree of the text, but for the comments behind the last item. -/
theorem ofText?_settle {tree : Tree} (h : Tree.ofText? text = some tree)
    (hk : ∀ i ∈ members tree.items, i.kind ≠ .statement) :
    ∃ (front : List (Sibling Item)) (z z' : Token),
      tree.items.map ((settling text).sibling (settling text).item) =
        front ++ commentSiblings z ∧
      Tree.ofText? (settle text ++ ['\n']) = some ⟨front ++ commentSiblings z'⟩ := by
  obtain ⟨us, z, ht, hz, hus, hcov, hi⟩ := ofText?_eq_some h
  obtain ⟨ts, y, z', hold, hnew, -, hz', hline, hseat⟩ := alike_of_tree h
  rw [ht] at hold
  obtain ⟨rfl, hzy⟩ := List.append_inj' hold rfl
  have hlaid := Lexer.laid_tokens text
  rw [ht] at hlaid
  have hmoved := hi.move hcov ((fair_settling hlaid.left hseat).concat hz)
  rw [List.map_append] at hmoved
  obtain ⟨front, hitems, hl⟩ := hmoved.restop_last hz hz' hline (item_ne_statement hk)
  refine ⟨front, _, z', hitems, ofText?_of_itemized hnew ?_⟩
  have hlen : (tokens (settle text ++ ['\n'])).length = (tokens text).length := by
    rw [hnew, ht]
    simp
  rw [hlen]
  exact hl

end Syntax

namespace Motion

variable (d : Motion)

/-- A member at another place with the docs that it has. -/
def documented {α : Type} (f : α → α) (x : Documented α) : Documented α := ⟨x.docs, f x.item⟩

def layout (l : Layout) : Layout :=
  ⟨l.package, d.span l.place, l.imports.map fun i => (d.extent i.1, d.importDecl i.2),
    l.declarations.map (documented d.item)⟩

variable {d} {items ds : List (Documented Item)} {l : Layout}

theorem declarationsOf_documented (h : Layout.declarationsOf items = .ok ds) :
    Layout.declarationsOf (items.map (documented d.item)) = .ok (ds.map (documented d.item)) := by
  induction items generalizing ds with
  | nil => cases h; rfl
  | cons x rest ih =>
      obtain ⟨docs, extent, kind⟩ := x
      rw [List.map_cons]
      cases kind with
      | package name place => cases h
      | imports decl => cases h
      | statement => cases h
      | types decl | func decl | values =>
          obtain ⟨ds', hr, rfl⟩ := map_eq_ok.1 h
          exact map_eq_ok.2 ⟨_, ih hr, rfl⟩

theorem partsOf_documented {is : List (Extent × Syntax.ImportDecl)}
    (h : Layout.partsOf items = .ok (is, ds)) :
    Layout.partsOf (items.map (documented d.item)) =
      .ok (is.map fun i => (d.extent i.1, d.importDecl i.2), ds.map (documented d.item)) := by
  induction items generalizing is ds with
  | nil => cases h; rfl
  | cons x rest ih =>
      obtain ⟨docs, extent, kind⟩ := x
      cases kind with
      | imports decl =>
          obtain ⟨⟨is', ds'⟩, hr, he⟩ := map_eq_ok.1 h
          cases he
          exact map_eq_ok.2 ⟨_, ih hr, rfl⟩
      | package name place | types decl | func decl | values | statement =>
          obtain ⟨ds', hd, he⟩ := map_eq_ok.1 h
          cases he
          exact map_eq_ok.2 ⟨_, declarationsOf_documented hd, rfl⟩

theorem ofItems_documented (h : Layout.ofItems items = .ok l) :
    Layout.ofItems (items.map (documented d.item)) = .ok (d.layout l) := by
  cases items with
  | nil => cases h
  | cons x rest =>
      obtain ⟨docs, extent, kind⟩ := x
      cases kind with
      | package name place =>
          obtain ⟨⟨is, ds⟩, hp, rfl⟩ := map_eq_ok.1 h
          exact map_eq_ok.2 ⟨_, partsOf_documented hp, rfl⟩
      | imports decl | types decl | func decl | values | statement =>
          simp only [Layout.ofItems] at h
          split at h <;> cases h

end Motion

namespace Docs

variable {α : Type} {place : α → Extent} {f : α → α} {text : List Char}

theorem attachFrom_append (place : α → Extent) (before s t : List (Sibling α)) :
    attachFrom place before (s ++ t) =
      attachFrom place before s ++ attachFrom place (s.reverse ++ before) t := by
  induction s generalizing before with
  | nil => rfl
  | cons x s ih =>
      cases x with
      | comment c => simp [attachFrom, ih]
      | member a => simp [attachFrom, ih]

theorem attachFrom_commentSiblings (before s : List (Sibling α)) (z : Token) :
    attachFrom place before (s ++ commentSiblings z) = attachFrom place before s := by
  induction s generalizing before with
  | nil =>
      rw [List.nil_append, commentSiblings]
      induction z.comments generalizing before with
      | nil => rfl
      | cons c cs ih => exact ih _
  | cons a s ih =>
      cases a with
      | comment c => exact ih _
      | member a => exact congrArg (_ :: ·) (ih _)

/-- Comments behind the last member document nothing. -/
theorem attach_commentSiblings (s : List (Sibling α)) (z : Token) :
    attach place (s ++ commentSiblings z) = attach place s := attachFrom_commentSiblings [] s z

theorem clean_settledRemark (c : String) :
    clean (settledRemark c).toList = clean c.toList := by
  rw [settledRemark]
  split
  next h => rw [String.toList_ofList, h]
  next => rfl

theorem linesOf_settling (cs : List Comment) :
    linesOf (cs.map (settling text).comment) = linesOf cs := by
  simp only [linesOf, List.flatMap_map]
  refine List.flatMap_congr fun c _ => ?_
  exact congrArg (List.map String.ofList) (clean_settledRemark c.text)

theorem trails_settling (hf : ∀ a, place (f a) = (settling text).extent (place a)) (c : Comment)
    (before : List (Sibling α)) :
    trails place ((settling text).comment c) (before.map ((settling text).sibling f)) =
      trails place c before := by
  rcases before with _ | ⟨_ | a, rest⟩
  · rfl
  · rfl
  · simp only [List.map_cons, Motion.sibling, trails, hf]
    rfl

theorem commentsAbove_settling (hf : ∀ a, place (f a) = (settling text).extent (place a)) (row : Nat)
    (before : List (Sibling α)) :
    commentsAbove place row (before.map ((settling text).sibling f)) =
      (commentsAbove place row before).map (settling text).comment := by
  induction before generalizing row with
  | nil => rfl
  | cons a rest ih =>
      cases a with
      | member a => rfl
      | comment c =>
          simp only [List.map_cons, Motion.sibling, commentsAbove, trails_settling hf]
          split
          next h =>
            rw [if_pos]
            · rfl
            · exact h
          next h =>
            rw [if_neg]
            · rw [List.map_append, ← ih]
              rfl
            · exact h

theorem attachFrom_settling (hf : ∀ a, place (f a) = (settling text).extent (place a))
    (before s : List (Sibling α)) :
    attachFrom place (before.map ((settling text).sibling f)) (s.map ((settling text).sibling f)) =
      (attachFrom place before s).map (Motion.documented f) := by
  induction s generalizing before with
  | nil => rfl
  | cons a rest ih =>
      cases a with
      | comment c => exact ih (.comment c :: before)
      | member a =>
          have hrest := ih (.member a :: before)
          simp only [List.map_cons, Motion.sibling] at hrest
          simp only [List.map_cons, Motion.sibling, attachFrom, hrest, hf, commentsAbove_settling hf,
            linesOf_settling]
          rfl

/-- Members of a settled text have the docs that they have in the text. -/
theorem attach_settling (hf : ∀ a, place (f a) = (settling text).extent (place a))
    (s : List (Sibling α)) :
    attach place (s.map ((settling text).sibling f)) =
      (attach place s).map (Motion.documented f) := attachFrom_settling hf [] s

end Docs

namespace Outline

/-- The layout of a text consists of items of its tree, none of them a statement. -/
theorem layoutOf_eq_ok {text : List Char} {layout : Layout} (h : layoutOf text = .ok layout) :
    ∃ tree, Tree.ofText? text = some tree ∧
      Layout.ofItems (attach Item.extent tree.items) = .ok layout ∧
      ∀ i ∈ members tree.items, i.kind ≠ .statement := by
  unfold layoutOf at h
  split at h
  · cases h
  next tree ht =>
    split at h
    next l hl =>
      cases h
      refine ⟨tree, ht, hl, fun i hi => ?_⟩
      rw [← map_item_attach Item.extent] at hi
      obtain ⟨d, hd, rfl⟩ := List.mem_map.1 hi
      exact Layout.ofItems_ne_statement hl d hd
    next => cases h
    next => cases h

theorem not_statement_of_layoutOf {text : List Char} {layout : Layout} {pre suf : List (Sibling Item)}
    (h : layoutOf text = .ok layout) (htree : Tree.ofText? text = some ⟨pre ++ suf⟩) :
    ∀ i ∈ members pre, i.kind ≠ .statement := by
  obtain ⟨tree, htree', -, hkinds⟩ := layoutOf_eq_ok h
  rw [htree, Option.some_inj] at htree'
  subst htree'
  intro i hi
  exact hkinds i (by simp [hi])

/-- The settled text has the layout of the text. -/
theorem layoutOf_settle {text : List Char} {layout : Layout} (h : layoutOf text = .ok layout) :
    layoutOf (settle text ++ ['\n']) = .ok ((settling text).layout layout) := by
  obtain ⟨tree, ht, hl, hk⟩ := layoutOf_eq_ok h
  obtain ⟨front, z, z', hitems, htree⟩ := ofText?_settle ht hk
  have hattach : attach Item.extent (front ++ commentSiblings z') =
      (attach Item.extent tree.items).map (Motion.documented (settling text).item) := by
    rw [attach_commentSiblings, ← attach_commentSiblings (z := z), ← hitems]
    have hplace (i : Item) : ((settling text).item i).extent = (settling text).extent i.extent := rfl
    exact attach_settling hplace tree.items
  rw [layoutOf, htree]
  simp only [Layout.ofTree, hattach, Motion.ofItems_documented hl]

/-- What does not move the tokens of a text moves none of its declarations. -/
theorem declaration_of_fixed {text : List Char} {layout : Layout} {d : Motion}
    (h : layoutOf text = .ok layout)
    (hd : ∀ t ∈ Lexer.tokens text, t.kind ≠ .stop → d.token t = t) :
    ∀ x ∈ layout.declarations, d.item x.item = x.item := by
  obtain ⟨tree, ht, hl, hk⟩ := layoutOf_eq_ok h
  obtain ⟨x, front, hitems, -, -⟩ := Layout.ofItems_eq_ok hl
  intro y hy
  refine item_of_fixed ht hk hd y.item ?_
  rw [← map_item_attach Item.extent, hitems]
  exact List.mem_map_of_mem (by simp [hy])

end Outline

end GoOutline
