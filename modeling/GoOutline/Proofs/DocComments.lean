import Mathlib.Data.List.Flatten
import GoOutline.Proofs.Origins

/-!
Which comments document a declaration. The siblings of a list stand in the order of their rows, so a
comment that trails a declaration on its line has no declaration of another line in front of it.
-/

namespace GoOutline

open Text Syntax Docs

namespace Docs

variable {α : Type} {place : α → Extent} {row : Nat} {pre front : List (Sibling α)} {a : α}
  {c : Comment} {cs ds : List Comment} {allowed allowed' : List (Sibling α) → Comment → Prop}

/-- Comments one right below the other, the last one right above a row. -/
def Stacked (row : Nat) : List Comment → Prop
  | [] => True
  | [c] => c.extent.lastRow + 1 = row
  | c :: d :: cs => c.extent.lastRow + 1 = d.extent.row ∧ Stacked row (d :: cs)

/-- Comments with nothing but each other between them and the end of some siblings, one right below
the other. Whether a comment is allowed depends on what stands in front of it. -/
def Run (allowed : List (Sibling α) → Comment → Prop) (row : Nat) (pre : List (Sibling α))
    (cs : List Comment) : Prop :=
  Stacked row cs ∧ ∃ front, pre = front ++ cs.map .comment ∧
    ∀ as c bs, cs = as ++ c :: bs → allowed (front ++ as.map .comment) c

/-- A run that every other one is the end of. -/
structure Longest (allowed : List (Sibling α) → Comment → Prop) (row : Nat) (pre : List (Sibling α))
    (cs : List Comment) : Prop where
  run : Run allowed row pre cs
  suffix : ∀ ds, Run allowed row pre ds → ds <:+ cs

/-- No member ends on the row that a comment starts on. -/
def Untrailing (place : α → Extent) (before : List (Sibling α)) (c : Comment) : Prop :=
  ∀ a ∈ members before, (place a).lastRow ≠ c.extent.row

/-- No member right in front of a comment ends on the row that it starts on. -/
def Detached (place : α → Extent) (before : List (Sibling α)) (c : Comment) : Prop :=
  ∀ front a, before = front ++ [.member a] → (place a).lastRow ≠ c.extent.row

theorem stacked_concat (row : Nat) (cs : List Comment) (c : Comment) :
    Stacked row (cs ++ [c]) ↔ c.extent.lastRow + 1 = row ∧ Stacked c.extent.row cs := by
  induction cs with
  | nil => simp [Stacked]
  | cons d cs ih =>
      cases cs with
      | nil => simp [Stacked, and_comm]
      | cons e cs =>
          rw [List.cons_append, List.cons_append, Stacked, Stacked, ← List.cons_append, ih,
            and_left_comm]

theorem run_nil (allowed : List (Sibling α) → Comment → Prop) (row : Nat) (pre : List (Sibling α)) :
    Run allowed row pre [] :=
  ⟨trivial, pre, by simp, by simp⟩

/-- A run with one more comment at its end. -/
theorem run_concat : Run allowed row (pre ++ [.comment c]) (cs ++ [c]) ↔
    c.extent.lastRow + 1 = row ∧ allowed pre c ∧ Run allowed c.extent.row pre cs := by
  rw [Run, Run, stacked_concat]
  constructor
  · rintro ⟨⟨hrow, hs⟩, front, hpre, hall⟩
    rw [List.map_append, ← List.append_assoc] at hpre
    obtain rfl := List.append_inj_left' hpre rfl
    refine ⟨hrow, hall cs c [] rfl, hs, front, rfl, fun as d bs hcs => ?_⟩
    exact hall as d (bs ++ [c]) (by simp [hcs])
  · rintro ⟨hrow, hc, hs, front, rfl, hall⟩
    refine ⟨⟨hrow, hs⟩, front, by simp, fun as d bs hcs => ?_⟩
    rcases List.eq_nil_or_concat' bs with rfl | ⟨bs, e, rfl⟩
    · obtain ⟨rfl, hd⟩ := List.append_inj' hcs rfl
      rw [← List.singleton_inj.1 hd]
      exact hc
    · rw [← List.cons_append, ← List.append_assoc] at hcs
      exact hall as d bs (List.append_inj_left' hcs rfl)

/-- What ends a run stands at the end of the siblings. -/
theorem exists_of_run (h : Run allowed row pre cs) (hne : cs ≠ []) :
    ∃ front as c, pre = front ++ [.comment c] ∧ cs = as ++ [c] := by
  obtain ⟨-, front, rfl, -⟩ := h
  rcases List.eq_nil_or_concat' cs with rfl | ⟨as, c, rfl⟩
  · exact absurd rfl hne
  · exact ⟨front ++ as.map .comment, as, c, by simp, rfl⟩

theorem longest_nil (h : ∀ front c, pre = front ++ [.comment c] →
    ¬ (c.extent.lastRow + 1 = row ∧ allowed front c)) : Longest allowed row pre [] := by
  refine ⟨run_nil _ _ _, fun ds hds => ?_⟩
  by_cases hne : ds = []
  · rw [hne]
  · obtain ⟨front, as, c, rfl, rfl⟩ := exists_of_run hds hne
    obtain ⟨hrow, hc, -⟩ := run_concat.1 hds
    exact absurd ⟨hrow, hc⟩ (h front c rfl)

theorem Longest.concat (h : Longest allowed c.extent.row pre cs) (hrow : c.extent.lastRow + 1 = row)
    (hc : allowed pre c) : Longest allowed row (pre ++ [.comment c]) (cs ++ [c]) := by
  refine ⟨run_concat.2 ⟨hrow, hc, h.run⟩, fun ds hds => ?_⟩
  by_cases hne : ds = []
  · rw [hne]
    exact List.nil_suffix
  · obtain ⟨front, as, d, hpre, rfl⟩ := exists_of_run hds hne
    obtain ⟨rfl, hd⟩ := List.append_inj' hpre rfl
    cases hd
    obtain ⟨more, rfl⟩ := h.suffix as (run_concat.1 hds).2.2
    exact ⟨more, by simp⟩

theorem trails_reverse (place : α → Extent) (c : Comment) (pre : List (Sibling α)) :
    trails place c pre.reverse = false ↔ Detached place pre c := by
  rcases List.eq_nil_or_concat' pre with rfl | ⟨front, x, rfl⟩
  · simp [trails, Detached]
  · cases x with
    | comment d => simp [trails, Detached]
    | member a => simp [trails, Detached]

/-- The docs are the longest run of comments, none of them right behind a member on its line. -/
theorem longest_commentsAbove (place : α → Extent) (row : Nat) (before : List (Sibling α)) :
    Longest (Detached place) row before.reverse (commentsAbove place row before) := by
  induction before generalizing row with
  | nil => exact longest_nil (by simp)
  | cons x before ih =>
      rw [List.reverse_cons]
      cases x with
      | member a => exact longest_nil (by simp)
      | comment c =>
          rw [commentsAbove]
          split
          next hno =>
            refine longest_nil fun front d hpre => ?_
            obtain ⟨rfl, hd⟩ := List.append_inj' hpre rfl
            cases hd
            rintro ⟨hrow, hd⟩
            rw [← trails_reverse, List.reverse_reverse] at hd
            simp [hrow, hd] at hno
          next hyes =>
            simp only [Bool.or_eq_true, decide_eq_true_eq, not_or, not_not, Bool.not_eq_true] at hyes
            refine (ih c.extent.row).concat hyes.1 ?_
            rw [← trails_reverse, List.reverse_reverse]
            exact hyes.2

theorem Run.congr (he : ∀ front c back, pre = front ++ .comment c :: List.map .comment back →
    (allowed front c ↔ allowed' front c)) : Run allowed row pre cs ↔ Run allowed' row pre cs := by
  refine and_congr_right fun _ => exists_congr fun front => and_congr_right fun hpre => ?_
  refine forall_congr' fun as => forall_congr' fun c => forall_congr' fun bs => ?_
  refine imp_congr_right fun hcs => he _ _ bs ?_
  rw [hpre, hcs]
  simp

theorem Longest.congr (he : ∀ front c back, pre = front ++ .comment c :: List.map .comment back →
    (allowed front c ↔ allowed' front c)) (h : Longest allowed row pre cs) :
    Longest allowed' row pre cs :=
  ⟨(Run.congr he).1 h.run, fun ds hds => h.suffix ds ((Run.congr he).2 hds)⟩

end Docs

namespace Syntax

def Comment.rows (c : Comment) : List Nat := [c.extent.row, c.extent.lastRow]

/-- The rows of the comments in front of a token, and those of the token. -/
def Token.rows (t : Token) : List Nat :=
  t.comments.flatMap Comment.rows ++ [t.extent.row, t.extent.lastRow]

def Sibling.rows {α : Type} (place : α → Extent) : Sibling α → List Nat
  | .comment c => c.rows
  | .member a => [(place a).row, (place a).lastRow]

/-- Siblings one behind the other, as far as rows tell. -/
def InRows {α : Type} (place : α → Extent) (siblings : List (Sibling α)) : Prop :=
  (siblings.flatMap (Sibling.rows place)).Pairwise (· ≤ ·)

namespace Lexer

/-- The rows of one more piece in front. -/
theorem pairwise_rows {row n : Nat} {rows : List Nat} (hord : rows.Pairwise (· ≤ ·))
    (hrow : ∀ r ∈ rows, row + n ≤ r) : ([row, row + n] ++ rows).Pairwise (· ≤ ·) ∧
      ∀ r ∈ [row, row + n] ++ rows, row ≤ r := by
  have hfirst : ∀ r ∈ rows, row ≤ r := fun r hr => Nat.le_trans (Nat.le_add_right _ _) (hrow r hr)
  constructor
  · refine List.pairwise_cons.2 ⟨?_, List.pairwise_cons.2 ⟨hrow, hord⟩⟩
    simpa using hfirst
  · simpa using hfirst

/-- A scan gives the comments that it knows, and then rows that go on from where it starts. -/
theorem exists_rows_scan (st : State) (s : List Char) :
    ∃ rows, (scan st s).flatMap Token.rows = st.comments.flatMap Comment.rows ++ rows ∧
      rows.Pairwise (· ≤ ·) ∧ ∀ r ∈ rows, st.row ≤ r := by
  fun_induction scan st s with
  | case1 st => exact ⟨[st.row, st.row], by simp [Token.rows, State.extent], by simp, by simp⟩
  | case2 st c r n text rest hp ih =>
      obtain ⟨rows, hrows, hord, hrow⟩ := ih
      refine ⟨rows, hrows, hord, fun r hr => ?_⟩
      exact Nat.le_trans (Nat.le_add_right _ _) (hrow r hr)
  | case3 st c r n text rest comment hp ih =>
      obtain ⟨rows, hrows, hord, hrow⟩ := ih
      refine ⟨comment.rows ++ rows, ?_, pairwise_rows hord hrow⟩
      rw [hrows]
      simp [State.pass]
  | case4 st c r n text rest kind hp ih =>
      obtain ⟨rows, hrows, hord, hrow⟩ := ih
      refine ⟨[st.row, st.row + text.count '\n'] ++ rows, ?_, pairwise_rows hord hrow⟩
      rw [List.flatMap_cons, hrows]
      simp [State.pass, Token.rows, State.extent]

theorem rows_tokens (text : List Char) : ((tokens text).flatMap Token.rows).Pairwise (· ≤ ·) := by
  unfold tokens
  split
  · obtain ⟨rows, h, hord, -⟩ := exists_rows_scan ⟨byteLength ['\ufeff'], 0, false, []⟩ _
    rw [h]
    exact hord
  · obtain ⟨rows, h, hord, -⟩ := exists_rows_scan ⟨0, 0, false, []⟩ text
    rw [h]
    exact hord

end Lexer

section Lists

open Syntax.Parser

variable {α : Type} {p : Parser α} {place : α → Extent} {siblings : List (Sibling α)}
  {ts us rest : List Token}

theorem rows_commentSiblings (place : α → Extent) (t : Token) :
    (commentSiblings t).flatMap (Sibling.rows place) = t.comments.flatMap Comment.rows := by
  rw [commentSiblings, List.flatMap_map]
  rfl

/-- A member and the comments in front of it have the rows of the tokens that it comes from. -/
theorem rows_extentOf (t : Token) (seg : List Token) :
    (t.comments.flatMap Comment.rows ++ [(extentOf (t :: seg)).row, (extentOf (t :: seg)).lastRow]).Sublist
      ((t :: seg).flatMap Token.rows) := by
  rcases List.eq_nil_or_concat' seg with rfl | ⟨init, l, rfl⟩
  · simp [extentOf, Extent.through, Token.rows]
  · have hlast : (extentOf (t :: (init ++ [l]))).lastRow = l.extent.lastRow := by
      simp [extentOf, Extent.through]
    have hrow : (extentOf (t :: (init ++ [l]))).row = t.extent.row := rfl
    rw [hlast, hrow, List.append_cons, List.flatMap_cons, Token.rows]
    refine List.Sublist.append ?_ ?_
    · simp
    · simp [Token.rows]

/-- Commas or line breaks between members have comments as well. -/
theorem rows_separators (place : α → Extent) (sep : List Token) :
    ((sep.flatMap commentSiblings).flatMap (Sibling.rows place)).Sublist
      (sep.flatMap Token.rows) := by
  induction sep with
  | nil => exact .slnil
  | cons t sep ih =>
      rw [List.flatMap_cons, List.flatMap_append, rows_commentSiblings, List.flatMap_cons, Token.rows]
      exact (List.sublist_append_left _ _).append ih

theorem rows_next (place : α → Extent) {t : Token} {a : α} {seg sep : List Token} {more : List (Sibling α)}
    (ha : place a = extentOf (t :: seg))
    (h : (more.flatMap (Sibling.rows place)).Sublist (us.flatMap Token.rows)) :
    ((commentSiblings t ++ Sibling.member a :: (sep.flatMap commentSiblings ++ more)).flatMap
      (Sibling.rows place)).Sublist ((t :: seg ++ (sep ++ us)).flatMap Token.rows) := by
  rw [List.flatMap_append, List.flatMap_cons, List.flatMap_append, rows_commentSiblings,
    List.flatMap_append, List.flatMap_append, Sibling.rows, ha, ← List.append_assoc]
  exact (rows_extentOf t seg).append ((rows_separators place sep).append h)

theorem rows_of_gathered {closing : String}
    (hp : ∀ ⦃ts a rest⦄, p.run ts = some (a, rest) → ∃ used, ts = used ++ rest ∧ Covers used (place a))
    (h : Gathered closing p us siblings rest) :
    (siblings.flatMap (Sibling.rows place)).Sublist (us.flatMap Token.rows) := by
  induction h with
  | @closed c rest hc =>
      rw [rows_commentSiblings, List.flatMap_cons, Token.rows, List.append_assoc]
      exact List.sublist_append_left _ _
  | @next t u us sep vs rest a more ht ha hs h ih =>
      obtain ⟨used, he, hne, hplace⟩ := hp ha
      obtain ⟨t', seg, rfl⟩ := List.exists_cons_of_ne_nil hne
      rw [List.cons_append] at he
      obtain ⟨rfl, rfl⟩ := List.cons.inj he
      exact rows_next place hplace ih

theorem rows_of_lists
    (hp : ∀ ⦃ts a rest⦄, p.run ts = some (a, rest) → ∃ used, ts = used ++ rest ∧ Covers used (place a))
    (h : p.Lists ts siblings) :
    (siblings.flatMap (Sibling.rows place)).Sublist (ts.flatMap Token.rows) := by
  obtain ⟨closing, o, us, content, rest, hs, hg, has⟩ := h
  have hcontent := rows_of_gathered hp hg
  have hall : (siblings.flatMap (Sibling.rows place)).Sublist ((o :: us).flatMap Token.rows) := by
    rw [List.flatMap_cons, Token.rows]
    rcases has with rfl | rfl
    · exact hcontent.trans (List.sublist_append_right _ _)
    · rw [List.flatMap_append, rows_commentSiblings]
      exact (List.sublist_append_left _ _).append hcontent
  exact hall.trans (hs.sublist.flatMap Token.rows)

theorem rows_of_itemized {n : Nat} {items : List (Sibling Item)}
    (h : Grammar.Itemized n us items rest) :
    (items.flatMap (Sibling.rows Item.extent)).Sublist (us.flatMap Token.rows) := by
  induction h with
  | @stop t rest ht =>
      rw [rows_commentSiblings, List.flatMap_cons, Token.rows, List.append_assoc]
      exact List.sublist_append_left _ _
  | @next t u seg sep vs rest kind more ht hk hs h ih => exact rows_next Item.extent rfl ih

end Lists

namespace Tree

/-- The lists of a file that have documented members, with the places of their members. -/
inductive Has (tree : Tree) : {α : Type} → (α → Extent) → List (Sibling α) → Prop
  | items : Has tree Item.extent tree.items
  | entries {i : Item} {es : List (Sibling TypeEntry)} (hi : i ∈ members tree.items)
      (hk : i.kind = .types (.group es)) : Has tree TypeEntry.extent es
  | fields {d : Titled StructBody} (hd : d ∈ tree.structs) :
      Has tree FieldDecl.extent d.body.fields
  | elems {d : Titled InterfaceBody} (hd : d ∈ tree.interfaces) :
      Has tree InterfaceElem.extent d.body.elems

theorem inRows_of_has {text : List Char} {tree : Tree} {α : Type} {place : α → Extent}
    {siblings : List (Sibling α)} (h : Tree.ofText? text = some tree)
    (hs : tree.Has place siblings) : InRows place siblings := by
  have hrows := Lexer.rows_tokens text
  cases hs with
  | items =>
      obtain ⟨us, z, ht, -, -, -, hi⟩ := ofText?_eq_some h
      rw [ht] at hrows
      exact hrows.sublist (rows_of_itemized hi)
  | entries hi hk =>
      have hitem := among_items h _ hi
      rw [hk] at hitem
      obtain ⟨⟨n, hl⟩, -⟩ := hitem
      refine hrows.sublist (rows_of_lists (fun ts e rest hr => ?_) hl)
      obtain ⟨used, hu, he⟩ := Grammar.from_typeEntry hr
      exact ⟨used, hu, he.1⟩
  | fields hd =>
      obtain ⟨t, ht, hd⟩ := List.mem_filterMap.1 hd
      have htopic := among_topics h t ht
      cases t with
      | struct d =>
          cases hd
          obtain ⟨n, hl⟩ := htopic
          exact hrows.sublist (rows_of_lists (fun _ _ _ => Grammar.from_fieldDecl) hl)
      | interface d => cases hd
      | function d => cases hd
  | elems hd =>
      obtain ⟨t, ht, hd⟩ := List.mem_filterMap.1 hd
      have htopic := among_topics h t ht
      cases t with
      | struct d => cases hd
      | interface d =>
          cases hd
          obtain ⟨n, hl⟩ := htopic
          exact hrows.sublist (rows_of_lists (fun _ _ _ => Grammar.from_interfaceElem) hl)
      | function d => cases hd

end Tree

end Syntax

namespace Docs

variable {α : Type} {place : α → Extent} {row : Nat} {pre post front : List (Sibling α)} {a : α}
  {c : Comment}

/-- A comment that trails a member has either the member or another comment right in front. -/
theorem untrailing_of_detached {back : List (Sibling α)}
    (h : InRows place (front ++ .comment c :: back))
    (hc : ∀ before d, front = before ++ [.comment d] →
      ∀ b ∈ members before, (place b).lastRow ≠ c.extent.row)
    (hd : Detached place front c) : Untrailing place front c := by
  intro b hb
  rcases List.eq_nil_or_concat' front with rfl | ⟨before, x, rfl⟩
  · cases hb
  cases x with
  | comment d => exact hc before d rfl b (by simpa using hb)
  | member a =>
      have ha := hd before a rfl
      rw [members_append, List.mem_append, members_member, members_nil, List.mem_singleton] at hb
      rcases hb with hb | rfl
      · -- between the two members and the comment the rows do not decrease
        have hmem : (place b).lastRow ∈ before.flatMap (Sibling.rows place) := by
          obtain ⟨x, hx, hxb⟩ := List.mem_filterMap.1 hb
          refine List.mem_flatMap.2 ⟨x, hx, ?_⟩
          cases x <;> cases hxb
          simp [Sibling.rows]
        rw [InRows, List.flatMap_append, List.flatMap_append] at h
        obtain ⟨hfront, -, hrest⟩ := List.pairwise_append.1 h
        have hba := (List.pairwise_append.1 hfront).2.2 _ hmem (place a).lastRow (by simp [Sibling.rows])
        have hac := hrest (place a).lastRow (by simp [Sibling.rows]) c.extent.row
          (by simp [Sibling.rows, Comment.rows])
        omega
      · exact ha

/-- Whatever text has a tree, the docs of a member are the longest run of comments right above it, one
right below the other, up to one that stands right behind another member on its line. They are the
longest run of comments with no member on their lines, if no comment behind another one trails a
member. -/
theorem attach_longest {text : List Char} {tree : Tree} (h : Tree.ofText? text = some tree)
    (hs : tree.Has place (pre ++ .member a :: post)) :
    let docs := commentsAbove place (place a).row pre.reverse
    (∃ front back, attach place (pre ++ .member a :: post) = front ++ ⟨linesOf docs, a⟩ :: back ∧
      front.map Documented.item = members pre) ∧
    Longest (Detached place) (place a).row pre docs ∧
    ((∀ before c d back, pre = before ++ .comment c :: .comment d :: List.map .comment back →
        ∀ b ∈ members before, (place b).lastRow ≠ d.extent.row) →
      Longest (Untrailing place) (place a).row pre docs) := by
  intro docs
  have hlongest := longest_commentsAbove place (place a).row pre.reverse
  rw [List.reverse_reverse] at hlongest
  refine ⟨?_, hlongest, fun hno => hlongest.congr fun front c back hpre => ⟨fun hd => ?_, ?_⟩⟩
  · refine ⟨attach place pre, attachFrom place (.member a :: pre.reverse) post, ?_, by simp⟩
    rw [attach, attachFrom_append, List.append_nil, attachFrom, attach]
  · have hrows := Tree.inRows_of_has h hs
    rw [hpre, List.append_assoc, List.cons_append] at hrows
    refine untrailing_of_detached hrows (fun before d hf => ?_) hd
    refine hno before d c back ?_
    rw [hpre, hf]
    simp
  · rintro ht before b rfl
    exact ht b (by simp)

/-- Two members with two comments between them. -/
def twoBetween? : List (Sibling α) → Option (α × Comment × Comment × α)
  | [.member a, .comment c, .comment d, .member b] => some (a, c, d, b)
  | _ => none

theorem eq_of_twoBetween? {siblings : List (Sibling α)} {p : α × Comment × Comment × α}
    (h : twoBetween? siblings = some p) :
    siblings = [.member p.1, .comment p.2.1] ++ .comment p.2.2.1 :: .member p.2.2.2 :: [] := by
  unfold twoBetween? at h
  split at h
  · cases h
    rfl
  · cases h

theorem exists_fields (text : List Char) (test : FieldDecl → Comment → Comment → FieldDecl → Bool)
    (h : (Tree.ofText? text).any fun tree => tree.structs.any fun d =>
      (twoBetween? d.body.fields).any fun p => test p.1 p.2.1 p.2.2.1 p.2.2.2) :
    ∃ tree, Tree.ofText? text = some tree ∧ ∃ x c d y, tree.Has FieldDecl.extent
      ([.member x, .comment c] ++ .comment d :: .member y :: []) ∧ test x c d y := by
  cases ht : Tree.ofText? text with
  | none =>
      rw [ht] at h
      cases h
  | some tree =>
      rw [ht, Option.any_some] at h
      obtain ⟨b, hb, hfields⟩ := List.any_eq_true.1 h
      cases hp : twoBetween? b.body.fields with
      | none =>
          rw [hp] at hfields
          cases hfields
      | some p =>
          rw [hp, Option.any_some] at hfields
          exact ⟨tree, rfl, _, _, _, _, eq_of_twoBetween? hp ▸ .fields hb, hfields⟩

/-- Of a comment on the line of a field and one below, only the second one documents the next field. -/
theorem attach_longest_line_comment :
    let text := "package p\n\ntype T struct \x7b\n\tX int // x\n\t// y\n\tY int\n\x7d\n".toList
    ∃ tree, Tree.ofText? text = some tree ∧ ∃ pre a post,
      tree.Has FieldDecl.extent (pre ++ .member a :: post) ∧
      (commentsAbove FieldDecl.extent a.extent.row pre.reverse).map (·.text) = ["// y"] ∧
      Longest (Untrailing FieldDecl.extent) a.extent.row pre
        (commentsAbove FieldDecl.extent a.extent.row pre.reverse) := by
  intro text
  obtain ⟨tree, ht, x, c, d, y, hf, htest⟩ := exists_fields text (fun x c d y =>
    decide (x.extent.lastRow ≠ d.extent.row) &&
      (commentsAbove FieldDecl.extent y.extent.row [.comment d, .comment c, .member x]).map
        (·.text) == ["// y"]) (by decide +kernel)
  simp only [Bool.and_eq_true, decide_eq_true_eq, beq_iff_eq] at htest
  have hf : tree.Has FieldDecl.extent ([.member x, .comment c, .comment d] ++ .member y :: []) := hf
  refine ⟨tree, ht, _, y, _, hf, htest.2, (attach_longest ht hf).2.2 ?_⟩
  intro before c' d' back hpre b hb
  rcases before with _ | ⟨z, _ | ⟨z', before⟩⟩
  · cases hb
  · simp only [List.cons_append, List.nil_append, List.cons.injEq, Sibling.comment.injEq] at hpre
    obtain ⟨rfl, -, rfl, -⟩ := hpre
    rw [members_member, members_nil, List.mem_singleton] at hb
    rw [hb]
    exact htest.1
  · have hlength := congrArg List.length hpre
    simp only [List.length_cons, List.length_append, List.length_map, List.length_nil] at hlength
    omega

/-- A comment that stands behind another one on the line of a field is taken for the docs of the next
field. -/
theorem not_longest_second_comment :
    let text := "package p\n\ntype T struct \x7b\n\tX int /* a */ // b\n\tY int\n\x7d\n".toList
    ∃ tree, Tree.ofText? text = some tree ∧ ∃ pre a post,
      tree.Has FieldDecl.extent (pre ++ .member a :: post) ∧
      ¬ Longest (Untrailing FieldDecl.extent) a.extent.row pre
        (commentsAbove FieldDecl.extent a.extent.row pre.reverse) := by
  intro text
  obtain ⟨tree, ht, x, c, d, y, hf, htest⟩ := exists_fields text (fun x c d y =>
    x.extent.lastRow == d.extent.row &&
      commentsAbove FieldDecl.extent y.extent.row [.comment d, .comment c, .member x] == [d])
    (by decide +kernel)
  simp only [Bool.and_eq_true, beq_iff_eq] at htest
  refine ⟨tree, ht, [.member x, .comment c, .comment d], y, [], hf, fun hl => ?_⟩
  have hl : Longest (Untrailing FieldDecl.extent) y.extent.row
      ([.member x, .comment c] ++ [.comment d]) [d] := htest.2 ▸ hl
  obtain ⟨-, front, hpre, hall⟩ := hl.run
  obtain rfl := List.append_inj_left' hpre rfl
  exact hall [] d [] rfl x (by simp) htest.1

end Docs

end GoOutline
