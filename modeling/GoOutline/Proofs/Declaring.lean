import GoOutline.Proofs.Appending
import GoOutline.Proofs.Composites

/-!
Types that are declared. A structure or an interface without members that is written behind all that
stands in a file is declared behind all that is declared there, and nothing else changes.
-/

namespace GoOutline

open Text Syntax Syntax.Lexer Syntax.Grammar
open Syntax.Parser (commentSiblings)

namespace Syntax

variable {text m : List Char} {lead : List Piece}

/-- The tokens of a text, and those of the text with a line behind it. -/
theorem Lexer.exists_tokens_lined (hs : ∀ t ∈ tokens text, t.kind ≠ .stray)
    (hclose : Closes (pieces text) []) :
    ∃ us z cs, tokens text = us ++ [z] ∧ z.kind = .stop ∧ (∀ t ∈ us, t.Upto (trimEnd text)) ∧
      (∀ c ∈ cs, c.extent.Upto (trimEnd text)) ∧ ∀ lead m, Leading lead → Phrase m →
        (∃ z', z'.kind = .stop ∧ z'.newline ∧ z'.comments = [] ∧
          tokens (lined text lead m) = us ++ (emit (outset text cs lead) (pieces m) ++ [z'])) ∧
        Closes (pieces (lined text lead m)) [] := by
  obtain ⟨m₀, s, rfl, hm₀⟩ := exists_leads text
  have hsf : ∀ q ∈ pieces s, q.kind ≠ .token .stray := by
    intro q hq hkind
    obtain ⟨t, ht, hstray⟩ := exists_emit_of_mem hq hkind (start m₀)
    refine hs t ?_ hstray
    rw [tokens_of_leads hm₀, scan_eq]
    exact List.mem_append_left _ ht
  obtain ⟨cs, -, hupto, hcs, hbelow⟩ :=
    tokens_below hm₀ (List.append_nil (pieces s)).symm hsf hclose edge_nil
  rw [flat_pieces] at hupto hcs hbelow
  refine ⟨_, _, cs, by rw [tokens_of_leads hm₀, scan_eq], rfl, hupto, hcs, fun lead m hlead hm => ?_⟩
  have hcut (r : List Char) : pieces (m ++ '\n' :: r) = pieces m ++ pieces ('\n' :: r) :=
    hm.pieces_append (edge_newline r)
  obtain ⟨htokens, hclosed⟩ := hbelow (flat lead ++ (m ++ ['\n']))
  refine ⟨⟨(((pieces m).foldl State.behind (outset (m₀ ++ s) cs lead)).behind ⟨.space, ['\n']⟩).stop, rfl,
    ?_, ?_, ?_⟩, hclosed (closes_line hlead.gap hlead.cut hm.closes hcut ?_)⟩
  · rw [foldl_behind_halting hm.halts]
    rfl
  · rw [foldl_behind_halting hm.halts]
    rfl
  · rw [lined, htokens, scan_line hlead.gap hlead.cut hcut, scan_eq, pieces]
    rfl
  · intro l p r he
    simp [pieces] at he

/-- A declaration of a type on a line behind a text is one item more of its tree. -/
theorem exists_ofText?_lined {tree : Tree} (htree : Tree.ofText? text = some tree)
    (hk : ∀ i ∈ members tree.items, i.kind ≠ .statement) (hclose : Closes (pieces text) []) :
    let d := Motion.upto (trimEnd text)
    ∃ pre cs, Docs.attach Item.extent pre = Docs.attach Item.extent tree.items ∧
      pre.map (d.sibling d.item) = pre ∧
      ∀ lead m, Leading lead → Phrase m → Closes (pieces (lined text lead m)) [] ∧
        ∀ t ts kind cs', emit (outset text cs lead) (pieces m) = t :: ts → t.is "type" → t.newline →
          t.comments = cs ++ cs' →
          (∀ n z, (itemKind (n + 7)).run (t :: ts ++ [z]) = some (kind, [z])) →
          Tree.ofText? (lined text lead m) =
            some ⟨pre ++ cs'.map .comment ++ [.member ⟨Parser.extentOf (t :: ts), kind⟩]⟩ := by
  intro d
  obtain ⟨us, z, cs, htokens, hz, hupto, hcs, hlined⟩ :=
    exists_tokens_lined (not_stray_of_tree htree) hclose
  obtain ⟨us', stop, htokens', hstop, hsolid, hcov, hitems⟩ := ofText?_eq_some htree
  obtain ⟨rfl, hzs⟩ := List.append_inj' (htokens.symm.trans htokens') rfl
  obtain rfl := List.singleton_inj.1 hzs
  -- An end with the comments that are left in front of the line.
  let y : Token := ⟨.stop, "", default, true, cs⟩
  obtain ⟨front, hfront, hy⟩ := hitems.restop_last hz (show y.kind = .stop from rfl) rfl hk
  refine ⟨front ++ commentSiblings y, cs, ?_, ?_, fun lead m hlead hm => ?_⟩
  · rw [hfront, Docs.attach_commentSiblings, Docs.attach_commentSiblings]
  · have hstart : Extent.Upto (trimEnd text) default :=
      ⟨⟨[], List.nil_prefix, rfl⟩, ⟨[], List.nil_prefix, rfl⟩, Nat.zero_le _, Nat.zero_le _⟩
    refine hy.fixed ⟨⟨y, by simp, rfl⟩, by simpa using hcov.bound⟩ fun t ht => ?_
    rcases List.mem_append.1 ht with ht | ht
    · exact token_of_upto (hupto t ht)
    · rw [List.mem_singleton.1 ht]
      exact token_of_upto ⟨hstart, hcs⟩
  obtain ⟨⟨z', hz', hline, hcomments, hnew⟩, hclosed⟩ := hlined lead m hlead hm
  refine ⟨hclosed, fun t ts kind cs' hemit ht hnewline hcs' hrun => ?_⟩
  rw [hemit] at hnew
  have halone : endsAlone z = endsAlone t := by simp [endsAlone, hz, hnewline]
  -- A bound that covers the tokens before and after.
  set k := 16 * ((tokens text).length + (t :: ts).length + 2)
  have hold := hitems.rebound (m := k) hcov ⟨hcov.ended, by simp [htokens, k]; omega⟩
  obtain ⟨before, front', hbefore, hfront', hnext⟩ :=
    hold.restop (.inr hz) (.inl ht) halone hnewline hk (ts ++ [z'])
  obtain rfl := List.append_cancel_right hbefore
  obtain rfl := List.append_cancel_right (hfront.symm.trans hfront')
  have hparted : Parted (t :: ts) kind [] z' [] := .inl ⟨rfl, .inl hline⟩
  have hstop : t.kind ≠ .stop := by
    rw [Token.kind_of_is ht]
    decide
  have hkind := hrun (k - 7) z'
  have hseven : k - 7 + 7 = k := by simp only [k]; omega
  rw [hseven] at hkind
  have hitem := hnext _ _ (.next hstop hkind hparted (.stop hz'))
  have hitem' : Itemized k (tokens (lined text lead m)) (front ++ commentSiblings y ++
      cs'.map .comment ++ [.member ⟨Parser.extentOf (t :: ts), kind⟩]) [z'] := by
    rw [hnew]
    simpa [commentSiblings, hcomments, hcs', y] using hitem
  refine ofText?_of_covered hitem' ⟨(covered_tokens _).ended, ?_⟩
  have hlength : (tokens text).length = us.length + 1 := by simp [htokens]
  rw [hnew]
  simp only [List.length_append, List.length_cons, List.length_nil, k]
  omega

end Syntax

namespace Draft.Composite

variable {c : Composite} {text gap : List Char}

/-- A text, and below it the declaration of a type up to its brace. -/
def opened (c : Composite) (text gap : List Char) : List Char :=
  trimEnd text ++ '\n' :: '\n' :: (Docs.render c.docs ++ (c.head ++ (gap ++ ['\x7b'])))

theorem opened_bare (c : Composite) (text : List Char) : c.opened text [] ++ ['\x7d', '\n'] =
    trimEnd text ++ '\n' :: '\n' :: (c.bare.render ++ ['\n']) := by
  simp [opened, render_bare, line]

theorem opened_members (h : c.members ≠ []) (text : List Char) :
    c.opened text [' '] ++ body c.members ++ ['\x7d', '\n'] =
      trimEnd text ++ '\n' :: '\n' :: (c.render ++ ['\n']) := by
  simp [opened, render_of_members h]

/-- A type with nothing between its braces, below its docs, is one item more of a tree. -/
theorem exists_ofText?_opened {tree : Tree} (htree : Tree.ofText? text = some tree)
    (hk : ∀ i ∈ Syntax.members tree.items, i.kind ≠ .statement) (hclose : Closes (pieces text) [])
    (hname : IsName c.name.toList) (hdocs : ∀ line ∈ c.docs, '\n' ∉ line.toList) :
    let d := Motion.upto (trimEnd text)
    ∃ pre, Docs.attach Item.extent pre = Docs.attach Item.extent tree.items ∧
      pre.map (d.sibling d.item) = pre ∧ ∀ gap, gap = [] ∨ gap = [' '] →
        let a := c.opened text gap
        ∃ cs extent e s braces, Closes (pieces (a ++ ['\x7d', '\n'])) [] ∧
          Docs.Fills ((trimEnd text).count '\n' + 2) cs extent.row ∧
          Docs.linesOf cs = c.docs.map Docs.said ∧
          Delimiters.inner braces = ⟨byteLength a, byteLength a⟩ ∧
          Tree.ofText? (a ++ ['\x7d', '\n']) = some ⟨pre ++ cs.map .comment ++
            [.member ⟨extent, .types (.lone (.definition ⟨e, c.name, c.emptyBody s braces⟩))⟩]⟩ := by
  intro d
  obtain ⟨pre, cs, hattach, hfixed, hlined⟩ := exists_ofText?_lined htree hk hclose
  obtain ⟨lead, hlead, hflat, hnotes⟩ := exists_leading_docs hdocs
  refine ⟨pre, hattach, hfixed, fun gap hgap => ?_⟩
  intro a
  have hphrase := phrase_line hname hgap
  obtain ⟨hclosed, hread⟩ := hlined _ _ hlead.newline hphrase
  have htext : lined text (⟨.space, ['\n']⟩ :: lead) (c.line gap) = a ++ ['\x7d', '\n'] := by
    simp [lined, a, opened, hflat, line]
  rw [htext] at hclosed hread
  set st := outset text cs (⟨.space, ['\n']⟩ :: lead) with hst
  have hnewline : st.newline := newline_gap hlead.newline.gap rfl
  obtain ⟨cs', hcomments, hrows, hsaid⟩ :=
    hnotes ((below (trimEnd text) cs).behind ⟨.space, ['\n']⟩)
  have hcomments : st.comments = cs ++ cs' := hcomments
  have hrows : Docs.Fills ((trimEnd text).count '\n' + 2) cs' st.row := hrows
  obtain ⟨t, ts, e, s, braces, hemit, ht, hline, hnotes, hrow, hinner, hrun⟩ := exists_item hname hgap st
  have htree' := hread t ts _ cs' hemit ht (hline.trans hnewline) (hnotes.trans hcomments) hrun
  rw [← hrow] at hrows
  refine ⟨cs', _, e, s, braces, hclosed, hrows, hsaid, ?_, htree'⟩
  have hnewline : '\n'.utf8Size = 1 := by decide
  have hbrace : '\x7b'.utf8Size = 1 := by decide
  have hlength : byteLength a = st.offset + byteLength (c.head ++ gap) + 1 := by
    simp only [a, opened, hst, offset_outset, flat_cons, hflat, byteLength_append, List.singleton_append,
      byteLength]
    omega
  rw [hlength]
  exact hinner

end Draft.Composite

namespace Docs

variable {α : Type} {place : α → Extent} {f : α → α} {u : List Char} {s : List (Sibling α)}

/-- What stays up to a text ends above the line but one behind it. -/
theorem clear_of_fixed (hf : ∀ a, place (f a) = (Motion.upto u).extent (place a))
    (hs : s.map ((Motion.upto u).sibling f) = s) : Clear place (u.count '\n' + 2) s.reverse := by
  have hrow {e : Extent} (he : (Motion.upto u).extent e = e) : e.lastRow ≤ u.count '\n' :=
    of_decide_eq_true (kept_rows he).2
  rcases List.eq_nil_or_concat' s with rfl | ⟨front, x, rfl⟩
  · trivial
  rw [List.map_append] at hs
  have hx := List.singleton_inj.1 (List.append_inj' hs rfl).2
  rw [List.reverse_append]
  cases x with
  | comment c =>
      have hc := hrow (congrArg Comment.extent (Sibling.comment.inj hx))
      exact Nat.succ_lt_succ (Nat.lt_succ_of_le hc)
  | member a =>
      have ha := hrow ((hf a).symm.trans (congrArg place (Sibling.member.inj hx)))
      exact Nat.lt_of_le_of_lt ha (by omega)

end Docs

namespace Outline

open Docs

namespace Hole

/-- A list of items with a definition behind all of them, below comments. -/
def last (pre : List (Sibling Item)) (cs : List Comment) (extent : Extent) (spec : TypeSpec) : Hole :=
  ⟨pre ++ cs.map .comment, extent, .lone, spec, []⟩

variable {pre items : List (Sibling Item)} {cs : List Comment} {extent : Extent} {spec : TypeSpec}
  {u : List Char}

theorem attach_last_pre (h : attach Item.extent pre = attach Item.extent items) :
    attach Item.extent (last pre cs extent spec).pre = attach Item.extent items :=
  (attach_commentSiblings pre ⟨.stop, "", default, true, cs⟩).trans h

theorem attach_last (h : attach Item.extent pre = attach Item.extent items) :
    let hole := last pre cs extent spec
    attach Item.extent hole.items = attach Item.extent items ++ [⟨hole.itemDocs, hole.item⟩] := by
  intro hole
  rw [← attach_last_pre h, Hole.items, attach, attachFrom_append, List.append_nil]
  rfl

theorem docs_last (h : pre.map ((Motion.upto u).sibling (Motion.upto u).item) = pre)
    (hrows : Fills (u.count '\n' + 2) cs extent.row) : (last pre cs extent spec).docs = linesOf cs := by
  have hclear : Clear Item.extent (u.count '\n' + 2) pre.reverse := clear_of_fixed (fun _ => rfl) h
  have habove := commentsAbove_fills hclear hrows
  rw [← List.reverse_append] at habove
  exact congrArg linesOf habove

/-- What is declared in front is what was declared, and stays. -/
theorem front_last {tree : Tree} (h : attach Item.extent pre = attach Item.extent tree.items)
    (hf : pre.map ((Motion.upto u).sibling (Motion.upto u).item) = pre) :
    (last pre cs extent spec).front = tree.topics ∧
      tree.topics.map (Motion.upto u).topic = tree.topics := by
  have htopics : topicsFrom [] pre = tree.topics := congrArg (List.flatMap itemTopics) h
  constructor
  · have hall : topicsFrom [] (last pre cs extent spec).pre = tree.topics :=
      congrArg (List.flatMap itemTopics) (attach_last_pre h)
    exact (List.append_nil _).trans hall
  · rw [← htopics]
    exact topicsFrom_fixed .nil hf

end Hole

variable {c : Draft.Composite} {marker : String} {find : Finder} {text : List Char} {layout : Layout}
  {o : Outline}

/-- An empty type below its docs behind all that stands in a text is declared last. -/
theorem Shows.exists_declared (hs : Shows ⟨marker, false⟩ find text layout o)
    (hclose : Closes (pieces text) []) (hname : IsName c.name.toList)
    (hdocs : ∀ line ∈ c.docs, '\n' ∉ line.toList) (hfree : o.declared? c.target = none) :
    ∃ ds, o.Tabulates ds ∧ ∀ gap, gap = [] ∨ gap = [' '] →
      let a := c.opened text gap
      let split := Annotation.split marker (c.docs.map Docs.said)
      ∃ layout' p hole span, Shows ⟨marker, false⟩ find (a ++ ['\x7d', '\n']) layout' p ∧
        layout'.imports = layout.imports ∧ Closes (pieces (a ++ ['\x7d', '\n'])) [] ∧
        o.SameHead p ∧ hole.Tidy ∧ Locates ⟨marker, false⟩ (a ++ ['\x7d', '\n']) p hole ds
          (c.declared span ⟨byteLength a, byteLength a⟩ split.1 split.2) [] := by
  obtain ⟨tree, htree, hitems, hkinds⟩ := layoutOf_eq_ok hs.laid
  obtain ⟨pre, hattach, hfixed, hopened⟩ :=
    Draft.Composite.exists_ofText?_opened htree hkinds hclose hname hdocs
  obtain ⟨-, -, -, -, -, ds, hds, htab⟩ := ofLayout_eq_ok hs.read
  rw [Layout.topics_declarations hitems] at hds
  refine ⟨ds, htab, fun gap hgap => ?_⟩
  intro a split
  obtain ⟨cs, extent, e, s, braces, hclosed, hrows, hsaid, hinner, htree'⟩ := hopened gap hgap
  set hole := Hole.last pre cs extent ⟨e, c.name, c.emptyBody s braces⟩
  have hdocs : hole.docs = c.docs.map said := (Hole.docs_last hfixed hrows).trans hsaid
  obtain ⟨hfront, hstay⟩ : hole.front = tree.topics ∧ _ := Hole.front_last hattach hfixed
  rw [← hfront] at hds hstay
  obtain ⟨t, htopic, hdescribe⟩ := c.describe_empty ⟨a ++ ['\x7d', '\n'], o.imports⟩ marker e s hole.span
    braces (c.docs.map said)
  have htopics : (TypeEntry.definition hole.spec).topics hole.span hole.docs = [t] := by
    rw [hdocs]
    exact htopic
  have hkeeps : Keeps (fun m => decide (IsBoundary (trimEnd text) m))
      (fun r => decide (r ≤ (trimEnd text).count '\n')) id id text (a ++ ['\x7d', '\n']) := by
    obtain ⟨w, hw, -⟩ := exists_trimEnd_append text
    refine keeps_front ⟨w, hw.symm⟩ ?_
    simp only [a, Draft.Composite.opened, List.append_assoc]
    exact List.prefix_append _ _
  obtain ⟨hds', -⟩ := Context.forall₂_describe_front hkeeps hstay hds
  have hfix : ∀ d ∈ attach Item.extent tree.items, (Motion.upto (trimEnd text)).item d.item = d.item := by
    rw [← hattach]
    exact fun d hd => Motion.member_of_fixed hfixed _ (mem_of_attach hd)
  obtain ⟨hright, himports⟩ := Layout.right_concat (d := ⟨hole.itemDocs, hole.item⟩)
    ((layoutOf_ok_iff htree).1 hs.laid) rfl
  rw [← Hole.attach_last hattach] at hright
  have hall : List.Forall₂
      (fun t d => (Context.mk ⟨a ++ ['\x7d', '\n'], o.imports⟩ ⟨marker, false⟩).describe t = .ok d)
      (Tree.mk hole.items).topics (ds ++ [c.declared hole.span braces.inner split.1 split.2]) := by
    have hback : hole.back = [] := rfl
    rw [Hole.topics_items, htopics, hback, List.append_nil]
    exact List.rel_append hds' (.cons hdescribe .nil)
  obtain ⟨p, hs', hhead, htab'⟩ := exists_redeclared hs htree' hright himports hfix hkeeps hall
  have hfirst : ∀ e ∈ ds, e.target ≠ c.target := by
    rw [htab.declared?_eq_find?, List.find?_eq_none] at hfree
    simpa using hfree
  rw [hinner] at hdescribe htab'
  refine ⟨_, p, hole, hole.span, hs', rfl, hclosed, hhead, ?_, htree', ?_, ⟨t, ?_, ?_⟩, .nil, htab', ?_⟩
  · cases c <;> exact fun d hd => by cases hd
  · rwa [hhead.imports]
  · exact htopics
  · rwa [hhead.imports]
  · rwa [Draft.Composite.target_declared]

end Outline

end GoOutline
