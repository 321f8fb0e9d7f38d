import GoOutline.Proofs.Filling
import GoOutline.Proofs.Whole

/-!
Code that is appended to a function. The function goes on with it, and an outline says the same of all
else that the file declares.
-/

namespace GoOutline

open Text Syntax Syntax.Lexer Docs

namespace Slot

variable (h : Slot)

def docs : List String := linesOf (commentsAbove Item.extent h.extent.row h.pre.reverse)

/-- What is declared in front of the function. -/
def front : List Topic := topicsFrom [] h.pre

/-- What is declared behind the function. -/
def back : List Topic := topicsFrom [.member h.item] h.suf

def titled : Titled FuncDecl := ⟨h.decl.name, h.extent.span, h.docs, h.decl⟩

theorem topics_items : (Tree.mk h.items).topics = h.front ++ .function h.titled :: h.back := by
  simp only [Tree.topics, items, attach, attachFrom_append, attachFrom, attachFrom_member, List.append_nil]
  simp [front, back, topicsFrom, itemTopics, item, titled, docs]

theorem function?_of_mem_topics {span : Span} {docs : List String} {e : TypeEntry} {t : Topic}
    (h : t ∈ e.topics span docs) : t.function? = none := by
  rcases e with ⟨extent, name, _ | _ | _⟩ | extent
  · obtain rfl := List.mem_singleton.1 h
    rfl
  · obtain rfl := List.mem_singleton.1 h
    rfl
  · cases h
  · cases h

/-- A function that a file declares is one of its items. -/
theorem exists_slot {tree : Tree} {body : Titled FuncDecl} {front back : List Topic}
    (h : tree.topics = front ++ .function body :: back) :
    ∃ slot : Slot, tree.items = slot.items ∧ slot.front = front ∧ slot.titled = body ∧
      slot.back = back := by
  obtain ⟨pre, ⟨extent, kind⟩, suf, u, v, hitems, hf, rfl, rfl⟩ := exists_attachFrom h
  rw [List.append_nil] at hf
  have hmem : Topic.function body ∈ u ++ .function body :: v := by simp
  rw [← hf] at hmem
  cases kind with
  | package _ _ | imports _ | values | statement => cases hmem
  | types decl =>
      cases decl with
      | lone e => cases function?_of_mem_topics (e := e) hmem
      | group es =>
          obtain ⟨e, -, he⟩ := List.mem_flatMap.1 hmem
          cases function?_of_mem_topics he
  | func decl =>
      rcases u with _ | ⟨a, u⟩
      · obtain ⟨hbody, rfl⟩ := List.cons.inj hf
        obtain rfl := Topic.function.inj hbody
        exact ⟨⟨pre, extent, decl, suf⟩, hitems, by simp [Slot.front, topicsFrom], rfl, by
          simp [Slot.back, topicsFrom, attachFrom_member, item]⟩
      · simp [itemTopics] at hf

namespace Refills

variable {h : Slot} {d : Shift} {u text text' : List Char} {n r : Nat} {b : Delimiters}

/-- What is declared in front stays. -/
theorem topic_front (hr : h.Refills d u n r text text') : h.front.map (Motion.upto u).topic = h.front :=
  topicsFrom_fixed .nil hr.pre

/-- What is declared behind stays with all that stands there. -/
theorem topic_back (hr : h.Refills d u n r text text') :
    h.back.map (Motion.since n r).topic = h.back := by
  have hlast : Motion.past (fun m => decide (r ≤ m)) h.extent.lastRow = h.extent.lastRow :=
    Motion.past_eq_self.2 (decide_eq_true hr.lastRow)
  exact topicsFrom_fixed (.cons (.member (decide_eq_true hr.lastRow) hlast.symm) .nil) hr.suf

/-- What is declared behind moves on. -/
theorem back_refilled (hr : h.Refills d u n r text text') (b : Delimiters) :
    (h.refilled d b).back = h.back.map d.motion.topic :=
  topicsFrom_kept hr.back (.cons (.member (decide_eq_true hr.lastRow) rfl) .nil) hr.suf

end Refills

end Slot

namespace Outline

open Motion

/-- A function with another body at another place. -/
def Function.withBody (f : Function) (text : List Char) (span : Span) (inner : Option Span) : Function :=
  { f with span := span, inner := inner, body := inner.map fun s => String.ofList (trim (Text.slice text s)) }

namespace Context

variable {p q : Nat → Bool} {text text' : List Char} {imports : List Import} {dialect : Annotation.Dialect}
  {span : Span} {docs : List String} {decl : FuncDecl} {f : Function}

/-- The body of a function is read by itself. -/
theorem functionOf_braces (cx : Context) (span span' : Span) (docs : List String) (decl : FuncDecl) :
    functionOf cx span docs decl =
      (·.withBody cx.scope.text span (decl.braces.map Delimiters.inner)) <$>
        functionOf cx span' docs { decl with braces := none } := by
  simp only [functionOf]
  cases Annotation.partition cx.dialect docs <;> rfl

/-- A function with another body has everything else that it had. -/
theorem functionOf_refilled (hk : Keeps p q id id text text')
    (hf : (sieve p q).func { decl with braces := none } = { decl with braces := none })
    (h : functionOf ⟨⟨text, imports⟩, dialect⟩ span docs decl = .ok f) (span' : Span) (b : Delimiters) :
    functionOf ⟨⟨text', imports⟩, dialect⟩ span' docs { decl with braces := some b } =
      .ok (f.withBody text' span' (some b.inner)) := by
  have hkept := functionOf_kept imports dialect ⟨0, 0⟩ docs hk hf
  rw [functionOf_braces _ span ⟨0, 0⟩] at h
  obtain ⟨f₀, h₀, rfl⟩ := map_eq_ok.1 h
  rw [h₀, plain_id, none_func] at hkept
  rw [functionOf_braces _ span' ⟨0, 0⟩]
  have hid : f₀.via id = f₀ := Declared.function.inj (Declared.function f₀).via_id
  refine map_eq_ok.2 ⟨_, hkept, ?_⟩
  rw [hid]
  rfl

end Context

variable {dialect : Annotation.Dialect} {find : Finder} {text text' : List Char} {o : Outline}
  {layout : Layout} {f : Function} {s : Span} {key : String} {indent code : List Char}

/-- Where a function gets another body, the outline says the same of everything else. -/
theorem exists_rebodied {h : Slot} {d : Shift} {u : List Char} {n r : Nat} {b : Delimiters}
    {ds es : List Declared} (hs : Shows dialect find text layout o)
    (htree : Tree.ofText? text = some ⟨h.items⟩)
    (htree' : Tree.ofText? text' = some ⟨(h.refilled d b).items⟩) (hr : h.Refills d u n r text text')
    (hfront : List.Forall₂ (fun t x => (Context.mk ⟨text, o.imports⟩ dialect).describe t = .ok x) h.front ds)
    (hf : (Context.mk ⟨text, o.imports⟩ dialect).functionOf h.extent.span h.docs h.decl = .ok f)
    (hback : List.Forall₂ (fun t x => (Context.mk ⟨text, o.imports⟩ dialect).describe t = .ok x) h.back es)
    (htab : o.Tabulates (ds ++ .function f :: es)) (hfirst : ∀ e ∈ ds, e.target ≠ (.function, f.key)) :
    ∃ layout' p, Shows dialect find text' layout' p ∧ layout'.imports = layout.imports ∧
      o.Moves (.function, f.key)
        (.function (f.withBody text' (d.wider h.extent.span) (some b.inner))) u n d.byte p ∧
      o.Spared (.function, f.key) p := by
  obtain ⟨hds, hstay⟩ := Context.forall₂_describe_front hr.front hr.topic_front hfront
  obtain ⟨hes, hmove⟩ := Context.forall₂_describe hr.back hr.topic_back hback
  obtain ⟨hattach, hattach'⟩ := attach_around Item.extent h.item (h.refilled d b).item hr.back
    (fun _ _ => rfl) (decide_eq_true hr.lastRow) rfl hr.suf h.pre
  have hbody := Context.functionOf_refilled hr.front hr.signature hf (d.wider h.extent.span) b
  have heach : List.Forall₂ (fun t x => (Context.mk ⟨text', o.imports⟩ dialect).describe t = .ok x)
      (Tree.mk (h.refilled d b).items).topics
      (ds ++ .function (f.withBody text' (d.wider h.extent.span) (some b.inner)) ::
        es.map (Declared.via d.byte)) := by
    rw [Slot.topics_items, hr.back_refilled]
    exact List.rel_append hds (.cons (map_eq_ok.2 ⟨_, hbody, rfl⟩) hes)
  obtain ⟨layout', p, hs', himports, hhead, htab'⟩ := exists_replaced hs htree htree' hattach hattach'
    rfl rfl (fun i => by rcases i with ⟨e, _ | _ | _ | _ | _ | _⟩ <;> rfl)
    (fun x hx => member_of_fixed hr.pre _ (mem_of_attach hx)) hr.front heach
  have hmoves : o.Moves (.function, f.key)
      (.function (f.withBody text' (d.wider h.extent.span) (some b.inner))) u n d.byte p :=
    ⟨hhead, ds, _, es, htab, htab', rfl, rfl, hfirst, hstay, hmove⟩
  have hkeeps := hr.front
  have hkeeps' := hr.back
  rw [← (ofLayout_eq_ok hs.read).2.2.1, ← (ofLayout_eq_ok hs'.read).2.2.1] at hkeeps hkeeps'
  exact ⟨layout', p, hs', himports, hmoves, hmoves.spared hkeeps hkeeps'⟩

/-- A text with code in the body of a function is laid out and read like the old one, and says the same of
everything else. -/
theorem exists_coded (hs : Shows dialect find text layout o) (hclose : Closes (pieces text) [])
    (hf : o.function? key = some f) (hinner : f.inner = some s)
    (hcode : BodyText (Splice.grown indent code (Text.slice text s))) :
    let text' := (Splice.appendToInner text s code indent).apply text
    ∃ layout' p span stop, Shows dialect find text' layout' p ∧ layout'.imports = layout.imports ∧
      Closes (pieces text') [] ∧
      o.Turns (.function, key) (.function (f.withBody text' span (some ⟨s.start, stop⟩))) s text text'
        p := by
  intro text'
  obtain ⟨tree, ts, t, us, ds, es, htree, htopics, hfront, hdesc, hback, htab, htarget, hfirst⟩ :=
    exists_described hs (declared?_function.2 hf)
  obtain rfl : f.key = key := (Prod.mk.inj htarget).2
  obtain ⟨body, rfl⟩ : ∃ body, t = .function body := by
    cases t with
    | function body => exact ⟨body, rfl⟩
    | struct _ | interface _ =>
        obtain ⟨_, -, hno⟩ := map_eq_ok.1 hdesc
        cases hno
  obtain ⟨h, hitems, rfl, rfl, rfl⟩ := Slot.exists_slot htopics
  obtain ⟨f', hfunction, hsame⟩ := map_eq_ok.1 hdesc
  obtain rfl : f' = f := Declared.function.inj hsame
  obtain ⟨-, hbraces, -⟩ := Context.functionOf_eq_ok hfunction
  rw [hinner] at hbraces
  obtain ⟨b, hb, rfl⟩ := Option.map_eq_some_iff.1 hbraces.symm
  rw [show tree = ⟨h.items⟩ from congrArg Tree.mk hitems] at htree
  obtain ⟨a, old, y, b', htext, hplace, hplace', htree', hclosed, hrefills⟩ :=
    Slot.exists_refilled hs.laid htree hclose hb hcode (Splice.getLast?_grown _ _ _)
  have hold : Text.slice text b.inner = old := by rw [hplace, htext, slice_append]
  have hnew : text' = a ++ ['\x7b'] ++ Splice.grown indent code (Text.slice text b.inner) ++ y := by
    simp only [text', hold]
    rw [hplace, htext, Splice.apply_appendToInner]
  rw [← hnew] at htree' hclosed hrefills
  set d := shiftOf old (Splice.grown indent code (Text.slice text b.inner)) with hd
  have hkept : trimEnd (takeBytes b.inner.stop text) = a ++ ['\x7b'] ++ trimEnd old := by
    rw [hplace, htext, takeBytes_byteLength, trimEnd_brace]
  have hr := hrefills (trimEnd (takeBytes b.inner.stop text)) ?_ ?_ ?_
  · obtain ⟨layout', p, hs', himports, hmoves, hspared⟩ :=
      exists_rebodied hs htree htree' hr hfront hfunction hback htab hfirst
    rw [hplace'] at hmoves
    refine ⟨layout', p, _, _, hs', himports, hclosed, ⟨d.byte, hmoves, fun n hn => ?_⟩, hspared⟩
    rw [hplace] at hn
    simp only [hnew, htext, Shift.byte, hd, shiftOf, byteLength_append] at hn ⊢
    omega
  · rw [hkept]
    exact List.prefix_append _ _
  · obtain ⟨w, hw, -⟩ := exists_trimEnd_append old
    rw [hkept, htext]
    exact ⟨w ++ y, by rw [← List.append_assoc, List.append_assoc _ (trimEnd old), ← hw]⟩
  · rw [hkept, hnew, hold, Splice.grown]
    exact ⟨'\n' :: Splice.indentLines indent code ++ y, by simp⟩

end Outline

end GoOutline
