import GoOutline.Proofs.Arrangement
import GoOutline.Proofs.Guards

/-!
What a file declares around a definition. Where the definition grows, whatever stands in front of it is
declared as it was, and whatever stands behind it is declared at its new place.
-/

namespace GoOutline

open Text Syntax Docs

/-- A list of items around a definition. -/
structure Hole where
  pre : List (Sibling Item)
  extent : Extent
  spot : Spot
  spec : TypeSpec
  suf : List (Sibling Item)

namespace Hole

variable (h : Hole)

def item : Item := ⟨h.extent, .types (h.spot.fill (.definition h.spec))⟩

def items : List (Sibling Item) := h.pre ++ .member h.item :: h.suf

/-- The docs of the declaration that the definition is in. -/
def itemDocs : List String := linesOf (commentsAbove Item.extent h.extent.row h.pre.reverse)

/-- The place that the definition goes by. -/
def span : Span :=
  match h.spot with
  | .lone => h.extent.span
  | .group _ _ => h.spec.extent.span

def docs : List String :=
  match h.spot with
  | .lone => h.itemDocs
  | .group before _ => linesOf (commentsAbove TypeEntry.extent h.spec.extent.row before.reverse)

/-- What is declared in front of the definition. -/
def front : List Topic := topicsFrom [] h.pre ++ entryTopics [] h.spot.before

/-- What is declared behind the definition. -/
def back : List Topic :=
  entryTopics (.member (.definition h.spec) :: h.spot.before.reverse) h.spot.after ++
    topicsFrom (.member h.item :: h.pre.reverse) h.suf

theorem entryTopics_fill (e : TypeEntry) (before after : List (Sibling TypeEntry)) :
    entryTopics [] (before ++ .member e :: after) = entryTopics [] before ++
      (e.topics e.extent.span (linesOf (commentsAbove TypeEntry.extent e.extent.row before.reverse)) ++
        entryTopics (.member e :: before.reverse) after) := by
  simp [entryTopics, attachFrom_append, attachFrom]

theorem topics_items : (Tree.mk h.items).topics =
    h.front ++ (TypeEntry.definition h.spec).topics h.span h.docs ++ h.back := by
  have hall : (Tree.mk h.items).topics = topicsFrom [] h.pre ++
      (itemTopics ⟨h.itemDocs, h.item⟩ ++ topicsFrom (.member h.item :: h.pre.reverse) h.suf) := by
    simp [Tree.topics, items, topicsFrom, attach, attachFrom_append, attachFrom, itemDocs, item]
  rw [hall, front, back, span, docs]
  rcases hs : h.spot with _ | ⟨before, after⟩
  · simp [item, hs, Spot.fill, Spot.before, Spot.after, itemTopics, entryTopics, attachFrom]
  · have hgroup : itemTopics ⟨h.itemDocs, h.item⟩ =
        entryTopics [] (before ++ .member (.definition h.spec) :: after) := by
      simp [item, hs, Spot.fill, itemTopics, entryTopics, attach]
    rw [hgroup, entryTopics_fill]
    simp [Spot.before, Spot.after, TypeEntry.extent]

/-- A definition in the place of another one that has grown. -/
def grown (x : Addition) : Hole :=
  ⟨h.pre, x.shift.widerExtent h.extent, h.spot.shift x.shift,
    ⟨x.shift.widerExtent h.spec.extent, h.spec.name, x.body h.spec.body⟩,
    h.suf.map (x.shift.motion.sibling x.shift.motion.item)⟩

end Hole

/-- One of the declarations of a list comes from one of its members. -/
theorem exists_attachFrom {α β : Type} {place : α → Extent} {f : Documented α → List β}
    {before s : List (Sibling α)} {front back : List β} {b : β}
    (h : (attachFrom place before s).flatMap f = front ++ b :: back) :
    ∃ pre a suf u v, s = pre ++ .member a :: suf ∧
      f ⟨linesOf (commentsAbove place (place a).row (pre.reverse ++ before)), a⟩ = u ++ b :: v ∧
      front = (attachFrom place before pre).flatMap f ++ u ∧
      back = v ++ (attachFrom place (.member a :: (pre.reverse ++ before)) suf).flatMap f := by
  induction s generalizing before front with
  | nil => simp [attachFrom] at h
  | cons x s ih =>
      cases x with
      | comment c =>
          obtain ⟨pre, a, suf, u, v, rfl, hf, hfront, hback⟩ := ih h
          exact ⟨.comment c :: pre, a, suf, u, v, rfl, by simpa using hf, by simpa [attachFrom] using hfront,
            by simpa using hback⟩
      | member a =>
          rw [attachFrom, List.flatMap_cons] at h
          have hmore (front : List β) (hr : (attachFrom place (.member a :: before) s).flatMap f =
              front ++ b :: back) : ∃ pre c suf u v, Sibling.member a :: s = pre ++ .member c :: suf ∧
              f ⟨linesOf (commentsAbove place (place c).row (pre.reverse ++ before)), c⟩ =
                u ++ b :: v ∧
              f ⟨linesOf (commentsAbove place (place a).row before), a⟩ ++ front =
                (attachFrom place before pre).flatMap f ++ u ∧
              back = v ++ (attachFrom place (.member c :: (pre.reverse ++ before)) suf).flatMap f := by
            obtain ⟨pre, c, suf, u, v, rfl, hf, rfl, hback⟩ := ih hr
            exact ⟨.member a :: pre, c, suf, u, v, rfl, by simpa using hf, by simp [attachFrom],
              by simpa using hback⟩
          rcases List.append_eq_append_iff.1 h with ⟨w, rfl, hr⟩ | ⟨w, hf, hr⟩
          · exact hmore _ hr
          · rcases w with _ | ⟨c, w⟩
            · have hm := hmore [] hr.symm
              rw [List.append_nil] at hf hm
              rwa [← hf]
            · obtain ⟨rfl, rfl⟩ := List.cons.inj hr
              exact ⟨[], a, s, front, w, rfl, hf, rfl, rfl⟩

theorem topics_eq_append {span : Span} {docs : List String} {e : TypeEntry} {t : Topic}
    {u v : List Topic} (h : e.topics span docs = u ++ t :: v) :
    u = [] ∧ v = [] ∧ ∃ spec, e = .definition spec := by
  have hone {b : Topic} (hb : [b] = u ++ t :: v) : u = [] ∧ v = [] := by
    rcases u with _ | ⟨a, u⟩
    · exact ⟨rfl, (List.cons.inj hb).2.symm⟩
    · simp at hb
  rcases e with ⟨extent, name, _ | _ | _⟩ | extent
  · exact ⟨(hone h).1, (hone h).2, _, rfl⟩
  · exact ⟨(hone h).1, (hone h).2, _, rfl⟩
  · simp [TypeEntry.topics] at h
  · simp [TypeEntry.topics] at h

/-- A structure or interface that a file declares is one of its definitions, with what is declared in
front of it and behind it around. -/
theorem exists_hole {tree : Tree} {t : Topic} {front back : List Topic}
    (h : tree.topics = front ++ t :: back) (ht : t.function? = none) :
    ∃ hole : Hole, tree.items = hole.items ∧ hole.front = front ∧ hole.back = back ∧
      (TypeEntry.definition hole.spec).topics hole.span hole.docs = [t] := by
  obtain ⟨pre, ⟨extent, kind⟩, suf, u, v, hitems, hf, rfl, rfl⟩ := exists_attachFrom h
  rw [List.append_nil] at hf
  cases kind with
  | package _ _ | imports _ | values | statement => simp [itemTopics] at hf
  | func decl =>
      rcases u with _ | ⟨a, u⟩
      · obtain ⟨rfl, -⟩ := List.cons.inj hf
        cases ht
      · simp [itemTopics] at hf
  | types decl =>
      cases decl with
      | lone e =>
          have he : e.topics extent.span (linesOf (commentsAbove Item.extent extent.row pre.reverse)) =
              u ++ t :: v := hf
          obtain ⟨rfl, rfl, spec, rfl⟩ := topics_eq_append he
          refine ⟨⟨pre, extent, .lone, spec, suf⟩, hitems, ?_, ?_, he⟩
          · simp [Hole.front, Spot.before, topicsFrom, entryTopics, attachFrom]
          · simp [Hole.back, Spot.before, Spot.after, topicsFrom, entryTopics, attachFrom, Hole.item,
              Spot.fill]
      | group es =>
          have hes : (attachFrom TypeEntry.extent [] es).flatMap (fun e =>
              e.item.topics e.item.extent.span e.docs) = u ++ t :: v := hf
          obtain ⟨before, e, after, u', v', rfl, he, rfl, rfl⟩ := exists_attachFrom hes
          obtain ⟨rfl, rfl, spec, rfl⟩ := topics_eq_append he
          rw [List.append_nil] at he
          refine ⟨⟨pre, extent, .group before after, spec, suf⟩, hitems, ?_, ?_, he⟩
          · simp [Hole.front, Spot.before, topicsFrom, entryTopics]
          · simp [Hole.back, Spot.before, Spot.after, topicsFrom, entryTopics, Hole.item, Spot.fill]

section Facing

variable {α : Type} {place : α → Extent}

theorem trails_member (c : Comment) (cs before : List (Sibling α)) (a : α) :
    trails place c (cs ++ .member a :: before) = trails place c (cs ++ [.member a]) := by
  rcases cs with _ | ⟨_ | _, _⟩ <;> rfl

theorem commentsAbove_member (row : Nat) (cs before : List (Sibling α)) (a : α) :
    commentsAbove place row (cs ++ .member a :: before) =
      commentsAbove place row (cs ++ [.member a]) := by
  induction cs generalizing row with
  | nil => rfl
  | cons x cs ih =>
      cases x with
      | member b => rfl
      | comment c => simp only [List.cons_append, commentsAbove, trails_member, ih]

/-- Nothing in front of a member counts for the docs of what is behind it. -/
theorem attachFrom_member (a : α) (before s : List (Sibling α)) :
    attachFrom place (.member a :: before) s = attachFrom place [.member a] s := by
  suffices h : ∀ cs, attachFrom place (cs ++ .member a :: before) s =
      attachFrom place (cs ++ [.member a]) s from h []
  induction s with
  | nil => exact fun cs => rfl
  | cons x s ih =>
      intro cs
      cases x with
      | comment c => exact ih (.comment c :: cs)
      | member b => rw [attachFrom, attachFrom, commentsAbove_member, ← List.cons_append, ih]; rfl

/-- Members around one that gives way to another one, with the docs that they have. -/
theorem attach_around (place : α → Extent) {p q : Nat → Bool} {b r : Nat → Nat} {text text' : List Char}
    {f : Motion → α → α} (a a' : α) {suf : List (Sibling α)} (hk : Keeps p q b r text text')
    (hf : ∀ d a, place (f d a) = d.extent (place a)) (ha : q (place a).lastRow)
    (ha' : (place a').lastRow = r (place a).lastRow)
    (hs : suf.map ((Motion.sieve p q).sibling (f (Motion.sieve p q))) = suf) (pre : List (Sibling α)) :
    attach place (pre ++ .member a :: suf) = attach place pre ++
        ⟨linesOf (commentsAbove place (place a).row pre.reverse), a⟩ :: attachFrom place [.member a] suf ∧
      attach place (pre ++ .member a' :: suf.map ((Motion.plain b r).sibling (f (Motion.plain b r)))) =
        attach place pre ++ ⟨linesOf (commentsAbove place (place a').row pre.reverse), a'⟩ ::
          (attachFrom place [.member a] suf).map (Motion.documented (f (Motion.plain b r))) := by
  have hback := attachFrom_kept hk hf (.cons (.member ha ha') .nil) hs
  constructor
  · rw [attach, attachFrom_append, attachFrom, attachFrom_member, List.append_nil]
    rfl
  · rw [attach, attachFrom_append, attachFrom, attachFrom_member, hback, List.append_nil]
    rfl

end Facing

namespace Hole

open Motion

variable {h : Hole} {x : Addition} {p q : Nat → Bool} {text text' : List Char}

theorem grown_items : (h.grown x).items = h.pre ++ .member ⟨x.shift.widerExtent h.extent,
    .types ((h.spot.shift x.shift).fill (x.entry (.definition h.spec)))⟩ ::
      h.suf.map (x.shift.motion.sibling x.shift.motion.item) := rfl

theorem grown_spec : (h.grown x).spec =
    ⟨x.shift.widerExtent h.spec.extent, h.spec.name, x.body h.spec.body⟩ := rfl

theorem grown_front : (h.grown x).front = h.front := by
  rw [front, front, grown]
  cases h.spot <;> rfl

theorem grown_docs : (h.grown x).docs = h.docs := by
  rw [docs, docs, grown]
  cases h.spot <;> rfl

/-- What is declared behind a definition moves on where the definition grows. -/
theorem grown_back (hk : Keeps p q x.shift.byte x.shift.row text text') (he : q h.extent.lastRow)
    (hs : q h.spec.extent.lastRow)
    (ha : h.spot.after.map ((sieve p q).sibling (sieve p q).typeEntry) = h.spot.after)
    (hb : h.suf.map ((sieve p q).sibling (sieve p q).item) = h.suf) :
    (h.grown x).back = h.back.map x.shift.motion.topic := by
  have hentries : entryTopics [.member (.definition (h.grown x).spec)]
      (h.spot.after.map (x.shift.motion.sibling x.shift.motion.typeEntry)) =
      (entryTopics [.member (.definition h.spec)] h.spot.after).map x.shift.motion.topic :=
    entryTopics_kept hk (.cons (.member hs rfl) .nil) ha
  have hitems : topicsFrom [.member (h.grown x).item]
      (h.suf.map (x.shift.motion.sibling x.shift.motion.item)) =
      (topicsFrom [.member h.item] h.suf).map x.shift.motion.topic :=
    topicsFrom_kept hk (.cons (.member he rfl) .nil) hb
  have hafter : (h.grown x).spot.after =
      h.spot.after.map (x.shift.motion.sibling x.shift.motion.typeEntry) := by
    rw [grown]
    cases h.spot <;> rfl
  simp only [entryTopics, topicsFrom] at hentries hitems
  simp only [back, entryTopics, topicsFrom, attachFrom_member, hafter, List.map_append]
  rw [hentries, ← hitems]
  rfl

end Hole

end GoOutline
