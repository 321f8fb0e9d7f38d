import GoOutline.Proofs.Entries
import GoOutline.Proofs.Flat

/-!
Members that are added to a declaration. New tokens in front of the brace that closes a body add a
member to it, what stands in front stays, and what stands behind moves on.
-/

namespace GoOutline

open Syntax

namespace Shift

variable (d : Shift)

/-- A place whose end moves. -/
def wider (s : Span) : Span := ⟨s.start, d.byte s.stop⟩

def widerExtent (e : Extent) : Extent := ⟨d.wider e.span, e.row, d.row e.lastRow⟩

end Shift

/-- A member with the comments in front of it, among them those at the end of the body so far, and how
far it moves what stands behind. -/
structure Addition where
  shift : Shift
  /-- The number of comments at the end of the body so far. -/
  passed : Nat
  comments : List Comment
  member : FieldDecl ⊕ InterfaceElem

namespace Addition

variable (x : Addition)

def braces (b : Delimiters) : Delimiters := ⟨b.opening, x.shift.motion.span b.closing⟩

/-- A list without the comments at its end. -/
def kept {α : Type} (as : List (Sibling α)) : List (Sibling α) := as.take (as.length - x.passed)

/-- A list with the member and its comments at the end. -/
def siblings {α : Type} (a : α) (as : List (Sibling α)) : List (Sibling α) :=
  x.kept as ++ (x.comments.map .comment ++ [.member a])

/-- A body with the member, if it is one for this kind of body. -/
def body : TypeBody → TypeBody
  | .struct s b =>
    match x.member with
    | .inl f => .struct (x.shift.wider s) ⟨x.braces b.braces, x.siblings f b.fields⟩
    | .inr _ => .struct s b
  | .interface s b =>
    match x.member with
    | .inl _ => .interface s b
    | .inr e => .interface (x.shift.wider s) ⟨x.braces b.braces, x.siblings e b.elems⟩
  | .plain t => .plain t

/-- The brace that closes a body. -/
def closing? : TypeBody → Option Span
  | .struct _ b => some b.braces.closing
  | .interface _ b => some b.braces.closing
  | .plain _ => none

/-- A token closes a body, behind the comments at the end of the body. -/
def Closed (b : TypeBody) (c : Token) : Prop :=
  match b with
  | .struct _ b => c.is rbrace ∧ b.braces.closing = c.extent.span ∧
    ∃ front, b.fields = front ++ Parser.commentSiblings c
  | .interface _ b => c.is rbrace ∧ b.braces.closing = c.extent.span ∧
    ∃ front, b.elems = front ++ Parser.commentSiblings c
  | .plain _ => False

/-- The member goes into a body like this. -/
def Fits : TypeBody → Prop
  | .struct _ _ => x.member.isLeft
  | .interface _ _ => x.member.isRight
  | .plain _ => False

def entry : TypeEntry → TypeEntry
  | .definition spec => .definition ⟨x.shift.widerExtent spec.extent, spec.name, x.body spec.body⟩
  | .synonym e => .synonym e

end Addition

/-- The place of a definition in a declaration. -/
inductive Spot where
  | lone
  | group (before after : List (Sibling TypeEntry))

namespace Spot

/-- The declaration with a definition at this place. -/
def fill (e : TypeEntry) : Spot → TypeDecl
  | lone => .lone e
  | group before after => .group (before ++ .member e :: after)

/-- What stands behind the definition. -/
def after : Spot → List (Sibling TypeEntry)
  | lone => []
  | group _ after => after

/-- What stands in front of the definition. -/
def before : Spot → List (Sibling TypeEntry)
  | lone => []
  | group before _ => before

/-- What stands behind the definition moves on. -/
def shift (d : Shift) : Spot → Spot
  | lone => lone
  | group before after => group before (after.map (d.motion.sibling d.motion.typeEntry))

end Spot

namespace Syntax.Grammar

open Syntax.Parser

/-- New tokens in front of a closing brace, and the tokens behind them. -/
structure Inserts (x : Addition) (c z c' : Token) (new post post' : List Token) : Prop where
  old : c.is rbrace
  newline : z.newline
  opens : z.is rbrace = false
  passed : x.passed = c.comments.length
  comments : x.comments = z.comments
  closing : c'.is rbrace
  bare : c'.comments = []
  moved : c'.extent = x.shift.motion.extent c.extent
  rest : post' = post.map x.shift.motion.token
  reaches : ∀ t ∈ post, x.shift.Reaches t.extent
  field : ∀ f, x.member = .inl f → ∀ n, Covered n (z :: (new ++ c' :: post')) →
    (fieldDecl n).run (z :: (new ++ c' :: post')) = some (f, c' :: post')
  elem : ∀ e, x.member = .inr e → ∀ n, Covered n (z :: (new ++ c' :: post')) →
    (interfaceElem n).run (z :: (new ++ c' :: post')) = some (e, c' :: post')

variable {n : Nat} {ts us rest : List Token}

/-- A parser whose piece ends with the brace of a body reads the larger body in front of what has
moved on. -/
def Grows {α : Type} (p : Parser α) (n : Nat) (b : TypeBody) (f : Addition → α)
    (us rest : List Token) : Prop :=
  ∃ t ts c, us = t :: ts ++ c :: rest ∧ Addition.Closed b c ∧
    ∀ x z c' new rest', x.Fits b → Inserts x c z c' new rest rest' →
      Covered n (z :: (new ++ c' :: rest')) →
      p.run (t :: ts ++ z :: (new ++ c' :: rest')) = some (f x, rest')

/-- The comments in front of the closing brace give way to those in front of the member. -/
theorem siblings_append {α : Type} {x : Addition} {c z c' : Token} {new post post' : List Token}
    (hi : Inserts x c z c' new post post') (front : List (Sibling α)) (a : α) :
    x.siblings a (front ++ commentSiblings c) =
      front ++ (x.comments.map .comment ++ [.member a]) := by
  simp [Addition.siblings, Addition.kept, hi.passed, commentSiblings]

theorem gathered_grows {α : Type} {p : Parser α} {as : List (Sibling α)} {c z c' : Token}
    {x : Addition} {new post post' : List Token} {a : α}
    (h : Gathered rbrace p (ts ++ c :: post) as (c :: post)) (hc : Consumes p)
    (hp : Follows Any Behind p p) (hi : Inserts x c z c' new post post')
    (ha : p.run (z :: (new ++ c' :: post')) = some (a, c' :: post')) :
    Gathered rbrace p (ts ++ z :: (new ++ c' :: post')) (x.siblings a as) (c' :: post') := by
  have hz : Behind c z := .inr ⟨.inr (.inl hi.old), .inl hi.newline⟩
  obtain ⟨front, rfl, hl⟩ := h.append hc hp behind_self hz hi.newline hi.opens ha hi.closing
  rw [siblings_append hi]
  simpa [commentSiblings, hi.comments, hi.bare] using hl

theorem length_siblings_le {α : Type} (x : Addition) (a : α) (as : List (Sibling α)) :
    (members (x.siblings a as)).length ≤ (members as).length + 1 := by
  have hc : members (x.comments.map .comment : List (Sibling α)) = [] := by
    simp [members, Sibling.member?]
  have hle : (members (as.take (as.length - x.passed))).length ≤ (members as).length :=
    ((List.take_sublist _ as).filterMap _).length_le
  simp [Addition.siblings, Addition.kept, hc, hle]

theorem group_grows {α : Type} {p : Parser α} {g : Grouped (List (Sibling α))}
    (h : (group .curly (memberList rbrace p n)).run us = some (g, rest)) (hc : Consumes p)
    (hp : Follows Any Behind p p) (hn : us.length < n) :
    ∃ ts, us = ts ++ g.closing :: rest ∧ g.closing.is rbrace ∧
      (∃ front, g.content = front ++ commentSiblings g.closing) ∧
      ∀ x z c' new rest' a, Inserts x g.closing z c' new rest rest' →
      p.run (z :: (new ++ c' :: rest')) = some (a, c' :: rest') →
      (group .curly (memberList rbrace p n)).run (ts ++ z :: (new ++ c' :: rest')) =
        some (⟨g.opening, x.siblings a g.content, c'⟩, rest') := by
  obtain ⟨vs, rfl, ho, hl, hcl⟩ := group_eq_some.1 h
  have hlist := gathered_of_memberList hc hl
  obtain ⟨ts, rfl⟩ := hlist.exists_append
  refine ⟨g.opening :: ts, rfl, hcl, hlist.exists_front, fun x z c' new rest' a hi ha => ?_⟩
  refine group_eq_some.2 ⟨ts ++ z :: (new ++ c' :: rest'), rfl, ho, ?_, hi.closing⟩
  refine (gathered_grows hlist hc hp hi ha).memberList ?_
  have hle := hlist.length_members hc
  have hone := length_siblings_le x a g.content
  simp only [List.length_cons, List.length_append] at hn hle hone ⊢
  omega

theorem braces_grouped {α : Type} {x : Addition} {g : Grouped α} {c' z : Token}
    {new post post' : List Token} {a : α} (hi : Inserts x g.closing z c' new post post') :
    (⟨g.opening, a, c'⟩ : Grouped α).delimiters = x.braces g.delimiters := by
  rw [Grouped.delimiters, Grouped.delimiters, Addition.braces, hi.moved]
  rfl

theorem structBody_grows {b : StructBody} (h : (structBody (n + 1)).run us = some (b, rest))
    (hn : us.length < n) :
    ∃ t ts c, us = t :: ts ++ c :: rest ∧
      (c.is rbrace ∧ b.braces.closing = c.extent.span ∧
        ∃ front, b.fields = front ++ commentSiblings c) ∧
      ∀ x z c' new rest' f, Inserts x c z c' new rest rest' →
      (fieldDecl n).run (z :: (new ++ c' :: rest')) = some (f, c' :: rest') →
      (structBody (n + 1)).run (t :: ts ++ z :: (new ++ c' :: rest')) =
        some (⟨x.braces b.braces, x.siblings f b.fields⟩, rest') := by
  obtain ⟨_, _, hk, hbody⟩ := bind_eq_some.1 h
  obtain ⟨t, hk⟩ := discard_eq_some.1 hk
  obtain ⟨rfl, ht⟩ := expect_eq_some.1 hk
  obtain ⟨g, _, hg, hend⟩ := bind_eq_some.1 hbody
  obtain ⟨rfl, rfl⟩ := pure_eq_some.1 hend
  simp only [List.length_cons] at hn
  obtain ⟨ts, rfl, hclose, hfront, hgrow⟩ :=
    group_grows hg (consumes_fieldDecl n) (follows_fieldDecl n) (by omega)
  refine ⟨t, ts, g.closing, rfl, ⟨hclose, rfl, hfront⟩, fun x z c' new rest' f hi hf => ?_⟩
  refine bind_eq_some.2 ⟨⟨⟩, _, discard_eq_some.2 ⟨t, expect_eq_some.2 ⟨rfl, ht⟩⟩, ?_⟩
  refine bind_eq_some.2 ⟨_, rest', hgrow x z c' new rest' f hi hf, pure_eq_some.2 ⟨?_, rfl⟩⟩
  rw [braces_grouped hi]

theorem interfaceBody_grows {b : InterfaceBody}
    (h : (interfaceBody (n + 1)).run us = some (b, rest)) (hn : us.length < n) :
    ∃ t ts c, us = t :: ts ++ c :: rest ∧
      (c.is rbrace ∧ b.braces.closing = c.extent.span ∧
        ∃ front, b.elems = front ++ commentSiblings c) ∧
      ∀ x z c' new rest' e, Inserts x c z c' new rest rest' →
      (interfaceElem n).run (z :: (new ++ c' :: rest')) = some (e, c' :: rest') →
      (interfaceBody (n + 1)).run (t :: ts ++ z :: (new ++ c' :: rest')) =
        some (⟨x.braces b.braces, x.siblings e b.elems⟩, rest') := by
  obtain ⟨_, _, hk, hbody⟩ := bind_eq_some.1 h
  obtain ⟨t, hk⟩ := discard_eq_some.1 hk
  obtain ⟨rfl, ht⟩ := expect_eq_some.1 hk
  obtain ⟨g, _, hg, hend⟩ := bind_eq_some.1 hbody
  obtain ⟨rfl, rfl⟩ := pure_eq_some.1 hend
  simp only [List.length_cons] at hn
  obtain ⟨ts, rfl, hclose, ⟨front, hfront⟩, hgrow⟩ :=
    group_grows hg (consumes_interfaceElem n) (follows_interfaceElem n) (by omega)
  refine ⟨t, ts, g.closing, rfl, ⟨hclose, rfl, commentSiblings g.opening ++ front, by simp [hfront]⟩,
    fun x z c' new rest' e hi he => ?_⟩
  refine bind_eq_some.2 ⟨⟨⟩, _, discard_eq_some.2 ⟨t, expect_eq_some.2 ⟨rfl, ht⟩⟩, ?_⟩
  refine bind_eq_some.2 ⟨_, rest', hgrow x z c' new rest' e hi he, pure_eq_some.2 ⟨?_, rfl⟩⟩
  simp only [braces_grouped hi, hfront, siblings_append hi, ← List.append_assoc]

theorem extentOf_append_singleton {t c : Token} :
    extentOf (t :: ts ++ [c]) = t.extent.through c.extent := by
  simp [extentOf]

theorem extentOf_grown {x : Addition} {t c z c' : Token} {new post post' : List Token}
    (hi : Inserts x c z c' new post post') : extentOf (t :: ts ++ z :: (new ++ [c'])) =
      x.shift.widerExtent (extentOf (t :: ts ++ [c])) := by
  have he : t :: ts ++ z :: (new ++ [c']) = t :: (ts ++ z :: new) ++ [c'] := by simp
  rw [he, extentOf_append_singleton, extentOf_append_singleton, hi.moved]
  rfl

/-- The place of a piece that grows. -/
theorem placed_grown {β : Type} {p : Parser β} {x : Addition} {t c z c' : Token} {b : β}
    {used new rest' : List Token} (hi : Inserts x c z c' new rest rest')
    (hu : t :: ts ++ c :: rest = used ++ rest)
    (hp : p.run (t :: ts ++ z :: (new ++ c' :: rest')) = some (b, rest')) :
    (placed p).run (t :: ts ++ z :: (new ++ c' :: rest')) =
      some ((x.shift.widerExtent (extentOf used), b), rest') := by
  obtain rfl : t :: ts ++ [c] = used := (List.append_left_inj rest).1 (by simpa using hu)
  rw [← extentOf_grown hi]
  exact placed_eq_some.2 ⟨_, by simp, hp, rfl⟩

theorem typeBody_grows {b : TypeBody} (h : (typeBody (n + 2)).run us = some (b, rest))
    (hn : us.length < n) (hb : Addition.closing? b ≠ none) :
    Grows (typeBody (n + 2)) n b (Addition.body · b) us rest := by
  rcases us with _ | ⟨t, us⟩
  · exact absurd (consumes_typeBody _ h) (Nat.not_lt_zero _)
  rw [typeBody, run_peek_cons] at h
  split at h
  next ht =>
    obtain ⟨⟨_, b⟩, _, hp, hend⟩ := bind_eq_some.1 h
    obtain ⟨rfl, rfl⟩ := pure_eq_some.1 hend
    obtain ⟨used, hu, hs, rfl⟩ := placed_eq_some.1 hp
    obtain ⟨_, ts, c, he, hclose, hgrow⟩ := structBody_grows hs hn
    obtain ⟨rfl, rfl⟩ := List.cons.inj he
    refine ⟨t, ts, c, rfl, hclose, fun x z c' new rest' hfit hi hcov => ?_⟩
    obtain ⟨f, hf⟩ := Sum.isLeft_iff.1 hfit
    have hnew := placed_grown hi hu (hgrow x z c' new rest' f hi (hi.field f hf n hcov))
    rw [List.cons_append, typeBody, run_peek_cons, if_pos ht, run_bind]
    rw [List.cons_append] at hnew
    rw [hnew]
    simp only [Addition.body, hf]
    rfl
  next ht =>
    split at h
    next ht' =>
      obtain ⟨⟨_, b⟩, _, hp, hend⟩ := bind_eq_some.1 h
      obtain ⟨rfl, rfl⟩ := pure_eq_some.1 hend
      obtain ⟨used, hu, hs, rfl⟩ := placed_eq_some.1 hp
      obtain ⟨_, ts, c, he, hclose, hgrow⟩ := interfaceBody_grows hs hn
      obtain ⟨rfl, rfl⟩ := List.cons.inj he
      refine ⟨t, ts, c, rfl, hclose, fun x z c' new rest' hfit hi hcov => ?_⟩
      obtain ⟨e, he⟩ := Sum.isRight_iff.1 hfit
      have hnew := placed_grown hi hu (hgrow x z c' new rest' e hi (hi.elem e he n hcov))
      rw [List.cons_append, typeBody, run_peek_cons, if_neg ht, if_pos ht', run_bind]
      rw [List.cons_append] at hnew
      rw [hnew]
      simp only [Addition.body, he]
      rfl
    next =>
      obtain ⟨_, _, _, hend⟩ := bind_eq_some.1 h
      obtain ⟨rfl, _⟩ := pure_eq_some.1 hend
      exact absurd rfl hb

theorem typeRight_grows {b : TypeBody} (h : (typeRight (n + 3)).run us = some (some b, rest))
    (hn : us.length < n) (hb : Addition.closing? b ≠ none) :
    Grows (typeRight (n + 3)) n b (fun x => some (x.body b)) us rest := by
  rcases us with _ | ⟨t, us⟩
  · exact absurd (consumes_typeRight _ h) (Nat.not_lt_zero _)
  rcases typeRight_cons.1 h with ⟨_, hnone, _⟩ | ⟨heq, d, hd, hbody⟩
  · cases hnone
  · cases hd
    obtain ⟨_, ts, c, he, hclose, hgrow⟩ := typeBody_grows hbody hn hb
    obtain ⟨rfl, rfl⟩ := List.cons.inj he
    refine ⟨t, ts, c, rfl, hclose, fun x z c' new rest' hfit hi hcov => ?_⟩
    exact typeRight_cons.2 (.inr ⟨heq, _, rfl, hgrow x z c' new rest' hfit hi hcov⟩)

theorem typeBehind_grows {b : TypeBody} (h : (typeBehind (n + 4)).run us = some (some b, rest))
    (hn : Covered (n + 3) us) (hl : us.length < n) (hb : Addition.closing? b ≠ none) :
    Grows (typeBehind (n + 4)) n b (fun x => some (x.body b)) us rest := by
  rcases us with _ | ⟨t, us⟩
  · exact absurd (consumes_typeBehind _ h) (Nat.not_lt_zero _)
  rw [run_typeBehind] at h
  split at h
  next ht =>
    rcases orElse_eq_some.1 h with harr | ⟨hno, hpar⟩
    · obtain ⟨_, _, hq, hr⟩ := seqRight_eq_some.1 harr
      obtain ⟨_, rfl⟩ := require_eq_some.1 hq
      rcases typeRight_cons.1 hr with ⟨_, hnone, _⟩ | ⟨_, d, hd, hbody⟩
      · cases hnone
      · cases hd
        obtain ⟨_, _, rfl⟩ := (typeBody_bracket ht).1 hbody
        exact absurd rfl hb
    · obtain ⟨_, _, hparams, hr⟩ := seqRight_eq_some.1 hpar
      obtain ⟨_, _, hq, hp⟩ := seqRight_eq_some.1 hparams
      obtain ⟨hfree, rfl⟩ := require_eq_some.1 hq
      obtain ⟨brackets, rfl⟩ := (consumes_typeParams _).exists_cons hp
      obtain ⟨w, ts, c, rfl, hclose, hgrow⟩ := typeRight_grows hr (by simp at hl; omega) hb
      refine ⟨t, brackets ++ w :: ts, c, by simp, hclose, fun x z c' new rest' hfit hi hcov => ?_⟩
      have hr' := hgrow x z c' new rest' hfit hi hcov
      simp only [List.cons_append, List.append_assoc] at hno hfree hp hn hr hr' ⊢
      exact typeBehind_params ht hno hfree hp hr hn hr'
  next ht =>
    obtain ⟨_, ts, c, he, hclose, hgrow⟩ := typeRight_grows h hl hb
    obtain ⟨rfl, rfl⟩ := List.cons.inj he
    refine ⟨t, ts, c, rfl, hclose, fun x z c' new rest' hfit hi hcov => ?_⟩
    rw [List.cons_append, run_typeBehind, if_neg ht]
    exact hgrow x z c' new rest' hfit hi hcov

theorem typeEntry_grows {spec : TypeSpec}
    (h : (typeEntry (n + 5)).run us = some (.definition spec, rest))
    (hn : Covered (n + 3) us) (hl : us.length < n) (hb : Addition.closing? spec.body ≠ none) :
    ∃ t ts c, us = t :: ts ++ c :: rest ∧ Addition.Closed spec.body c ∧
      spec.extent.lastRow = c.extent.lastRow ∧
      ∀ x z c' new rest', x.Fits spec.body → Inserts x c z c' new rest rest' →
        Covered n (z :: (new ++ c' :: rest')) →
        (typeEntry (n + 5)).run (t :: ts ++ z :: (new ++ c' :: rest')) =
          some (x.entry (.definition spec), rest') := by
  obtain ⟨t, vs, used, b, rfl, ht, hbehind, hu, he⟩ := typeEntry_eq_some.1 h
  rcases b with _ | b
  · cases he
  obtain ⟨extent, name, body⟩ := spec
  cases he
  have hsolid : ∀ x ∈ [t], x.isSolid := by simp [Token.isSolid, ht]
  have hcov : Covered (n + 3) vs := Covered.append (l := [t]) hn hsolid
  obtain ⟨w, ts, c, rfl, hclose, hgrow⟩ := typeBehind_grows hbehind hcov (by simp at hl; omega) hb
  obtain rfl : t :: w :: ts ++ [c] = used := (List.append_left_inj rest).1 (by simpa using hu)
  refine ⟨t, w :: ts, c, rfl, hclose, by rw [extentOf_append_singleton]; rfl,
    fun x z c' new rest' hfit hi hcov' => ?_⟩
  have hnew := hgrow x z c' new rest' hfit hi hcov'
  refine typeEntry_eq_some.2 ⟨t, _, t :: w :: ts ++ z :: (new ++ [c']), _, rfl, ht, hnew, by simp, ?_⟩
  rw [extentOf_grown hi]
  rfl

/-- A list of definitions at other places. -/
theorem gathered_move {d : Motion} {closing : String} {as : List (Sibling TypeEntry)}
    (h : Gathered closing (typeEntry n) ts as rest) (hn : Covered n ts) (hd : d.Fair ts) :
    Gathered closing (typeEntry n) (ts.map d.token) (as.map (d.sibling d.typeEntry))
      (rest.map d.token) := by
  have hb := hn.bound
  have hlen := h.length_members (consumes_typeEntry n)
  have hs : Sim d ts.length (Maps d.typeEntry) (typeEntry n) (typeEntry n) :=
    sim_rule .typeEntry (by show _ + 0 < n; omega) (by show _ + 0 < n; omega)
  have hl : Sim d ts.length (Maps (List.map (d.sibling d.typeEntry)))
      (memberList closing (typeEntry n) n) (memberList closing (typeEntry n) n) :=
    Sim.memberList closing (consumes_typeEntry n) hs (by omega) (by omega)
  rcases hl ⟨hn.ended, hd⟩ (Nat.le_refl _) with ⟨hno, _⟩ | ⟨as', bs, rest', ha, hb', rfl⟩
  · rw [h.memberList (by omega)] at hno
    cases hno
  · rw [h.memberList (by omega)] at ha
    cases ha
    exact gathered_of_memberList (consumes_typeEntry n) hb'

/-- Definitions whose tokens stay stay. -/
theorem gathered_fixed {d : Motion} {closing : String} {as : List (Sibling TypeEntry)}
    (h : Gathered closing (typeEntry n) ts as rest) (hn : Covered n ts)
    (hd : ∀ t ∈ ts, d.token t = t) : as.map (d.sibling d.typeEntry) = as := by
  have hm := gathered_move h hn (Motion.fair_of_fixed hd)
  rw [(List.map_congr_left hd).trans (List.map_id ts)] at hm
  have hl := h.memberList (k := (members as).length + 1) (Nat.lt_succ_self _)
  rw [hm.memberList (by simp [d.members_sibling])] at hl
  exact (Prod.mk.inj (Option.some.inj hl)).1

theorem separates_move {d : Motion} {closing : String} {sep : List Token} {u : Token}
    (h : Separates closing sep u) : Separates closing (sep.map d.token) (d.token u) := by
  rcases h with ⟨rfl, h⟩ | ⟨s, rfl, h⟩
  · exact .inl ⟨rfl, by simpa using h⟩
  · exact .inr ⟨d.token s, rfl, by simpa using h⟩

theorem siblings_fixed {α : Type} {d : Motion} {f : α → α} (h : ∀ t ∈ ts, d.token t = t) :
    (ts.flatMap commentSiblings).map (d.sibling f) = ts.flatMap commentSiblings := by
  rw [List.map_flatMap]
  refine List.flatMap_congr fun t ht => ?_
  rw [← d.commentSiblings_token f t, h t ht]

/-- A list of definitions grows where a definition in it grows. -/
theorem entries_grow {spec : TypeSpec} {before after : List (Sibling TypeEntry)}
    (h : Gathered ")" (typeEntry (n + 5)) us (before ++ .member (.definition spec) :: after) rest)
    (hn : Covered (n + 3) us) (hb : Addition.closing? spec.body ≠ none) :
    ∃ ts c post, us = ts ++ c :: (post ++ rest) ∧
      Addition.Closed spec.body c ∧ spec.extent.lastRow = c.extent.lastRow ∧
      (∀ d : Motion, (∀ t ∈ post ++ rest, d.token t = t) →
        after.map (d.sibling d.typeEntry) = after) ∧
      ∀ x z c' new rest', x.Fits spec.body → Inserts x c z c' new (post ++ rest) rest' →
        Covered n (z :: (new ++ c' :: rest')) →
        Gathered ")" (typeEntry (n + 5)) (ts ++ z :: (new ++ c' :: rest'))
          (before ++ .member (x.entry (.definition spec)) ::
            after.map (x.shift.motion.sibling x.shift.motion.typeEntry)) (rest.map x.shift.motion.token) := by
  have hK (seg more : List Token) (h : Covered (n + 3) (seg ++ more)) (hs : ∀ t ∈ seg, t.isSolid) :
      Covered (n + 3) more := h.append hs
  obtain ⟨front, t, vs, pre, rfl, rfl, hcov, hl, hnext⟩ :=
    h.split (consumes_typeEntry (n + 5)) hK (fun _ _ _ _ hc hr => typeEntry_ahead hr hc) hn
  obtain ⟨sep, u, us, more, he, ht, hsep, hmore, rfl⟩ := hl.uncons
  have hl' := hcov.bound
  obtain ⟨_, ts, c, hts, hclose, hrow, hgrow⟩ := typeEntry_grows he hcov (by omega) hb
  obtain ⟨rfl, rfl⟩ := List.cons.inj hts
  obtain ⟨post, hpost⟩ := hmore.exists_append
  have hall : sep ++ u :: us = sep ++ post ++ rest := by rw [hpost, List.append_assoc]
  have hbody : ∀ y ∈ t :: ts ++ [c], y.isSolid :=
    (typeEntry (n + 5)).solid (by simpa using he)
  have hsolid : ∀ y ∈ t :: ts ++ [c] ++ sep, y.isSolid := fun y hy =>
    (List.mem_append.1 hy).elim (hbody y) (hsep.solid y)
  have hcu : Covered (n + 3) (u :: us) := Covered.append (by simpa using hcov) hsolid
  have hcu' : Covered (n + 5) (u :: us) := ⟨hcu.ended, Nat.lt_add_right 2 hcu.bound⟩
  refine ⟨front ++ t :: ts, c, sep ++ post, by simp [hpost], hclose, hrow, fun d hd => ?_, ?_⟩
  · rw [← hall] at hd
    rw [List.map_append, siblings_fixed fun y hy => hd y (List.mem_append_left _ hy),
      gathered_fixed hmore hcu' fun y hy => hd y (List.mem_append_right sep hy)]
  intro x z c' new rest' hfit hi hcov'
  rw [← hall] at hi
  have hnew := hgrow x z c' new rest' hfit hi hcov'
  have hafter := gathered_move hmore hcu' (Shift.fair fun y hy => hi.reaches y (List.mem_append_right sep hy))
  have hstep : Gathered ")" (typeEntry (n + 5)) (t :: (ts ++ z :: (new ++ c' :: rest')))
      (commentSiblings t ++ .member (x.entry (.definition spec)) ::
        ((sep.map x.shift.motion.token).flatMap commentSiblings ++
          more.map (x.shift.motion.sibling x.shift.motion.typeEntry))) (rest.map x.shift.motion.token) := by
    refine .next ht ?_ (separates_move hsep) hafter
    have hr := hi.rest
    rw [List.map_append] at hr
    exact hnew.trans (by rw [hr]; rfl)
  have hcomments : (sep.map x.shift.motion.token).flatMap commentSiblings =
      (sep.flatMap commentSiblings).map (x.shift.motion.sibling x.shift.motion.typeEntry) := by
    rcases hsep with ⟨rfl, _⟩ | ⟨s, rfl, _⟩
    · rfl
    · simpa using x.shift.motion.commentSiblings_token x.shift.motion.typeEntry s
  have hlist := hnext _ _ _ hstep
  rw [hcomments] at hlist
  simpa using hlist

/-- A declaration group grows as the list in it does. -/
theorem typeGroup_grows {spec : TypeSpec} {before after : List (Sibling TypeEntry)}
    {g : Grouped (List (Sibling TypeEntry))}
    (h : (group .round (memberList ")" (typeEntry (n + 5)) (n + 5))).run us = some (g, rest))
    (hcontent : g.content = before ++ .member (.definition spec) :: after)
    (hn : Covered (n + 3) us) (hb : Addition.closing? spec.body ≠ none) :
    ∃ ts c post, us = g.opening :: ts ++ c :: (post ++ rest) ∧
      Addition.Closed spec.body c ∧ spec.extent.lastRow = c.extent.lastRow ∧
      (∀ d : Motion, (∀ t ∈ post ++ rest, d.token t = t) →
        after.map (d.sibling d.typeEntry) = after) ∧
      ∀ x z c' new rest', x.Fits spec.body → Inserts x c z c' new (post ++ rest) rest' →
        Covered n (z :: (new ++ c' :: rest')) →
        (group .round (memberList ")" (typeEntry (n + 5)) (n + 5))).run
          (g.opening :: ts ++ z :: (new ++ c' :: rest')) =
          some (⟨g.opening, before ++ .member (x.entry (.definition spec)) ::
            after.map (x.shift.motion.sibling x.shift.motion.typeEntry),
            x.shift.motion.token g.closing⟩, rest.map x.shift.motion.token) := by
  obtain ⟨vs, rfl, ho, hl, hcl⟩ := group_eq_some.1 h
  have hlist := gathered_of_memberList (consumes_typeEntry _) hl
  rw [hcontent] at hlist
  have hbound := hn.bound
  have hcov : Covered (n + 3) vs :=
    Covered.append (l := [g.opening]) hn (by simpa using Token.isSolid_of_is ho)
  obtain ⟨ts, c, post, rfl, hclose, hrow, hfixed, hgrow⟩ := entries_grow hlist hcov hb
  refine ⟨ts, c, post ++ [g.closing], by simp, hclose, hrow, fun d hd => hfixed d (by simpa using hd), ?_⟩
  intro x z c' new rest' hfit hi hcov'
  have hnew := hgrow x z c' new rest' hfit (by simpa using hi) hcov'
  refine group_eq_some.2 ⟨_, rfl, ho, hnew.memberList ?_, by simpa using hcl⟩
  have hle := hlist.length_members (consumes_typeEntry _)
  simp only [members_append, members_member, List.length_append, List.length_cons,
    x.shift.motion.members_sibling, List.length_map] at hle hbound ⊢
  omega

theorem typeDecl_grows {spec : TypeSpec} {spot : Spot}
    (h : (typeDecl (n + 6)).run us = some (spot.fill (.definition spec), rest))
    (hn : Covered (n + 3) us) (hb : Addition.closing? spec.body ≠ none) :
    ∃ t w ts c post, us = t :: w :: ts ++ c :: (post ++ rest) ∧ t.is "type" ∧
      Addition.Closed spec.body c ∧ spec.extent.lastRow = c.extent.lastRow ∧
      (∀ d : Motion, (∀ t ∈ post ++ rest, d.token t = t) →
        spot.after.map (d.sibling d.typeEntry) = spot.after) ∧
      ∀ x z c' new rest', x.Fits spec.body → Inserts x c z c' new (post ++ rest) rest' →
        Covered n (z :: (new ++ c' :: rest')) →
        (typeDecl (n + 6)).run (t :: w :: ts ++ z :: (new ++ c' :: rest')) =
          some ((spot.shift x.shift).fill (x.entry (.definition spec)), rest.map x.shift.motion.token) := by
  rw [typeDecl] at h
  obtain ⟨_, vs, hk, hbody⟩ := bind_eq_some.1 h
  obtain ⟨t, hk⟩ := discard_eq_some.1 hk
  obtain ⟨rfl, ht, htype⟩ := expect_eq_some.1 hk
  have hbound := hn.bound
  have hcov : Covered (n + 3) vs :=
    Covered.append (l := [t]) hn (by simpa using Token.isSolid_of_is ht)
  have hdecl (ws : List Token) : (typeDecl (n + 6)).run (t :: ws) =
      (peek >>= fun t => if t.is "(" then
          group .round (memberList ")" (typeEntry (n + 5)) (n + 5)) >>= fun entries =>
            pure (.group (commentSiblings entries.opening ++ entries.content))
        else typeEntry (n + 5) >>= fun e => pure (TypeDecl.lone e)).run ws := by
    have hkeyword : (discard (expect "type")).run (t :: ws) = some (⟨⟩, ws) :=
      discard_eq_some.2 ⟨t, expect_eq_some.2 ⟨rfl, ht, htype⟩⟩
    rw [typeDecl, run_bind, hkeyword]
    rfl
  rcases vs with _ | ⟨w, vs⟩
  · exact absurd rfl hcov.ended.ne_nil
  rw [run_peek_cons] at hbody
  split at hbody
  next hw =>
    obtain ⟨g, rest, hg, hend⟩ := bind_eq_some.1 hbody
    obtain ⟨hfill, rfl⟩ := pure_eq_some.1 hend
    rcases spot with _ | ⟨before, after⟩
    · cases hfill
    obtain ⟨before, rfl, hcontent⟩ :=
      exists_of_members_eq_nil (members_commentSiblings g.opening) (TypeDecl.group.inj hfill)
    obtain ⟨ts, c, post, hvs, hclose, hrow, hfixed, hgrow⟩ := typeGroup_grows hg hcontent hcov hb
    obtain ⟨rfl, rfl⟩ := List.cons.inj hvs
    refine ⟨t, g.opening, ts, c, post, rfl, ht, hclose, hrow, hfixed,
      fun x z c' new rest' hfit hi hcov' => ?_⟩
    have hnew := hgrow x z c' new rest' hfit hi hcov'
    rw [List.cons_append] at hnew
    rw [List.cons_append, hdecl, List.cons_append, run_peek_cons, if_pos hw, run_bind, hnew]
    simp [Spot.fill, Spot.shift]
    rfl
  next hw =>
    obtain ⟨e, _, he, hend⟩ := bind_eq_some.1 hbody
    obtain ⟨hfill, rfl⟩ := pure_eq_some.1 hend
    rcases spot with _ | ⟨before, after⟩
    · cases hfill
      obtain ⟨_, ts, c, hts, hclose, hrow, hgrow⟩ :=
        typeEntry_grows he hcov (by simp at hbound ⊢; omega) hb
      obtain ⟨rfl, rfl⟩ := List.cons.inj hts
      refine ⟨t, w, ts, c, [], rfl, ht, hclose, hrow, fun _ _ => rfl, fun x z c' new rest' hfit hi hcov' => ?_⟩
      rw [List.cons_append, hdecl, List.cons_append, run_peek_cons, if_neg hw, run_bind]
      have hnew := hgrow x z c' new rest' hfit hi hcov'
      rw [List.cons_append] at hnew
      rw [hnew, hi.rest]
      rfl
    · cases hfill

end Syntax.Grammar

end GoOutline
