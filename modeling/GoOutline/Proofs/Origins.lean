import GoOutline.Proofs.Inventory

/-!
Where the parts of a tree are read. A rule that is applied somewhere among the tokens of a text
applies other rules among them, so that each part of a tree comes from a rule of its own.
-/

namespace GoOutline.Syntax

namespace Parser

variable {α β : Type} {p q : Parser α} {f : α → Parser β} {ts us rest : List Token} {a : α} {b : β}

/-- A parser reads something somewhere among some tokens. -/
def Reads (p : Parser α) (ts : List Token) (a : α) : Prop :=
  ∃ us rest, us <:+ ts ∧ p.run us = some (a, rest)

/-- What a parser leaves stands at the end of what it is given. -/
theorem suffix_of_run (h : p.run us = some (a, rest)) (hs : us <:+ ts) : rest <:+ ts := by
  obtain ⟨used, rfl, -⟩ := p.takes h
  exact (List.suffix_append used rest).trans hs

namespace Reads

theorem bind (h : (p >>= f).Reads ts b) : ∃ a, p.Reads ts a ∧ (f a).Reads ts b := by
  obtain ⟨us, rest, hs, h⟩ := h
  obtain ⟨a, mid, ha, hb⟩ := bind_eq_some.1 h
  exact ⟨a, ⟨us, mid, hs, ha⟩, mid, rest, suffix_of_run ha hs, hb⟩

theorem pure {c : α} (h : (Pure.pure a : Parser α).Reads ts c) : a = c := by
  obtain ⟨us, rest, -, h⟩ := h
  exact (pure_eq_some.1 h).1

theorem failure (h : (Alternative.failure : Parser α).Reads ts a) : False := by
  obtain ⟨us, rest, -, h⟩ := h
  exact failure_eq_some h

theorem map {f : α → β} (h : (f <$> p).Reads ts b) : ∃ a, p.Reads ts a ∧ f a = b := by
  obtain ⟨us, rest, hs, h⟩ := h
  obtain ⟨a, ha, hf⟩ := map_eq_some.1 h
  exact ⟨a, ⟨us, rest, hs, ha⟩, hf⟩

theorem seqRight {q : Parser β} (h : (p *> q).Reads ts b) : q.Reads ts b := by
  obtain ⟨us, rest, hs, h⟩ := h
  obtain ⟨a, mid, ha, hb⟩ := seqRight_eq_some.1 h
  exact ⟨mid, rest, suffix_of_run ha hs, hb⟩

theorem orElse (h : (p <|> q).Reads ts a) : p.Reads ts a ∨ q.Reads ts a := by
  obtain ⟨us, rest, hs, h⟩ := h
  rcases orElse_eq_some.1 h with h | ⟨-, h⟩
  · exact .inl ⟨us, rest, hs, h⟩
  · exact .inr ⟨us, rest, hs, h⟩

theorem ite {c : Prop} [Decidable c] (h : (if c then p else q).Reads ts a) :
    p.Reads ts a ∨ q.Reads ts a := by
  split at h
  · exact .inl h
  · exact .inr h

theorem placed {e : Extent} (h : (placed p).Reads ts (e, a)) : p.Reads ts a := by
  obtain ⟨us, rest, hs, h⟩ := h
  obtain ⟨used, -, hp, -⟩ := placed_eq_some.1 h
  exact ⟨us, rest, hs, hp⟩

theorem group {k : Bracket} {g : Grouped α} (h : (group k p).Reads ts g) : p.Reads ts g.content := by
  obtain ⟨us, rest, hs, h⟩ := h
  obtain ⟨vs, rfl, -, hp, -⟩ := group_eq_some.1 h
  exact ⟨vs, _, (List.suffix_cons _ vs).trans hs, hp⟩

end Reads

/-- The members between two delimiters, and perhaps the comments in front of the first delimiter. -/
def Lists (p : Parser α) (ts : List Token) (as : List (Sibling α)) : Prop :=
  ∃ closing o us content rest, o :: us <:+ ts ∧ Gathered closing p us content rest ∧
    (as = content ∨ as = commentSiblings o ++ content)

theorem reads_of_gathered {closing : String} {as : List (Sibling α)}
    (h : Gathered closing p us as rest) (hs : us <:+ ts) : ∀ a ∈ members as, p.Reads ts a := by
  induction h with
  | closed hc => simp
  | @next t u us sep vs rest a more ht ha hsep h ih =>
      obtain ⟨used, he, -⟩ := p.takes ha
      have hmore : u :: vs <:+ ts :=
        ((List.suffix_append sep _).trans (suffix_of_run ha List.suffix_rfl)).trans hs
      intro b hb
      rw [members_append, members_commentSiblings, List.nil_append, members_member, members_append,
        hsep.members, List.nil_append] at hb
      rcases List.mem_cons.1 hb with rfl | hb
      · exact ⟨_, _, hs, ha⟩
      · exact ih hmore b hb

theorem Lists.reads {as : List (Sibling α)} (h : p.Lists ts as) : ∀ a ∈ members as, p.Reads ts a := by
  obtain ⟨closing, o, us, content, rest, hs, hg, has⟩ := h
  have hm : members as = members content := by
    rcases has with rfl | rfl
    · rfl
    · simp
  rw [hm]
  exact reads_of_gathered hg ((List.suffix_cons o us).trans hs)

/-- A list between delimiters. -/
theorem lists_of_group {k : Bracket} {closing : String} {n : Nat} {g : Grouped (List (Sibling α))}
    (hc : Consumes p) (h : (group k (memberList closing p n)).Reads ts g) :
    p.Lists ts g.content ∧ p.Lists ts (commentSiblings g.opening ++ g.content) := by
  obtain ⟨us, rest, hs, h⟩ := h
  obtain ⟨vs, rfl, -, hr, -⟩ := group_eq_some.1 h
  have hg := gathered_of_memberList hc hr
  exact ⟨⟨closing, _, vs, _, _, hs, hg, .inl rfl⟩, closing, _, vs, _, _, hs, hg, .inr rfl⟩

end Parser

open Syntax.Parser Docs

theorem Listed.reads {α : Type} {p : Parser α} {ts us rest : List Token} {as : List α}
    (h : Listed p us as rest) (hs : us <:+ ts) :
    ∀ a ∈ as, p.Reads ts a := by
  induction h with
  | nil => simp
  | last ha => simpa using ⟨_, _, hs, ha⟩
  | @cons us mid rest a c as ha hc h ih =>
      have hmid : mid <:+ ts := (List.suffix_cons c mid).trans (suffix_of_run ha hs)
      intro b hb
      rcases List.mem_cons.1 hb with rfl | hb
      · exact ⟨us, _, hs, ha⟩
      · exact ih hmid b hb

/-- The parts of a type are read among some tokens. -/
def TypeBody.Among (ts : List Token) : TypeBody → Prop
  | .struct _ b => ∃ n, (Grammar.fieldDecl n).Lists ts b.fields
  | .interface _ b => ∃ n, (Grammar.interfaceElem n).Lists ts b.elems
  | .plain type => ∃ n p, (Grammar.typeExpr n p).Reads ts type

def TypeEntry.Among (ts : List Token) : TypeEntry → Prop
  | .definition spec => spec.body.Among ts
  | .synonym _ => True

def TypeDecl.Among (ts : List Token) : TypeDecl → Prop
  | .lone e => e.Among ts
  | .group es => (∃ n, (Grammar.typeEntry n).Lists ts es) ∧ ∀ e ∈ members es, e.Among ts

def ItemKind.Among (ts : List Token) : ItemKind → Prop
  | .types d => d.Among ts
  | .func f => ∃ n, (Grammar.funcDecl n).Reads ts f
  | _ => True

namespace Grammar

variable {n : Nat} {ts : List Token}

theorem among_structBody {s : Span} {b : StructBody} (h : (structBody n).Reads ts b) :
    (TypeBody.struct s b).Among ts := by
  cases n with
  | zero => exact h.failure.elim
  | succ n =>
      obtain ⟨_, -, h⟩ := h.bind
      obtain ⟨g, hg, h⟩ := h.bind
      cases h.pure
      exact ⟨n, (lists_of_group (consumes_fieldDecl n) hg).1⟩

theorem among_interfaceBody {s : Span} {b : InterfaceBody} (h : (interfaceBody n).Reads ts b) :
    (TypeBody.interface s b).Among ts := by
  cases n with
  | zero => exact h.failure.elim
  | succ n =>
      obtain ⟨_, -, h⟩ := h.bind
      obtain ⟨g, hg, h⟩ := h.bind
      cases h.pure
      exact ⟨n, (lists_of_group (consumes_interfaceElem n) hg).2⟩

theorem among_typeBody {b : TypeBody} (h : (typeBody n).Reads ts b) : b.Among ts := by
  cases n with
  | zero => exact h.failure.elim
  | succ n =>
      obtain ⟨t, -, h⟩ := h.bind
      split at h
      · obtain ⟨⟨e, s⟩, hs, h⟩ := h.bind
        cases h.pure
        exact among_structBody hs.placed
      split at h
      · obtain ⟨⟨e, i⟩, hi, h⟩ := h.bind
        cases h.pure
        exact among_interfaceBody hi.placed
      · obtain ⟨type, ht, h⟩ := h.bind
        cases h.pure
        exact ⟨n, .line, ht⟩

theorem among_typeRight {o : Option TypeBody} (h : (typeRight n).Reads ts o) :
    ∀ b ∈ o, b.Among ts := by
  cases n with
  | zero => exact h.failure.elim
  | succ n =>
      obtain ⟨same, -, h⟩ := h.bind
      split at h
      · obtain ⟨_, -, h⟩ := h.bind
        cases h.pure
        simp
      · obtain ⟨b, hb, h⟩ := h.bind
        cases h.pure
        simpa using among_typeBody hb

theorem among_typeBehind {o : Option TypeBody} (h : (typeBehind n).Reads ts o) :
    ∀ b ∈ o, b.Among ts := by
  cases n with
  | zero => exact h.failure.elim
  | succ n =>
      obtain ⟨t, -, h⟩ := h.bind
      obtain ⟨u, -, h⟩ := h.bind
      obtain ⟨v, -, h⟩ := h.bind
      split at h
      · rcases h.orElse with h | h
        · exact among_typeRight h.seqRight
        · exact among_typeRight h.seqRight
      · exact among_typeRight h

theorem among_typeEntry {e : TypeEntry} (h : (typeEntry n).Reads ts e) : e.Among ts := by
  cases n with
  | zero => exact h.failure.elim
  | succ n =>
      obtain ⟨⟨extent, name, o⟩, hp, h⟩ := h.bind
      obtain ⟨t, -, hp⟩ := hp.placed.bind
      obtain ⟨o', ho, hp⟩ := hp.bind
      cases hp.pure
      have hbody := among_typeBehind ho
      cases o with
      | none => cases h.pure; trivial
      | some b => cases h.pure; exact hbody b rfl

theorem among_typeDecl {d : TypeDecl} (h : (typeDecl n).Reads ts d) : d.Among ts := by
  cases n with
  | zero => exact h.failure.elim
  | succ n =>
      obtain ⟨_, -, h⟩ := h.bind
      obtain ⟨t, -, h⟩ := h.bind
      split at h
      · obtain ⟨g, hg, h⟩ := h.bind
        cases h.pure
        have hl := (lists_of_group (consumes_typeEntry n) hg).2
        exact ⟨⟨n, hl⟩, fun e he => among_typeEntry (hl.reads e he)⟩
      · obtain ⟨e, he, h⟩ := h.bind
        cases h.pure
        exact among_typeEntry he

theorem among_itemKind {k : ItemKind} (h : (itemKind n).Reads ts k) : k.Among ts := by
  obtain ⟨t, -, h⟩ := h.bind
  split at h
  · obtain ⟨_, -, h⟩ := h.bind
    cases h.pure
    trivial
  split at h
  · obtain ⟨d, -, rfl⟩ := h.map
    trivial
  split at h
  · obtain ⟨d, hd, rfl⟩ := h.map
    exact among_typeDecl hd
  split at h
  · obtain ⟨_, -, h⟩ := h.bind
    cases h.pure
    trivial
  split at h
  · obtain ⟨_, -, h⟩ := h.bind
    rcases h.orElse with h | h
    · obtain ⟨f, hf, rfl⟩ := h.map
      exact ⟨n, hf⟩
    · cases h.seqRight.pure
      trivial
  · obtain ⟨_, -, h⟩ := h.bind
    cases h.pure
    trivial

theorem Itemized.reads {us rest : List Token} {items : List (Sibling Item)}
    (h : Itemized n us items rest) (hs : us <:+ ts) :
    ∀ i ∈ members items, (itemKind n).Reads ts i.kind := by
  induction h with
  | stop ht => simp
  | @next t u seg sep us rest kind more ht hk hsep h ih =>
      have hmore : u :: us <:+ ts :=
        ((List.suffix_append sep _).trans (suffix_of_run hk List.suffix_rfl)).trans hs
      intro i hi
      rw [members_append, members_commentSiblings, List.nil_append, members_member, members_append,
        hsep.members, List.nil_append] at hi
      rcases List.mem_cons.1 hi with rfl | hi
      · exact ⟨_, _, hs, hk⟩
      · exact ih hmore i hi

end Grammar

def Topic.Among (ts : List Token) : Topic → Prop
  | .struct d => ∃ n, (Grammar.fieldDecl n).Lists ts d.body.fields
  | .interface d => ∃ n, (Grammar.interfaceElem n).Lists ts d.body.elems
  | .function d => ∃ n, (Grammar.funcDecl n).Reads ts d.body

theorem TypeEntry.Among.topics {ts : List Token} {e : TypeEntry} (h : e.Among ts) (span : Span)
    (docs : List String) : ∀ t ∈ e.topics span docs, t.Among ts := by
  cases e with
  | synonym extent => simp [TypeEntry.topics]
  | definition spec =>
      obtain ⟨extent, name, body⟩ := spec
      cases body with
      | struct s b =>
          intro t ht
          rw [List.mem_singleton.1 ht]
          exact h
      | interface s b =>
          intro t ht
          rw [List.mem_singleton.1 ht]
          exact h
      | plain type => simp [TypeEntry.topics]

namespace Tree

variable {text : List Char} {tree : Tree}

theorem among_items (h : Tree.ofText? text = some tree) :
    ∀ i ∈ members tree.items, i.kind.Among (Lexer.tokens text) := by
  obtain ⟨us, z, ht, -, -, -, hi⟩ := ofText?_eq_some h
  intro i hm
  exact Grammar.among_itemKind (hi.reads (by rw [ht]) i hm)

/-- What a file declares is read among its tokens. -/
theorem among_topics (h : Tree.ofText? text = some tree) :
    ∀ t ∈ tree.topics, t.Among (Lexer.tokens text) := by
  intro t ht
  obtain ⟨d, hd, ht⟩ := List.mem_flatMap.1 ht
  have hitem := among_items h d.item (mem_of_attach hd)
  rw [itemTopics] at ht
  split at ht
  next e hk =>
    rw [hk] at hitem
    exact TypeEntry.Among.topics hitem _ _ t ht
  next es hk =>
    rw [hk] at hitem
    obtain ⟨e, he, ht⟩ := List.mem_flatMap.1 ht
    exact (hitem.2 e.item (mem_of_attach he)).topics _ _ t ht
  next decl hk =>
    rw [hk] at hitem
    rw [List.mem_singleton.1 ht]
    exact hitem
  next => cases ht

end Tree

end GoOutline.Syntax
