import GoOutline.Proofs.Lists
import GoOutline.Proofs.Moving.Items

/-!
Type definitions in front of anything. Brackets behind the name of a type hold the length of an
array or type parameters; which of them does not depend on what stands behind the definition.
-/

namespace GoOutline.Syntax.Grammar

open Syntax.Parser

variable {n j : Nat} {t u z w : Token} {ts rest : List Token}

/-- A bound that no rule reaches on some tokens. -/
structure Covered (n : Nat) (ts : List Token) : Prop where
  ended : Ended ts
  bound : 16 * ts.length + 15 < n

theorem Covered.map (h : Covered n ts) (d : Motion) : Covered n (ts.map d.token) := by
  obtain ⟨y, hy, hys⟩ := h.ended
  exact ⟨⟨d.token y, by rw [List.getLast?_map, hy]; rfl, by simpa using hys⟩, by simpa using h.bound⟩

theorem Covered.append {l : List Token} (h : Covered n (l ++ ts)) (hs : ∀ t ∈ l, t.isSolid) :
    Covered n ts := by
  have hb := h.bound
  rw [List.length_append] at hb
  exact ⟨h.ended.of_append hs, by omega⟩

/-- A rule reads the same at any bound that covers the tokens. -/
theorem run_of_covered {α : Type} (r : Rule α) {a : α} {k m : Nat}
    (h : (r.parser k).run ts = some (a, rest)) (he : Ended ts) (hk : 16 * ts.length + r.rank < k)
    (hm : 16 * ts.length + r.rank < m) :
    ∃ b, (r.parser m).run ts = some (b, rest) ∧ r.Moves .none a b := by
  rcases sim_rule (d := .none) r hk hm he.unmoved (Nat.le_refl _) with ⟨hn, _⟩ | ⟨a', b, rest', ha, hb, hr⟩
  · rw [hn] at h
    cases h
  · rw [ha] at h
    cases h
    rw [Motion.map_none Motion.none_token, Motion.map_none Motion.none_token] at hb
    exact ⟨b, hb, hr⟩

/-- A form of types makes a type. -/
theorem typeExpr_of_typeForm {p : Place} {f : Span → TypeExpr}
    (h : (typeForm n p).run ts = some (f, rest)) :
    ∃ e, (typeExpr (n + 1) p).run ts = some (e, rest) := by
  obtain ⟨used, he, _⟩ := (typeForm n p).takes h
  exact ⟨_, bind_eq_some.2 ⟨(extentOf used, f), rest, placed_eq_some.2 ⟨used, he, h, rfl⟩, rfl⟩⟩

theorem typeExpr_of_structBody {b : StructBody} (h : (structBody n).run (t :: ts) = some (b, rest))
    (ht : t.is "struct") (p : Place) : ∃ e, (typeExpr (n + 2) p).run (t :: ts) = some (e, rest) := by
  have hf (a : String) (ha : "struct" ≠ a) : t.is a = false := Token.is_eq_false_of_is ht ha
  have hform : (typeForm (n + 1) p).run (t :: ts) = some (.other, rest) := by
    rw [typeForm, run_peek_cons]
    simp [Token.kind_of_is ht, hf, ht, bind_eq_some, discard_eq_some, pure_eq_some, h]
  exact typeExpr_of_typeForm hform

theorem typeExpr_of_interfaceBody {b : InterfaceBody}
    (h : (interfaceBody n).run (t :: ts) = some (b, rest)) (ht : t.is "interface") (p : Place) :
    ∃ e, (typeExpr (n + 2) p).run (t :: ts) = some (e, rest) := by
  have hf (a : String) (ha : "interface" ≠ a) : t.is a = false := Token.is_eq_false_of_is ht ha
  have hform : (typeForm (n + 1) p).run (t :: ts) = some (.other, rest) := by
    rw [typeForm, run_peek_cons]
    simp [Token.kind_of_is ht, hf, ht, bind_eq_some, discard_eq_some, pure_eq_some, h]
  exact typeExpr_of_typeForm hform

/-- What is defined as a type can stand as a type. -/
theorem typeExpr_of_typeBody {b : TypeBody} (h : (typeBody n).run ts = some (b, rest))
    (hn : Covered n ts) (hj : Covered j ts) : ∃ e, (typeExpr j .line).run ts = some (e, rest) := by
  have hbn := hn.bound
  have hbj := hj.bound
  have hrank : Rule.structBody.rank = 0 ∧ Rule.interfaceBody.rank = 0 ∧
      (Rule.typeExpr .line).rank = 2 := ⟨rfl, rfl, rfl⟩
  obtain ⟨n, rfl⟩ : ∃ m, n = m + 1 := ⟨n - 1, by omega⟩
  obtain ⟨j, rfl⟩ : ∃ i, j = i + 2 := ⟨j - 2, by omega⟩
  rcases ts with _ | ⟨t, ts⟩
  · exact absurd rfl hn.ended.ne_nil
  rw [typeBody, run_peek_cons] at h
  split at h
  next ht =>
    obtain ⟨⟨_, b⟩, _, hp, h⟩ := bind_eq_some.1 h
    obtain ⟨_, rfl⟩ := pure_eq_some.1 h
    obtain ⟨_, _, hb, _⟩ := placed_eq_some.1 hp
    obtain ⟨b', hb', _⟩ := run_of_covered (m := j) .structBody hb hn.ended (by omega) (by omega)
    exact typeExpr_of_structBody hb' ht .line
  next =>
    split at h
    next ht =>
      obtain ⟨⟨_, b⟩, _, hp, h⟩ := bind_eq_some.1 h
      obtain ⟨_, rfl⟩ := pure_eq_some.1 h
      obtain ⟨_, _, hb, _⟩ := placed_eq_some.1 hp
      obtain ⟨b', hb', _⟩ := run_of_covered (m := j) .interfaceBody hb hn.ended (by omega) (by omega)
      exact typeExpr_of_interfaceBody hb' ht .line
    next =>
      obtain ⟨e, _, he, h⟩ := bind_eq_some.1 h
      obtain ⟨_, rfl⟩ := pure_eq_some.1 h
      obtain ⟨e', he', _⟩ := run_of_covered (m := j + 2) (.typeExpr .line) he hn.ended (by omega)
        (by omega)
      exact ⟨e', he'⟩

theorem startsType_of_typeExpr {p : Place} {e : TypeExpr}
    (h : (typeExpr n p).run (t :: ts) = some (e, rest)) : startsType t := by
  rcases n with _ | _ | n
  · cases h
  · obtain ⟨⟨_, _⟩, _, hp, _⟩ := bind_eq_some.1 h
    obtain ⟨_, _, hf, _⟩ := placed_eq_some.1 hp
    cases hf
  obtain ⟨⟨_, _⟩, _, hp, _⟩ := bind_eq_some.1 h
  obtain ⟨_, _, hf, _⟩ := placed_eq_some.1 hp
  rw [typeForm, run_peek_cons] at hf
  by_cases hk : t.kind == .name
  · simp [startsType, hk]
  by_cases ha : ∃ a ∈ ["*", "(", "[", "map", "chan", "<-", "func", "struct", "interface", "~"], t.is a
  · obtain ⟨a, ha, ht⟩ := ha
    exact startsType_of_is ht ha
  · have hnot (a : String)
        (hm : a ∈ ["*", "(", "[", "map", "chan", "<-", "func", "struct", "interface", "~"]) :
        t.is a = false := by
      rw [← Bool.not_eq_true]
      exact fun ht => ha ⟨a, hm, ht⟩
    simp [hk, hnot, failure] at hf

theorem typeExpr_of_group {p : Place} {g : Grouped (Option Span)} {mid : List Token} {elem : TypeExpr}
    (ht : t.is "[") (hg : (group .square (arrayLength j)).run (t :: ts) = some (g, mid))
    (he : (typeExpr j p).run mid = some (elem, rest)) :
    ∃ e, (typeExpr (j + 2) p).run (t :: ts) = some (e, rest) := by
  have hf (a : String) (ha : "[" ≠ a) : t.is a = false := Token.is_eq_false_of_is ht ha
  have hform : ∃ f, (typeForm (j + 1) p).run (t :: ts) = some (f, rest) := by
    rw [typeForm, run_peek_cons]
    simp [Token.kind_of_is ht, hf, ht, run_bind, hg, he, pure]
  obtain ⟨f, hform⟩ := hform
  exact typeExpr_of_typeForm hform

/-- What stands behind the name of a type starts with an equals sign, or is a body. -/
theorem typeRight_cons {b : Option TypeBody} : (typeRight (n + 1)).run (t :: ts) = some (b, rest) ↔
    (t.is "=" ∧ b = none ∧ ∃ e, (typeExpr n .line).run ts = some (e, rest)) ∨
      (t.is "=" = false ∧ ∃ d, b = some d ∧ (typeBody n).run (t :: ts) = some (d, rest)) := by
  rw [typeRight, bind_eq_some]
  constructor
  · rintro ⟨same, mid, ha, h⟩
    rcases accept_eq_some.1 ha with ⟨rfl, t', he, heq, _⟩ | ⟨rfl, rfl, heq⟩
    · obtain ⟨rfl, rfl⟩ := List.cons.inj he
      obtain ⟨_, _, he, h⟩ := bind_eq_some.1 h
      obtain ⟨rfl, rfl⟩ := pure_eq_some.1 h
      exact .inl ⟨heq, rfl, discard_eq_some.1 he⟩
    · obtain ⟨d, _, hd, h⟩ := bind_eq_some.1 h
      obtain ⟨rfl, rfl⟩ := pure_eq_some.1 h
      exact .inr ⟨heq, d, rfl, hd⟩
  · rintro (⟨heq, rfl, e, he⟩ | ⟨heq, d, rfl, hd⟩)
    · have hplain := Token.isPlain_of_is heq fun b => by cases b <;> decide
      refine ⟨true, ts, accept_eq_some.2 (.inl ⟨rfl, t, rfl, heq, hplain⟩), ?_⟩
      exact bind_eq_some.2 ⟨⟨⟩, rest, discard_eq_some.2 ⟨e, he⟩, rfl⟩
    · refine ⟨false, t :: ts, accept_eq_some.2 (.inr ⟨rfl, rfl, heq⟩), ?_⟩
      exact bind_eq_some.2 ⟨d, rest, hd, rfl⟩

theorem typeBody_bracket {b : TypeBody} (ht : t.is "[") :
    (typeBody (n + 1)).run (t :: ts) = some (b, rest) ↔
      ∃ e, (typeExpr n .line).run (t :: ts) = some (e, rest) ∧ b = .plain e := by
  have hf (a : String) (ha : "[" ≠ a) : t.is a = false := Token.is_eq_false_of_is ht ha
  have hstruct : t.is "struct" = false := hf _ (by decide)
  have hinterface : t.is "interface" = false := hf _ (by decide)
  rw [typeBody, run_peek_cons, hstruct, hinterface]
  constructor
  · intro h
    obtain ⟨e, _, he, h⟩ := bind_eq_some.1 h
    obtain ⟨rfl, rfl⟩ := pure_eq_some.1 h
    exact ⟨e, he, rfl⟩
  · rintro ⟨e, he, rfl⟩
    exact bind_eq_some.2 ⟨e, rest, he, rfl⟩

/-- Brackets that are read as type parameters are no length of an array in front of what is defined,
nor in front of anything else that starts with the same token. -/
theorem not_array {us vs : List Token} {b : Option TypeBody} {c : Bool}
    (hno : (require c *> typeRight n).run (t :: us ++ w :: vs) = none)
    (ht : t.is "[") (hp : (typeParams n).run (t :: us ++ w :: vs) = some ((), w :: vs))
    (hr : (typeRight n).run (w :: vs) = some (b, rest)) (hn : Covered n (t :: us ++ w :: vs))
    (vs' : List Token) : (require c *> typeRight n).run (t :: us ++ w :: vs') = none := by
  rw [← Option.not_isSome_iff_eq_none, Option.isSome_iff_exists]
  rintro ⟨⟨b', rest'⟩, hnew⟩
  obtain ⟨_, _, hc, hnew⟩ := seqRight_eq_some.1 hnew
  obtain ⟨rfl, rfl⟩ := require_eq_some.1 hc
  have hb := hn.bound
  obtain ⟨n, rfl⟩ : ∃ m, n = m + 2 := ⟨n - 2, by omega⟩
  have heq : t.is "=" = false := Token.is_eq_false_of_is ht (by decide)
  obtain ⟨h, _⟩ | ⟨_, d, _, hbody⟩ := typeRight_cons.1 hnew
  · rw [heq] at h
    cases h
  obtain ⟨e, he, _⟩ := (typeBody_bracket ht).1 hbody
  obtain ⟨j, g, mid, elem, rfl, hg, helem⟩ := bracketed_typeExpr he ht
  have hw : Same Any w w := ⟨trivial, rfl⟩
  have hany : ∀ x ∈ t :: us, Any x := fun _ _ => trivial
  -- The brackets are the same however they are read.
  obtain ⟨g', _, hg', hq⟩ := bind_eq_some.1 hp
  obtain ⟨_, rfl⟩ := require_eq_some.1 hq
  obtain rfl := group_rest_unique (Follows.group .square _ hany hw hg' vs') hg
  have hold := Follows.group .square _ hany hw hg vs
  have hstart : w.is "=" = false := by
    rw [← Bool.not_eq_true]
    intro heq
    have hs := startsType_of_typeExpr helem
    simp [startsType, Token.kind_of_is heq, Token.isAny_of_is heq] at hs
  obtain ⟨heq, _⟩ | ⟨_, d, _, hd⟩ := typeRight_cons.1 hr
  · rw [hstart] at heq
    cases heq
  have hsolid : ∀ x ∈ t :: us, x.isSolid := (group .square (arrayLength j)).solid hold
  have hcov := hn.append hsolid
  have hlen : (t :: us ++ w :: vs).length = us.length + (w :: vs).length + 1 := by
    simp [Nat.add_assoc]
  have hj : Covered j (w :: vs) := ⟨hcov.ended, by omega⟩
  obtain ⟨elem', helem'⟩ := typeExpr_of_typeBody hd ⟨hcov.ended, by omega⟩ hj
  obtain ⟨e', he'⟩ := typeExpr_of_group ht hold helem'
  have hsome : (require true *> typeRight (j + 2 + 2)).run (t :: us ++ w :: vs) =
      some (some (.plain e'), rest) := by
    refine seqRight_eq_some.2 ⟨(), _, rfl, typeRight_cons.2 (.inr ⟨heq, _, rfl, ?_⟩)⟩
    exact (typeBody_bracket ht).2 ⟨e', he', rfl⟩
  rw [hno] at hsome
  cases hsome

theorem consumes_typeBody (n : Nat) : Consumes (typeBody n) := by
  cases n with
  | zero => exact consumes_failure
  | succ n =>
      refine .behind _ fun t => .ite ((consumes_structBody n).placed.bind _) (.ite ?_ ?_)
      · exact (consumes_interfaceBody n).placed.bind _
      · exact (consumes_typeExpr n .line).bind _

theorem consumes_typeRight (n : Nat) : Consumes (typeRight n) := by
  cases n with
  | zero => exact consumes_failure
  | succ n =>
      refine .behind _ fun same => .ite ?_ ((consumes_typeBody n).bind _)
      exact (consumes_typeExpr n .line).discard.bind _

theorem consumes_typeParams (n : Nat) : Consumes (typeParams n) := by
  cases n with
  | zero => exact consumes_failure
  | succ n => exact (consumes_group _ _).bind _

theorem consumes_typeBehind (n : Nat) : Consumes (typeBehind n) := by
  cases n with
  | zero => exact consumes_failure
  | succ n =>
      have hr := consumes_typeRight n
      refine .behind _ fun t => .behind _ fun u => .behind _ fun v => .ite (.orElse ?_ ?_) hr
      · exact .behind _ fun _ => hr
      · exact .behind _ fun _ => hr

theorem follows_typeBody (n : Nat) : Follows Any Eq (typeBody n) (typeBody n) := by
  cases n with
  | zero => exact .failure
  | succ n =>
      have hE (t : Token) (_ : Any t) : t = t := rfl
      have ht := (follows_typeExpr n).imp fun z z' (h : z = z') => (.inl h : Behind z z')
      refine .peek (consumes_typeBody (n + 1)) fun t _ => .ite ?_ (.ite ?_ ?_)
      · exact .bind hE (follows_structBody hE n).placed fun x => .pure _
      · exact .bind hE (follows_interfaceBody hE n).placed fun x => .pure _
      · exact .bind hE ht fun type => .pure _

theorem follows_typeRight (n : Nat) : Follows Any Eq (typeRight n) (typeRight n) := by
  cases n with
  | zero => exact .failure
  | succ n =>
      have hE (t : Token) (_ : Any t) : t = t := rfl
      have ht := (follows_typeExpr n).imp fun z z' (h : z = z') => (.inl h : Behind z z')
      have ha := (Follows.accept (C := Any) "=").imp fun z z' (h : z = z') => ⟨trivial, h⟩
      refine .bind hE ha fun same => .ite ?_ ?_
      · exact .bind hE ht.discard fun _ => .pure _
      · exact .bind hE (follows_typeBody n) fun body => .pure _

theorem follows_typeParams (n : Nat) : Follows Any Eq (typeParams n) (typeParams n) := by
  cases n with
  | zero => exact .failure
  | succ n => exact .bind (fun _ _ => rfl) (.group _ _) fun _ => .require _

/-- What is ahead of some brackets does not depend on what is behind them. -/
theorem lookAt_brackets {us : List Token} (ht : t.is "[") (hb : Balanced (t :: us)) (k : Nat)
    (vs vs' : List Token) : lookAt k (t :: us ++ vs) = lookAt k (t :: us ++ vs') := by
  rw [Balanced, nest_cons, Token.nest_of_opens (b := .square) ht, Option.bind_some] at hb
  obtain ⟨inner, c, more, rfl, _, hc, _⟩ := exists_closing hb
  have hl := lookAt_append (Token.isClosing_of_closes hc) k (t :: inner) (more ++ vs) (more ++ vs')
  simpa using hl

/-- How what stands behind the name of a type is read, where its first token is given. -/
theorem run_typeBehind (t : Token) (ts : List Token) :
    (typeBehind (n + 1)).run (t :: ts) = if t.is "[" then
      ((require (!(isFree (lookAt 1 (t :: ts)) && (lookAt 2 (t :: ts)).is "<-")) *> typeRight n) <|>
        (require (isFree (lookAt 1 (t :: ts))) *> typeParams n *> typeRight n)).run (t :: ts)
    else (typeRight n).run (t :: ts) := by
  rw [typeBehind, run_peek_cons]
  show (if t.is "[" then _ else _ : Parser _).run _ = _
  split <;> rfl

/-- Where brackets are type parameters, they are so in front of anything that starts with the same
token. -/
theorem typeBehind_params {us vs vs' left : List Token} {b b' : Option TypeBody} {x : Unit}
    (ht : t.is "[") (hno : (require (!(isFree (lookAt 1 (t :: us ++ w :: vs)) &&
      (lookAt 2 (t :: us ++ w :: vs)).is "<-")) *> typeRight n).run (t :: us ++ w :: vs) = none)
    (hfree : isFree (lookAt 1 (t :: us ++ w :: vs)))
    (hp : (typeParams n).run (t :: us ++ w :: vs) = some (x, w :: vs))
    (hr : (typeRight n).run (w :: vs) = some (b, rest)) (hn : Covered n (t :: us ++ w :: vs))
    (hr' : (typeRight n).run (w :: vs') = some (b', left)) :
    (typeBehind (n + 1)).run (t :: us ++ w :: vs') = some (b', left) := by
  have hany : ∀ x ∈ t :: us, Any x := fun _ _ => trivial
  have hb : Balanced (t :: us) := by
    obtain ⟨_, he, _, hb⟩ := (typeParams n).takes hp
    rwa [List.append_cancel_right he]
  have hl (k : Nat) : lookAt k (t :: (us ++ w :: vs')) = lookAt k (t :: (us ++ w :: vs)) :=
    lookAt_brackets ht hb k _ _
  rw [List.cons_append, run_typeBehind, if_pos ht, hl, hl]
  refine orElse_eq_some.2 (.inr ⟨not_array hno ht hp hr hn vs', ?_⟩)
  refine seqRight_eq_some.2 ⟨x, w :: vs', seqRight_eq_some.2 ⟨(), t :: us ++ w :: vs', ?_, ?_⟩, hr'⟩
  · exact require_eq_some.2 ⟨hfree, rfl⟩
  · exact follows_typeParams n hany rfl hp vs'

theorem typeBehind_ahead {seg : List Token} {b : Option TypeBody}
    (h : (typeBehind (n + 1)).run (seg ++ z :: rest) = some (b, z :: rest))
    (hn : Covered n (seg ++ z :: rest)) (rest' : List Token) :
    (typeBehind (n + 1)).run (seg ++ z :: rest') = some (b, z :: rest') := by
  have hany (seg : List Token) : ∀ x ∈ seg, Any x := fun _ _ => trivial
  obtain ⟨_, he, hsolid, hb⟩ := (typeBehind (n + 1)).takes h
  obtain rfl := List.append_cancel_right he
  rcases seg with _ | ⟨t, us⟩
  · exact absurd (consumes_typeBehind (n + 1) h) (Nat.lt_irrefl _)
  rw [List.cons_append, run_typeBehind] at h
  split at h
  next ht =>
    rcases orElse_eq_some.1 h with h | ⟨hno, h⟩
    · have hl (k : Nat) : lookAt k (t :: (us ++ z :: rest')) = lookAt k (t :: (us ++ z :: rest)) :=
        lookAt_brackets ht hb k _ _
      rw [List.cons_append, run_typeBehind, if_pos ht, hl, hl]
      obtain ⟨_, _, hq, h⟩ := seqRight_eq_some.1 h
      obtain ⟨harray, rfl⟩ := require_eq_some.1 hq
      refine orElse_eq_some.2 (.inl (seqRight_eq_some.2 ⟨(), _, require_eq_some.2 ⟨harray, rfl⟩, ?_⟩))
      exact follows_typeRight n (hany (t :: us)) rfl h rest'
    · obtain ⟨_, _, hparams, hr⟩ := seqRight_eq_some.1 h
      obtain ⟨_, _, hq, hp⟩ := seqRight_eq_some.1 hparams
      obtain ⟨hfree, rfl⟩ := require_eq_some.1 hq
      obtain ⟨body, rfl, _⟩ := (typeRight n).takes hr
      obtain ⟨w, body, rfl⟩ := List.exists_cons_of_ne_nil ((consumes_typeRight n).ne_nil hr)
      obtain ⟨us₁, hus⟩ := (consumes_typeParams n).exists_cons hp
      obtain rfl : us = us₁ ++ w :: body :=
        (List.append_left_inj (z :: rest)).1 (by rw [hus]; simp)
      have hr' := follows_typeRight n (hany (w :: body)) rfl hr rest'
      simp only [List.cons_append, List.append_assoc] at hno hfree hp hn hr hr' ⊢
      exact typeBehind_params ht hno hfree hp hr hn hr'
  next ht =>
    rw [List.cons_append, run_typeBehind, if_neg ht]
    exact follows_typeRight n (hany (t :: us)) rfl h rest'

/-- A definition from its name and what stands behind it. -/
def entryOf (extent : Extent) (name : String) : Option TypeBody → TypeEntry
  | some body => .definition ⟨extent, name, body⟩
  | none => .synonym extent

theorem typeEntry_eq_some {e : TypeEntry} : (typeEntry (n + 1)).run ts = some (e, rest) ↔
    ∃ t us used b, ts = t :: us ∧ t.kind = .name ∧ (typeBehind n).run us = some (b, rest) ∧
      ts = used ++ rest ∧ e = entryOf (extentOf used) t.text b := by
  rw [typeEntry]
  constructor
  · intro h
    obtain ⟨⟨_, _, b⟩, _, hp, hend⟩ := bind_eq_some.1 h
    obtain ⟨used, hu, hinner, rfl⟩ := placed_eq_some.1 hp
    obtain ⟨t, _, hn, hbody⟩ := bind_eq_some.1 hinner
    obtain ⟨rfl, ht⟩ := name_eq_some.1 hn
    obtain ⟨_, _, hb, hpure⟩ := bind_eq_some.1 hbody
    obtain ⟨he, rfl⟩ := pure_eq_some.1 hpure
    cases he
    obtain ⟨rfl, rfl⟩ := pure_eq_some.1 hend
    refine ⟨t, _, used, _, rfl, ht, hb, hu, ?_⟩
    cases b <;> rfl
  · rintro ⟨t, us, used, b, rfl, ht, hb, hu, rfl⟩
    refine bind_eq_some.2 ⟨(extentOf used, t.text, b), rest, ?_, ?_⟩
    · refine placed_eq_some.2 ⟨used, hu, ?_, rfl⟩
      refine bind_eq_some.2 ⟨t, us, name_eq_some.2 ⟨rfl, ht⟩, ?_⟩
      exact bind_eq_some.2 ⟨b, rest, hb, rfl⟩
    · cases b <;> rfl

theorem typeEntry_ahead {seg : List Token} {e : TypeEntry}
    (h : (typeEntry (n + 2)).run (seg ++ z :: rest) = some (e, z :: rest))
    (hn : Covered n (seg ++ z :: rest)) (rest' : List Token) :
    (typeEntry (n + 2)).run (seg ++ z :: rest') = some (e, z :: rest') := by
  obtain ⟨y, us, used, b, he, ht, hb, hu, rfl⟩ := typeEntry_eq_some.1 h
  obtain rfl := List.append_cancel_right hu
  rcases seg with _ | ⟨t, seg⟩
  · exact absurd (consumes_typeEntry (n + 2) h) (Nat.lt_irrefl _)
  obtain ⟨rfl, rfl⟩ := List.cons.inj he
  have hsolid : ∀ x ∈ [t], x.isSolid := by simp [Token.isSolid, ht]
  have hcov : Covered n (seg ++ z :: rest) := Covered.append (l := [t]) hn hsolid
  exact typeEntry_eq_some.2 ⟨t, _, t :: seg, b, rfl, ht, typeBehind_ahead hb hcov rest', rfl, rfl⟩

end GoOutline.Syntax.Grammar
