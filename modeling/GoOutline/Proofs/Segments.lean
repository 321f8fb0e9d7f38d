import Mathlib.Data.List.Basic
import GoOutline.Proofs.Progress

/-!
Which tokens the parts of a tree come from. A rule takes a run of tokens from the front; what it
reads out of them again comes from runs of tokens within, one behind the other.
-/

namespace GoOutline.Syntax

open Syntax.Parser

variable {α β : Type} {ts rest used mid : List Token} {p : Parser α}

theorem stop_extentOf {used : List Token} (h : used ≠ []) :
    (extentOf used).span.stop = (used.getLast h).extent.span.stop := by
  cases used with
  | nil => exact absurd rfl h
  | cons t ts => rfl

theorem stop_extentOf_append (pre : List Token) {seg : List Token} (h : seg ≠ []) :
    (extentOf (pre ++ seg)).span.stop = (extentOf seg).span.stop := by
  rw [stop_extentOf h, stop_extentOf (by simp [h]), List.getLast_append_of_ne_nil _ h]

/-- An extent of tokens starts with one of them and stops with one of them. -/
theorem exists_extentOf (h : used ≠ []) :
    ∃ a ∈ used, ∃ b ∈ used, (extentOf used).span = ⟨a.extent.span.start, b.extent.span.stop⟩ := by
  cases used with
  | nil => exact absurd rfl h
  | cons t ts => exact ⟨t, List.mem_cons_self, _, List.getLast_mem (List.cons_ne_nil t ts), rfl⟩

/-- An extent runs from the first of some tokens to the last. -/
def Covers (used : List Token) (e : Extent) : Prop := used ≠ [] ∧ e = extentOf used

/-- Tokens between two delimiters. -/
def Enclosed (opening closing : String) (d : Delimiters) (used mid : List Token) : Prop :=
  ∃ o c, used = o :: mid ++ [c] ∧ o.is opening ∧ c.is closing ∧
    d = ⟨o.extent.span, c.extent.span⟩

/-- Members that come from tokens of their own, in their order, with other tokens around them. -/
inductive Strewn (P : List Token → α → Prop) : List Token → List α → Prop
  | nil (gap : List Token) : Strewn P gap []
  | cons (gap : List Token) {seg rest : List Token} {a : α} {as : List α} :
      P seg a → Strewn P rest as → Strewn P (gap ++ seg ++ rest) (a :: as)

namespace Strewn

variable {P : List Token → α → Prop} {Q : List Token → β → Prop} {as as' : List α}

theorem gap_append (gap : List Token) (h : Strewn P used as) : Strewn P (gap ++ used) as := by
  cases h with
  | nil => exact .nil _
  | cons more ha h =>
      have hc := Strewn.cons (gap ++ more) ha h
      simpa only [List.append_assoc] using hc

theorem append (h : Strewn P used as) (h' : Strewn P rest as') :
    Strewn P (used ++ rest) (as ++ as') := by
  induction h with
  | nil gap => exact h'.gap_append gap
  | cons gap ha _ ih =>
      have hc := Strewn.cons gap ha ih
      simpa only [List.append_assoc, List.cons_append] using hc

theorem single {a : α} (h : P used a) : Strewn P used [a] := by
  have hc := Strewn.cons [] h (.nil [])
  simpa using hc

/-- The members at the end come from tokens at the end. -/
theorem of_append (h : Strewn P used (as ++ as')) :
    ∃ front back, used = front ++ back ∧ Strewn P front as ∧ Strewn P back as' := by
  induction as generalizing used with
  | nil => exact ⟨[], used, rfl, .nil [], h⟩
  | cons a as ih =>
      cases h with
      | cons gap ha h =>
          obtain ⟨front, back, rfl, hf, hb⟩ := ih h
          exact ⟨gap ++ _ ++ front, back, by simp, .cons gap ha hf, hb⟩

theorem of_map {f : β → α} {bs : List β} (h : Strewn P used (bs.map f)) :
    Strewn (fun seg b => P seg (f b)) used bs := by
  induction bs generalizing used with
  | nil => exact .nil used
  | cons b bs ih =>
      cases h with
      | cons gap hb h => exact .cons gap hb (ih h)

theorem map {f : α → β} (h : Strewn P used as) (hf : ∀ seg a, P seg a → Q seg (f a)) :
    Strewn Q used (as.map f) := by
  induction h with
  | nil gap => exact .nil gap
  | cons gap ha _ ih => exact .cons gap (hf _ _ ha) ih

theorem forall₂ {R : α → β → Prop} {bs : List β} (h : Strewn P used as)
    (hr : List.Forall₂ R as bs) (hq : ∀ seg a b, P seg a → R a b → Q seg b) :
    Strewn Q used bs := by
  induction h generalizing bs with
  | nil gap =>
      cases hr
      exact .nil gap
  | cons gap ha _ ih =>
      cases hr with
      | cons hab hr => exact .cons gap (hq _ _ _ ha hab) (ih hr)

/-- What holds of each member may depend on where among the tokens its own ones are. -/
theorem imp {P' : List Token → α → Prop} (h : Strewn P used as)
    (hp : ∀ pre seg post a, used = pre ++ seg ++ post → P seg a → P' seg a) :
    Strewn P' used as := by
  induction h with
  | nil gap => exact .nil gap
  | @cons gap seg rest a as ha _ ih =>
      refine .cons gap (hp gap seg rest a rfl ha) (ih fun pre seg' post b hb => ?_)
      exact hp (gap ++ seg ++ pre) seg' post b (by simp [hb])

theorem exists_of_mem {a : α} (h : Strewn P used as) (ha : a ∈ as) :
    ∃ pre seg post, used = pre ++ seg ++ post ∧ P seg a := by
  induction h with
  | nil => cases ha
  | @cons gap seg rest b as hb _ ih =>
      rcases List.mem_cons.1 ha with rfl | ha
      · exact ⟨gap, seg, rest, rfl, hb⟩
      · obtain ⟨pre, seg', post, rfl, hs⟩ := ih ha
        exact ⟨gap ++ seg ++ pre, seg', post, by simp, hs⟩

theorem flatten {ass : List (List α)} (h : Strewn (Strewn P) used ass) :
    Strewn P used ass.flatten := by
  induction h with
  | nil gap => exact .nil gap
  | cons gap ha _ ih => exact (ha.gap_append gap).append ih

end Strewn

/-- Items with a comma between any two of them, and perhaps one behind the last. -/
inductive Listed (p : Parser α) : List Token → List α → List Token → Prop
  | nil (ts : List Token) : Listed p ts [] ts
  | last {ts rest : List Token} {a : α} : p.run ts = some (a, rest) → Listed p ts [a] rest
  | cons {ts mid rest : List Token} {a : α} {c : Token} {as : List α} :
      p.run ts = some (a, c :: mid) → c.is "," → Listed p mid as rest → Listed p ts (a :: as) rest

theorem listed_commaList {closing : String} {n : Nat} {as : List α}
    (h : (commaList closing p n).run ts = some (as, rest)) : Listed p ts as rest := by
  induction n generalizing ts as with
  | zero => exact (failure_eq_some h).elim
  | succ n ih =>
      simp only [commaList, bind_eq_some, peek_eq_some] at h
      obtain ⟨t, _, ⟨rfl, rfl⟩, h⟩ := h
      split at h
      next =>
        obtain ⟨rfl, rfl⟩ := pure_eq_some.1 h
        exact .nil _
      next =>
        simp only [bind_eq_some, accept_eq_some] at h
        obtain ⟨a, mid, ha, b, mid', h, hb⟩ := h
        rcases h with ⟨rfl, c, rfl, hc, _⟩ | ⟨rfl, rfl, _⟩
        · simp only [if_true, bind_eq_some, pure_eq_some] at hb
          obtain ⟨as', _, has, rfl, rfl⟩ := hb
          exact .cons ha hc (ih has)
        · simp only [Bool.false_eq_true, if_false, bind_eq_some, peek_eq_some, require_eq_some,
            pure_eq_some] at hb
          obtain ⟨_, _, ⟨rfl, rfl⟩, _, _, ⟨_, rfl⟩, rfl, rfl⟩ := hb
          exact .last ha

theorem Listed.eq_of_nil (h : Listed p ts [] rest) : ts = rest := by
  cases h
  rfl

/-- Behind the last item stands nothing but a comma. -/
theorem Listed.last_item {as : List α} {a : α} (h : Listed p ts as rest)
    (ha : as.getLast? = some a) :
    ∃ pre seg tail, ts = pre ++ seg ++ tail ++ rest ∧
      p.run (seg ++ (tail ++ rest)) = some (a, tail ++ rest) ∧
      (tail = [] ∨ ∃ c, tail = [c] ∧ c.is ",") := by
  induction h with
  | nil => cases ha
  | @last ts rest b hb =>
      obtain rfl : b = a := by simpa using ha
      obtain ⟨seg, rfl, _⟩ := p.takes hb
      exact ⟨[], seg, [], by simp, by simpa using hb, .inl rfl⟩
  | @cons ts mid rest b c as hb hc h ih =>
      obtain ⟨seg, rfl, _⟩ := p.takes hb
      cases as with
      | nil =>
          obtain rfl : b = a := by simpa using ha
          cases h
          exact ⟨[], seg, [c], by simp, by simpa using hb, .inr ⟨c, rfl, hc⟩⟩
      | cons b' bs =>
          obtain ⟨pre, seg', tail, rfl, hr, ht⟩ := ih (by simpa using ha)
          exact ⟨seg ++ c :: pre, seg', tail, by simp, hr, ht⟩

theorem strewn_memberList {P : List Token → α → Prop} {closing : String} {n : Nat}
    {as : List (Sibling α)}
    (hp : ∀ ⦃ts a rest⦄, p.run ts = some (a, rest) → ∃ used, ts = used ++ rest ∧ P used a)
    (h : (memberList closing p n).run ts = some (as, rest)) :
    ∃ used, ts = used ++ rest ∧ Strewn P used (members as) := by
  induction n generalizing ts as with
  | zero => exact (failure_eq_some h).elim
  | succ n ih =>
      simp only [memberList, bind_eq_some, peek_eq_some] at h
      obtain ⟨t, _, ⟨rfl, rfl⟩, h⟩ := h
      split at h
      next =>
        obtain ⟨rfl, rfl⟩ := pure_eq_some.1 h
        exact ⟨[], rfl, by simpa using .nil []⟩
      next =>
        simp only [bind_eq_some, peek_eq_some] at h
        obtain ⟨a, mid, ha, u, _, ⟨rfl, rfl⟩, h⟩ := h
        obtain ⟨seg, rfl, hseg⟩ := hp ha
        split at h
        next =>
          simp only [bind_eq_some, pure_eq_some] at h
          obtain ⟨as', _, has, rfl, rfl⟩ := h
          obtain ⟨used, rfl, hu⟩ := ih has
          exact ⟨seg ++ used, by simp, by simpa using (Strewn.single hseg).append hu⟩
        next =>
          simp only [bind_eq_some, require_eq_some, discard_eq_some, advance_eq_some,
            pure_eq_some] at h
          obtain ⟨_, _, ⟨_, rfl⟩, _, _, ⟨c, rfl, _⟩, as', _, has, rfl, rfl⟩ := h
          obtain ⟨used, rfl, hu⟩ := ih has
          have hs := (Strewn.single hseg).append (hu.gap_append [c])
          exact ⟨seg ++ ([c] ++ used), by simp, by simpa using hs⟩

theorem enclosed_group {b : Bracket} {g : Grouped α} (h : (group b p).run ts = some (g, rest)) :
    ∃ mid, ts = g.opening :: mid ++ [g.closing] ++ rest ∧
      p.run (mid ++ g.closing :: rest) = some (g.content, g.closing :: rest) ∧
      Enclosed b.opening b.closing g.delimiters (g.opening :: mid ++ [g.closing]) mid := by
  obtain ⟨us, rfl, ho, hr, hc⟩ := group_eq_some.1 h
  obtain ⟨mid, rfl, _⟩ := p.takes hr
  exact ⟨mid, by simp, hr, g.opening, g.closing, rfl, ho, hc, rfl⟩

/-- What a placed rule reads comes from the tokens its extent covers. -/
theorem covers_placed (hp : Consumes p) {e : Extent} {a : α}
    (h : (placed p).run ts = some ((e, a), rest)) :
    ∃ used, ts = used ++ rest ∧ Covers used e ∧ p.run (used ++ rest) = some (a, rest) := by
  obtain ⟨used, rfl, hr, rfl⟩ := placed_eq_some.1 h
  exact ⟨used, rfl, ⟨hp.ne_nil hr, rfl⟩, hr⟩

end GoOutline.Syntax
