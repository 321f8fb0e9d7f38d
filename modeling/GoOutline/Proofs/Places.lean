import GoOutline.Proofs.Pieces
import GoOutline.Proofs.Segments

/-!
The places of tokens in their text. What comes from a run of tokens can be cut out of the text, and
it stands inside, before or behind other things just as their tokens do.
-/

namespace GoOutline

open Text Syntax

namespace Span

/-- A span that can be cut out of a text: it lies in the text and starts and stops inside no
character. -/
structure Fits (text : List Char) (s : Span) : Prop where
  ordered : s.start ≤ s.stop
  inside : s.stop ≤ byteLength text
  start : IsBoundary text s.start
  stop : IsBoundary text s.stop

def Within (s outer : Span) : Prop := outer.start ≤ s.start ∧ s.stop ≤ outer.stop

def Before (s t : Span) : Prop := s.stop ≤ t.start

def Apart (s t : Span) : Prop := s.Before t ∨ t.Before s

/-- The characters right before and right behind a span. -/
def Between (text : List Char) (opening closing : Char) (s : Span) : Prop :=
  ∃ a b c, text = a ++ opening :: b ++ closing :: c ∧
    s = ⟨byteLength (a ++ [opening]), byteLength (a ++ opening :: b)⟩

theorem Within.trans {s t u : Span} (h : s.Within t) (h' : t.Within u) : s.Within u :=
  ⟨Nat.le_trans h'.1 h.1, Nat.le_trans h.2 h'.2⟩

theorem Apart.symm {s t : Span} (h : s.Apart t) : t.Apart s := Or.symm h

end Span

namespace Text

variable {text p q : List Char}

theorem Holds.fits {s : Span} (h : Holds text s p) : s.Fits text := by
  obtain ⟨a, c, rfl, rfl⟩ := h
  refine ⟨by simp, by simp, ?_, isBoundary_byteLength (a ++ p) c⟩
  rw [List.append_assoc]
  exact isBoundary_byteLength a (p ++ c)

/-- A beginning of a text that is not longer than another one is a beginning of that one. -/
theorem prefix_of_byteLength_le {a b : List Char} (ha : a <+: text) (hb : b <+: text)
    (h : byteLength a ≤ byteLength b) : a <+: b := by
  rcases List.prefix_or_prefix_of_prefix ha hb with hab | ⟨c, rfl⟩
  · exact hab
  · cases c with
    | nil => simp
    | cons x c =>
        have := x.utf8Size_pos
        simp only [byteLength_append, byteLength] at h
        omega

/-- What stands at two places, one behind the other, has the rest of the text around it. -/
theorem Holds.split {s t : Span} (hs : Holds text s p) (ht : Holds text t q) (h : s.Before t) :
    ∃ a b c, text = a ++ p ++ b ++ q ++ c ∧ s.stop = byteLength (a ++ p) ∧
      t.start = byteLength (a ++ p ++ b) := by
  obtain ⟨a, c, rfl, rfl⟩ := hs
  obtain ⟨d, e, hd, rfl⟩ := ht
  have hp : a ++ p <+: d := by
    refine prefix_of_byteLength_le (List.prefix_append (a ++ p) c) ?_ h
    rw [hd, List.append_assoc]
    exact List.prefix_append _ _
  obtain ⟨b, rfl⟩ := hp
  exact ⟨a, b, e, hd, rfl, rfl⟩

end Text

namespace Syntax

open Syntax.Parser

variable {α : Type} {text : List Char} {ts used mid : List Token}

namespace Laid

theorem sublist (h : Laid text ts) (hs : used.Sublist ts) : Laid text used :=
  ⟨fun t ht => h.holds t (hs.subset ht), h.ordered.sublist hs⟩

theorem left {rest : List Token} (h : Laid text (ts ++ rest)) : Laid text ts :=
  h.sublist (List.sublist_append_left ts rest)

theorem right {front : List Token} (h : Laid text (front ++ ts)) : Laid text ts :=
  h.sublist (List.sublist_append_right front ts)

theorem tail {t : Token} (h : Laid text (t :: ts)) : Laid text ts :=
  h.sublist (List.sublist_cons_self t ts)

theorem fits {t : Token} (h : Laid text ts) (ht : t ∈ ts) : t.extent.span.Fits text :=
  (h.holds t ht).fits

/-- Each token lies between the start of the first and the end of the last. -/
theorem within_extentOf {t : Token} (h : Laid text ts) (ht : t ∈ ts) :
    t.extent.span.Within (extentOf ts).span := by
  cases ts with
  | nil => cases ht
  | cons u us =>
      constructor
      · rcases List.mem_cons.1 ht with rfl | ht'
        · exact Nat.le_refl _
        · exact Nat.le_trans (h.fits List.mem_cons_self).ordered
            ((List.pairwise_cons.1 h.ordered).1 t ht')
      · rw [stop_extentOf (List.cons_ne_nil u us)]
        have hs := List.dropLast_concat_getLast (List.cons_ne_nil u us)
        have ho := h.ordered
        rw [← hs] at ht ho
        rcases List.mem_append.1 ht with ht' | ht'
        · exact Nat.le_trans ((List.pairwise_append.1 ho).2.2 t ht' _ List.mem_cons_self)
            (h.fits (List.getLast_mem _)).ordered
        · obtain rfl := List.mem_singleton.1 ht'
          exact Nat.le_refl _

/-- A run of tokens inside of another one. -/
theorem within_of_subset (h : Laid text ts) (hne : used ≠ []) (hs : used ⊆ ts) :
    (extentOf used).span.Within (extentOf ts).span := by
  obtain ⟨a, ha, b, hb, he⟩ := exists_extentOf hne
  rw [he]
  exact ⟨(h.within_extentOf (hs ha)).1, (h.within_extentOf (hs hb)).2⟩

theorem fits_extentOf (h : Laid text ts) (hne : ts ≠ []) : (extentOf ts).span.Fits text := by
  obtain ⟨a, ha, b, hb, he⟩ := exists_extentOf hne
  have hw := h.within_extentOf ha
  have hf := h.fits ha
  rw [he] at hw ⊢
  exact ⟨Nat.le_trans hf.ordered hw.2, (h.fits hb).inside, hf.start, (h.fits hb).stop⟩

theorem before {us us' : List Token} (h : Laid text (ts ++ used)) (hu : us ≠ []) (hu' : us' ≠ [])
    (hs : us ⊆ ts) (hs' : us' ⊆ used) : (extentOf us).span.Before (extentOf us').span := by
  obtain ⟨_, _, b, hb, he⟩ := exists_extentOf hu
  obtain ⟨a, ha, _, _, he'⟩ := exists_extentOf hu'
  rw [he, he']
  exact (List.pairwise_append.1 h.ordered).2.2 b (hs hb) a (hs' ha)

end Laid

/-- The text that a delimiter shows. -/
theorem Token.toList_of_is {t : Token} {s : String} (h : t.is s) : t.text.toList = s.toList := by
  simp only [Token.is, Bool.and_eq_true, beq_iff_eq] at h
  rw [h.2]

/-- Of two members, the tokens of the first stand before those of the second. -/
theorem Strewn.pairwise {P : List Token → α → Prop} {R : α → α → Prop} {as : List α}
    (h : Strewn P used as) (hl : Laid text used) (hne : ∀ seg a, P seg a → seg ≠ [])
    (hr : ∀ seg seg' a b, P seg a → P seg' b → (extentOf seg).span.Before (extentOf seg').span →
      R a b) : as.Pairwise R := by
  induction h with
  | nil => exact .nil
  | @cons gap seg rest a as ha h ih =>
      rw [List.append_assoc] at hl
      refine List.pairwise_cons.2 ⟨fun b hb => ?_, ih hl.right.right⟩
      obtain ⟨pre, seg', post, rfl, hb⟩ := h.exists_of_mem hb
      refine hr seg seg' a b ha hb ?_
      exact hl.right.before (hne seg a ha) (hne seg' b hb) (List.Subset.refl seg) (by simp)

namespace Enclosed

variable {opening closing : String} {d : Delimiters}

theorem laid (h : Enclosed opening closing d used mid) (hl : Laid text used) : Laid text mid := by
  obtain ⟨o, c, rfl, -⟩ := h
  exact (hl.left).tail

theorem ne_nil (h : Enclosed opening closing d used mid) : used ≠ [] := by
  obtain ⟨o, c, rfl, -⟩ := h
  simp

theorem ordered (h : Enclosed opening closing d used mid) (hl : Laid text used) :
    d.opening.Before d.closing := by
  obtain ⟨o, c, rfl, _, _, rfl⟩ := h
  exact (List.pairwise_append.1 hl.ordered).2.2 o List.mem_cons_self c List.mem_cons_self

theorem fits (h : Enclosed opening closing d used mid) (hl : Laid text used) :
    d.inner.Fits text := by
  have hb := h.ordered hl
  obtain ⟨o, c, rfl, _, _, rfl⟩ := h
  have ho : o.extent.span.Fits text := hl.fits (by simp)
  have hc : c.extent.span.Fits text := hl.fits (by simp)
  exact ⟨hb, Nat.le_trans hc.ordered hc.inside, ho.stop, hc.start⟩

/-- What stands between the delimiters lies in what is taken. -/
theorem within (h : Enclosed opening closing d used mid) (hl : Laid text used) :
    d.inner.Within (extentOf used).span := by
  obtain ⟨o, c, rfl, _, _, rfl⟩ := h
  have ho := hl.within_extentOf (t := o) (by simp)
  have hc := hl.within_extentOf (t := c) (by simp)
  have hfo : o.extent.span.Fits text := hl.fits (by simp)
  have hfc : c.extent.span.Fits text := hl.fits (by simp)
  exact ⟨Nat.le_trans ho.1 hfo.ordered, Nat.le_trans hfc.ordered hc.2⟩

theorem within_inner {seg : List Token} (h : Enclosed opening closing d used mid)
    (hl : Laid text used) (hne : seg ≠ []) (hs : seg ⊆ mid) :
    (extentOf seg).span.Within d.inner := by
  obtain ⟨o, c, rfl, _, _, rfl⟩ := h
  obtain ⟨a, ha, b, hb, he⟩ := exists_extentOf hne
  have hoa := (List.pairwise_cons.1 (List.pairwise_append.1 hl.ordered).1).1 a (hs ha)
  have hbc := (List.pairwise_append.1 hl.ordered).2.2 b (List.mem_cons_of_mem o (hs hb)) c
    List.mem_cons_self
  rw [he]
  exact ⟨hoa, hbc⟩

theorem between {a b : Char} (h : Enclosed opening closing d used mid) (hl : Laid text used)
    (ha : opening.toList = [a]) (hb : closing.toList = [b]) : d.inner.Between text a b := by
  have hord := h.ordered hl
  obtain ⟨o, c, rfl, ho, hc, rfl⟩ := h
  have hto : Holds text o.extent.span [a] := by
    rw [← ha, ← Token.toList_of_is ho]
    exact hl.holds o (by simp)
  have htc : Holds text c.extent.span [b] := by
    rw [← hb, ← Token.toList_of_is hc]
    exact hl.holds c (by simp)
  obtain ⟨x, y, z, htext, hstop, hstart⟩ := hto.split htc hord
  refine ⟨x, y, z, by simpa using htext, ?_⟩
  simp only [Delimiters.inner, hstop, hstart, List.append_assoc, List.singleton_append]

/-- A run of tokens between delimiters can be cut out of the text between them. -/
theorem fits_within {pre seg post : List Token}
    (h : Enclosed opening closing d used (pre ++ seg ++ post)) (hl : Laid text used)
    (hne : seg ≠ []) : (extentOf seg).span.Fits text ∧ (extentOf seg).span.Within d.inner := by
  refine ⟨?_, h.within_inner hl hne (by simp)⟩
  have hm := h.laid hl
  rw [List.append_assoc] at hm
  exact hm.right.left.fits_extentOf hne

end Enclosed

end Syntax

end GoOutline
