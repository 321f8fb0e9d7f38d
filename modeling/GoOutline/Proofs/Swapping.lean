import GoOutline.Proofs.Bodies
import GoOutline.Proofs.History
import GoOutline.Proofs.Seams

/-!
Splices of different bodies. Each of them rewrites its body alone, so that the two come to the same
text in either order.
-/

namespace GoOutline

open Text

/-- A brace is no blank. -/
theorem trimEnd_brace (s body : List Char) :
    trimEnd (s ++ ['\x7b'] ++ body) = s ++ ['\x7b'] ++ trimEnd body := by
  have hbrace : trimEnd (s ++ ['\x7b']) = s ++ ['\x7b'] := Syntax.Lexer.trimEnd_append_of_ne (by decide) s
  by_cases hb : trimEnd body = []
  · obtain ⟨w, hw, hblank⟩ := Syntax.Lexer.exists_trimEnd_append body
    rw [hb, List.nil_append] at hw
    rw [hb, List.append_nil, hw, Syntax.Lexer.trimEnd_append_blanks hblank, hbrace]
  · exact Syntax.Lexer.trimEnd_append_of_ne hb _

namespace Splice

variable {a b m b' c code code' indent : List Char}

/-- A body with some code behind what it holds. -/
def grown (indent code body : List Char) : List Char :=
  trimEnd body ++ '\n' :: indentLines indent code

theorem getLast?_grown (indent code body : List Char) : (grown indent code body).getLast? = some '\n' := by
  have hlines : ∃ w, '\n' :: indentLines indent code = w ++ ['\n'] := by
    rcases List.eq_nil_or_concat' (lines code) with h | ⟨init, line, h⟩
    · exact ⟨[], by simp [indentLines, h]⟩
    · exact ⟨_, by rw [indentLines, h, List.flatMap_append, List.flatMap_singleton, ← List.append_assoc,
        ← List.cons_append]⟩
  obtain ⟨w, hw⟩ := hlines
  rw [grown, hw, ← List.append_assoc]
  simp

/-- Where a span that a splice leaves alone stands in the new text. -/
def carry (s : Splice) (t : Span) : Span :=
  if t.stop ≤ s.span.start then t
  else
    let shift (n : Nat) := n + byteLength s.text - (s.span.stop - s.span.start)
    ⟨shift t.start, shift t.stop⟩

theorem appendToInner_eq (a b c code indent : List Char) :
    appendToInner (a ++ b ++ c) ⟨byteLength a, byteLength (a ++ b)⟩ code indent =
      ⟨⟨byteLength (a ++ trimEnd b), byteLength (a ++ b)⟩, '\n' :: indentLines indent code⟩ := by
  have htake : takeBytes (byteLength (a ++ b)) (a ++ b ++ c) = a ++ b := takeBytes_byteLength _ c
  have hstart : max (byteLength (trimEnd (a ++ b))) (byteLength a) = byteLength (a ++ trimEnd b) := by
    by_cases hb : trimEnd b = []
    · -- Nothing in front of the body is cut off with its blanks.
      obtain ⟨w, hw, hblank⟩ := Syntax.Lexer.exists_trimEnd_append b
      obtain ⟨v, hv, -⟩ := Syntax.Lexer.exists_trimEnd_append a
      have hle : byteLength (trimEnd a) ≤ byteLength a := by
        conv => rhs; rw [hv]
        simp
      rw [hb, List.nil_append] at hw
      rw [hb, List.append_nil, hw, Syntax.Lexer.trimEnd_append_blanks hblank]
      exact Nat.max_eq_right hle
    · rw [Syntax.Lexer.trimEnd_append_of_ne hb]
      exact Nat.max_eq_left (by simp)
  simp only [appendToInner, htake, hstart]

/-- Nothing but the body is written again. -/
theorem apply_appendToInner (a b c code indent : List Char) :
    (appendToInner (a ++ b ++ c) ⟨byteLength a, byteLength (a ++ b)⟩ code indent).apply
      (a ++ b ++ c) = a ++ grown indent code b ++ c := by
  obtain ⟨w, hw, -⟩ := Syntax.Lexer.exists_trimEnd_append b
  have htake : takeBytes (byteLength (a ++ trimEnd b)) (a ++ b ++ c) = a ++ trimEnd b := by
    have h := takeBytes_byteLength (a ++ trimEnd b) (w ++ c)
    rwa [List.append_assoc, ← List.append_assoc (trimEnd b), ← hw, ← List.append_assoc] at h
  have hdrop : dropBytes (byteLength (a ++ b)) (a ++ b ++ c) = c := dropBytes_byteLength _ c
  rw [appendToInner_eq, apply, htake, hdrop, grown]
  simp

theorem carry_behind (hm : m ≠ []) :
    (appendToInner (a ++ b ++ (m ++ b' ++ c)) ⟨byteLength a, byteLength (a ++ b)⟩ code indent).carry
      ⟨byteLength (a ++ b ++ m), byteLength (a ++ b ++ m ++ b')⟩ =
      ⟨byteLength (a ++ grown indent code b ++ m), byteLength (a ++ grown indent code b ++ m ++ b')⟩ := by
  obtain ⟨w, hw, -⟩ := Syntax.Lexer.exists_trimEnd_append b
  have hlen : byteLength b = byteLength (trimEnd b) + byteLength w := by
    conv => lhs; rw [hw]
    simp
  obtain ⟨x, r, rfl⟩ := List.exists_cons_of_ne_nil hm
  have hx := x.utf8Size_pos
  rw [appendToInner_eq, carry, if_neg (by simp [byteLength]; omega)]
  simp only [grown, byteLength_append, byteLength, hlen]
  congr 1 <;> omega

theorem carry_front :
    (appendToInner (a ++ b ++ m ++ b' ++ c) ⟨byteLength (a ++ b ++ m), byteLength (a ++ b ++ m ++ b')⟩
      code indent).carry ⟨byteLength a, byteLength (a ++ b)⟩ = ⟨byteLength a, byteLength (a ++ b)⟩ := by
  rw [appendToInner_eq, carry, if_pos (by simp)]

/-- Two bodies and the text around them. -/
theorem exists_around {text : List Char} {s t : Span} (hs : s.Fits text) (ht : t.Fits text)
    (h : s.stop < t.start) : ∃ a b m b' c, text = a ++ b ++ m ++ b' ++ c ∧ m ≠ [] ∧
      s = ⟨byteLength a, byteLength (a ++ b)⟩ ∧
      t = ⟨byteLength (a ++ b ++ m), byteLength (a ++ b ++ m ++ b')⟩ := by
  obtain ⟨a, ha, has⟩ := hs.start
  obtain ⟨p, hp, hps⟩ := hs.stop
  obtain ⟨q, hq, hqs⟩ := ht.start
  obtain ⟨r, hr, hrs⟩ := ht.stop
  obtain ⟨b, rfl⟩ := prefix_of_byteLength_le ha hp (by rw [has, hps]; exact hs.ordered)
  obtain ⟨m, rfl⟩ := prefix_of_byteLength_le hp hq (by rw [hps, hqs]; exact Nat.le_of_lt h)
  obtain ⟨b', rfl⟩ := prefix_of_byteLength_le hq hr (by rw [hqs, hrs]; exact ht.ordered)
  obtain ⟨c, rfl⟩ := hr
  refine ⟨a, b, m, b', c, rfl, ?_, by rw [has, hps], by rw [hqs, hrs]⟩
  rintro rfl
  rw [← hps, ← hqs, List.append_nil] at h
  exact Nat.lt_irrefl _ h

/-- The text with code in both of two bodies, whichever comes first. -/
theorem apply_swap {text : List Char} {s t : Span} (hs : s.Fits text) (ht : t.Fits text)
    (h : s.stop < t.start ∨ t.stop < s.start) (code code' indent : List Char) :
    let p := appendToInner text s code indent
    let q := appendToInner text t code' indent
    (appendToInner (p.apply text) (p.carry t) code' indent).apply (p.apply text) =
      (appendToInner (q.apply text) (q.carry s) code indent).apply (q.apply text) := by
  have hall {s t : Span} {code code' : List Char} (hs : s.Fits text) (ht : t.Fits text)
      (h : s.stop < t.start) :
      (appendToInner ((appendToInner text s code indent).apply text)
          ((appendToInner text s code indent).carry t) code' indent).apply
            ((appendToInner text s code indent).apply text) =
        (appendToInner ((appendToInner text t code' indent).apply text)
          ((appendToInner text t code' indent).carry s) code indent).apply
            ((appendToInner text t code' indent).apply text) := by
    obtain ⟨a, b, m, b', c, rfl, hm, rfl, rfl⟩ := exists_around hs ht h
    rw [carry_front, apply_appendToInner]
    have hbehind : a ++ b ++ m ++ b' ++ c = a ++ b ++ (m ++ b' ++ c) := by simp
    rw [hbehind, carry_behind hm, apply_appendToInner]
    have hfirst : a ++ grown indent code b ++ (m ++ b' ++ c) =
        a ++ grown indent code b ++ m ++ b' ++ c := by simp
    have hsecond : a ++ b ++ m ++ grown indent code' b' ++ c =
        a ++ b ++ (m ++ grown indent code' b' ++ c) := by simp
    rw [hfirst, hsecond, apply_appendToInner, apply_appendToInner]
    simp
  rcases h with h | h
  · exact hall hs ht h
  · exact (hall ht hs h).symm

end Splice

namespace Document

open Package

variable {d : Document} {e : Edit} {s : Span}

/-- The splice that writes the fragment of an edit into a body. -/
def bodySplice (d : Document) (s : Span) (e : Edit) : Splice :=
  Splice.appendToInner d.text s e.fragment d.settings.indent.toList

theorem apply_of_body? (h : e.body? d.outline = some s) (find : Finder) :
    d.apply find e = d.commit find ((d.bodySplice s e).apply d.text) := by
  simp only [apply, Edit.splice?_of_body? d.settings h]
  rfl

end Document

end GoOutline
