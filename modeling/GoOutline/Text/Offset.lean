/-!
Byte offsets into a text. A text is a list of characters, an offset counts the bytes of its UTF-8
form, and a cut at an offset inside a character falls behind that character.
-/

namespace GoOutline

/-- A half-open range of byte offsets. -/
structure Span where
  start : Nat
  stop : Nat
deriving DecidableEq, Repr, Inhabited

namespace Text

def byteLength : List Char → Nat
  | [] => 0
  | c :: s => c.utf8Size + byteLength s

def takeBytes : Nat → List Char → List Char
  | _, [] => []
  | 0, _ => []
  | n, c :: s => c :: takeBytes (n - c.utf8Size) s

def dropBytes : Nat → List Char → List Char
  | _, [] => []
  | 0, s => s
  | n, c :: s => dropBytes (n - c.utf8Size) s

/-- The part of a text that a span covers. -/
def slice (s : List Char) (span : Span) : List Char :=
  takeBytes (span.stop - span.start) (dropBytes span.start s)

/-- An offset at which a text can be cut: it lies inside no character. -/
def IsBoundary (s : List Char) (n : Nat) : Prop := ∃ p, p <+: s ∧ byteLength p = n

/-- The text behind the last line feed. -/
def lastLine (s : List Char) : List Char := (s.splitOn '\n').getLastD []

/-- The number of line feeds, and the bytes behind the last one. -/
def position (s : List Char) (offset : Nat) : Nat × Nat :=
  let head := takeBytes offset s
  (head.count '\n', byteLength (lastLine head))

@[simp] theorem byteLength_append (s t : List Char) :
    byteLength (s ++ t) = byteLength s + byteLength t := by
  induction s with
  | nil => simp [byteLength]
  | cons c s ih => simp [byteLength, ih, Nat.add_assoc]

@[simp] theorem takeBytes_zero (s : List Char) : takeBytes 0 s = [] := by
  cases s <;> rfl

@[simp] theorem dropBytes_zero (s : List Char) : dropBytes 0 s = s := by
  cases s <;> rfl

theorem takeBytes_append_dropBytes (n : Nat) (s : List Char) :
    takeBytes n s ++ dropBytes n s = s := by
  fun_induction takeBytes n s with
  | case1 => simp [dropBytes]
  | case2 => simp
  | case3 n c s _ ih => simp [dropBytes, ih]

theorem takeBytes_byteLength (s t : List Char) : takeBytes (byteLength s) (s ++ t) = s := by
  induction s with
  | nil => simp [byteLength]
  | cons c s ih =>
    have hc := c.utf8Size_pos
    have hne : byteLength (c :: s) ≠ 0 := by simp [byteLength]; omega
    rw [List.cons_append, takeBytes]
    · simp [byteLength, ih]
    · simpa using hne

theorem dropBytes_byteLength (s t : List Char) : dropBytes (byteLength s) (s ++ t) = t := by
  have h := takeBytes_append_dropBytes (byteLength s) (s ++ t)
  rw [takeBytes_byteLength] at h
  exact List.append_cancel_left h

/-- A span between two boundaries covers the text between them. -/
theorem slice_append (a b c : List Char) :
    slice (a ++ b ++ c) ⟨byteLength a, byteLength (a ++ b)⟩ = b := by
  simp [slice, List.append_assoc, dropBytes_byteLength, takeBytes_byteLength]

end Text

end GoOutline
