import Mathlib.Data.List.Basic
import GoOutline.Syntax.Lexer

/-!
Pieces of a text. A scan cuts a text into blanks, comments and tokens and passes over it once, so
each token holds what the text holds at its place, and the tokens stand one behind the other.
-/

namespace GoOutline

namespace Text

/-- A text holds a piece at a place. -/
def Holds (text : List Char) (span : Span) (piece : List Char) : Prop :=
  ∃ a c, text = a ++ piece ++ c ∧ span = ⟨byteLength a, byteLength (a ++ piece)⟩

theorem isBoundary_byteLength (a c : List Char) : IsBoundary (a ++ c) (byteLength a) :=
  ⟨a, List.prefix_append a c, rfl⟩

theorem IsBoundary.le {text : List Char} {n : Nat} (h : IsBoundary text n) :
    n ≤ byteLength text := by
  obtain ⟨a, ⟨c, rfl⟩, rfl⟩ := h
  simp only [byteLength_append]
  omega

end Text

namespace Syntax.Lexer

open Text

/-- What a scan takes in one step. -/
structure Piece where
  kind : PieceKind
  text : List Char
deriving DecidableEq, Repr

def pieces (s : List Char) : List Piece :=
  match s with
  | [] => []
  | c :: r =>
    ⟨(piece (c :: r)).1, c :: r.take ((piece (c :: r)).2 - 1)⟩ ::
      pieces (r.drop ((piece (c :: r)).2 - 1))
termination_by s.length
decreasing_by simp only [List.length_drop, List.length_cons]; omega

/-- The text that some pieces come from. -/
def flat (ps : List Piece) : List Char := ps.flatMap Piece.text

@[simp] theorem flat_nil : flat [] = [] := rfl

@[simp] theorem flat_cons (p : Piece) (ps : List Piece) : flat (p :: ps) = p.text ++ flat ps := rfl

@[simp] theorem flat_append (ps qs : List Piece) : flat (ps ++ qs) = flat ps ++ flat qs :=
  List.flatMap_append

theorem flat_pieces (s : List Char) : flat (pieces s) = s := by
  fun_induction pieces s with
  | case1 => rfl
  | case2 c r ih => rw [flat_cons, ih, List.cons_append, List.take_append_drop]

/-- What a scan knows behind a piece. -/
def State.behind (st : State) (p : Piece) : State :=
  match p.kind with
  | .space => st.pass p.text (st.newline || p.text.head? == some '\n') st.comments
  | .comment =>
    st.pass p.text st.newline (st.comments ++ [⟨String.ofList p.text, st.extent p.text⟩])
  | .token _ => st.pass p.text false []

/-- The token that a piece gives. -/
def State.token? (st : State) (p : Piece) : Option Token :=
  match p.kind with
  | .token kind => some ⟨kind, String.ofList p.text, st.extent p.text, st.newline, st.comments⟩
  | _ => none

/-- The token behind the last piece. -/
def State.stop (st : State) : Token := ⟨.stop, "", st.extent [], st.newline, st.comments⟩

def emit (st : State) : List Piece → List Token
  | [] => []
  | p :: ps => (st.token? p).toList ++ emit (st.behind p) ps

theorem scan_eq (st : State) (s : List Char) :
    scan st s = emit st (pieces s) ++ [((pieces s).foldl State.behind st).stop] := by
  fun_induction scan st s with
  | case1 => simp [pieces, emit, State.stop]
  | case2 st c r n text rest hp ih =>
      rw [pieces, hp, ih]
      simp [emit, State.token?, State.behind, text, rest]
  | case3 st c r n text rest comment hp ih =>
      rw [pieces, hp, ih]
      simp [emit, State.token?, State.behind, text, rest, comment]
  | case4 st c r n text rest kind hp ih =>
      rw [pieces, hp, ih]
      simp [emit, State.token?, State.behind, text, rest]

@[simp] theorem offset_behind (st : State) (p : Piece) :
    (st.behind p).offset = st.offset + byteLength p.text := by
  unfold State.behind
  cases p.kind <;> rfl

@[simp] theorem offset_foldl_behind (st : State) (ps : List Piece) :
    (ps.foldl State.behind st).offset = st.offset + byteLength (flat ps) := by
  induction ps generalizing st with
  | nil => rfl
  | cons p ps ih => simp only [List.foldl_cons, ih, offset_behind, flat_cons, byteLength_append,
      Nat.add_assoc]

theorem mem_token? {st : State} {p : Piece} {t : Token} (h : t ∈ (st.token? p).toList) :
    t.text.toList = p.text ∧ t.extent = st.extent p.text := by
  unfold State.token? at h
  cases hk : p.kind with
  | space | comment => simp [hk] at h
  | token kind =>
      obtain rfl := List.mem_singleton.1 (by simpa only [hk, Option.toList_some] using h)
      exact ⟨String.toList_ofList, rfl⟩

end Syntax.Lexer

namespace Syntax

open Text

/-- One token stands behind another. -/
def Token.Before (t u : Token) : Prop := t.extent.span.stop ≤ u.extent.span.start

/-- Tokens of a text, each at its place, one behind the other. -/
structure Laid (text : List Char) (ts : List Token) : Prop where
  holds : ∀ t ∈ ts, Holds text t.extent.span t.text.toList
  ordered : ts.Pairwise Token.Before

namespace Lexer

theorem holds_extent (st : State) (pre piece post : List Char) (h : st.offset = byteLength pre) :
    Holds (pre ++ piece ++ post) (st.extent piece).span piece :=
  ⟨pre, post, rfl, by simp only [State.extent, h, byteLength_append]⟩

theorem holds_emit (st : State) (ps : List Piece) (pre post : List Char)
    (h : st.offset = byteLength pre) :
    ∀ t ∈ emit st ps, Holds (pre ++ flat ps ++ post) t.extent.span t.text.toList := by
  induction ps generalizing st pre with
  | nil => simp [emit]
  | cons p ps ih =>
      intro t ht
      rcases List.mem_append.1 ht with ht | ht
      · obtain ⟨htext, hext⟩ := mem_token? ht
        have hp := holds_extent st pre p.text (flat ps ++ post) h
        rw [htext, hext]
        simpa only [flat_cons, List.append_assoc] using hp
      · have hb : (st.behind p).offset = byteLength (pre ++ p.text) := by
          simp only [offset_behind, h, byteLength_append]
        have hq := ih (st.behind p) (pre ++ p.text) hb t ht
        simpa only [flat_cons, List.append_assoc] using hq

theorem offset_le_emit (st : State) (ps : List Piece) :
    ∀ t ∈ emit st ps, st.offset ≤ t.extent.span.start ∧
      t.extent.span.stop ≤ st.offset + byteLength (flat ps) := by
  induction ps generalizing st with
  | nil => simp [emit]
  | cons p ps ih =>
      intro t ht
      rw [flat_cons, byteLength_append]
      rcases List.mem_append.1 ht with ht | ht
      · rw [(mem_token? ht).2]
        simp only [State.extent]
        omega
      · have hq := ih (st.behind p) t ht
        rw [offset_behind] at hq
        omega

theorem ordered_emit (st : State) (ps : List Piece) : (emit st ps).Pairwise Token.Before := by
  induction ps generalizing st with
  | nil => exact .nil
  | cons p ps ih =>
      refine List.pairwise_append.2 ⟨?_, ih (st.behind p), fun t ht u hu => ?_⟩
      · cases st.token? p <;> simp
      · have hu' := (offset_le_emit (st.behind p) ps u hu).1
        rw [offset_behind] at hu'
        rw [Token.Before, (mem_token? ht).2]
        exact hu'

theorem laid_scan (st : State) (pre s : List Char) (h : st.offset = byteLength pre) :
    Laid (pre ++ s) (scan st s) := by
  have hs : pre ++ s = pre ++ flat (pieces s) ++ [] := by rw [flat_pieces, List.append_nil]
  constructor
  · intro t ht
    rw [scan_eq] at ht
    rcases List.mem_append.1 ht with ht | ht
    · rw [hs]
      exact holds_emit st (pieces s) pre [] h t ht
    · rw [List.mem_singleton.1 ht]
      refine ⟨pre ++ s, [], by simp [State.stop], ?_⟩
      simp [State.stop, State.extent, flat_pieces, h, byteLength]
  · rw [scan_eq]
    refine List.pairwise_append.2 ⟨ordered_emit st (pieces s), by simp, fun t ht u hu => ?_⟩
    have ht' := (offset_le_emit st (pieces s) t ht).2
    rw [List.mem_singleton.1 hu]
    simpa only [Token.Before, State.stop, State.extent, offset_foldl_behind] using ht'

theorem laid_tokens (text : List Char) : Laid text (tokens text) := by
  unfold tokens
  split
  · exact laid_scan _ ['\ufeff'] _ rfl
  · exact laid_scan _ [] _ rfl

end Lexer

end Syntax

end GoOutline
