import GoOutline.Proofs.Origins

/-!
Types that are written by their names. Whether the name is found in the tree or cut out of the text
of the type, it is the one that the type is written by, but for blanks in the text.
-/

namespace GoOutline

open Text Syntax Docs

/-- No character that the text of a type is cut at. -/
def Uncut (s : List Char) : Prop := ∀ c ∈ s, c ≠ '*' ∧ c ≠ '[' ∧ c ≠ '.'

section Cutting

variable {a b u : List Char}

theorem Uncut.append (ha : Uncut a) (hb : Uncut b) : Uncut (a ++ b) := by
  intro c hc
  exact (List.mem_append.1 hc).elim (ha c) (hb c)

theorem uncut_of_word (h : ∀ c ∈ a, isIdentifierPart c) : Uncut a := by
  have hnone : ['*', '[', '.'].all (!isIdentifierPart ·) := by decide +kernel
  intro c hc
  refine ⟨?_, ?_, ?_⟩ <;> rintro rfl <;>
    exact absurd (h _ hc) (by simpa using List.all_eq_true.1 hnone _ (by simp))

theorem uncut_of_space (h : ∀ c ∈ a, Lexer.isSpace c) : Uncut a := by
  intro c hc
  refine ⟨?_, ?_, ?_⟩ <;> rintro rfl <;> exact absurd (h _ hc) (by decide)

theorem nameInText_append (ha : ∀ c ∈ a, c ≠ '*' ∧ c ≠ '[') (hu : ∀ c ∈ u.head?, c = '[') :
    GoType.nameInText (a ++ u) = (a.splitOn '.').getLastD [] := by
  have hstar : (a ++ u).dropWhile (· == '*') = a ++ u := by
    cases a with
    | nil =>
        cases u with
        | nil => rfl
        | cons c u => simp [hu c rfl]
    | cons c a => simp [(ha c List.mem_cons_self).1]
  have hbracket : (a ++ u).takeWhile (· != '[') = a := by
    rw [Lexer.takeWhile_append_of_head fun c hc => by simp [hu c hc]]
    exact List.takeWhile_eq_self_iff.2 fun c hc => by simpa using (ha c hc).2
  rw [GoType.nameInText, hstar, hbracket]

theorem nameInText_uncut (ha : Uncut a) (hu : ∀ c ∈ u.head?, c = '[') :
    GoType.nameInText (a ++ u) = a := by
  rw [nameInText_append (fun c hc => ⟨(ha c hc).1, (ha c hc).2.1⟩) hu,
    List.splitOn_eq_singleton fun h => (ha _ h).2.2 rfl]
  rfl

theorem nameInText_qualified (ha : Uncut a) (hb : Uncut b) (hu : ∀ c ∈ u.head?, c = '[') :
    GoType.nameInText (a ++ '.' :: b ++ u) = b := by
  have hall : ∀ c ∈ a ++ '.' :: b, c ≠ '*' ∧ c ≠ '[' := by
    intro c hc
    simp only [List.mem_append, List.mem_cons] at hc
    rcases hc with hc | rfl | hc
    · exact ⟨(ha c hc).1, (ha c hc).2.1⟩
    · decide
    · exact ⟨(hb c hc).1, (hb c hc).2.1⟩
  rw [nameInText_append hall hu,
    List.splitOn_append_cons_self_of_not_mem fun h => (ha _ h).2.2 rfl,
    List.splitOn_eq_singleton fun h => (hb _ h).2.2 rfl]
  rfl

end Cutting

namespace Text

variable {text : List Char}

theorem byteLength_pos {s : List Char} (h : s ≠ []) : 0 < byteLength s := by
  obtain ⟨c, s, rfl⟩ := List.exists_cons_of_ne_nil h
  exact Nat.add_pos_left c.utf8Size_pos _

theorem slice_trans {i j k : Nat} (hi : IsBoundary text i) (hj : IsBoundary text j)
    (hk : IsBoundary text k) (hij : i ≤ j) (hjk : j ≤ k) :
    Text.slice text ⟨i, k⟩ = Text.slice text ⟨i, j⟩ ++ Text.slice text ⟨j, k⟩ := by
  obtain ⟨a, ha, rfl⟩ := hi
  obtain ⟨b, hb, rfl⟩ := hj
  obtain ⟨c, hc, rfl⟩ := hk
  obtain ⟨b, rfl⟩ := prefix_of_byteLength_le ha hb hij
  obtain ⟨c, rfl⟩ := prefix_of_byteLength_le hb hc hjk
  obtain ⟨d, rfl⟩ := hc
  have hab := slice_append a b (c ++ d)
  have hbc := slice_append (a ++ b) c d
  have hac := slice_append a (b ++ c) d
  simp only [List.append_assoc] at hab hbc hac ⊢
  rw [hab, hbc, hac]

theorem Holds.slice_eq {p : List Char} {s : Span} (h : Holds text s p) : Text.slice text s = p := by
  obtain ⟨a, c, rfl, rfl⟩ := h
  exact slice_append a p c

end Text

namespace Syntax

namespace Lexer

variable {s : List Char} {n : Nat}

theorem word_of_piece (h : piece s = (.token .name, n)) :
    s.take n = s.takeWhile isIdentifierPart := by
  unfold piece at h
  split at h
  · cases h
  split at h
  · cases h
  split at h
  · obtain rfl := (Prod.mk.inj h).2
    exact (List.prefix_iff_eq_take.1 (List.takeWhile_prefix _)).symm
  split at h
  next kind m hl =>
    obtain rfl := PieceKind.token.inj (Prod.mk.inj h).1
    exact absurd (kind_of_literal hl) (by decide)
  split at h <;> cases h

/-- A name consists of the characters of identifiers. -/
theorem word_scan (st : State) (s : List Char) :
    ∀ t ∈ scan st s, t.kind = .name → ∀ c ∈ t.text.toList, isIdentifierPart c := by
  fun_induction scan st s with
  | case1 st => simp
  | case2 st c r n text rest hp ih => exact ih
  | case3 st c r n text rest comment hp ih => exact ih
  | case4 st c r n text rest kind hp ih =>
      intro t ht hk
      rcases List.mem_cons.1 ht with rfl | ht
      · obtain rfl : kind = .name := hk
        have hle : 1 ≤ n := by simpa only [hp] using (piece_le c r).1
        have htake : (c :: r).take n = text := by
          rw [← Nat.sub_add_cancel hle]
          rfl
        rw [String.toList_ofList, ← htake, word_of_piece hp]
        exact fun c hc => List.mem_takeWhile_imp hc
      · exact ih t ht hk

theorem word_tokens (text : List Char) :
    ∀ t ∈ tokens text, t.kind = .name → ∀ c ∈ t.text.toList, isIdentifierPart c := by
  unfold tokens
  split <;> exact word_scan _ _

end Lexer

section Gaps

open Syntax.Parser

variable {text : List Char} {us : List Token} {t u : Token}

/-- What stands between two tokens. -/
def gap (text : List Char) (t u : Token) : List Char :=
  Text.slice text ⟨t.extent.span.stop, u.extent.span.start⟩

/-- The text of some tokens is that of the first one, what stands behind it, and that of the others. -/
theorem Laid.slice_cons (h : Laid text (t :: u :: us)) :
    Text.slice text (extentOf (t :: u :: us)).span =
      t.text.toList ++ (gap text t u ++ Text.slice text (extentOf (u :: us)).span) := by
  have ht := h.holds t List.mem_cons_self
  have hs := h.tail.fits_extentOf (List.cons_ne_nil u us)
  have hb : t.extent.span.Before u.extent.span :=
    (List.pairwise_cons.1 h.ordered).1 u List.mem_cons_self
  have hstop : (extentOf (t :: u :: us)).span.stop = (extentOf (u :: us)).span.stop :=
    stop_extentOf_append [t] (List.cons_ne_nil u us)
  have hall : (extentOf (t :: u :: us)).span =
      ⟨t.extent.span.start, (extentOf (u :: us)).span.stop⟩ := by
    rw [← hstop]
    rfl
  have hf := ht.fits
  rw [hall, slice_trans hf.start hf.stop hs.stop hf.ordered (Nat.le_trans hb hs.ordered),
    slice_trans hf.stop hs.start hs.stop hb hs.ordered]
  congr 1
  exact ht.slice_eq

theorem Laid.slice_singleton (h : Laid text [t]) :
    Text.slice text (extentOf [t]).span = t.text.toList :=
  (h.holds t List.mem_cons_self).slice_eq

theorem Laid.prefix_slice (h : Laid text (t :: us)) :
    t.text.toList <+: Text.slice text (extentOf (t :: us)).span := by
  cases us with
  | nil => rw [h.slice_singleton]
  | cons u us =>
      rw [h.slice_cons]
      exact List.prefix_append _ _

end Gaps

section Segments

open Syntax.Parser Outline

variable {text : List Char} {a b a' b' seg seg' : List Token} {t t' : Token}

/-- Of two tokens of a text one stands before the other, unless they stand at one place. -/
theorem apart_or_eq (h : (a ++ t :: b).Pairwise Token.Before) (he : a ++ t :: b = a' ++ t' :: b') :
    (a = a' ∧ t :: b = t' :: b') ∨ t.Before t' ∨ t'.Before t := by
  rcases List.append_eq_append_iff.1 he with ⟨c, rfl, hc⟩ | ⟨c, rfl, hc⟩
  · cases c with
    | nil => exact .inl ⟨by simp, hc⟩
    | cons x c =>
        obtain ⟨rfl, rfl⟩ := List.cons.inj hc
        refine .inr (.inl ?_)
        exact (List.pairwise_cons.1 (List.pairwise_append.1 h).2.1).1 t' (by simp)
  · cases c with
    | nil => exact .inl ⟨by simp, hc.symm⟩
    | cons x c =>
        obtain ⟨rfl, rfl⟩ := List.cons.inj hc
        exact .inr (.inr ((List.pairwise_append.1 h).2.2 t' (by simp) t List.mem_cons_self))

theorem text_ne_nil {tree : Tree} (h : Tree.ofText? text = some tree) (ht : t ∈ Lexer.tokens text)
    (hs : t.kind ≠ .stop) : t.text.toList ≠ [] := by
  obtain ⟨a, c, -, hne, -⟩ := seated_of_tree h t ht hs
  exact hne

/-- A token of a text with a tree takes some room. -/
theorem width_of_tree {tree : Tree} (h : Tree.ofText? text = some tree) (ht : t ∈ Lexer.tokens text)
    (hs : t.isSolid) : t.extent.span.start < t.extent.span.stop := by
  have hne := text_ne_nil h ht (Token.kind_ne_stop hs)
  obtain ⟨a, c, -, he⟩ := (Lexer.laid_tokens text).holds t ht
  rw [he, byteLength_append]
  exact Nat.lt_add_of_pos_right (byteLength_pos hne)

/-- A token is known by where it starts, and by where it stops. -/
theorem eq_of_place {tree : Tree} (htree : Tree.ofText? text = some tree)
    (h : Lexer.tokens text = a ++ t :: b) (h' : Lexer.tokens text = a' ++ t' :: b')
    (hs : t.isSolid) (hs' : t'.isSolid)
    (hplace : t.extent.span.start = t'.extent.span.start ∨
      t.extent.span.stop = t'.extent.span.stop) : a = a' ∧ t :: b = t' :: b' := by
  have hw := width_of_tree htree (h ▸ by simp) hs
  have hw' := width_of_tree htree (h' ▸ by simp) hs'
  have hord := (Lexer.laid_tokens text).ordered
  rw [h] at hord
  rcases apart_or_eq hord (h.symm.trans h') with he | hb | hb
  · exact he
  · rw [Token.Before] at hb
    omega
  · rw [Token.Before] at hb
    omega

/-- The first and the last of some tokens are more than the end of the text. -/
def SolidEnds (seg : List Token) : Prop :=
  (∃ t ∈ seg.head?, t.isSolid) ∧ ∃ t ∈ seg.getLast?, t.isSolid

theorem solidEnds_of_solid (hne : seg ≠ []) (h : ∀ t ∈ seg, t.isSolid) : SolidEnds seg :=
  ⟨⟨_, List.head?_eq_some_head hne, h _ (List.head_mem hne)⟩,
    _, List.getLast?_eq_some_getLast hne, h _ (List.getLast_mem hne)⟩

theorem SolidEnds.append_left (h : SolidEnds seg) (ha : ∀ t ∈ a, t.isSolid) :
    SolidEnds (a ++ seg) := by
  obtain ⟨⟨t, ht, hs⟩, l, hl, hend⟩ := h
  refine ⟨?_, l, by simp [Option.mem_def.1 hl], hend⟩
  cases a with
  | nil => exact ⟨t, ht, hs⟩
  | cons x a => exact ⟨x, rfl, ha x List.mem_cons_self⟩

/-- At each place stands one run of tokens. -/
theorem Segment.unique {tree : Tree} (htree : Tree.ofText? text = some tree) (h : Segment text seg)
    (h' : Segment text seg') (hs : SolidEnds seg) (hs' : SolidEnds seg')
    (hspan : (extentOf seg).span = (extentOf seg').span) : seg = seg' := by
  obtain ⟨a, b, ht⟩ := h
  obtain ⟨a', b', ht'⟩ := h'
  obtain ⟨⟨t, hhead, hsolid⟩, l, hlast, hend⟩ := hs
  obtain ⟨⟨t', hhead', hsolid'⟩, l', hlast', hend'⟩ := hs'
  have hfront : a = a' := by
    obtain ⟨s, rfl⟩ := List.head?_eq_some_iff.1 hhead
    obtain ⟨s', rfl⟩ := List.head?_eq_some_iff.1 hhead'
    rw [List.append_assoc, List.cons_append] at ht ht'
    have hstart := congrArg Span.start hspan
    exact (eq_of_place htree ht ht' hsolid hsolid' (.inl hstart)).1
  obtain ⟨s, rfl⟩ := List.getLast?_eq_some_iff.1 hlast
  obtain ⟨s', rfl⟩ := List.getLast?_eq_some_iff.1 hlast'
  have hstop := congrArg Span.stop hspan
  rw [stop_extentOf (by simp), stop_extentOf (by simp), List.getLast_append_singleton,
    List.getLast_append_singleton] at hstop
  rw [← List.append_assoc, List.append_assoc, List.singleton_append] at ht ht'
  obtain ⟨hmid, hlasts⟩ := eq_of_place htree ht ht' hend hend' (.inr hstop)
  rw [hfront] at hmid
  rw [List.append_cancel_left hmid, (List.cons.inj hlasts).1]

end Segments

/-- How a type is written by its name: perhaps with a package in front, perhaps with type arguments
behind. -/
structure Named where
  /-- The package and the dot. -/
  qualifier : Option (Token × Token)
  name : Token
  /-- Brackets and what stands between them. -/
  args : List Token
  isQualifier : ∀ q ∈ qualifier, q.1.kind = .name ∧ q.2.is "."
  isName : name.kind = .name
  isArgs : ∀ o ∈ args.head?, o.is "["
  isClosed : ∀ c ∈ args.getLast?, c.is "]"

namespace Named

open Syntax.Parser

def tokens (w : Named) : List Token :=
  (w.qualifier.elim [] fun q => [q.1, q.2]) ++ w.name :: w.args

/-- What the tree keeps of it. -/
def form (w : Named) : Span → TypeExpr :=
  match w.args, w.qualifier with
  | _ :: _, _ => .other
  | [], none => (.name · w.name.text)
  | [], some q => (.qualified · q.1.text w.name.text)

theorem eq_of_tokens {w w' : Named} (h : w.tokens = w'.tokens) : w = w' := by
  obtain ⟨q, n, as, hq, hn, has, hcs⟩ := w
  obtain ⟨q', n', as', hq', hn', has', hcs'⟩ := w'
  have hcross {n p d n' : Token} {as as' : List Token} (has : ∀ o ∈ as.head?, o.is "[")
      (hd : d.is ".") (he : n :: as = p :: d :: n' :: as') : False := by
    obtain ⟨rfl, rfl⟩ := List.cons.inj he
    have ho := has d rfl
    exact absurd (Token.eq_of_is hd ho) (by decide)
  cases q with
  | none =>
      cases q' with
      | none =>
          obtain ⟨rfl, rfl⟩ := List.cons.inj h
          rfl
      | some q' => exact (hcross has (hq' q' rfl).2 h).elim
  | some q =>
      cases q' with
      | none => exact (hcross has' (hq q rfl).2 h.symm).elim
      | some q' =>
          have hall : q.1 :: q.2 :: n :: as = q'.1 :: q'.2 :: n' :: as' := h
          obtain ⟨hp, hd, rfl, rfl⟩ : q.1 = q'.1 ∧ q.2 = q'.2 ∧ n = n' ∧ as = as' := by
            simpa only [List.cons.injEq] using hall
          obtain rfl := Prod.ext hp hd
          rfl

/-- A name alone, or behind a package. -/
theorem exists_of_typeName {p : Grammar.Place} {ts rest : List Token} {form : Span → TypeExpr}
    (h : (Grammar.typeName p).run ts = some (form, rest)) :
    ∃ w : Named, w.args = [] ∧ ts = w.tokens ++ rest ∧ form = w.form := by
  simp only [Grammar.typeName, bind_eq_some, peek_eq_some, name_eq_some] at h
  obtain ⟨first, _, ⟨rfl, hf⟩, t, _, ⟨rfl, rfl⟩, h⟩ := h
  split at h
  next hd =>
    simp only [bind_eq_some, discard_eq_some, advance_eq_some, name_eq_some, pure_eq_some] at h
    obtain ⟨_, _, ⟨d, rfl, -⟩, second, _, ⟨rfl, hn⟩, rfl, rfl⟩ := h
    have hdot : d.is "." := (Bool.and_eq_true _ _ ▸ hd).1
    exact ⟨⟨some (first, d), second, [], by simp [hf, hdot], hn, by simp, by simp⟩, rfl, rfl, rfl⟩
  next =>
    obtain ⟨rfl, rfl⟩ := pure_eq_some.1 h
    exact ⟨⟨none, first, [], by simp, hf, by simp, by simp⟩, rfl, rfl, rfl⟩

theorem kind_lookAt (w : Named) {rest : List Token} :
    (lookAt 0 (w.tokens ++ rest)).kind = .name := by
  obtain ⟨q, n, as, hq, hn, has, hcs⟩ := w
  cases q with
  | none => exact hn
  | some q => exact (hq q rfl).1

theorem exists_of_typeArgs {n : Nat} {ts rest : List Token} {b : Bool}
    (h : (Grammar.typeArgs n).run ts = some (b, rest)) :
    ∃ o args c, ts = o :: (args ++ [c]) ++ rest ∧ o.is "[" ∧ c.is "]" := by
  cases n with
  | zero => exact (failure_eq_some h).elim
  | succ n =>
      simp only [Grammar.typeArgs, bind_eq_some, require_eq_some, pure_eq_some] at h
      obtain ⟨g, _, hg, _, _, ⟨-, rfl⟩, rfl, rfl⟩ := h
      obtain ⟨us, rfl, ho, hp, hc⟩ := group_eq_some.1 hg
      obtain ⟨args, rfl, -⟩ := Parser.takes _ hp
      exact ⟨g.opening, args, g.closing, by simp, ho, hc⟩

theorem exists_of_namedType {n : Nat} {p : Grammar.Place} {ts rest : List Token}
    {build : Span → TypeExpr}
    (h : (Grammar.namedType n p).run ts = some (build, rest)) :
    ∃ w : Named, ts = w.tokens ++ rest ∧ build = w.form := by
  cases n with
  | zero => exact (failure_eq_some h).elim
  | succ n =>
      simp only [Grammar.namedType, bind_eq_some, peek_eq_some] at h
      obtain ⟨form, mid, hform, u, _, ⟨rfl, rfl⟩, h⟩ := h
      obtain ⟨w, hargs, rfl, rfl⟩ := exists_of_typeName hform
      split at h
      next ha =>
        simp only [bind_eq_some, discard_eq_some, pure_eq_some] at h
        obtain ⟨_, _, ⟨_, hr⟩, rfl, rfl⟩ := h
        obtain ⟨o, args, c, rfl, ho, hc⟩ := exists_of_typeArgs hr
        have hopen : ∀ x ∈ (o :: (args ++ [c])).head?, x.is "[" := by simpa using ho
        have hclose : ∀ x ∈ (o :: (args ++ [c])).getLast?, x.is "]" := by
          rw [← List.cons_append, List.getLast?_concat]
          simpa using hc
        refine ⟨⟨w.qualifier, w.name, _, w.isQualifier, w.isName, hopen, hclose⟩, ?_, rfl⟩
        rw [tokens, hargs]
        simp [tokens]
      next =>
        obtain ⟨rfl, rfl⟩ := pure_eq_some.1 h
        exact ⟨w, rfl, rfl⟩

theorem span_form (w : Named) (span : Span) : (w.form span).span = span := by
  obtain ⟨q, n, as, hq, hn, has, hcs⟩ := w
  cases as with
  | cons o as => rfl
  | nil => cases q <;> rfl

theorem solidEnds (w : Named) : SolidEnds w.tokens := by
  have hname {t : Token} (h : t.kind = .name) : t.isSolid := by simp [Token.isSolid, h]
  constructor
  · cases hq : w.qualifier with
    | none => exact ⟨w.name, by simp [tokens, hq], hname w.isName⟩
    | some q => exact ⟨q.1, by simp [tokens, hq], hname (w.isQualifier q hq).1⟩
  · cases hl : w.args.getLast? with
    | none => exact ⟨w.name, by simp [tokens, List.getLast?_cons, hl], hname w.isName⟩
    | some c =>
        exact ⟨c, by simp [tokens, List.getLast?_cons, hl], Token.isSolid_of_is (w.isClosed c hl)⟩

variable {text : List Char} {w : Named}

/-- Nothing but blanks stands between the package, the dot, the name and the arguments. -/
def Spaced (text : List Char) (w : Named) : Prop :=
  (∀ q ∈ w.qualifier, (∀ c ∈ gap text q.1 q.2, Lexer.isSpace c) ∧
    ∀ c ∈ gap text q.2 w.name, Lexer.isSpace c) ∧
  ∀ o ∈ w.args.head?, ∀ c ∈ gap text w.name o, Lexer.isSpace c

/-- What stands between the dot and the name. -/
def lead (text : List Char) (w : Named) : List Char :=
  w.qualifier.elim [] fun q => gap text q.2 w.name

/-- What stands between the name and the arguments. -/
def trail (text : List Char) (w : Named) : List Char := w.args.head?.elim [] (gap text w.name)

/-- A type with arguments, or of a package that nothing is imported from, is kept as its text. -/
def isKept (s : Scope) (w : Named) : Bool :=
  !w.args.isEmpty || w.qualifier.any fun q => (s.import? q.1.text).isNone

/-- The name of a type. If the type is kept as its text, the name has what stands around it there. -/
def called (s : Scope) (w : Named) : String :=
  if w.isKept s then String.ofList (w.lead s.text ++ w.name.text.toList ++ w.trail s.text)
  else w.name.text

/-- The name of a type is what it is written by, unless there are blanks in a text that is kept. -/
theorem called_eq_name_iff (w : Named) {s : Scope} :
    w.called s = w.name.text ↔ (w.isKept s → w.lead s.text = [] ∧ w.trail s.text = []) := by
  rw [called]
  split
  next hkept =>
    simp only [hkept, forall_const]
    constructor
    · intro h
      have hlength := congrArg (fun n : String => n.toList.length) h
      simp only [String.toList_ofList, List.length_append] at hlength
      exact ⟨List.length_eq_zero_iff.1 (by omega), List.length_eq_zero_iff.1 (by omega)⟩
    · rintro ⟨hlead, htrail⟩
      simp [hlead, htrail]
  next hkept => simp [hkept]

theorem slice_name_args (h : Laid text (w.name :: w.args)) :
    ∃ u, (∀ c ∈ u.head?, c = '[') ∧
      Text.slice text (extentOf (w.name :: w.args)).span =
        w.name.text.toList ++ w.trail text ++ u := by
  obtain ⟨q, n, as, hq, hn, has, hcs⟩ := w
  cases as with
  | nil => exact ⟨[], by simp, by simpa [trail] using h.slice_singleton⟩
  | cons o as =>
      obtain ⟨u, hu⟩ := h.tail.prefix_slice
      have ho : o.text.toList = ['['] := Token.toList_of_is (has o rfl)
      refine ⟨Text.slice text (extentOf (o :: as)).span, ?_, ?_⟩
      · rw [← hu, ho]
        simp
      · rw [List.append_assoc]
        exact h.slice_cons

/-- The name at the end of the text of a type, with the blanks around it. -/
theorem nameInText_slice (h : Laid text w.tokens)
    (hword : ∀ t ∈ w.tokens, t.kind = .name → ∀ c ∈ t.text.toList, isIdentifierPart c)
    (hs : w.Spaced text) :
    GoType.nameInText (Text.slice text (extentOf w.tokens).span) =
      w.lead text ++ w.name.text.toList ++ w.trail text := by
  have hname : Uncut w.name.text.toList :=
    uncut_of_word (hword w.name (by simp [tokens]) w.isName)
  have htrail : Uncut (w.trail text) := by
    rw [trail]
    cases ho : w.args.head? with
    | none => simp [Uncut]
    | some o => exact uncut_of_space (hs.2 o ho)
  cases hq : w.qualifier with
  | none =>
      have htokens : w.tokens = w.name :: w.args := by rw [tokens, hq]; rfl
      obtain ⟨u, hu, hslice⟩ := slice_name_args (htokens ▸ h)
      rw [htokens, hslice, lead, hq, Option.elim_none, List.nil_append]
      exact nameInText_uncut (hname.append htrail) hu
  | some q =>
      have htokens : w.tokens = q.1 :: q.2 :: w.name :: w.args := by rw [tokens, hq]; rfl
      rw [htokens] at h hword ⊢
      obtain ⟨u, hu, hslice⟩ := slice_name_args h.tail.tail
      have hdot : q.2.text.toList = ['.'] := Token.toList_of_is (w.isQualifier q hq).2
      have hpackage : Uncut q.1.text.toList :=
        uncut_of_word (hword q.1 (by simp) (w.isQualifier q hq).1)
      have hgap := uncut_of_space (hs.1 q hq).1
      have hlead := uncut_of_space (hs.1 q hq).2
      have hall := nameInText_qualified (hpackage.append hgap) ((hlead.append hname).append htrail) hu
      rw [h.slice_cons, h.tail.slice_cons, hslice, hdot, lead, hq]
      simpa using hall

/-- The base of a type that is written by its name. -/
theorem baseName?_form {s : Scope} (h : Laid s.text w.tokens)
    (hword : ∀ t ∈ w.tokens, t.kind = .name → ∀ c ∈ t.text.toList, isIdentifierPart c)
    (hne : w.name.text.toList ≠ []) (hs : w.Spaced s.text) :
    (s.type (w.form (extentOf w.tokens).span)).baseName? = some (w.called s) := by
  have hraw : (GoType.raw (s.slice (extentOf w.tokens).span)).baseName? =
      some (String.ofList (w.lead s.text ++ w.name.text.toList ++ w.trail s.text)) := by
    rw [GoType.baseName?, Scope.slice, String.toList_ofList, nameInText_slice h hword hs, if_neg]
    simp [hne]
  obtain ⟨q, n, as, hq, hn, has, hcs⟩ := w
  cases as with
  | cons o as => exact hraw
  | nil =>
      cases q with
      | none => rfl
      | some q =>
          rw [form, Scope.type, called, isKept]
          cases hi : s.import? q.1.text with
          | none => simpa [hi] using hraw
          | some i => simp [hi, GoType.baseName?]

theorem baseName?_segment {s : Scope} {tree : Tree} (htree : Tree.ofText? s.text = some tree)
    (h : Outline.Segment s.text w.tokens) (hs : w.Spaced s.text) :
    (s.type (w.form (extentOf w.tokens).span)).baseName? = some (w.called s) := by
  have hsub : ∀ t ∈ w.tokens, t ∈ Lexer.tokens s.text := by
    obtain ⟨front, rest, ht⟩ := h
    rw [ht]
    simp +contextual
  have hname : w.name ∈ w.tokens := by simp [tokens]
  have hword := fun t ht => Lexer.word_tokens s.text t (hsub t ht)
  have hne := text_ne_nil htree (hsub _ hname) (by simp [w.isName])
  exact baseName?_form h.laid hword hne hs

end Named

namespace Grammar

open Syntax.Parser

variable {n : Nat} {p : Place} {us rest stars : List Token} {type : TypeExpr} {w : Named}

theorem typeForm_of_name (n : Nat) (p : Place) (h : (lookAt 0 us).kind = .name) :
    (typeForm (n + 1) p).run us = (namedType n p).run us := by
  have hpeek : (typeForm (n + 1) p).run us =
      (if (lookAt 0 us).kind == .name then namedType n p else _ :
        Parser (Span → TypeExpr)).run us := rfl
  rw [hpeek, if_pos (by simp [h])]

theorem typeForm_of_star {t : Token} (n : Nat) (p : Place) (h : t.is "*") :
    (typeForm (n + 1) p).run (t :: us) =
      (do
        discard advance
        let elem ← typeExpr n p
        return (.pointer · elem) : Parser (Span → TypeExpr)).run (t :: us) := by
  have hkind : (t.kind == .name) = false := by simp [Token.kind_of_is h]
  have hpeek : (typeForm (n + 1) p).run (t :: us) =
      (if t.kind == .name then namedType n p else if t.is "*" then _ else _ :
        Parser (Span → TypeExpr)).run (t :: us) := rfl
  rw [hpeek, hkind, if_neg Bool.false_ne_true, if_pos h]

/-- A type that starts with a name is written by it. -/
theorem exists_of_typeExpr (h : (typeExpr n p).run us = some (type, rest))
    (hname : (lookAt 0 us).kind = .name) :
    ∃ w : Named, us = w.tokens ++ rest ∧ type = w.form (extentOf w.tokens).span := by
  cases n with
  | zero => exact (failure_eq_some h).elim
  | succ n =>
      simp only [typeExpr, bind_eq_some, pure_eq_some] at h
      obtain ⟨⟨e, build⟩, _, hp, rfl, rfl⟩ := h
      obtain ⟨used, rfl, hf, rfl⟩ := placed_eq_some.1 hp
      cases n with
      | zero => exact (failure_eq_some hf).elim
      | succ n =>
          rw [typeForm_of_name n p hname] at hf
          obtain ⟨w, hw, rfl⟩ := Named.exists_of_namedType hf
          obtain rfl := List.append_cancel_right hw
          exact ⟨w, rfl, rfl⟩

/-- A type behind stars is what the stars point to in the end. -/
theorem baseName?_typeExpr {s : Scope} {tree : Tree} (htree : Tree.ofText? s.text = some tree)
    (hstars : ∀ t ∈ stars, t.is "*")
    (h : (typeExpr n p).run (stars ++ w.tokens ++ rest) = some (type, rest))
    (hw : Outline.Segment s.text w.tokens) (hs : w.Spaced s.text) :
    (s.type type).baseName? = some (w.called s) := by
  induction stars generalizing n type with
  | nil =>
      obtain ⟨w', hw', rfl⟩ := exists_of_typeExpr h w.kind_lookAt
      obtain rfl : w = w' := Named.eq_of_tokens (List.append_cancel_right hw')
      exact Named.baseName?_segment htree hw hs
  | cons t stars ih =>
      cases n with
      | zero => exact (failure_eq_some h).elim
      | succ n =>
          simp only [typeExpr, bind_eq_some, pure_eq_some] at h
          obtain ⟨⟨e, build⟩, _, hp, rfl, rfl⟩ := h
          obtain ⟨used, -, hf, rfl⟩ := placed_eq_some.1 hp
          cases n with
          | zero => exact (failure_eq_some hf).elim
          | succ n =>
              rw [List.cons_append, List.cons_append,
                typeForm_of_star n p (hstars t List.mem_cons_self)] at hf
              simp only [bind_eq_some, discard_eq_some, advance_eq_some, pure_eq_some] at hf
              obtain ⟨_, _, ⟨_, hcons, -⟩, elem, _, helem, rfl, rfl⟩ := hf
              obtain ⟨-, rfl⟩ := List.cons.inj hcons
              rw [Scope.type, GoType.baseName?]
              exact ih (fun t ht => hstars t (List.mem_cons_of_mem _ ht)) helem

end Grammar

/-- The tokens that a type is written with. -/
def TypeExpr.Written (text : List Char) (type : TypeExpr) (seg : List Token) : Prop :=
  Outline.Segment text seg ∧ type.span = (Parser.extentOf seg).span

/-- A type of a file that is written by its name, perhaps behind stars, has the name as its base. -/
theorem baseName?_written {s : Scope} {tree : Tree} {n : Nat} {p : Grammar.Place}
    {type : TypeExpr} {stars : List Token} {w : Named} (htree : Tree.ofText? s.text = some tree)
    (h : (Grammar.typeExpr n p).Reads (Lexer.tokens s.text) type)
    (hw : type.Written s.text (stars ++ w.tokens)) (hstars : ∀ t ∈ stars, t.is "*")
    (hs : w.Spaced s.text) : (s.type type).baseName? = some (w.called s) := by
  obtain ⟨us, rest, ⟨front, hfront⟩, hrun⟩ := h
  obtain ⟨used, rfl, hne, hspan⟩ := Grammar.span_typeExpr hrun
  have hused : Outline.Segment s.text used := ⟨front, rest, by rw [← hfront, List.append_assoc]⟩
  have hends := solidEnds_of_solid hne (Parser.solid _ hrun)
  have hends' := w.solidEnds.append_left fun t ht => Token.isSolid_of_is (hstars t ht)
  obtain rfl : used = stars ++ w.tokens :=
    Segment.unique htree hused hw.1 hends hends' (hspan.symm.trans hw.2)
  refine Grammar.baseName?_typeExpr htree hstars hrun ⟨front ++ stars, rest, ?_⟩ hs
  rw [← hfront]
  simp

end Syntax

end GoOutline
