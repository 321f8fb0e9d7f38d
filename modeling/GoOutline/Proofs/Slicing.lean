import GoOutline.Proofs.Separators
import GoOutline.Proofs.Visible

/-!
Cuts that can fail. A text is cut at offsets that come from spans, from trimming and from searches,
and a cut outside of the text or inside a character is an error of the program. The functions here
whose names end in a question mark check every cut that they make and come to nothing at the first
that fails. On a text whose outline has everything in its place they never do.
-/

namespace GoOutline

open Text

namespace Text

variable {s : List Char} {n : Nat} {span : Span}

theorem isBoundary_iff : IsBoundary s n ↔ byteLength (takeBytes n s) = n := by
  constructor
  · rintro ⟨p, ⟨q, rfl⟩, rfl⟩
    rw [takeBytes_byteLength]
  · exact fun h => ⟨takeBytes n s, Splice.takeBytes_isPrefix n s, h⟩

instance (s : List Char) (n : Nat) : Decidable (IsBoundary s n) :=
  decidable_of_iff _ isBoundary_iff.symm

instance (s : List Char) (span : Span) : Decidable (span.Fits s) :=
  decidable_of_iff (span.start ≤ span.stop ∧ span.stop ≤ byteLength s ∧
      IsBoundary s span.start ∧ IsBoundary s span.stop)
    ⟨fun ⟨a, b, c, d⟩ => ⟨a, b, c, d⟩, fun ⟨a, b, c, d⟩ => ⟨a, b, c, d⟩⟩

/-- What a span covers of a text, where the text can be cut there. -/
def cut? (s : List Char) (span : Span) : Option (List Char) :=
  if span.Fits s then some (slice s span) else none

theorem cut?_of_fits (h : span.Fits s) : cut? s span = some (slice s span) := if_pos h

theorem fits_of_cut? {t : List Char} (h : cut? s span = some t) : span.Fits s := by
  by_contra hf
  rw [cut?, if_neg hf] at h
  cases h

theorem fits_between (a b c : List Char) :
    Span.Fits (a ++ b ++ c) ⟨byteLength a, byteLength (a ++ b)⟩ :=
  Holds.fits ⟨a, c, rfl, rfl⟩

theorem isBoundary_zero (s : List Char) : IsBoundary s 0 := ⟨[], List.nil_prefix, rfl⟩

theorem isBoundary_self (s : List Char) : IsBoundary s (byteLength s) := ⟨s, List.prefix_rfl, rfl⟩

theorem IsBoundary.fits {m : Nat} (hm : IsBoundary s m) (hn : IsBoundary s n) (h : m ≤ n) :
    Span.Fits s ⟨m, n⟩ :=
  ⟨h, hn.le, hm, hn⟩

theorem IsBoundary.cut?_front (h : IsBoundary s n) : cut? s ⟨0, n⟩ = some (takeBytes n s) := by
  rw [cut?_of_fits ((isBoundary_zero s).fits h (Nat.zero_le n))]
  simp [slice]

theorem IsBoundary.cut?_rest (h : IsBoundary s n) :
    cut? s ⟨n, byteLength s⟩ = some (dropBytes n s) := by
  rw [cut?_of_fits (h.fits (isBoundary_self s) h.le)]
  obtain ⟨a, ⟨b, rfl⟩, rfl⟩ := h
  have hb := takeBytes_byteLength b []
  rw [List.append_nil] at hb
  simp [slice, dropBytes_byteLength, hb]

/-- A beginning of what stands behind a boundary stops at a boundary. -/
theorem IsBoundary.add {rest : List Char} (h : IsBoundary s n) (hr : rest <+: dropBytes n s) :
    IsBoundary s (n + byteLength rest) := by
  obtain ⟨a, c, hs, _, hn⟩ := Splice.exists_between h hr
  rw [hn, hs]
  exact isBoundary_byteLength _ c

theorem IsBoundary.cut?_add {rest : List Char} (h : IsBoundary s n) (hr : rest <+: dropBytes n s) :
    cut? s ⟨n, n + byteLength rest⟩ = some rest := by
  obtain ⟨a, c, hs, ha, hn⟩ := Splice.exists_between h hr
  rw [hn, ha, hs, cut?_of_fits (fits_between a rest c), slice_append]

theorem mapM_cut? {spans : List Span} (h : ∀ span ∈ spans, span.Fits s) :
    spans.mapM (cut? s) = some (spans.map (slice s)) := by
  induction spans with
  | nil => rfl
  | cons span spans ih =>
      obtain ⟨hspan, hspans⟩ := List.forall_mem_cons.1 h
      simp [cut?_of_fits hspan, ih hspans]

theorem IsBoundary.of_prefix {p : List Char} (h : IsBoundary p n) (hp : p <+: s) :
    IsBoundary s n := by
  obtain ⟨a, ha, hn⟩ := h
  exact ⟨a, ha.trans hp, hn⟩

theorem cut?_of_prefix {p : List Char} (h : p <+: s) : cut? s ⟨0, byteLength p⟩ = some p := by
  obtain ⟨q, rfl⟩ := h
  rw [(isBoundary_byteLength p q).cut?_front, takeBytes_byteLength]

theorem cut?_rest (a s : List Char) :
    cut? (a ++ s) ⟨byteLength a, byteLength (a ++ s)⟩ = some s := by
  rw [(isBoundary_byteLength a s).cut?_rest, dropBytes_byteLength]

theorem byteLength_takeWhile (p : Char → Bool) (s : List Char) :
    byteLength (s.takeWhile p) = byteLength s - byteLength (s.dropWhile p) := by
  have h := byteLength_append (s.takeWhile p) (s.dropWhile p)
  rw [List.takeWhile_append_dropWhile] at h
  rw [h, Nat.add_sub_cancel]

theorem getLastD_isSuffix_intercalate (sep : List Char) (ls : List (List Char)) :
    ls.getLastD [] <:+ sep.intercalate ls := by
  induction ls with
  | nil => exact List.nil_suffix
  | cons l ls ih =>
      cases ls with
      | nil => simp [List.intercalate]
      | cons m ls =>
          rw [List.intercalate_cons_cons]
          exact ih.trans (List.suffix_append _ _)

theorem lastLine_isSuffix (s : List Char) : lastLine s <:+ s := by
  have h := getLastD_isSuffix_intercalate ['\n'] (s.splitOn '\n')
  rwa [List.intercalate_splitOn] at h

end Text

namespace Splice

variable {source : List Char} {offset : Nat} {inner params : Span}

/-- A splice comes out of checked cuts, and its own place is one. -/
def Safe (source : List Char) (checked : Option Splice) (s : Splice) : Prop :=
  checked = some s ∧ s.span.Fits source

section Lines

def lineStart? (source : List Char) (offset : Nat) : Option Nat := do
  let head ← cut? source ⟨0, offset⟩
  return offset - byteLength (lastLine head)

def lineEnd? (source : List Char) (offset : Nat) : Option Nat := do
  let rest ← cut? source ⟨offset, byteLength source⟩
  return offset + byteLength (rest.takeWhile (· != '\n'))

def lineIndent? (source : List Char) (offset : Nat) : Option (List Char) := do
  let start ← lineStart? source offset
  let line ← cut? source ⟨start, byteLength source⟩
  let behind := line.dropWhile fun c => c == ' ' || c == '\t'
  cut? line ⟨0, byteLength line - byteLength behind⟩

theorem lineStart?_eq (h : IsBoundary source offset) :
    lineStart? source offset = some (lineStart source offset) := by
  simp [lineStart?, h.cut?_front, lineStart, position]

theorem lineEnd?_eq (h : IsBoundary source offset) :
    lineEnd? source offset = some (lineEnd source offset) := by
  simp [lineEnd?, h.cut?_rest, lineEnd, lineRest]

theorem isBoundary_lineStart (h : IsBoundary source offset) :
    IsBoundary source (lineStart source offset) := by
  have hn := isBoundary_iff.1 h
  obtain ⟨front, hf⟩ := lastLine_isSuffix (takeBytes offset source)
  have hs : lineStart source offset = byteLength front := by
    have hl := congrArg byteLength hf
    rw [byteLength_append, hn] at hl
    simp only [lineStart, position]
    omega
  rw [hs]
  exact ⟨front, ⟨lastLine (takeBytes offset source) ++ dropBytes offset source, by
    rw [← List.append_assoc, hf, takeBytes_append_dropBytes]⟩, rfl⟩

theorem lineStart_le (source : List Char) (offset : Nat) : lineStart source offset ≤ offset :=
  Nat.sub_le _ _

theorem isBoundary_lineEnd (h : IsBoundary source offset) :
    IsBoundary source (lineEnd source offset) :=
  h.add (List.takeWhile_prefix _)

theorem le_lineEnd (source : List Char) (offset : Nat) : offset ≤ lineEnd source offset :=
  Nat.le_add_right _ _

theorem lineIndent?_eq (h : IsBoundary source offset) :
    lineIndent? source offset = some (lineIndent source offset) := by
  have hcut (line : List Char) (p : Char → Bool) :
      cut? line ⟨0, byteLength (line.takeWhile p)⟩ = some (line.takeWhile p) :=
    cut?_of_prefix (List.takeWhile_prefix p)
  simp [lineIndent?, lineStart?_eq h, (isBoundary_lineStart h).cut?_rest,
    ← byteLength_takeWhile, hcut, lineIndent]

end Lines

section Commas

/-- A comma behind an offset, with nothing but blanks and closed comments between. The text is cut
anew behind each comment. -/
def commaFrom? (s : List Char) (offset : Nat) : Option (Option Nat) :=
  match _hr : cut? s ⟨offset, byteLength s⟩ with
  | none => none
  | some rest =>
    let blanks := byteLength rest - byteLength (trimStart rest)
    match _ht : trimStart rest with
    | ',' :: _ => some (some (offset + blanks))
    | '/' :: '*' :: body =>
      match throughClose? body with
      | none => some none
      | some (comment, _) =>
        -- A comment is found by the place of its end, which has two characters as its start has.
        let close := byteLength comment - 2
        commaFrom? s (offset + blanks + (close + 4))
    | _ => some none
termination_by byteLength s - offset
decreasing_by
  have ho : IsBoundary s offset := (fits_of_cut? _hr).start
  obtain rfl : dropBytes offset s = rest := by simpa [ho.cut?_rest] using _hr
  have hlt : offset < byteLength s := by
    refine Nat.lt_of_le_of_ne ho.le fun he => ?_
    have hnil : dropBytes offset s = [] := by
      have hd := dropBytes_byteLength s []
      rwa [List.append_nil, ← he] at hd
    rw [hnil] at _ht
    cases _ht
  omega

/-- One cut, and what follows from what stands behind it. -/
theorem commaFrom?_append (a s : List Char) :
    commaFrom? (a ++ s) (byteLength a) =
      match s.dropWhile isBlank with
      | ',' :: _ => some (some (byteLength a + byteLength (s.takeWhile isBlank)))
      | '/' :: '*' :: body =>
        match throughClose? body with
        | none => some none
        | some (comment, _) =>
          commaFrom? (a ++ s)
            (byteLength a + byteLength (s.takeWhile isBlank) + (byteLength comment - 2 + 4))
      | _ => some none := by
  rw [commaFrom?]
  split
  next h =>
    rw [cut?_rest] at h
    cases h
  next rest h =>
    rw [cut?_rest] at h
    obtain rfl := Option.some.inj h
    simp only [trimStart, ← byteLength_takeWhile]
    split
    next ht => simp only [ht]
    next ht => simp only [ht]
    next => simp only

theorem commaFrom?_eq (a s : List Char) :
    commaFrom? (a ++ s) (byteLength a) = some ((leadingComma? s).map (byteLength a + ·)) := by
  fun_induction leadingComma? s generalizing a with
  | case1 s blanks tail hs => simp [commaFrom?_append, hs, blanks]
  | case2 s body hs hb => simp [commaFrom?_append, hs, hb]
  | case3 s blanks body hs comment rest hb ih =>
      have hstep : commaFrom? (a ++ s) (byteLength a) = commaFrom? (a ++ s)
          (byteLength a + blanks + (byteLength comment - 2 + 4)) := by
        rw [commaFrom?_append]
        simp only [hs, hb, blanks]
      -- The next cut is the one behind the comment.
      obtain ⟨b, hcomment, rfl, -⟩ := exists_of_throughClose? hb
      have hl : 2 ≤ byteLength comment := by
        rw [hcomment, byteLength_append]
        exact Nat.le_add_left 2 _
      have htext : a ++ s =
          a ++ s.takeWhile isBlank ++ '/' :: '*' :: comment ++ rest := by
        rw [List.append_assoc, List.append_assoc, List.cons_append, List.cons_append, ← hs,
          List.takeWhile_append_dropWhile]
      have hplace : byteLength a + blanks + (byteLength comment - 2 + 4) =
          byteLength (a ++ s.takeWhile isBlank ++ '/' :: '*' :: comment) := by
        simp only [byteLength_append, byteLength_slash_star, blanks]
        omega
      have hsum : byteLength a + blanks + (byteLength comment - 2 + 4) =
          byteLength a + (blanks + 2 + byteLength comment) := by omega
      rw [hstep, hplace, htext, ih, map_add_map, ← hplace, hsum]
  | case4 s hcomma hcomment => simp [commaFrom?_append]

theorem commaFrom?_zero (s : List Char) : commaFrom? s 0 = some (leadingComma? s) := by
  have h := commaFrom?_eq [] s
  simpa [byteLength] using h

/-- A comma is found exactly where it stands with a gap in front of it, and if none is found, the
text is barred behind its gap. No cut that the search makes fails. -/
theorem leadingComma?_separates (s : List Char) :
    (∀ n, leadingComma? s = some n ↔
      ∃ gap rest, Gap gap ∧ s = gap ++ ',' :: rest ∧ byteLength gap = n) ∧
    (leadingComma? s = none ↔ ∃ gap rest, Gap gap ∧ s = gap ++ rest ∧ Barred rest) ∧
    commaFrom? s 0 = some (leadingComma? s) :=
  ⟨fun _ => leadingComma?_eq_some, leadingComma?_eq_none, commaFrom?_zero s⟩

/-- The star that opens a comment does not close it, and a comma inside of it does not count. -/
example : leadingComma? "\u3000/*/,*/ /**/,".toList = some 14 := by decide +kernel

end Commas

section Inner

def appendToInner? (source : List Char) (inner : Span) (code indent : List Char) :
    Option Splice := do
  let kept ← cut? source ⟨0, inner.stop⟩
  let start := max (byteLength (trimEnd kept)) inner.start
  return ⟨⟨start, inner.stop⟩, '\n' :: indentLines indent code⟩

theorem safe_appendToInner (h : inner.Fits source) (code indent : List Char) :
    Safe source (appendToInner? source inner code indent)
      (appendToInner source inner code indent) := by
  have hk := isBoundary_keptEnd h
  have hle := hk.le
  rw [isBoundary_iff.1 h.stop] at hle
  refine ⟨?_, (hk.of_prefix (takeBytes_isPrefix _ _)).fits h.stop hle⟩
  simp [appendToInner?, h.stop.cut?_front, appendToInner]

end Inner

section Parameters

variable {last : Nat}

def firstParameter? (source : List Char) (params : Span) (param indent : List Char) :
    Option Splice := do
  let list ← cut? source params
  if list.contains '\n' then
    let margin ← lineIndent? source params.start
    return insert params.start ('\n' :: margin ++ indent ++ param ++ [','])
  else return insert params.start param

def nextParameter? (source : List Char) (params : Span) (last : Nat) (param indent : List Char) :
    Option Splice := do
  let tail ← cut? source ⟨last, params.stop⟩
  if tail.contains '\n' then
    let newline := byteLength (tail.takeWhile (· != '\n'))
    let rest ← cut? tail ⟨0, newline⟩
    let start ← lineStart? source last
    let margin ← lineIndent? source last
    let pad := if start ≤ params.start then margin ++ indent else margin
    let comma := if (← commaFrom? rest 0).isNone then [','] else []
    return ⟨⟨last, last + newline⟩, comma ++ rest ++ '\n' :: pad ++ param ++ [',']⟩
  else
    match ← commaFrom? tail 0 with
    | some offset => return insert (last + offset + 1) (' ' :: param)
    | none => return insert last (',' :: ' ' :: param)

def appendParameter? (source : List Char) (params : Span) (last : Option Nat)
    (param indent : List Char) : Option Splice :=
  match last with
  | none => firstParameter? source params param indent
  | some last => nextParameter? source params last param indent

theorem fits_insert (h : IsBoundary source offset) (text : List Char) :
    (insert offset text).span.Fits source :=
  h.fits h (Nat.le_refl _)

theorem firstParameter?_eq (h : params.Fits source) (param indent : List Char) :
    firstParameter? source params param indent =
      some (firstParameter source params param indent) := by
  simp only [firstParameter?, cut?_of_fits h, firstParameter, lineIndent?_eq h.start,
    Option.bind_eq_bind, Option.bind_some]
  split <;> rfl

theorem nextParameter?_eq (h : Span.Fits source ⟨last, params.stop⟩) (param indent : List Char) :
    nextParameter? source params last param indent =
      some (nextParameter source params last param indent) := by
  have hrest := cut?_of_prefix
    (List.takeWhile_prefix (l := slice source ⟨last, params.stop⟩) (· != '\n'))
  simp only [nextParameter?, cut?_of_fits h, nextParameter, lineIndent?_eq h.start,
    lineStart?_eq h.start, commaFrom?_zero, hrest, Option.bind_eq_bind, Option.bind_some]
  split
  · rfl
  · cases leadingComma? (slice source ⟨last, params.stop⟩) <;> rfl

theorem fits_nextParameter (h : Span.Fits source ⟨last, params.stop⟩) (param indent : List Char) :
    (nextParameter source params last param indent).span.Fits source := by
  have htail : slice source ⟨last, params.stop⟩ <+: dropBytes last source := takeBytes_isPrefix _ _
  unfold nextParameter
  dsimp only
  split
  · exact h.start.fits (h.start.add ((List.takeWhile_prefix _).trans htail)) (Nat.le_add_right _ _)
  · split
    next n hn =>
      -- Behind the comma, which takes one byte.
      obtain ⟨a, b, -, hs, rfl⟩ := leadingComma?_eq_some.1 hn
      have hcomma : byteLength (a ++ [',']) = byteLength a + 1 := byteLength_append a [',']
      have ha : a ++ [','] <+: dropBytes last source := by
        refine .trans ⟨b, ?_⟩ htail
        rw [hs, List.append_assoc, List.singleton_append]
      have hb := h.start.add ha
      rw [hcomma] at hb
      exact fits_insert hb _
    next => exact fits_insert h.start _

theorem fits_firstParameter (h : params.Fits source) (param indent : List Char) :
    (firstParameter source params param indent).span.Fits source := by
  unfold firstParameter
  split
  · exact fits_insert h.start _
  · exact fits_insert h.start _

theorem safe_appendParameter {last : Option Nat} (h : params.Fits source)
    (hl : ∀ n, last = some n → Span.Fits source ⟨n, params.stop⟩) (param indent : List Char) :
    Safe source (appendParameter? source params last param indent)
      (appendParameter source params last param indent) := by
  cases last with
  | none => exact ⟨firstParameter?_eq h param indent, fits_firstParameter h param indent⟩
  | some n =>
      exact ⟨nextParameter?_eq (hl n rfl) param indent, fits_nextParameter (hl n rfl) param indent⟩

end Parameters

section Imports

variable {d : Outline.ImportDecl}

def groupImports? (source : List Char) (decl : Outline.ImportDecl) (spec indent : List Char) :
    Option Splice := do
  let line ← lineEnd? source decl.span.stop
  let rest ← cut? source ⟨decl.span.stop, line⟩
  let trails := "//".toList.isPrefixOf (trimStart rest)
  let comment := if trails then ' ' :: trim rest else []
  let stop := if trails then line else decl.span.stop
  let parts ← decl.specs.mapM (cut? source)
  let specs := parts.map (indent ++ ·)
  let specs := ['\n'].intercalate specs ++ (if specs.isEmpty then [] else comment ++ ['\n'])
  return ⟨⟨decl.keywordEnd, stop⟩, " (\n".toList ++ specs ++ indent ++ spec ++ "\n)".toList⟩

def appendImport? (o : Outline) (spec indent : List Char) : Option Splice :=
  match o.importDecls.reverse.findSome? (·.list) with
  | some list => appendToInner? o.text list spec indent
  | none =>
    match o.importDecls.getLast? with
    | some decl => groupImports? o.text decl spec indent
    | none => do
      let line ← lineEnd? o.text o.packageEnd
      return insert line ("\n\nimport ".toList ++ spec)

theorem safe_groupImports (h : d.WellPlaced source) (spec indent : List Char) :
    Safe source (groupImports? source d spec indent) (groupImports source d spec indent) := by
  have hstop := h.span.stop
  have hle := h.keywordEnd.2.2
  constructor
  · have hline : cut? source ⟨d.span.stop, lineEnd source d.span.stop⟩ =
        some (lineRest source d.span.stop) := hstop.cut?_add (List.takeWhile_prefix _)
    have hspecs := mapM_cut? fun span hs => (h.specs span hs).1
    simp only [groupImports?, lineEnd?_eq hstop, hline, hspecs, groupImports,
      Option.bind_eq_bind, Option.bind_some, List.map_map]
    rfl
  · simp only [groupImports]
    split
    · exact h.keywordEnd.1.fits (isBoundary_lineEnd hstop) (Nat.le_trans hle (le_lineEnd _ _))
    · exact h.keywordEnd.1.fits hstop hle

theorem safe_appendImport {o : Outline} (h : o.WellPlaced) (spec indent : List Char) :
    Safe o.text (appendImport? o spec indent) (appendImport o spec indent) := by
  unfold appendImport? appendImport
  cases hl : o.importDecls.reverse.findSome? (·.list) with
  | some list =>
      obtain ⟨d, hd, hl⟩ := List.exists_of_findSome?_eq_some hl
      have hd := h.imports d (List.mem_reverse.1 hd)
      exact safe_appendToInner (hd.list list hl).1 spec indent
  | none =>
      cases hd : o.importDecls.getLast? with
      | some d => exact safe_groupImports (h.imports d (List.mem_of_getLast? hd)) spec indent
      | none =>
          obtain ⟨start, hp⟩ := h.package
          have hstop := hp.fits.stop
          exact ⟨by simp [lineEnd?_eq hstop], fits_insert (isBoundary_lineEnd hstop) _⟩

end Imports

def commentAbove? (source : List Char) (start : Nat) (comment : List Char) : Option Splice := do
  let line ← lineStart? source start
  let before ← cut? source ⟨line, start⟩
  if (trim before).isEmpty then return insert start ("// ".toList ++ comment ++ '\n' :: before)
  else return insert start ("\n// ".toList ++ comment ++ ['\n'])

theorem safe_commentAbove {start : Nat} (h : IsBoundary source start) (comment : List Char) :
    Safe source (commentAbove? source start comment) (commentAbove source start comment) := by
  have hb := cut?_of_fits ((isBoundary_lineStart h).fits h (lineStart_le source start))
  simp only [commentAbove?, lineStart?_eq h, hb, commentAbove, Option.bind_eq_bind,
    Option.bind_some]
  split
  · exact ⟨rfl, fits_insert h _⟩
  · exact ⟨rfl, fits_insert h _⟩

theorem safe_appendDeclaration (source code : List Char) :
    Safe source (some (appendDeclaration source code)) (appendDeclaration source code) := by
  obtain ⟨w, hs, _⟩ := exists_trimEnd source
  have h : IsBoundary source (byteLength (trimEnd source)) := ⟨trimEnd source, ⟨w, hs.symm⟩, rfl⟩
  exact ⟨rfl, h.fits (isBoundary_self source) h.le⟩

/-- Puts the text of a splice between the two parts of a text that it cuts off. -/
def patch? (s : Splice) (source : List Char) : Option (List Char) := do
  let head ← cut? source ⟨0, s.span.start⟩
  let tail ← cut? source ⟨s.span.stop, byteLength source⟩
  return head ++ s.text ++ tail

theorem patch?_eq {s : Splice} (h : s.span.Fits source) :
    s.patch? source = some (s.apply source) := by
  simp [patch?, h.start.cut?_front, h.stop.cut?_rest, apply]

end Splice

namespace Outline

variable {o : Outline} {owner name : String}

theorem needField_eq_ok {f : Field} (h : o.needField owner name = .ok f) :
    ∃ s, o.structure? owner = some s ∧ s.field? name = some f := by
  obtain ⟨s, hs, h⟩ := bind_eq_ok.1 h
  refine ⟨s, needStructure_eq_ok hs, ?_⟩
  split at h
  next g hg => rw [hg, Except.ok.inj h]
  next => cases h

theorem needMethod_eq_ok {m : Method} (h : o.needMethod owner name = .ok m) :
    ∃ i, o.interface? owner = some i ∧ i.method? name = some m := by
  obtain ⟨i, hi, h⟩ := bind_eq_ok.1 h
  refine ⟨i, needInterface_eq_ok hi, ?_⟩
  split at h
  next n hn => rw [hn, Except.ok.inj h]
  next => cases h

end Outline

namespace Edit

open Splice

/-- The splice of an edit from checked cuts. An error is one of the edit, and no result at all
stands for a cut that fails. -/
def checkedSplice (settings : Settings) (o : Outline) (e : Edit) :
    ExceptT Error Option (Option Splice) := do
  let indent := settings.indent.toList
  let annotate (span : Span) (a : Annotation) : Option Splice :=
    commentAbove? o.text span.start (a.render settings.dialect.marker)
  match e with
  | appendField owner field =>
    let s ← o.needStructure owner
    return some (← appendToInner? o.text s.inner field.render indent)
  | appendMethod owner method =>
    let i ← o.needInterface owner
    return some (← appendToInner? o.text i.inner method.render indent)
  | appendCode function code =>
    let f ← o.needFunction function
    let inner ← Outline.needBody f function
    return some (← appendToInner? o.text inner code.toList indent)
  | appendParameter function param =>
    let f ← o.needFunction function
    return some (← appendParameter? o.text f.paramsSpan f.lastParamEnd param.render indent)
  | appendImport origin =>
    if o.hasImport origin then return none
    else return some (← appendImport? o origin.render indent)
  | appendStructure draft => return some (appendDeclaration o.text draft.render)
  | appendInterface draft => return some (appendDeclaration o.text draft.render)
  | appendFunction draft => return some (appendDeclaration o.text draft.render)
  | annotateStructure name a => return some (← annotate (← o.needStructure name).span a)
  | annotateInterface name a => return some (← annotate (← o.needInterface name).span a)
  | annotateFunction key a => return some (← annotate (← o.needFunction key).span a)
  | annotateField owner field a => return some (← annotate (← o.needField owner field).span a)
  | annotateMethod owner method a => return some (← annotate (← o.needMethod owner method).span a)

/-- An edit comes to the same with checked cuts, and the place of its splice can be cut. -/
def Safe (source : List Char) (checked : ExceptT Error Option (Option Splice))
    (answer : Except Error (Option Splice)) : Prop :=
  checked.run = some answer ∧ ∀ s, answer = .ok (some s) → s.span.Fits source

theorem safe_bind {α : Type} {source : List Char} {t : Except Error α}
    {f : α → ExceptT Error Option (Option Splice)} {g : α → Except Error (Option Splice)}
    (h : ∀ a, t = .ok a → Safe source (f a) (g a)) :
    Safe source ((t : ExceptT Error Option α) >>= f) (t >>= g) := by
  cases t with
  | error e =>
      refine ⟨rfl, fun s hs => ?_⟩
      cases hs
  | ok a => exact h a rfl

theorem safe_nothing (source : List Char) : Safe source (return none) (.ok none) := by
  refine ⟨rfl, fun s hs => ?_⟩
  cases hs

theorem safe_return {source : List Char} {checked : Option Splice} {s : Splice}
    (h : Splice.Safe source checked s) :
    Safe source (do return some (← checked)) (.ok (some s)) := by
  obtain ⟨rfl, hf⟩ := h
  refine ⟨rfl, fun s' hs' => ?_⟩
  cases hs'
  exact hf

theorem safe_splice {o : Outline} (h : o.WellPlaced) (settings : Settings) (e : Edit) :
    Safe o.text (e.checkedSplice settings o) (e.splice? settings o) := by
  cases e with
  | appendField owner field =>
      refine safe_bind fun s hs => safe_return ?_
      have hs := h.structures s (Table.mem_values (Outline.needStructure_eq_ok hs))
      exact safe_appendToInner hs.inner _ _
  | appendMethod owner method =>
      refine safe_bind fun i hi => safe_return ?_
      have hi := h.interfaces i (Table.mem_values (Outline.needInterface_eq_ok hi))
      exact safe_appendToInner hi.inner _ _
  | appendCode function code =>
      refine safe_bind fun f hf => safe_bind fun inner hi => safe_return ?_
      have hf := h.functions f (Table.mem_values (Outline.needFunction_eq_ok hf))
      exact safe_appendToInner (hf.inner inner (Outline.needBody_eq_ok hi)).1 _ _
  | appendParameter function param =>
      refine safe_bind fun f hf => safe_return ?_
      have hf := h.functions f (Table.mem_values (Outline.needFunction_eq_ok hf))
      refine safe_appendParameter hf.paramsSpan (fun n hn => ?_) _ _
      obtain ⟨hb, _, hle, _⟩ := hf.lastParamEnd n hn
      exact hb.fits hf.paramsSpan.stop hle
  | appendImport origin =>
      simp only [checkedSplice, splice?]
      split
      · exact safe_nothing o.text
      · exact safe_return (safe_appendImport h _ _)
  | appendStructure draft | appendInterface draft | appendFunction draft =>
      exact safe_return (safe_appendDeclaration _ _)
  | annotateStructure name a =>
      refine safe_bind fun s hs => safe_return (safe_commentAbove ?_ _)
      exact (h.structures s (Table.mem_values (Outline.needStructure_eq_ok hs))).span.start
  | annotateInterface name a =>
      refine safe_bind fun i hi => safe_return (safe_commentAbove ?_ _)
      exact (h.interfaces i (Table.mem_values (Outline.needInterface_eq_ok hi))).span.start
  | annotateFunction key a =>
      refine safe_bind fun f hf => safe_return (safe_commentAbove ?_ _)
      exact (h.functions f (Table.mem_values (Outline.needFunction_eq_ok hf))).span.start
  | annotateField owner name a =>
      refine safe_bind fun f hf => safe_return (safe_commentAbove ?_ _)
      obtain ⟨s, hs, hf⟩ := Outline.needField_eq_ok hf
      have hs := h.structures s (Table.mem_values hs)
      exact (hs.fields f (List.mem_of_find?_eq_some hf)).1.start
  | annotateMethod owner name a =>
      refine safe_bind fun m hm => safe_return (safe_commentAbove ?_ _)
      obtain ⟨i, hi, hm⟩ := Outline.needMethod_eq_ok hm
      have hi := h.interfaces i (Table.mem_values hi)
      exact (hi.methods m (List.mem_of_find?_eq_some hm)).1.start

end Edit

namespace Document

variable {settings : Settings} {find : Finder} {text : List Char} {d : Document}

/-- Applies an edit with every cut checked. -/
def checkedApply (d : Document) (find : Finder) (e : Edit) :
    Option (Except Error Unit × Document) := do
  match ← (e.checkedSplice d.settings d.outline).run with
  | .error e => return (.error e, d)
  | .ok none => return (.ok (), d)
  | .ok (some s) => return d.commit find (← s.patch? d.text)

/-- Whatever requests came before, an edit cuts its text at boundaries only: it comes to the same
with every cut checked, and what its splice replaces can be cut out of the text. -/
theorem checkedApply_run (h : ofText settings find text = .ok d) (requests : List Request)
    (find' : Finder) (e : Edit) :
    (d.run requests).checkedApply find' e = some ((d.run requests).apply find' e) ∧
      ∀ s, e.splice? (d.run requests).settings (d.run requests).outline = .ok (some s) →
        s.span.Fits (d.run requests).text := by
  have hw := Outline.wellPlaced_of_ofText (ofText_run h requests)
  obtain ⟨hs, hf⟩ := Edit.safe_splice hw (d.run requests).settings e
  refine ⟨?_, hf⟩
  simp only [checkedApply, hs, apply]
  cases ha : e.splice? (d.run requests).settings (d.run requests).outline with
  | error e => rfl
  | ok s =>
      cases s with
      | none => rfl
      | some s =>
          have happly : s.patch? (d.run requests).text = _ := Splice.patch?_eq (hf s ha)
          simp [happly]

/-- A parameter behind a comment with a comma in it, in a text with characters of several bytes. -/
theorem checkedApply_run_wide :
    let settings : Settings := ⟨⟨"gen", false⟩, "\t", .verbatim⟩
    let find : Finder := fun _ => .error (.unresolved "no packages")
    let requests : List Request := [⟨find, .annotateFunction "f" ⟨"größe", ["ä ö"]⟩⟩]
    let e : Edit := .appendParameter "f" (.mk (some "ß") (.simple "string") false)
    ∃ d, ofText settings find "package é\n\nfunc f(ü int /* ö, */ ,\n) \x7b\x7d\n".toList = .ok d ∧
      (d.run requests).checkedApply find e = some ((d.run requests).apply find e) ∧
      ∀ s, e.splice? (d.run requests).settings (d.run requests).outline = .ok (some s) →
        s.span.Fits (d.run requests).text := by
  intro settings find requests e
  have hok : (ofText settings find
      "package é\n\nfunc f(ü int /* ö, */ ,\n) \x7b\x7d\n".toList).isOk := by
    decide +kernel
  cases hd : ofText settings find "package é\n\nfunc f(ü int /* ö, */ ,\n) \x7b\x7d\n".toList with
  | error e =>
      rw [hd] at hok
      cases hok
  | ok d => exact ⟨d, rfl, checkedApply_run hd requests find e⟩

end Document

end GoOutline
