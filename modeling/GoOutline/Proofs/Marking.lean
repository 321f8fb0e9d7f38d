import GoOutline.Docs
import GoOutline.Proofs.Quoting
import GoOutline.Proofs.Strictness

/-!
Annotations that are written as comments. An argument is written plainly or between quotes, and read
as what its first character says; what stands in front of it is one blank, and what stands behind it
is another one or the end of the line.
-/

namespace GoOutline

open Text

namespace Text

variable {s rest : List Char}

/-- A word ends at a blank or with the text. -/
theorem word_append (hs : ∀ c ∈ s, isBlank c = false) (hr : ∀ c ∈ rest.head?, isBlank c) :
    word (s ++ rest) = (s, rest) := by
  have hall : ∀ c ∈ s, (!isBlank c) = true := fun c hc => by simp [hs c hc]
  have htake : rest.takeWhile (!isBlank ·) = [] := by
    cases rest with
    | nil => rfl
    | cons c r => simp [hr c rfl]
  have hdrop : rest.dropWhile (!isBlank ·) = rest := by
    cases rest with
    | nil => rfl
    | cons c r => simp [hr c rfl]
  rw [word, List.takeWhile_append_of_pos hall, List.dropWhile_append_of_pos hall, htake, hdrop,
    List.append_nil]

theorem trimStart_of_head (h : ∀ c ∈ s.head?, isBlank c = false) : trimStart s = s := by
  cases s with
  | nil => rfl
  | cons c s => simp [trimStart, h c rfl]

theorem head?_trim (s : List Char) : ∀ c ∈ (trim s).head?, isBlank c = false := by
  intro c hc
  have hstart : (trimStart s).head? = some c := by
    obtain ⟨w, hw, -⟩ := Syntax.Lexer.exists_trimEnd_append (trimStart s)
    rw [hw, List.head?_append, show (trimEnd (trimStart s)).head? = some c from hc, Option.some_or]
  have hnot := List.head?_dropWhile_not isBlank s
  rw [show (s.dropWhile isBlank).head? = some c from hstart] at hnot
  simpa using hnot

end Text

namespace Annotation

variable {marker line arg : String} {a : Annotation} {s r rest literal value : List Char} {c : Char}

theorem not_isBlank_of_isNamePart (h : isNamePart c) : isBlank c = false := by
  have hall : ∀ r ∈ blankRanges, ∀ n ∈ List.range' r.1 (r.2 + 1 - r.1),
      isNamePart (Char.ofNat n) = false := by decide +kernel
  by_contra hb
  rw [Bool.not_eq_false] at hb
  obtain ⟨r, hr, hc⟩ := List.any_eq_true.1 hb
  rw [Bool.and_eq_true, decide_eq_true_eq, decide_eq_true_eq] at hc
  have hn := hall r hr c.toNat (List.mem_range'_1.2 ⟨hc.1, by omega⟩)
  rw [Char.ofNat_toNat, h] at hn
  cases hn

theorem not_isBlank_of_isName (h : isName s) : ∀ c ∈ s, isBlank c = false := by
  cases s with
  | nil => cases h
  | cons c s =>
      rw [isName, Bool.and_eq_true, List.all_eq_true] at h
      intro d hd
      rcases List.mem_cons.1 hd with rfl | hd
      · exact not_isBlank_of_isNamePart (by simp [isNamePart, h.1])
      · exact not_isBlank_of_isNamePart (h.2 d hd)

theorem readArgs_nil : readArgs [] = .ok [] := by
  rw [readArgs]
  rfl

/-- An argument without a quote in front is a word. -/
theorem readArgs_word (hs : trimStart s = c :: r) (hc : c ≠ '"') :
    readArgs s = (String.ofList (word (c :: r)).1 :: ·) <$> readArgs (word (c :: r)).2 := by
  rw [readArgs]
  split
  next h =>
    rw [hs] at h
    cases h
  next d t h =>
    rw [hs] at h
    cases h
    rw [if_neg hc]

/-- An argument with a quote in front is a literal, with a blank or nothing behind it. -/
theorem readArgs_literal (hs : trimStart s = '"' :: r)
    (hl : Quoted.literal? ('"' :: r) = some (literal, rest)) (hv : Quoted.unquote literal = some value)
    (hr : ∀ c ∈ rest.head?, isBlank c) :
    readArgs s = (String.ofList value :: ·) <$> readArgs rest := by
  have hblank : rest.head?.any (!isBlank ·) = false := by
    cases rest with
    | nil => rfl
    | cons c rest => simp [hr c rfl]
  rw [readArgs]
  split
  next h =>
    rw [hs] at h
    cases h
  next d t h =>
    rw [hs] at h
    cases h
    rw [if_pos rfl]
    split
    next h =>
      rw [hl] at h
      cases h
    next l b h =>
      rw [hl] at h
      cases h
      rw [hv, hblank]
      rfl

/-- What an argument is written as when it needs no quotes. -/
theorem of_not_needsQuotes (h : needsQuotes s = false) :
    s ≠ [] ∧ s.head? ≠ some '"' ∧ ∀ c ∈ s, isBlank c = false := by
  simp only [needsQuotes, Bool.or_eq_false_iff, beq_eq_false_iff_ne, List.any_eq_false,
    List.isEmpty_eq_false_iff, Bool.not_eq_true] at h
  exact ⟨h.1.1, h.1.2, h.2⟩

/-- One argument is read as it was written, whatever it holds. -/
theorem readArgs_renderArg (hr : ∀ c ∈ rest.head?, isBlank c) (arg : String) :
    readArgs (' ' :: (renderArg arg ++ rest)) = (arg :: ·) <$> readArgs rest := by
  have htrim (t : List Char) (ht : ∀ c ∈ t.head?, isBlank c = false) :
      trimStart (' ' :: t) = t := by
    have hspace : trimStart (' ' :: t) = trimStart t := rfl
    rw [hspace, trimStart_of_head ht]
  cases hq : needsQuotes arg.toList with
  | true =>
      have hw : renderArg arg = Quoted.quote arg.toList := by rw [renderArg, if_pos hq]
      have hfirst : ∀ d ∈ (Quoted.quote arg.toList ++ rest).head?, isBlank d = false := by
        rintro d ⟨⟩
        decide
      have hread := readArgs_literal (htrim _ hfirst) (Quoted.literal?_quote arg.toList rest)
        (Quoted.unquote_quote arg.toList) hr
      rw [String.ofList_toList] at hread
      rw [hw]
      exact hread
  | false =>
      obtain ⟨hne, hhead, hblank⟩ := of_not_needsQuotes hq
      have hw : renderArg arg = arg.toList := by rw [renderArg, hq]; rfl
      obtain ⟨c, t, hct⟩ := List.exists_cons_of_ne_nil hne
      have hc : c ≠ '"' := by
        rintro rfl
        exact hhead (by rw [hct]; rfl)
      have hfirst : ∀ d ∈ (arg.toList ++ rest).head?, isBlank d = false := by
        rw [hct]
        rintro d ⟨⟩
        exact hblank c (by simp [hct])
      have hs : trimStart (' ' :: (arg.toList ++ rest)) = c :: (t ++ rest) := by
        rw [htrim _ hfirst, hct, List.cons_append]
      rw [hw, readArgs_word hs hc, ← List.cons_append, ← hct, word_append hblank hr,
        String.ofList_toList]

/-- The arguments behind a name. -/
def renderArgs (args : List String) : List Char := args.flatMap fun arg => ' ' :: renderArg arg

theorem head?_renderArgs (args : List String) : ∀ c ∈ (renderArgs args).head?, isBlank c := by
  cases args with
  | nil => simp [renderArgs]
  | cons arg args =>
      rintro c ⟨⟩
      decide

theorem readArgs_renderArgs (args : List String) : readArgs (renderArgs args) = .ok args := by
  induction args with
  | nil => exact readArgs_nil
  | cons arg args ih =>
      rw [renderArgs, List.flatMap_cons, List.cons_append, ← renderArgs,
        readArgs_renderArg (head?_renderArgs args), ih]
      rfl

theorem readBody_render (hn : isName a.name.toList) :
    readBody (a.name.toList ++ renderArgs a.args) = .ok a := by
  have hname : a.name.toList.isEmpty = false := by
    cases h : a.name.toList with
    | nil => rw [h] at hn; cases hn
    | cons c s => rfl
  rw [readBody, word_append (not_isBlank_of_isName hn) (head?_renderArgs a.args)]
  simp only [hname, hn, readArgs_renderArgs, String.ofList_toList]
  rfl

/-- An argument is not empty as it is written, and ends in no blank. -/
theorem exists_renderArg (arg : String) : ∃ s c, renderArg arg = s ++ [c] ∧ isBlank c = false := by
  cases hq : needsQuotes arg.toList with
  | true => exact ⟨'"' :: Quoted.encode arg.toList, '"', by rw [renderArg, if_pos hq]; rfl, by decide⟩
  | false =>
      obtain ⟨hne, -, hblank⟩ := of_not_needsQuotes hq
      obtain ⟨s, c, hs⟩ := (List.eq_nil_or_concat' arg.toList).resolve_left hne
      exact ⟨s, c, by rw [renderArg, hq, ← hs]; rfl, hblank c (by simp [hs])⟩

theorem exists_renderBody (hn : isName s) (args : List String) :
    ∃ t c, s ++ renderArgs args = t ++ [c] ∧ isBlank c = false := by
  rcases List.eq_nil_or_concat' args with rfl | ⟨front, last, rfl⟩
  · obtain ⟨t, c, ht⟩ := (List.eq_nil_or_concat' s).resolve_left (by rintro rfl; cases hn)
    exact ⟨t, c, by simp [renderArgs, ← ht], not_isBlank_of_isName hn c (by simp [ht])⟩
  · obtain ⟨t, c, ht, hc⟩ := exists_renderArg last
    refine ⟨s ++ renderArgs front ++ ' ' :: t, c, ?_, hc⟩
    simp [renderArgs, ht]

/-- Nothing is cut off from the line of an annotation. -/
theorem trim_render (hm : ∀ c ∈ marker.toList.head?, isBlank c = false) (hn : isName a.name.toList) :
    trim (a.render marker) = a.render marker := by
  have hstart : trimStart (a.render marker) = a.render marker := by
    refine trimStart_of_head ?_
    rw [render]
    cases h : marker.toList with
    | nil =>
        rintro c ⟨⟩
        decide
    | cons d t => simpa [h] using hm
  obtain ⟨t, c, ht, hc⟩ := exists_renderBody hn a.args
  have hend : a.render marker = (marker.toList ++ ':' :: t) ++ [c] := by
    have hform : a.render marker = marker.toList ++ ':' :: (a.name.toList ++ renderArgs a.args) := by
      simp [render, renderArgs]
    rw [hform, ht]
    simp
  rw [trim, hstart, hend, Syntax.Lexer.trimEnd_concat hc]

/-- A line that says an annotation with a proper name says nothing else. -/
theorem ofLine?_of_isName (hm : ∀ c ∈ marker.toList.head?, isBlank c = false)
    (hn : isName a.name.toList) : ofLine? marker (String.ofList (a.render marker)) = .ok (some a) := by
  have hform : a.render marker = marker.toList ++ ':' :: (a.name.toList ++ renderArgs a.args) := by
    simp [render, renderArgs]
  simp only [ofLine?, String.toList_ofList, trim_render hm hn, after?_marker.2 hform,
    readBody_render hn]

theorem isName_of_readBody {body : List Char} (h : readBody body = .ok a) : isName a.name.toList := by
  simp only [readBody] at h
  split at h
  · cases h
  split at h
  · cases h
  next hname =>
    obtain ⟨args, -, h⟩ := bind_eq_ok.1 h
    cases h
    simpa using hname

/-- A line that is an annotation shows that the marker has no blank in front, and the annotation a
proper name. -/
theorem of_ofLine? (h : ofLine? marker line = .ok (some a)) :
    (∀ c ∈ marker.toList.head?, isBlank c = false) ∧ isName a.name.toList := by
  simp only [ofLine?] at h
  cases hb : (after? marker (trim line.toList)).bind (after? ":") with
  | none =>
      rw [hb] at h
      cases h
  | some body =>
      rw [hb] at h
      dsimp only at h
      split at h
      next b hread =>
        cases h
        refine ⟨fun c hc => ?_, isName_of_readBody hread⟩
        have hline := after?_marker.1 hb
        refine head?_trim line.toList c ?_
        rw [hline, List.head?_append, hc]
        rfl
      next => cases h

theorem newline_not_mem_render (hm : '\n' ∉ marker.toList) (hn : isName a.name.toList) :
    '\n' ∉ a.render marker := by
  have hname : '\n' ∉ a.name.toList := fun h => by
    have hblank := not_isBlank_of_isName hn '\n' h
    cases hblank
  have harg (arg : String) : '\n' ∉ renderArg arg := by
    intro h
    cases hq : needsQuotes arg.toList with
    | true =>
        rw [renderArg, if_pos hq] at h
        cases Quoted.isControl_of_mem_quote h
    | false =>
        rw [renderArg, hq] at h
        cases (of_not_needsQuotes hq).2.2 '\n' h
  simp only [render, List.mem_append, List.mem_cons, List.mem_flatMap, not_or, not_exists, not_and]
  exact ⟨⟨hm, by decide, hname⟩, fun arg _ => ⟨by decide, harg arg⟩⟩

/-- What is said in a comment can be read there. An annotation with a proper name, whatever its
arguments are, is cleaned out of its line comment as the one line that it was written as, and this
line reads back as the annotation; it has no line feed but those of the marker. Any line that is an
annotation at all can be written again so that the same annotation is read. -/
theorem ofLine?_render :
    (∀ (marker : String) (a : Annotation), (∀ c ∈ marker.toList.head?, isBlank c = false) →
      isName a.name.toList →
        Docs.clean ("// ".toList ++ a.render marker) = [a.render marker] ∧
        ofLine? marker (String.ofList (a.render marker)) = .ok (some a) ∧
        ('\n' ∉ marker.toList → '\n' ∉ a.render marker)) ∧
    ∀ (marker line : String) (a : Annotation), ofLine? marker line = .ok (some a) →
      ofLine? marker (String.ofList (a.render marker)) = .ok (some a) := by
  refine ⟨fun marker a hm hn => ⟨?_, ofLine?_of_isName hm hn, fun h => newline_not_mem_render h hn⟩,
    fun marker line a h => ?_⟩
  · have hclean : Docs.clean ("// ".toList ++ a.render marker) = [trim (' ' :: a.render marker)] := rfl
    have hspace : trim (' ' :: a.render marker) = trim (a.render marker) := rfl
    rw [hclean, hspace, trim_render hm hn]
  · exact ofLine?_of_isName (of_ofLine? h).1 (of_ofLine? h).2

/-- No argument, one that looks like a literal, line breaks, and blanks that no escape is for. -/
theorem ofLine?_render_odd_arguments :
    let a : Annotation := ⟨"x.y-z", ["", "\"q\"", "a\"b\\", "\r\n\t", "\u00a0\u2028", "\u0085", "/*"]⟩
    (∀ c ∈ "gen".toList.head?, isBlank c = false) ∧ isName a.name.toList ∧
      '\n' ∉ "gen".toList ∧ '\n' ∉ a.render "gen" ∧
      Docs.clean ("// ".toList ++ a.render "gen") = [a.render "gen"] ∧
      ofLine? "gen" (String.ofList (a.render "gen")) = .ok (some a) := by
  intro a
  have hm : ∀ c ∈ "gen".toList.head?, isBlank c = false := by
    intro c hc
    obtain rfl : 'g' = c := Option.some.inj hc
    decide
  have hn : isName a.name.toList := by decide
  obtain ⟨hclean, hline, hfeed⟩ := ofLine?_render.1 "gen" a hm hn
  have hagain := ofLine?_render.2 "gen" (String.ofList (a.render "gen")) a hline
  exact ⟨hm, hn, by decide, hfeed (by decide), hclean, hagain⟩

end Annotation

end GoOutline
