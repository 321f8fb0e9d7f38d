import GoOutline.Proofs.Closings
import GoOutline.Proofs.Marking
import GoOutline.Proofs.Settled

/-!
The grammar of annotations. Behind the marker stand a colon, a name and arguments, and blanks stand
in front of each argument. A line is read as an annotation exactly if it has this form; what is
found where the form breaks off says what is wrong with any other line.
-/

namespace GoOutline

open Text

namespace Text

variable {s a w : List Char}

theorem trimStart_append (hw : ∀ c ∈ w, isBlank c) (hs : ∀ c ∈ s.head?, isBlank c = false) :
    trimStart (w ++ s) = s := by
  have hdrop : trimStart (w ++ s) = trimStart s := List.dropWhile_append_of_pos hw
  rw [hdrop, trimStart_of_head hs]

/-- A text starts with characters of one kind, up to the first that is not of this kind. -/
theorem exists_front (p : Char → Bool) (s : List Char) :
    ∃ w r, s = w ++ r ∧ (∀ c ∈ w, p c) ∧ ∀ c ∈ r.head?, p c = false := by
  refine ⟨s.takeWhile p, s.dropWhile p, List.takeWhile_append_dropWhile.symm,
    fun _ hc => List.mem_takeWhile_imp hc, fun c hc => ?_⟩
  have hnot := List.head?_dropWhile_not p s
  rw [Option.mem_def.1 hc] at hnot
  simpa using hnot

theorem exists_word (s : List Char) :
    ∃ w r, s = w ++ r ∧ (∀ c ∈ w, isBlank c = false) ∧ ∀ c ∈ r.head?, isBlank c := by
  simpa using exists_front (!isBlank ·) s

/-- No blanks are left behind a text that has been trimmed. -/
theorem eq_nil_of_trim (h : trim s = a ++ w) (hw : ∀ c ∈ w, isBlank c) : w = [] := by
  have ha : trimEnd a = a ++ w := by
    rw [← Syntax.Lexer.trimEnd_append_blanks hw, ← h, trim, trimEnd_trimEnd]
  obtain ⟨v, hv, -⟩ := Syntax.Lexer.exists_trimEnd_append a
  have hlen := congrArg List.length hv
  rw [ha, List.length_append, List.length_append] at hlen
  exact List.length_eq_zero_iff.1 (by omega)

end Text

namespace Annotation

open Quoted

section Grammar

/-- A letter or an underscore, then letters, digits, underscores, dots and dashes. -/
def Name (s : List Char) : Prop := ∃ c t, s = c :: t ∧
  (('A' ≤ c ∧ c ≤ 'Z') ∨ ('a' ≤ c ∧ c ≤ 'z') ∨ c = '_') ∧
  ∀ d ∈ t, ('A' ≤ d ∧ d ≤ 'Z') ∨ ('a' ≤ d ∧ d ≤ 'z') ∨ ('0' ≤ d ∧ d ≤ '9') ∨
    d = '_' ∨ d = '.' ∨ d = '-'

def Blanks (s : List Char) : Prop := s ≠ [] ∧ ∀ c ∈ s, isBlank c

/-- An argument as it is written, with what it denotes. -/
inductive Argument : List Char → String → Prop
  | word {s : List Char} (hne : s ≠ []) (hs : ∀ c ∈ s, isBlank c = false)
      (hq : s.head? ≠ some '"') : Argument s (String.ofList s)
  | quoted {b value : List Char} (hb : Guarded b) (hv : unquote ('"' :: b ++ ['"']) = some value) :
      Argument ('"' :: b ++ ['"']) (String.ofList value)

/-- Any number of arguments, with blanks in front of each. -/
inductive Arguments : List Char → List String → Prop
  | nil : Arguments [] []
  | cons {w a s : List Char} {v : String} {vs : List String} (hw : Blanks w) (ha : Argument a v)
      (hs : Arguments s vs) : Arguments (w ++ a ++ s) (v :: vs)

/-- What starts with a quote and with no argument. -/
inductive Broken : List Char → AnnotationFault → Prop
  | unterminated {s : List Char} (h : ∀ b rest, s = b ++ '"' :: rest → ¬ Guarded b) :
      Broken ('"' :: s) .unterminated
  | badEscape {b rest : List Char} (hb : Guarded b) (hv : unquote ('"' :: b ++ ['"']) = none) :
      Broken ('"' :: b ++ ['"'] ++ rest) .badEscape
  | noBlank {b value rest : List Char} {c : Char} (hv : unquote ('"' :: b ++ ['"']) = some value)
      (hc : isBlank c = false) : Broken ('"' :: b ++ ['"'] ++ c :: rest) .noBlank

/-- What stands behind the colon and is no annotation. -/
inductive Refused : List Char → AnnotationFault → Prop
  | missingName {s : List Char} (h : ∀ c ∈ s.head?, isBlank c) : Refused s .missingName
  | badName {name s : List Char} (hne : name ≠ []) (hb : ∀ c ∈ name, isBlank c = false)
      (hs : ∀ c ∈ s.head?, isBlank c) (hn : ¬ Name name) : Refused (name ++ s) .badName
  | argument {name s w bad : List Char} {vs : List String} {fault : AnnotationFault}
      (hn : Name name) (hs : Arguments s vs) (hw : Blanks w) (hb : Broken bad fault) :
      Refused (name ++ (s ++ (w ++ bad))) fault

end Grammar

variable {marker line : String} {a : Annotation} {b s t w r rest bad name : List Char} {c : Char}
  {v : String} {vs : List String} {fault : AnnotationFault}

section Words

theorem isNameStart_iff :
    isNameStart c ↔ ('A' ≤ c ∧ c ≤ 'Z') ∨ ('a' ≤ c ∧ c ≤ 'z') ∨ c = '_' := by
  have hform : isNameStart c = ((decide ('A' ≤ c ∧ c ≤ 'Z') ||
      (decide ('a' ≤ c) && decide (c ≤ 'z'))) || c == '_') := rfl
  simp only [hform, Bool.or_eq_true, Bool.and_eq_true, decide_eq_true_eq, beq_iff_eq, or_assoc]

theorem isNamePart_iff : isNamePart c ↔ ('A' ≤ c ∧ c ≤ 'Z') ∨ ('a' ≤ c ∧ c ≤ 'z') ∨
    ('0' ≤ c ∧ c ≤ '9') ∨ c = '_' ∨ c = '.' ∨ c = '-' := by
  have hform : isNamePart c =
      (isNameStart c || (decide ('0' ≤ c) && decide (c ≤ '9')) || c == '.' || c == '-') := rfl
  simp only [hform, isNameStart_iff, Bool.or_eq_true, Bool.and_eq_true, decide_eq_true_eq,
    beq_iff_eq]
  tauto

theorem isName_iff : isName s ↔ Name s := by
  cases s with
  | nil => simp [isName, Name]
  | cons c t =>
      simp only [isName, Bool.and_eq_true, List.all_eq_true, isNameStart_iff, isNamePart_iff]
      constructor
      · rintro ⟨hc, ht⟩
        exact ⟨c, t, rfl, hc, ht⟩
      · rintro ⟨d, u, he, hc, ht⟩
        cases he
        exact ⟨hc, ht⟩

theorem Blanks.head? (h : Blanks w) (s : List Char) : ∀ c ∈ (w ++ s).head?, isBlank c := by
  obtain ⟨c, w, rfl⟩ := List.exists_cons_of_ne_nil h.1
  rintro c ⟨⟩
  exact h.2 c List.mem_cons_self

theorem Argument.head? (h : Argument s v) (r : List Char) :
    ∀ c ∈ (s ++ r).head?, isBlank c = false := by
  cases h with
  | word hne hs hq =>
      obtain ⟨c, s, rfl⟩ := List.exists_cons_of_ne_nil hne
      rintro c ⟨⟩
      exact hs c List.mem_cons_self
  | quoted hb hv =>
      rintro c ⟨⟩
      decide

theorem Arguments.head? (h : Arguments s vs) (hr : ∀ c ∈ r.head?, isBlank c) :
    ∀ c ∈ (s ++ r).head?, isBlank c := by
  cases h with
  | nil => exact hr
  | cons hw ha hs =>
      rw [List.append_assoc, List.append_assoc]
      exact hw.head? _

end Words

section Steps

theorem readArgs_blanks (h : ∀ c ∈ s, isBlank c) : readArgs s = .ok [] := by
  have hs : trimStart s = [] := List.dropWhile_eq_nil_iff.2 h
  rw [readArgs]
  split
  next => rfl
  next hc =>
    rw [hs] at hc
    cases hc

/-- A quote starts a literal that is read as an argument, or says what is wrong with it. -/
theorem readArgs_quote (hs : trimStart s = '"' :: r) : readArgs s =
    match literal? ('"' :: r) with
    | none => .error .unterminated
    | some (literal, rest) =>
      match unquote literal with
      | none => .error .badEscape
      | some value =>
        if rest.head?.any (!isBlank ·) then .error .noBlank
        else (String.ofList value :: ·) <$> readArgs rest := by
  rw [readArgs]
  split
  next h =>
    rw [hs] at h
    cases h
  next d t h =>
    rw [hs] at h
    cases h
    rw [if_pos rfl]
    split
    next hl => rw [hl]
    next literal rest hl => cases hu : unquote literal <;> simp only [hl, hu]

theorem readArgs_argument (hw : ∀ c ∈ w, isBlank c) (ha : Argument s v)
    (hr : ∀ c ∈ rest.head?, isBlank c) :
    readArgs (w ++ s ++ rest) = (v :: ·) <$> readArgs rest := by
  have htrim : trimStart (w ++ s ++ rest) = s ++ rest := by
    rw [List.append_assoc, trimStart_append hw (ha.head? rest)]
  cases ha with
  | word hne hs hq =>
      obtain ⟨c, s, rfl⟩ := List.exists_cons_of_ne_nil hne
      have hc : c ≠ '"' := fun hc => hq (by rw [hc]; rfl)
      rw [List.cons_append] at htrim
      rw [readArgs_word htrim hc, ← List.cons_append, word_append hs hr]
  | quoted hb hv =>
      exact readArgs_literal htrim (literal?_eq_some_iff.2 ⟨_, rfl, by simp, hb⟩) hv hr

theorem readArgs_broken (hw : ∀ c ∈ w, isBlank c) (h : Broken bad fault) :
    readArgs (w ++ bad) = .error fault := by
  have hquote (r : List Char) : trimStart (w ++ '"' :: r) = '"' :: r := by
    refine trimStart_append hw ?_
    rintro c ⟨⟩
    decide
  cases h with
  | @unterminated s h =>
      have hl : literal? ('"' :: s) = none := by
        refine Option.eq_none_iff_forall_ne_some.2 ?_
        rintro ⟨literal, rest⟩ hl
        obtain ⟨b, rfl, hs, hb⟩ := literal?_eq_some_iff.1 hl
        exact h b rest (by simpa using hs) hb
      rw [readArgs_quote (hquote s), hl]
  | @badEscape b rest hb hv =>
      have hl : literal? ('"' :: (b ++ ['"'] ++ rest)) = some ('"' :: b ++ ['"'], rest) :=
        literal?_eq_some_iff.2 ⟨b, rfl, rfl, hb⟩
      refine (readArgs_quote (hquote (b ++ ['"'] ++ rest))).trans ?_
      simp only [hl, hv]
  | @noBlank b value rest c hv hc =>
      have hl : literal? ('"' :: (b ++ ['"'] ++ c :: rest)) = some ('"' :: b ++ ['"'], c :: rest) :=
        literal?_of_unquote hv (c :: rest)
      refine (readArgs_quote (hquote (b ++ ['"'] ++ c :: rest))).trans ?_
      have hnot : (c :: rest).head?.any (!isBlank ·) := by simp [hc]
      simp only [hl, hv, hnot, if_true]

end Steps

section Runs

theorem readArgs_append (h : Arguments s vs) (hr : ∀ c ∈ r.head?, isBlank c) :
    readArgs (s ++ r) = (vs ++ ·) <$> readArgs r := by
  induction h with
  | nil =>
      rw [List.nil_append]
      cases readArgs r <;> rfl
  | @cons w t s v vs hw ha hs ih =>
      rw [List.append_assoc, readArgs_argument hw.2 ha (hs.head? hr), ih]
      cases readArgs r <;> rfl

/-- What stands behind arguments: nothing but blanks, or something that is no argument. -/
def Stops (s : List Char) : Prop :=
  (∀ c ∈ s, isBlank c) ∨ ∃ w bad fault, s = w ++ bad ∧ Blanks w ∧ Broken bad fault

/-- What is not blank starts with an argument, or with what is none. -/
theorem argument_or_broken (hc : isBlank c = false) (t : List Char) :
    (∃ s v r, c :: t = s ++ r ∧ Argument s v ∧ ∀ d ∈ r.head?, isBlank d) ∨
      ∃ fault, Broken (c :: t) fault := by
  by_cases hq : c = '"'
  · subst hq
    cases hl : literal? ('"' :: t) with
    | none =>
        refine .inr ⟨.unterminated, .unterminated fun b rest ht hb => ?_⟩
        have hsome := literal?_eq_some_iff.2 ⟨b, rfl, (by simp [ht] : '"' :: t = _ ++ rest), hb⟩
        rw [hl] at hsome
        cases hsome
    | some x =>
        obtain ⟨literal, rest⟩ := x
        obtain ⟨b, rfl, ht, hb⟩ := literal?_eq_some_iff.1 hl
        rw [ht]
        cases hu : unquote ('"' :: b ++ ['"']) with
        | none => exact .inr ⟨.badEscape, .badEscape hb hu⟩
        | some value =>
            cases rest with
            | nil => exact .inl ⟨_, _, [], rfl, .quoted hb hu, by simp⟩
            | cons d rest =>
                cases hd : isBlank d with
                | true => exact .inl ⟨_, _, d :: rest, rfl, .quoted hb hu, by simpa using hd⟩
                | false => exact .inr ⟨.noBlank, .noBlank hu hd⟩
  · obtain ⟨w, r, ht, hw, hr⟩ := exists_word t
    have hword : ∀ d ∈ c :: w, isBlank d = false := List.forall_mem_cons.2 ⟨hc, hw⟩
    exact .inl ⟨c :: w, _, r, congrArg (c :: ·) ht, .word (by simp) hword (by simpa using hq), hr⟩

theorem exists_arguments (hs : ∀ c ∈ s.head?, isBlank c) :
    ∃ t vs r, s = t ++ r ∧ Arguments t vs ∧ Stops r := by
  induction hn : s.length using Nat.strongRecOn generalizing s with
  | _ n ih =>
      subst hn
      obtain ⟨w, t, rfl, hw, ht⟩ := exists_front isBlank s
      cases t with
      | nil => exact ⟨[], [], w ++ [], rfl, .nil, .inl (by simpa using hw)⟩
      | cons c t =>
          have hc := ht c rfl
          have hblanks : Blanks w := by
            refine ⟨?_, hw⟩
            rintro rfl
            rw [hs c rfl] at hc
            cases hc
          -- What stands behind an argument is shorter and starts with a blank again.
          rcases argument_or_broken hc t with ⟨a, v, r, hr, ha, hhead⟩ | ⟨fault, hbad⟩
          · have hlen : r.length < (w ++ c :: t).length := by
              have hpos := List.length_pos_iff.2 hblanks.1
              rw [hr, List.length_append, List.length_append]
              omega
            obtain ⟨u, vs, q, rfl, hu, hq⟩ := ih r.length hlen hhead rfl
            exact ⟨w ++ a ++ u, v :: vs, q, by simp [hr], .cons hblanks ha hu, hq⟩
          · exact ⟨[], [], w ++ c :: t, rfl, .nil, .inr ⟨w, c :: t, fault, rfl, hblanks, hbad⟩⟩

theorem readArgs_of_blanks (h : Arguments s vs) (hr : ∀ c ∈ r, isBlank c) :
    readArgs (s ++ r) = .ok vs := by
  have hhead : ∀ c ∈ r.head?, isBlank c := fun c hc => hr c (List.mem_of_mem_head? hc)
  rw [readArgs_append h hhead, readArgs_blanks hr]
  simp [Functor.map, Except.map]

theorem readArgs_of_broken (h : Arguments s vs) (hw : Blanks w) (hb : Broken bad fault) :
    readArgs (s ++ (w ++ bad)) = .error fault := by
  rw [readArgs_append h (hw.head? bad), readArgs_broken hw.2 hb]
  rfl

theorem readArgs_eq_ok (hs : ∀ c ∈ s.head?, isBlank c) : readArgs s = .ok vs ↔
    ∃ t r, s = t ++ r ∧ Arguments t vs ∧ ∀ c ∈ r, isBlank c := by
  constructor
  · intro h
    obtain ⟨t, us, r, rfl, ht, hr | ⟨w, bad, fault, rfl, hw, hbad⟩⟩ := exists_arguments hs
    · rw [readArgs_of_blanks ht hr] at h
      cases h
      exact ⟨t, r, rfl, ht, hr⟩
    · rw [readArgs_of_broken ht hw hbad] at h
      cases h
  · rintro ⟨t, r, rfl, ht, hr⟩
    exact readArgs_of_blanks ht hr

theorem readArgs_eq_error (hs : ∀ c ∈ s.head?, isBlank c) : readArgs s = .error fault ↔
    ∃ t vs w bad, s = t ++ (w ++ bad) ∧ Arguments t vs ∧ Blanks w ∧ Broken bad fault := by
  constructor
  · intro h
    obtain ⟨t, us, r, rfl, ht, hr | ⟨w, bad, other, rfl, hw, hbad⟩⟩ := exists_arguments hs
    · rw [readArgs_of_blanks ht hr] at h
      cases h
    · rw [readArgs_of_broken ht hw hbad] at h
      cases h
      exact ⟨t, us, w, bad, rfl, ht, hw, hbad⟩
  · rintro ⟨t, us, w, bad, rfl, ht, hw, hbad⟩
    exact readArgs_of_broken ht hw hbad

end Runs

section Lines

theorem readBody_append (hs : ∀ c ∈ s, isBlank c = false) (hr : ∀ c ∈ r.head?, isBlank c) :
    readBody (s ++ r) = if s = [] then .error .missingName
      else if isName s then (fun args => ⟨String.ofList s, args⟩) <$> readArgs r
      else .error .badName := by
  rw [readBody, word_append hs hr]
  by_cases hnil : s = []
  · simp only [hnil, List.isEmpty_nil, if_true]
    rfl
  · have hne : s.isEmpty = false := List.isEmpty_eq_false_iff.2 hnil
    cases hn : isName s with
    | false =>
        simp only [hne, hn, if_neg hnil]
        rfl
    | true =>
        simp only [hne, hn, if_neg hnil]
        cases readArgs r <;> rfl

theorem readBody_of_name (hn : Name s) (hr : ∀ c ∈ r.head?, isBlank c) :
    readBody (s ++ r) = (fun args => ⟨String.ofList s, args⟩) <$> readArgs r := by
  have hname := isName_iff.2 hn
  have hne : s ≠ [] := by
    rintro rfl
    cases hname
  rw [readBody_append (not_isBlank_of_isName hname) hr, if_neg hne, if_pos hname]

theorem readBody_eq_ok : readBody b = .ok a ↔ ∃ t r,
    b = a.name.toList ++ (t ++ r) ∧ Name a.name.toList ∧ Arguments t a.args ∧
      ∀ c ∈ r, isBlank c := by
  constructor
  · intro h
    have hn := isName_of_readBody h
    obtain ⟨s, r, rfl, hs, hr⟩ := exists_word b
    rw [readBody_append hs hr] at h
    split at h
    · cases h
    split at h
    · obtain ⟨args, hargs, rfl⟩ := map_eq_ok.1 h
      obtain ⟨t, q, rfl, ht, hq⟩ := (readArgs_eq_ok hr).1 hargs
      exact ⟨t, q, by rw [String.toList_ofList], isName_iff.1 hn, ht, hq⟩
    · cases h
  · rintro ⟨t, r, rfl, hn, ht, hr⟩
    have hhead : ∀ c ∈ (t ++ r).head?, isBlank c :=
      ht.head? fun c hc => hr c (List.mem_of_mem_head? hc)
    rw [readBody_of_name hn hhead, readArgs_of_blanks ht hr, String.ofList_toList]
    rfl

theorem readBody_eq_error : readBody b = .error fault ↔ Refused b fault := by
  constructor
  · intro h
    obtain ⟨s, r, rfl, hs, hr⟩ := exists_word b
    rw [readBody_append hs hr] at h
    split at h
    next hnil =>
      cases h
      exact .missingName (by rwa [hnil])
    next hne =>
      split at h
      next hn =>
        obtain ⟨t, vs, w, bad, rfl, ht, hw, hbad⟩ := (readArgs_eq_error hr).1 (map_eq_error.1 h)
        exact .argument (isName_iff.1 hn) ht hw hbad
      next hn =>
        cases h
        exact .badName hne hs hr (mt isName_iff.2 hn)
  · intro h
    cases h with
    | missingName h =>
        have hread := readBody_append (s := []) (by simp) h
        rwa [if_pos rfl, List.nil_append] at hread
    | badName hne hb hs hn => rw [readBody_append hb hs, if_neg hne, if_neg (mt isName_iff.1 hn)]
    | @argument name s w bad vs fault hn hs hw hb =>
        rw [readBody_of_name hn (hs.head? (hw.head? bad)), readArgs_of_broken hs hw hb]
        rfl

/-- A trimmed line that says an annotation. -/
def Says (marker : String) (l : List Char) (a : Annotation) : Prop :=
  ∃ s, l = marker.toList ++ ':' :: (a.name.toList ++ s) ∧ Name a.name.toList ∧ Arguments s a.args

theorem isPrefix_marker :
    marker.toList ++ [':'] <+: s ↔ ∃ body, s = marker.toList ++ ':' :: body := by
  constructor
  · rintro ⟨body, rfl⟩
    exact ⟨body, by simp⟩
  · rintro ⟨body, rfl⟩
    exact ⟨body, by simp⟩

theorem ofLine?_eq_none :
    ofLine? marker line = .ok none ↔ ¬ marker.toList ++ [':'] <+: trim line.toList := by
  rw [isPrefix_marker]
  simp only [ofLine?, ← after?_marker]
  cases (after? marker (trim line.toList)).bind (after? ":") with
  | none => simp
  | some body => cases hb : readBody body <;> simp [hb]

theorem ofLine?_eq_some :
    ofLine? marker line = .ok (some a) ↔ Says marker (trim line.toList) a := by
  have hread : ofLine? marker line = .ok (some a) ↔
      ∃ body, trim line.toList = marker.toList ++ ':' :: body ∧ readBody body = .ok a := by
    simp only [ofLine?, ← after?_marker]
    cases (after? marker (trim line.toList)).bind (after? ":") with
    | none => simp
    | some body => cases hb : readBody body <;> simp [hb]
  rw [hread]
  constructor
  · rintro ⟨body, hl, hb⟩
    obtain ⟨t, r, rfl, hn, ht, hr⟩ := readBody_eq_ok.1 hb
    -- No blanks are left at the end of a trimmed line.
    have hnil : r = [] :=
      eq_nil_of_trim (a := marker.toList ++ ':' :: (a.name.toList ++ t)) (by simpa using hl) hr
    rw [hnil, List.append_nil] at hl
    exact ⟨t, hl, hn, ht⟩
  · rintro ⟨t, hl, hn, ht⟩
    exact ⟨a.name.toList ++ t, hl, readBody_eq_ok.2 ⟨t, [], by simp, hn, ht, by simp⟩⟩

/-- The lines that say annotations are those of the grammar. A line without the marker and a colon
in front is none, and any other line is an error that carries the line as it was trimmed. -/
theorem ofLine?_grammar (marker line : String) :
    (ofLine? marker line = .ok none ↔ ¬ marker.toList ++ [':'] <+: trim line.toList) ∧
    (∀ a, ofLine? marker line = .ok (some a) ↔ Says marker (trim line.toList) a) ∧
    ((marker.toList ++ [':'] <+: trim line.toList ∧ ∀ a, ¬ Says marker (trim line.toList) a) ↔
      ∃ fault, ofLine? marker line = .error ⟨String.ofList (trim line.toList), fault⟩) ∧
    ∀ e, ofLine? marker line = .error e ↔ ∃ body,
      trim line.toList = marker.toList ++ ':' :: body ∧ Refused body e.fault ∧
        e.line = String.ofList (trim line.toList) := by
  refine ⟨ofLine?_eq_none, fun a => ofLine?_eq_some, ⟨?_, ?_⟩, fun e => ?_⟩
  · rintro ⟨hm, hnot⟩
    rcases h : ofLine? marker line with e | _ | a
    · obtain ⟨fault, -, rfl⟩ := ofLine?_eq_error.1 h
      exact ⟨fault, rfl⟩
    · exact absurd hm (ofLine?_eq_none.1 h)
    · exact absurd (ofLine?_eq_some.1 h) (hnot a)
  · rintro ⟨fault, h⟩
    refine ⟨?_, fun a ha => ?_⟩
    · by_contra hm
      rw [ofLine?_eq_none.2 hm] at h
      cases h
    · rw [ofLine?_eq_some.2 ha] at h
      cases h
  · rw [ofLine?_eq_error]
    constructor
    · rintro ⟨fault, ⟨body, hl, hb⟩, rfl⟩
      exact ⟨body, hl, readBody_eq_error.1 hb, rfl⟩
    · rintro ⟨body, hl, hb, he⟩
      exact ⟨e.fault, ⟨body, hl, readBody_eq_error.2 hb⟩, by rw [← he]⟩

end Lines

end Annotation

end GoOutline
