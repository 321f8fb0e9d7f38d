import Mathlib.Data.List.Dedup
import GoOutline.CommandLine.Request
import GoOutline.Proofs.Outcomes

/-!
Arguments without one of their options. The command line reads the rest of the arguments as it did:
the same command on the same values, but for that option.
-/

namespace GoOutline

namespace CommandLine

theorem nodup_eraseDups (names : List String) : names.eraseDups.Nodup := by
  cases names with
  | nil => simp
  | cons a names =>
      rw [List.eraseDups_cons, List.nodup_cons, List.mem_eraseDups]
      exact ⟨by simp, nodup_eraseDups _⟩
termination_by names.length
decreasing_by exact Nat.lt_succ_of_le (List.length_filter_le _ _)

theorem isUnique_iff {g : Given} : g.isUnique ↔ (g.flags.map Prod.fst).Nodup := by
  generalize hn : g.flags.map Prod.fst = names
  have hperm : names.eraseDups.Perm names.dedup :=
    (List.perm_ext_iff_of_nodup (nodup_eraseDups names) (List.nodup_dedup names)).2 (by simp)
  rw [Given.isUnique, hn, beq_iff_eq, hperm.length_eq]
  constructor
  · exact fun h => List.dedup_eq_self.1 ((List.dedup_sublist names).eq_of_length h)
  · exact fun h => congrArg List.length (List.dedup_eq_self.2 h)

variable {known : List Flag} {arg flag word : String} {front back rest left : List String}
  {flags : List GivenFlag} {g : Given}

/-- Some option behind which nothing counts. -/
def Ends (known : List Flag) (flags : List GivenFlag) : Prop :=
  ∃ f ∈ known, f.kind = .final ∧ (f.long, none) ∈ flags

theorem Ends.append_left {more : List GivenFlag} (h : Ends known flags) :
    Ends known (flags ++ more) := by
  obtain ⟨f, hf, hk, hm⟩ := h
  exact ⟨f, hf, hk, List.mem_append_left more hm⟩

theorem Ends.append_right {more : List GivenFlag} (h : Ends known flags) :
    Ends known (more ++ flags) := by
  obtain ⟨f, hf, hk, hm⟩ := h
  exact ⟨f, hf, hk, List.mem_append_right more hm⟩

theorem ends_letters {s : List Char} (h : letters known s = some (flags, .nothing)) :
    Ends known flags := by
  fun_induction letters known s generalizing flags with
  | case3 c rest short long hf =>
      cases h
      exact ⟨_, List.mem_of_find?_eq_some hf, rfl, List.mem_cons_self⟩
  | case4 c rest short long hf ih =>
      obtain ⟨⟨fs, behind⟩, hl, he⟩ := Option.map_eq_some_iff.1 h
      cases he
      obtain ⟨f, hf, hk, hm⟩ := ih hl
      exact ⟨f, hf, hk, List.mem_cons_of_mem _ hm⟩
  | case1 | case2 | case5 | case6 | case7 => cases h

theorem ends_longFlag {s : List Char} (h : longFlag known s = some (flags, .nothing)) :
    Ends known flags := by
  unfold longFlag at h
  dsimp only at h
  split at h
  next => cases h
  next => cases h
  next => cases h
  next hk _ =>
    cases h
    obtain ⟨f, hf, hk⟩ := Option.map_eq_some_iff.1 hk
    have hlong : f.long = (splitLong s).1 := by simpa using List.find?_some hf
    exact ⟨f, List.mem_of_find?_eq_some hf, hk, by rw [hlong]; exact List.mem_cons_self⟩
  next => cases h

theorem ends_flagsIn (h : flagsIn known arg = some (flags, .nothing)) : Ends known flags := by
  unfold flagsIn at h
  split at h
  · exact ends_longFlag h
  · exact ends_letters h
  · cases h

/-- What an argument takes of the arguments behind it stands in front of the next option. -/
theorem takeFlags_append (hd : isDashed flag)
    (h : takeFlags known arg (front ++ flag :: back) = some (flags, left)) :
    (∃ front', front' <:+ front ∧ left = front' ++ flag :: back ∧
      takeFlags known arg (front ++ back) = some (flags, front' ++ back)) ∨ Ends known flags := by
  unfold takeFlags at h ⊢
  split at h
  next => cases h
  next fl hf =>
    cases h
    exact .inl ⟨front, List.suffix_rfl, rfl, rfl⟩
  next fl hf =>
    cases h
    exact .inr (ends_flagsIn hf)
  next fl long hf =>
    cases front with
    | nil => simp [hd] at h
    | cons value front =>
        simp only [List.cons_append] at h ⊢
        split at h
        next => cases h
        next hv =>
          cases h
          exact .inl ⟨front, List.suffix_cons value front, rfl, by rw [if_neg hv]⟩

theorem leading_of_isDashed (hd : isDashed arg) :
    leading known (arg :: rest) = (takeFlags known arg rest).bind fun (flags, left) =>
      (leading known left).map fun (more, behind) => (flags ++ more, behind) := by
  rw [leading, if_pos hd]
  split
  next h => rw [h]; rfl
  next h => rw [h]; rfl

theorem sort_of_isDashed (hd : isDashed arg) (hne : arg ≠ "--") :
    sort known (arg :: rest) = (takeFlags known arg rest).bind fun (flags, left) =>
      (sort known left).map (·.addFlags flags) := by
  rw [sort, if_neg hne, if_pos hd]
  split
  next h => rw [h]; rfl
  next h => rw [h]; rfl

/-- An option that may not stand in front of a command stands behind its name. -/
theorem leading_append (hd : isDashed flag) (hn : takeFlags known flag back = none) :
    ∀ {front : List String} {flags : List GivenFlag} {rest : List String},
      leading known (front ++ flag :: back) = some (flags, rest) →
      (∃ front', front' ≠ [] ∧ front' <:+ front ∧ rest = front' ++ flag :: back ∧
        leading known (front ++ back) = some (flags, front' ++ back)) ∨ Ends known flags
  | [], _, _, h => by
      rw [List.nil_append, leading_of_isDashed hd, hn] at h
      cases h
  | arg :: front, _, _, h => by
      rw [List.cons_append] at h ⊢
      by_cases ha : isDashed arg
      · rw [leading_of_isDashed ha] at h
        obtain ⟨⟨fs, left⟩, ht, h⟩ := Option.bind_eq_some_iff.1 h
        obtain ⟨⟨more, behind⟩, hm, he⟩ := Option.map_eq_some_iff.1 h
        cases he
        rcases takeFlags_append hd ht with ⟨front', hs, rfl, ht'⟩ | hend
        · rcases leading_append hd hn hm with ⟨tail, hne, hts, rfl, hl⟩ | hend
          · refine .inl ⟨tail, hne, hts.trans (hs.trans (List.suffix_cons arg front)), rfl, ?_⟩
            simp only [leading_of_isDashed ha, ht', Option.bind_some, hl, Option.map_some]
          · exact .inr hend.append_right
        · exact .inr hend.append_left
      · rw [leading, if_neg ha] at h
        cases h
        refine .inl ⟨arg :: front, List.cons_ne_nil arg front, List.suffix_rfl, rfl, ?_⟩
        rw [leading, if_neg ha, List.cons_append]
termination_by front => front.length
decreasing_by exact Nat.lt_succ_of_le hs.length_le

/-- Without a switch the rest of the options and the values are the same. -/
theorem sort_append (hd : isDashed flag) (hne : flag ≠ "--")
    (hf : flagsIn known flag = some ([(word, none)], .anything)) :
    ∀ {front : List String} {g : Given}, "--" ∉ front →
      sort known (front ++ flag :: back) = some g →
      (∃ a b, g.flags = a ++ (word, none) :: b ∧
        sort known (front ++ back) = some ⟨a ++ b, g.values⟩) ∨ Ends known g.flags
  | [], _, _, h => by
      rw [List.nil_append, sort_of_isDashed hd hne, takeFlags, hf] at h
      obtain ⟨g', hg, rfl⟩ := Option.map_eq_some_iff.1 h
      exact .inl ⟨[], g'.flags, rfl, hg⟩
  | arg :: front, _, hno, h => by
      obtain ⟨harg, hno⟩ := not_or.1 fun hm => hno (List.mem_cons.2 hm)
      rw [List.cons_append] at h ⊢
      by_cases ha : isDashed arg
      · rw [sort_of_isDashed ha (Ne.symm harg)] at h
        obtain ⟨⟨fs, left⟩, ht, h⟩ := Option.bind_eq_some_iff.1 h
        obtain ⟨g', hg, rfl⟩ := Option.map_eq_some_iff.1 h
        rcases takeFlags_append hd ht with ⟨front', hs, rfl, ht'⟩ | hend
        · have hno' : "--" ∉ front' := fun hm => hno (hs.subset hm)
          rcases sort_append hd hne hf hno' hg with ⟨a, b, hab, hg'⟩ | hend
          · refine .inl ⟨fs ++ a, b, by simp [Given.addFlags, hab], ?_⟩
            simp only [sort_of_isDashed ha (Ne.symm harg), ht', Option.bind_some, hg',
              Option.map_some, Given.addFlags, List.append_assoc]
          · exact .inr hend.append_right
        · exact .inr hend.append_left
      · rw [sort, if_neg (Ne.symm harg), if_neg ha] at h ⊢
        obtain ⟨g', hg, rfl⟩ := Option.map_eq_some_iff.1 h
        rcases sort_append hd hne hf hno hg with ⟨a, b, hab, hg'⟩ | hend
        · exact .inl ⟨a, b, hab, by rw [hg']; rfl⟩
        · exact .inr hend
termination_by front => front.length
decreasing_by
  · exact Nat.lt_succ_of_le hs.length_le
  · exact Nat.lt_succ_self _

namespace Request

variable {args : List String} {i : Invocation} {name file : String} {command : Command}
  {own : List Flag} {given : Given} {change : Change}

theorem invocation?_eq_some : invocation? g name given = some i ↔
    g.isUnique ∧ given.isUnique ∧ ∃ file command, command? name given = some (file, command) ∧
      "" ∉ file :: ((g.value? "config").toList ++ (given.value? "config").toList) ∧
      i = ⟨((g.value? "config").toList ++ (given.value? "config").toList).getLastD standardConfig,
        g.has "verbose" || given.has "verbose", file, command⟩ := by
  unfold invocation?
  by_cases hg : g.isUnique
  · by_cases hu : given.isUnique
    · rcases hc : command? name given with _ | ⟨file, command⟩
      · simp [hg, hu]
      · simp only [hg, hu, Bool.not_true, Bool.or_self, Bool.false_eq_true, if_false,
          Option.bind_eq_bind, Option.bind_some, List.contains_iff_mem]
        split
        next he =>
          constructor
          · intro h
            cases h
          · rintro ⟨-, -, _, _, hf, hn, -⟩
            cases hf
            exact absurd he hn
        next he =>
          constructor
          · intro h
            cases h
            exact ⟨trivial, trivial, file, command, rfl, he, rfl⟩
          · rintro ⟨-, -, _, _, hf, -, rfl⟩
            cases hf
            rfl
    · simp [hg, hu]
  · simp [hg]

/-- What it takes for arguments to be a run. -/
theorem ofArguments?_eq_run : ofArguments? args = some (.run i) ↔
    ∃ flags name rest own given, leading leadingFlags args = some (flags, name :: rest) ∧
      Given.has ⟨flags, []⟩ "version" = false ∧ Given.has ⟨flags, []⟩ "help" = false ∧
      flags? name = some own ∧ sort (own ++ sharedFlags) rest = some given ∧
      given.has "help" = false ∧ invocation? ⟨flags, []⟩ name given = some i := by
  constructor
  · intro h
    obtain ⟨⟨flags, rest⟩, hl, h⟩ := Option.bind_eq_some_iff.1 h
    dsimp only at h
    split at h
    · cases h
    next hversion =>
      split at h
      · cases h
      next hhelp =>
        split at h
        · cases h
        · cases h
        next name rest _ =>
          obtain ⟨own, ho, h⟩ := Option.bind_eq_some_iff.1 h
          obtain ⟨given, hg, h⟩ := Option.bind_eq_some_iff.1 h
          split at h
          · cases h
          next hown =>
            obtain ⟨j, hj, h⟩ := Option.bind_eq_some_iff.1 h
            cases h
            exact ⟨flags, name, rest, own, given, hl, by simpa using hversion,
              by simpa using hhelp, ho, hg, by simpa using hown, hj⟩
  · rintro ⟨flags, name, rest, own, given, hl, hversion, hhelp, ho, hg, hown, hi⟩
    have hne : name ≠ "help" := by
      rintro rfl
      cases ho
    simp only [ofArguments?, hl, hversion, hhelp, Option.bind_eq_bind, Option.bind_some,
      Bool.false_eq_true, if_false]
    split
    next h => cases h
    next h => exact absurd (List.cons.inj h).1 hne
    next h =>
      cases h
      simp [ho, hg, hown, hi]

theorem has_of_ends (final : List String) (hk : ∀ f ∈ known, f.kind = .final → f.long ∈ final)
    (h : Ends known g.flags) : ∃ long ∈ final, g.has long := by
  obtain ⟨f, hf, hkind, hm⟩ := h
  exact ⟨f.long, hk f hf hkind, List.any_eq_true.2 ⟨_, hm, by simp⟩⟩

/-- The two spellings of the option to write. -/
def writeWords : List String := ["-w", "--write"]

/-- Each command that changes a file has the option to write, and ends with no other option than the
one that asks for help. -/
theorem flags_of_change {write : Bool} (ho : flags? name = some own)
    (hc : command? name given = some (file, .change change write)) (hf : flag ∈ writeWords) :
    flagsIn (own ++ sharedFlags) flag = some ([("write", none)], .anything) ∧
      ∀ f ∈ own ++ sharedFlags, f.kind = .final → f.long ∈ ["help"] := by
  have hword : flag = "-w" ∨ flag = "--write" := by simpa [writeWords] using hf
  unfold command? at hc
  dsimp only at hc
  split at hc
  case h_1 | h_2 | h_7 => cases hc
  case h_3 | h_4 | h_5 | h_6 =>
    cases ho
    refine ⟨?_, by decide⟩
    rcases hword with rfl | rfl <;> rfl

section Erased

variable {a b : List GivenFlag} {long : String}

/-- An option that is given once is not given when it is taken away. -/
theorem not_mem_of_isUnique (hg : g.flags = a ++ (word, none) :: b) (hu : g.isUnique) :
    word ∉ (a ++ b).map Prod.fst ∧ Given.isUnique ⟨a ++ b, g.values⟩ := by
  have hn := isUnique_iff.1 hu
  rw [hg, List.map_append, List.map_cons, List.nodup_middle, ← List.map_append] at hn
  exact ⟨(List.nodup_cons.1 hn).1, isUnique_iff.2 (List.nodup_cons.1 hn).2⟩

theorem has_erase (hg : g.flags = a ++ (word, none) :: b) (hl : word ≠ long)
    (values : List String) : Given.has ⟨a ++ b, values⟩ long = g.has long := by
  have hb : (word == long) = false := beq_false_of_ne hl
  simp [Given.has, hg, hb]

theorem value?_erase (hg : g.flags = a ++ (word, none) :: b) (hl : word ≠ long)
    (values : List String) : Given.value? ⟨a ++ b, values⟩ long = g.value? long := by
  have hb : (long == word) = false := beq_false_of_ne hl.symm
  simp [Given.value?, hg, List.lookup_append, List.lookup_cons, hb]

/-- Without the option to write, a command that changes a file is the same in all else. -/
theorem command?_erase {write : Bool} (hg : given.flags = a ++ ("write", none) :: b)
    (hu : given.isUnique) (hc : command? name given = some (file, .change change write)) :
    command? name ⟨a ++ b, given.values⟩ = some (file, .change change false) := by
  have hgone (values : List String) : Given.has ⟨a ++ b, values⟩ "write" = false := by
    have hn := (not_mem_of_isUnique hg hu).1
    rw [List.mem_map] at hn
    rw [Given.has, Bool.eq_false_iff, Ne, List.any_eq_true]
    rintro ⟨f, hf, he⟩
    exact hn ⟨f, hf, beq_iff_eq.1 he⟩
  unfold command? at hc ⊢
  dsimp only at hc ⊢
  split at hc
  case h_1 | h_2 | h_7 => cases hc
  case h_3 | h_4 | h_5 | h_6 =>
    cases hc
    simp [*, value?_erase hg]

end Erased

/-- Arguments ask for the same command when the option to write is taken away, which then changes no
file. -/
theorem ofArguments?_erase (hf : flag ∈ writeWords) (hno : "--" ∉ front)
    (h : ofArguments? (front ++ flag :: back) = some (.run i))
    (hc : i.command = .change change true) :
    ofArguments? (front ++ back) = some (.run { i with command := .change change false }) := by
  obtain ⟨flags, name, rest, own, given, hl, hv, hh, ho, hg, hgh, hi⟩ := ofArguments?_eq_run.1 h
  obtain ⟨hu, hug, file, command, hcmd, hne, rfl⟩ := invocation?_eq_some.1 hi
  obtain rfl : command = .change change true := hc
  have hwords : ∀ flag ∈ writeWords,
      isDashed flag ∧ flag ≠ "--" ∧ flagsIn leadingFlags flag = none := by decide
  obtain ⟨hdash, hdashes, hlead⟩ := hwords flag hf
  have hn : takeFlags leadingFlags flag back = none := by rw [takeFlags, hlead]
  rcases leading_append hdash hn hl with ⟨_ | ⟨n, front'⟩, hnil, hsuffix, he, hl'⟩ | hend
  · exact absurd rfl hnil
  · obtain ⟨rfl, rfl⟩ := List.cons.inj he
    obtain ⟨hfl, hfinal⟩ := flags_of_change ho hcmd hf
    have hno' : "--" ∉ front' := fun hm => hno (hsuffix.subset (List.mem_cons_of_mem _ hm))
    rcases sort_append hdash hdashes hfl hno' hg with ⟨a, b, hab, hg'⟩ | hend
    · refine ofArguments?_eq_run.2 ⟨flags, name, front' ++ back, own, _, hl', hv, hh, ho, hg', ?_, ?_⟩
      · rw [has_erase hab (by decide) _, hgh]
      · refine invocation?_eq_some.2 ⟨hu, (not_mem_of_isUnique hab hug).2, file, _,
          command?_erase hab hug hcmd, ?_⟩
        rw [value?_erase hab (by decide), has_erase hab (by decide)]
        exact ⟨hne, rfl⟩
    · obtain ⟨long, hlong, hhas⟩ := has_of_ends _ hfinal hend
      rw [List.mem_singleton.1 hlong, hgh] at hhas
      cases hhas
  · obtain ⟨long, hlong, hhas⟩ := has_of_ends (g := ⟨flags, []⟩) ["version", "help"] (by decide) hend
    have hlong : long = "version" ∨ long = "help" := by simpa using hlong
    rcases hlong with rfl | rfl
    · rw [hv] at hhas
      cases hhas
    · rw [hh] at hhas
      cases hhas

end Request

end CommandLine

end GoOutline
