import Mathlib.Data.List.Induction
import Mathlib.Data.List.Infix
import Mathlib.Data.List.TakeWhile
import GoOutline.Disk

/-!
Paths and the folders around what they lead to. A path is the names it goes through and whether it
starts at the root; the path of the folder around it is the beginning of its text that goes through all
of them but the last.
-/

namespace GoOutline.Path

variable {a r s name path up : List Char}

def isAbsolute (path : List Char) : Bool := path.head? == some '/'

/-- The names in a path. Doubled slashes and single dots say nothing, but for a dot in front. -/
def steps (path : List Char) : List (List Char) :=
  match components path with
  | [] => []
  | first :: rest => (if first.isEmpty then [] else [first]) ++
      rest.filter fun name => !name.isEmpty && name != ['.']

/-- No slashes and single dots at the end, but for the slash of the root. -/
def Bare (path : List Char) : Prop := path = ['/'] ∨ ¬ ['/'] <:+ path ∧ ¬ ['/', '.'] <:+ path

/-- A path of the folder around something. -/
structure Around (up path : List Char) : Prop where
  front : up <+: path
  absolute : isAbsolute up = isAbsolute path
  last : ∃ name, steps path = steps up ++ [name]
  bare : Bare up

/-- A path and those of the folders around it, each around the one before, as far as there are any. -/
inductive Chain : String → List String → Prop
  | top {p : String} (h : steps p.toList = []) : Chain p [p]
  | up {p q : String} {rest : List String} (h : Around q.toList p.toList) (hr : Chain q rest) :
      Chain p (p :: rest)

theorem Around.length_lt (h : Around up path) : up.length < path.length := by
  refine Nat.lt_of_le_of_ne h.front.length_le fun he => ?_
  obtain ⟨name, hl⟩ := h.last
  rw [h.front.eq_of_length he] at hl
  simp at hl

theorem components_append (hn : '/' ∉ name) (a : List Char) :
    components (a ++ '/' :: name) = components a ++ [name] := by
  rw [components, List.splitOn_append_cons_self, List.splitOn_eq_singleton hn, components]

theorem components_ne_nil (path : List Char) : components path ≠ [] := List.splitOn_ne_nil '/' path

theorem steps_append (hn : '/' ∉ name) (a : List Char) : steps (a ++ '/' :: name) =
    steps a ++ if name.isEmpty || name == ['.'] then [] else [name] := by
  rw [steps, components_append hn, steps]
  obtain ⟨first, rest, hc⟩ := List.exists_cons_of_ne_nil (components_ne_nil a)
  rw [hc]
  simp only [List.cons_append, List.filter_append, List.append_assoc]
  by_cases hempty : name.isEmpty
  · simp [List.isEmpty_iff.1 hempty]
  · by_cases hdot : name = ['.'] <;> simp [hempty, hdot]

theorem steps_append_slash (a : List Char) : steps (a ++ ['/']) = steps a := by
  have h := steps_append (List.not_mem_nil (a := '/')) a
  simpa using h

theorem steps_of_name (hn : '/' ∉ name) (hne : name ≠ []) : steps name = [name] := by
  rw [steps, components, List.splitOn_eq_singleton hn]
  simp [hne]

/-- What is in front of the last of some characters, and what is behind it. -/
theorem exists_last {c : Char} (h : c ∈ path) : ∃ above name, path = above ++ c :: name ∧ c ∉ name := by
  obtain ⟨name, above, hr, hn⟩ := List.eq_append_cons_of_mem (List.mem_reverse.2 h)
  refine ⟨above.reverse, name.reverse, ?_, by simpa using hn⟩
  rw [List.reverse_eq_iff.1 hr, List.reverse_append, List.reverse_cons, List.append_assoc]
  rfl

theorem length_steps_snoc (a : List Char) (c : Char) : (steps a).length ≤ (steps (a ++ [c])).length := by
  by_cases hc : c = '/'
  · subst hc
    rw [steps_append_slash]
  · by_cases hslash : '/' ∈ a
    · obtain ⟨above, name, rfl, hn⟩ := exists_last hslash
      have hnc : '/' ∉ name ++ [c] := by simp [hn, Ne.symm hc]
      rw [List.append_assoc, List.cons_append, steps_append hnc, steps_append hn, List.length_append,
        List.length_append]
      by_cases hname : name = []
      · simp [hname]
      · have hlong : ((name ++ [c]).isEmpty || name ++ [c] == ['.']) = false := by
          simp [List.append_eq_singleton_iff, hname]
        rw [hlong]
        split <;> simp
    · have hac : '/' ∉ a ++ [c] := by simp [hslash, Ne.symm hc]
      rw [steps_of_name hac (by simp)]
      by_cases ha : a = []
      · subst ha
        exact Nat.zero_le _
      · rw [steps_of_name hslash ha]
        exact Nat.le_refl _

theorem length_steps_le (h : a <+: path) : (steps a).length ≤ (steps path).length := by
  obtain ⟨rest, rfl⟩ := h
  induction rest using List.reverseRecOn with
  | nil => rw [List.append_nil]
  | append_singleton rest c ih =>
      rw [← List.append_assoc]
      exact ih.trans (length_steps_snoc _ c)

theorem prefix_of_above (h : up <+: a ++ '/' :: name) :
    up <+: a ∨ ∃ name', up = a ++ '/' :: name' ∧ name' <+: name := by
  obtain ⟨rest, hr⟩ := h
  rcases List.append_eq_append_iff.1 hr with ⟨more, rfl, -⟩ | ⟨more, rfl, hm⟩
  · exact .inl (List.prefix_append up more)
  · cases more with
    | nil =>
        rw [List.append_nil]
        exact .inl List.prefix_rfl
    | cons c name' =>
        obtain ⟨rfl, rfl⟩ := List.cons.inj hm
        exact .inr ⟨name', rfl, List.prefix_append name' rest⟩

/-- A shorter beginning of a path with something named at its end goes through less. -/
theorem Bare.eq_of_steps (hb : Bare path) (hf : up <+: path) (ha : isAbsolute up = isAbsolute path)
    (hs : steps up = steps path) : up = path := by
  rcases hb with rfl | ⟨hslash, hdot⟩
  · cases up with
    | nil => cases ha
    | cons c up => exact hf.eq_of_length_le (Nat.succ_le_succ (Nat.zero_le _))
  · by_cases hin : '/' ∈ path
    · obtain ⟨above, name, rfl, hn⟩ := exists_last hin
      have hne : name ≠ [] := by
        rintro rfl
        exact hslash ⟨above, rfl⟩
      have hnd : name ≠ ['.'] := by
        rintro rfl
        exact hdot ⟨above, rfl⟩
      rw [steps_append hn, if_neg (by simp [hne, hnd])] at hs
      rcases prefix_of_above hf with hup | ⟨name', rfl, hname⟩
      · have hle := length_steps_le hup
        rw [hs, List.length_append] at hle
        exact absurd hle (Nat.not_succ_le_self _)
      · rw [steps_append fun hm => hn (hname.subset hm)] at hs
        have hlast := List.append_cancel_left hs
        split at hlast
        · cases hlast
        · rw [(List.cons.inj hlast).1]
    · by_cases hup : up = []
      · subst hup
        by_cases hp : path = []
        · exact hp.symm
        · rw [steps_of_name hin hp] at hs
          cases hs
      · have hp : path ≠ [] := fun hp => hup (List.prefix_nil.1 (hp ▸ hf))
        rw [steps_of_name hin hp, steps_of_name (fun hm => hin (hf.subset hm)) hup] at hs
        exact (List.cons.inj hs).1

theorem Around.unique {up' : List Char} (h : Around up path) (h' : Around up' path) : up = up' := by
  have hs : steps up = steps up' := by
    obtain ⟨name, hn⟩ := h.last
    obtain ⟨name', hn'⟩ := h'.last
    exact (List.append_inj' (hn.symm.trans hn') rfl).1
  have ha : isAbsolute up = isAbsolute up' := h.absolute.trans h'.absolute.symm
  rcases List.prefix_or_prefix_of_prefix h.front h'.front with hf | hf
  · exact h'.bare.eq_of_steps hf ha hs
  · exact (h.bare.eq_of_steps hf ha.symm hs.symm).symm

/-- There are no two orders of the folders around something. -/
theorem Chain.unique {p : String} {folders folders' : List String} (h : Chain p folders)
    (h' : Chain p folders') : folders = folders' := by
  induction h generalizing folders' with
  | top htop =>
      cases h' with
      | top => rfl
      | up hup =>
          obtain ⟨name, hn⟩ := hup.last
          rw [htop] at hn
          exact absurd hn.symm (List.append_ne_nil_of_right_ne_nil _ (List.cons_ne_nil name []))
  | up hup _ ih =>
      cases h' with
      | top htop =>
          obtain ⟨name, hn⟩ := hup.last
          rw [htop] at hn
          exact absurd hn.symm (List.append_ne_nil_of_right_ne_nil _ (List.cons_ne_nil name []))
      | up hup' hrest =>
          obtain rfl := String.toList_inj.1 (hup.unique hup')
          rw [ih hrest]

theorem dropEnd_suffix (r : List Char) : dropEnd r <:+ r := by
  fun_induction dropEnd r with
  | case1 s ih => exact ih.trans (List.suffix_cons _ s)
  | case2 s ih => exact ih.trans (List.suffix_cons _ _)
  | case3 s => exact List.suffix_rfl

theorem steps_dropEnd (r : List Char) : steps (dropEnd r).reverse = steps r.reverse := by
  fun_induction dropEnd r with
  | case1 s ih =>
      rw [ih, List.reverse_cons, steps_append_slash]
  | case2 s ih =>
      rw [ih, List.reverse_cons, List.reverse_cons, List.reverse_cons, List.append_assoc,
        steps_append_slash, List.singleton_append, steps_append (by simp)]
      simp
  | case3 s => rfl

theorem dropEnd_head (r : List Char) : ¬ ['/'] <+: dropEnd r ∧ ¬ ['.', '/'] <+: dropEnd r := by
  fun_induction dropEnd r with
  | case1 s ih => exact ih
  | case2 s ih => exact ih
  | case3 s hslash hdot =>
      refine ⟨?_, ?_⟩
      · rintro ⟨t, rfl⟩
        exact hslash t rfl
      · rintro ⟨t, rfl⟩
        exact hdot t rfl

/-- What is dropped to the last character starts with a slash in the path. -/
theorem getLast?_of_dropEnd (h : dropEnd r = []) (hne : r ≠ []) : r.getLast? = some '/' := by
  fun_induction dropEnd r with
  | case1 s ih =>
      cases s with
      | nil => rfl
      | cons c s => exact ih h (List.cons_ne_nil c s)
  | case2 s ih => exact ih h (List.cons_ne_nil _ s)
  | case3 s => exact absurd h hne

theorem bare_dropEnd (r : List Char) : Bare (dropEnd r).reverse := by
  obtain ⟨hslash, hdot⟩ := dropEnd_head r
  rw [← List.reverse_suffix] at hslash hdot
  exact .inr ⟨hslash, hdot⟩

/-- What is left of a path is its last name with the rest of the path in front. -/
theorem exists_last_name (h : dropEnd r ≠ []) : ∃ name above,
    dropEnd r = name ++ above ∧ (dropEnd r).dropWhile (· != '/') = above ∧ name ≠ [] ∧ '/' ∉ name ∧
      (above = [] ∨ ∃ v, above = '/' :: v ∧ name ≠ ['.']) := by
  obtain ⟨hslash, hdot⟩ := dropEnd_head r
  generalize dropEnd r = t at *
  refine ⟨t.takeWhile (· != '/'), t.dropWhile (· != '/'), List.takeWhile_append_dropWhile.symm, rfl,
    ?_, ?_, ?_⟩
  · cases t with
    | nil => exact absurd rfl h
    | cons c t =>
        have hc : c ≠ '/' := by
          rintro rfl
          exact hslash ⟨t, rfl⟩
        simp [hc]
  · intro hmem
    simpa using List.mem_takeWhile_imp hmem
  · cases hd : t.dropWhile (· != '/') with
    | nil => exact .inl rfl
    | cons c v =>
        obtain rfl : c = '/' := by
          have hnot := List.head?_dropWhile_not (· != '/') t
          simpa [hd] using hnot
        refine .inr ⟨v, rfl, fun hn => hdot ⟨v, ?_⟩⟩
        rw [← List.takeWhile_append_dropWhile (p := (· != '/')) (l := t), hn, hd]
        rfl

theorem isAbsolute_of_front (h : up <+: path) (hne : up ≠ []) : isAbsolute up = isAbsolute path := by
  obtain ⟨rest, rfl⟩ := h
  cases up with
  | nil => exact absurd rfl hne
  | cons c up => rfl

theorem isAbsolute_of_name (hne : name ≠ []) (hslash : '/' ∉ name) : isAbsolute name = false := by
  cases name with
  | nil => exact absurd rfl hne
  | cons c name =>
      rw [List.mem_cons, not_or] at hslash
      simp [isAbsolute, Ne.symm hslash.1]

/-- What stands above the last name, with the slash between. -/
theorem around_of_above {v : List Char} (hne : name ≠ []) (hslash : '/' ∉ name) (hdot : name ≠ ['.'])
    (hfront : (v.reverse ++ '/' :: name) <+: path)
    (hsteps : steps (v.reverse ++ '/' :: name) = steps path) :
    Around (if dropEnd v = [] then ['/'] else (dropEnd v).reverse) path := by
  rw [steps_append hslash, if_neg (by simp [hne, hdot]), ← steps_dropEnd v] at hsteps
  split
  next hd =>
    have hroot : ['/'] <+: path := by
      refine List.IsPrefix.trans ?_ hfront
      by_cases hv : v = []
      · subst hv
        exact List.prefix_append ['/'] name
      · obtain ⟨front, rfl⟩ := List.getLast?_eq_some_iff.1 (getLast?_of_dropEnd hd hv)
        rw [List.reverse_append]
        exact List.prefix_append ['/'] _
    rw [hd] at hsteps
    exact ⟨hroot, isAbsolute_of_front hroot (List.cons_ne_nil _ _), ⟨name, hsteps.symm⟩, .inl rfl⟩
  next hd =>
    have hup : (dropEnd v).reverse <+: path :=
      ((List.reverse_prefix.2 (dropEnd_suffix v)).trans (List.prefix_append _ _)).trans hfront
    have hne' : (dropEnd v).reverse ≠ [] := by simpa using hd
    exact ⟨hup, isAbsolute_of_front hup hne', ⟨name, hsteps.symm⟩, bare_dropEnd v⟩

variable {p q : String}

theorem parent?_eq_none (h : parent? p = none) : steps p.toList = [] := by
  have hr : dropEnd p.toList.reverse = [] := by
    rw [parent?] at h
    dsimp only at h
    split at h
    next hr => exact List.isEmpty_iff.1 hr
    next => split at h <;> cases h
  have hsteps := steps_dropEnd p.toList.reverse
  rw [hr, List.reverse_reverse] at hsteps
  exact hsteps.symm

theorem around_of_parent? (h : parent? p = some q) : Around q.toList p.toList := by
  rw [parent?] at h
  dsimp only at h
  split at h
  · cases h
  next hr =>
    obtain ⟨name, above, ht, habove, hne, hslash, hcases⟩ := exists_last_name fun he => hr (by rw [he]; rfl)
    have hname : '/' ∉ name.reverse := by simpa using hslash
    have hsteps := steps_dropEnd p.toList.reverse
    have hfront := List.reverse_prefix.2 (dropEnd_suffix p.toList.reverse)
    rw [ht, List.reverse_append, List.reverse_reverse] at hsteps hfront
    rw [habove] at h
    rcases hcases with rfl | ⟨v, rfl, hdot⟩
    · -- The path is one name, and the folder around it has the empty path.
      obtain rfl : "" = q := by simpa [dropEnd] using h
      rw [List.reverse_nil, List.nil_append] at hsteps hfront
      rw [steps_of_name hname (by simpa using hne)] at hsteps
      refine ⟨List.nil_prefix, ?_, ⟨name.reverse, hsteps.symm⟩, .inr (by simp)⟩
      rw [← isAbsolute_of_front hfront (by simpa using hne),
        isAbsolute_of_name (by simpa using hne) hname]
      rfl
    · rw [List.reverse_cons, List.append_assoc, List.singleton_append] at hsteps hfront
      have ha := around_of_above (by simpa using hne) hname (by simpa using hdot) hfront hsteps
      rw [dropEnd] at h
      by_cases hd : dropEnd v = []
      · obtain rfl : "/" = q := by simpa [hd] using h
        simpa [hd] using ha
      · obtain rfl : String.ofList (dropEnd v).reverse = q := by simpa [hd] using h
        simpa [hd] using ha

theorem chain_ancestors (path : String) : Chain path (ancestors path) := by
  have hchain : ∀ n (path : String), path.toList.length < n → Chain path (ancestorsUpTo n path) := by
    intro n
    induction n with
    | zero => exact fun _ h => absurd h (Nat.not_lt_zero _)
    | succ n ih =>
        intro path h
        rw [ancestorsUpTo]
        cases hp : parent? path with
        | none => exact .top (parent?_eq_none hp)
        | some up =>
            have ha := around_of_parent? hp
            exact .up ha (ih up (Nat.lt_of_lt_of_le ha.length_lt (Nat.le_of_lt_succ h)))
  exact hchain _ path (Nat.lt_succ_self _)

end GoOutline.Path
