import Mathlib.Data.List.Sort
import Mathlib.Data.String.Basic
import GoOutline.Packages.Search
import GoOutline.Proofs.Options
import GoOutline.Proofs.Paths

/-!
What the search for a package comes upon. Folders are looked at one after the other, and so are the
files in a folder. Each of them says nothing, ends the search with what it says, or ends it with a
failure. What stands in files that take no part in a build makes no difference. All of this holds for
every front end: what counts is the first package clause that it sees at the top level of a file.
-/

namespace GoOutline

namespace Workspace

section Search

variable {α β ε : Type} {ask ask' : α → Except ε (Option β)} {passed hit : α → Prop} {a : α} {as : List α}
  {b : β} {e : ε}

/-- The first of some elements that does not pass is a hit. -/
def Reaches (passed hit : α → Prop) (as : List α) : Prop :=
  ∃ front a back, as = front ++ a :: back ∧ (∀ b ∈ front, passed b) ∧ hit a

/-- Asks one after the other until there is an answer or a failure. -/
def firstAnswer (ask : α → Except ε (Option β)) : List α → Except ε (Option β)
  | [] => .ok none
  | a :: as =>
    match ask a with
    | .ok none => firstAnswer ask as
    | answer => answer

theorem not_reaches_nil : ¬ Reaches passed hit [] := by
  rintro ⟨front, a, back, he, -⟩
  simp at he

theorem reaches_cons :
    Reaches passed hit (a :: as) ↔ hit a ∨ passed a ∧ Reaches passed hit as := by
  constructor
  · rintro ⟨_ | ⟨b, front⟩, x, back, he, hp, hx⟩
    · obtain ⟨rfl, -⟩ := List.cons.inj he
      exact .inl hx
    · obtain ⟨rfl, rfl⟩ := List.cons.inj he
      rw [List.forall_mem_cons] at hp
      exact .inr ⟨hp.1, front, x, back, rfl, hp.2, hx⟩
  · rintro (h | ⟨h, front, x, back, rfl, hp, hx⟩)
    · exact ⟨[], a, as, rfl, by simp, h⟩
    · exact ⟨a :: front, x, back, rfl, List.forall_mem_cons.2 ⟨h, hp⟩, hx⟩

theorem firstAnswer_cons_none (h : ask a = .ok none) (as : List α) :
    firstAnswer ask (a :: as) = firstAnswer ask as := by
  rw [firstAnswer, h]

theorem firstAnswer_cons (h : ask a ≠ .ok none) (as : List α) : firstAnswer ask (a :: as) = ask a := by
  rw [firstAnswer]
  split
  next hn => exact absurd hn h
  next => rfl

theorem firstAnswer_eq_none : firstAnswer ask as = .ok none ↔ ∀ a ∈ as, ask a = .ok none := by
  induction as with
  | nil => simp [firstAnswer]
  | cons a as ih =>
      by_cases h : ask a = .ok none
      · rw [firstAnswer_cons_none h, ih, List.forall_mem_cons, and_iff_right h]
      · rw [firstAnswer_cons h]
        exact ⟨fun he => absurd he h, fun hall => hall a List.mem_cons_self⟩

/-- The search ends with an answer or a failure just where it comes upon it. -/
theorem firstAnswer_eq {answer : Except ε (Option β)} (hne : answer ≠ .ok none) :
    firstAnswer ask as = answer ↔ Reaches (ask · = .ok none) (ask · = answer) as := by
  induction as with
  | nil => exact ⟨fun h => absurd h.symm hne, fun h => absurd h not_reaches_nil⟩
  | cons a as ih =>
      rw [reaches_cons]
      by_cases h : ask a = .ok none
      · rw [firstAnswer_cons_none h, ih, h]
        simp [Ne.symm hne]
      · rw [firstAnswer_cons h]
        simp [h]

theorem firstAnswer_congr (h : ∀ a ∈ as, ask a = ask' a) : firstAnswer ask as = firstAnswer ask' as := by
  induction as with
  | nil => rfl
  | cons a as ih =>
      rw [List.forall_mem_cons] at h
      rw [firstAnswer, firstAnswer, h.1, ih h.2]

end Search

variable {w : Workspace} {read : Syntax.ClauseReader} {d d' : Disk} {dir name package : String}
  {folder spot : List String}
  {files files' : List String} {e : ReadError}

section Folders

/-- A name of a file that takes part in a build. -/
def IsSource (name : String) : Prop :=
  (∃ stem, stem ≠ [] ∧ name.toList = stem ++ ".go".toList) ∧ ¬ "_test.go".toList <:+ name.toList

/-- The files right inside a folder that take part in a build, in order. -/
structure Sources (d : Disk) (folder files : List String) : Prop where
  sorted : files.Pairwise (· < ·)
  mem_iff : ∀ name, name ∈ files ↔
    IsSource name ∧ ∃ below node, (folder ++ name :: below, node) ∈ d.nodes

theorem hasExtension_of_last {ext : String} {stem last : List Char}
    (hname : name.toList = stem ++ '.' :: last) (hlast : '.' ∉ last) :
    Path.hasExtension ext name ↔ stem ≠ [] ∧ last = ext.toList := by
  obtain ⟨s, more, hs⟩ := List.exists_cons_of_ne_nil
    (List.reverse_ne_nil_iff.2 (List.splitOn_ne_nil '.' stem))
  have hempty : s = [] ∧ more = [] ↔ stem = [] := by
    constructor
    · rintro ⟨rfl, rfl⟩
      have hsplit : ['.'].intercalate (stem.splitOn '.') = stem := List.intercalate_splitOn '.'
      rw [List.reverse_eq_iff.1 hs] at hsplit
      exact hsplit.symm
    · rintro rfl
      simpa [eq_comm] using hs
  rw [Path.hasExtension, hname, List.splitOn_append_cons_self, List.splitOn_eq_singleton hlast,
    List.reverse_append, hs]
  simp [← hempty, ← String.toList_inj, and_comm, imp_iff_not_or]

theorem hasExtension_iff {ext : String} (hext : '.' ∉ ext.toList) : Path.hasExtension ext name ↔
    ∃ stem, stem ≠ [] ∧ name.toList = stem ++ '.' :: ext.toList := by
  by_cases hdot : '.' ∈ name.toList
  · obtain ⟨stem, last, hname, hlast⟩ := Path.exists_last hdot
    rw [hasExtension_of_last hname hlast]
    constructor
    · rintro ⟨hne, hl⟩
      exact ⟨_, hne, hl ▸ hname⟩
    · rintro ⟨stem', hne, hname'⟩
      exact (hasExtension_of_last hname hlast).1 ((hasExtension_of_last hname' hext).2 ⟨hne, rfl⟩)
  · rw [Path.hasExtension, List.splitOn_eq_singleton hdot]
    refine ⟨nofun, fun ⟨stem, _, hname⟩ => absurd ?_ hdot⟩
    simp [hname]

theorem isBuildFile_iff : isBuildFile name ↔ IsSource name := by
  rw [isBuildFile, Bool.and_eq_true, hasExtension_iff (by decide), Bool.not_eq_true',
    Bool.eq_false_iff, ne_eq, List.isSuffixOf_iff_suffix]
  rfl

theorem mem_listing :
    name ∈ d.listing folder ↔ ∃ below node, (folder ++ name :: below, node) ∈ d.nodes := by
  simp only [Disk.listing, List.mem_mergeSort, List.mem_eraseDups, List.mem_filterMap,
    Option.bind_eq_some_iff, List.isPrefixOf?_eq_some_iff_append_eq, Prod.exists]
  constructor
  · rintro ⟨names, node, hmem, rest, rfl, hr⟩
    obtain ⟨below, rfl⟩ := List.head?_eq_some_iff.1 hr
    exact ⟨below, node, hmem⟩
  · rintro ⟨below, node, hmem⟩
    exact ⟨_, node, hmem, name :: below, rfl, rfl⟩

theorem pairwise_sorted (names : List String) :
    (names.eraseDups.mergeSort fun a b => decide (a ≤ b)).Pairwise (· < ·) := by
  have hle := List.pairwise_mergeSort' (· ≤ ·) names.eraseDups
  have hne : (names.eraseDups.mergeSort fun a b => decide (a ≤ b)).Nodup :=
    (List.mergeSort_perm _ _).nodup_iff.2 (CommandLine.nodup_eraseDups names)
  exact (hle.and hne).imp fun h => lt_of_le_of_ne h.1 h.2

theorem sources_listing (d : Disk) (folder : List String) :
    Sources d folder ((d.listing folder).filter isBuildFile) where
  sorted := (pairwise_sorted _).filter _
  mem_iff name := by rw [List.mem_filter, mem_listing, isBuildFile_iff, and_comm]

theorem Sources.eq (h : Sources d folder files) (h' : Sources d folder files') : files = files' := by
  have hperm : files.Perm files' :=
    (List.perm_ext_iff_of_nodup (h.sorted.imp ne_of_lt) (h'.sorted.imp ne_of_lt)).2 fun name =>
      (h.mem_iff name).trans (h'.mem_iff name).symm
  exact hperm.eq_of_pairwise (fun _ _ _ _ hab hba => absurd hab (lt_asymm hba)) h.sorted h'.sorted

end Folders

section Answers

/-- A file without a package clause, or with a first one that has no name. -/
def Silent (read : Syntax.ClauseReader) (d : Disk) (place : List String) : Prop :=
  ∃ text, d.readAt place = .ok text ∧ ∀ name, (read text).head? ≠ some (some name)

/-- A file whose first package clause has this name. -/
def Claims (read : Syntax.ClauseReader) (d : Disk) (place : List String) (package : String) : Prop :=
  ∃ text, d.readAt place = .ok text ∧ (read text).head? = some (some package)

/-- There is a folder at a path, and these are the files in it that take part in a build. -/
structure Stands (d : Disk) (dir : String) (folder files : List String) : Prop where
  place : d.place dir = .ok folder
  isFolder : d.isFolder folder
  sources : Sources d folder files

/-- No folder, or one in which no file has a package clause. -/
def Passed (read : Syntax.ClauseReader) (d : Disk) (dir : String) : Prop :=
  ∀ folder files, Stands d dir folder files → ∀ name ∈ files, Silent read d (folder ++ [name])

/-- A folder whose first file with a package clause claims this package. -/
def Holds (read : Syntax.ClauseReader) (d : Disk) (dir package : String) : Prop :=
  ∃ folder files, Stands d dir folder files ∧ Reaches (fun name => Silent read d (folder ++ [name]))
    (fun name => Claims read d (folder ++ [name]) package) files

/-- A folder with a file that cannot be read, and no package clause in front of it. -/
def Breaks (read : Syntax.ClauseReader) (d : Disk) (dir : String) (e : ReadError) : Prop :=
  ∃ folder files, Stands d dir folder files ∧ Reaches (fun name => Silent read d (folder ++ [name]))
    (fun name => d.readAt (folder ++ [name]) = .error e) files

def askFile (read : Syntax.ClauseReader) (d : Disk) (folder : List String) (name : String) :
    Except ReadError (Option String) :=
  read.packageName? <$> d.readAt (folder ++ [name])

def askFolder (read : Syntax.ClauseReader) (d : Disk) (dir : String) : Except ReadError (Option Package) :=
  match d.place dir with
  | .error _ => .ok none
  | .ok folder =>
    if d.isFolder folder then Option.map (Package.mk dir) <$> packageIn read d folder else .ok none

def found : Except ReadError (Option Package) → Except PackageError Package
  | .error e => .error (.unreadable e)
  | .ok (some p) => .ok p
  | .ok none => .error (.unresolved "package not found in GOROOT, vendor or GOPATH")

theorem found_eq_ok {answer : Except ReadError (Option Package)} {p : Package} :
    found answer = .ok p ↔ answer = .ok (some p) := by
  rcases answer with e | _ | p <;> simp [found]

theorem found_eq_unreadable {answer : Except ReadError (Option Package)} :
    found answer = .error (.unreadable e) ↔ answer = .error e := by
  rcases answer with e | _ | p <;> simp [found]

theorem found_eq_unresolved {answer : Except ReadError (Option Package)} {reason : String} :
    found answer = .error (.unresolved reason) ↔
      reason = "package not found in GOROOT, vendor or GOPATH" ∧ answer = .ok none := by
  rcases answer with e | _ | p <;> simp [found, eq_comm]

theorem packageOf_eq (read : Syntax.ClauseReader) (d : Disk) (folder files : List String) :
    packageOf read d folder files = firstAnswer (askFile read d folder) files := by
  induction files with
  | nil => rfl
  | cons name files ih =>
      rw [packageOf, firstAnswer, askFile]
      cases d.readAt (folder ++ [name]) with
      | error e => rfl
      | ok text =>
          dsimp only [Functor.map, Except.map]
          cases read.packageName? text with
          | none => exact ih
          | some package => rfl

theorem firstOf_eq (read : Syntax.ClauseReader) (d : Disk) (dirs : List String) :
    firstOf read d dirs = found (firstAnswer (askFolder read d) dirs) := by
  induction dirs with
  | nil => rfl
  | cons dir dirs ih =>
      rw [firstOf, firstAnswer, askFolder]
      cases d.place dir with
      | error e => exact ih
      | ok folder =>
          dsimp only
          split
          · cases packageIn read d folder with
            | error e => rfl
            | ok answer =>
                cases answer with
                | none => exact ih
                | some package => rfl
          · exact ih

theorem askFile_eq_none : askFile read d folder name = .ok none ↔ Silent read d (folder ++ [name]) := by
  rw [askFile, map_eq_ok]
  refine exists_congr fun text => and_congr_right fun _ => ?_
  rw [Option.eq_none_iff_forall_ne_some]
  exact forall_congr' fun package => not_congr Option.join_eq_some_iff

theorem askFile_eq_some :
    askFile read d folder name = .ok (some package) ↔ Claims read d (folder ++ [name]) package := by
  rw [askFile, map_eq_ok]
  exact exists_congr fun text => and_congr_right fun _ => Option.join_eq_some_iff

theorem askFile_eq_error : askFile read d folder name = .error e ↔ d.readAt (folder ++ [name]) = .error e :=
  map_eq_error

theorem askFolder_of_stands (h : Stands d dir folder files) :
    askFolder read d dir = Option.map (Package.mk dir) <$> firstAnswer (askFile read d folder) files := by
  rw [askFolder, h.place]
  dsimp only
  rw [if_pos h.isFolder, packageIn, packageOf_eq, (sources_listing d folder).eq h.sources]

theorem askFolder_of_not_stands (h : ∀ folder files, ¬ Stands d dir folder files) :
    askFolder read d dir = .ok none := by
  rw [askFolder]
  split
  · rfl
  next folder hplace =>
    rw [if_neg]
    exact fun hfolder => h folder _ ⟨hplace, hfolder, sources_listing d folder⟩

theorem Stands.eq {folder' : List String} (h : Stands d dir folder files)
    (h' : Stands d dir folder' files') : folder = folder' ∧ files = files' := by
  obtain rfl : folder = folder' := Except.ok.inj (h.place.symm.trans h'.place)
  exact ⟨rfl, h.sources.eq h'.sources⟩

theorem askFolder_eq_none : askFolder read d dir = .ok none ↔ Passed read d dir := by
  by_cases hs : ∃ folder files, Stands d dir folder files
  · obtain ⟨folder, files, hs⟩ := hs
    have hpassed : Passed read d dir ↔ ∀ name ∈ files, Silent read d (folder ++ [name]) := by
      refine ⟨fun h => h folder files hs, fun h folder' files' hs' => ?_⟩
      obtain ⟨rfl, rfl⟩ := hs.eq hs'
      exact h
    rw [askFolder_of_stands hs, hpassed, map_eq_ok]
    simp only [Option.map_eq_none_iff, exists_eq_right, firstAnswer_eq_none, askFile_eq_none]
  · push Not at hs
    exact ⟨fun _ folder files h => absurd h (hs folder files), fun _ => askFolder_of_not_stands hs⟩

theorem askFolder_eq_some {p : Package} :
    askFolder read d dir = .ok (some p) ↔ dir = p.dir ∧ Holds read d dir p.name := by
  by_cases hs : ∃ folder files, Stands d dir folder files
  · obtain ⟨folder, files, hs⟩ := hs
    have hholds : Holds read d dir p.name ↔ firstAnswer (askFile read d folder) files = .ok (some p.name) := by
      rw [firstAnswer_eq (by simp)]
      simp only [askFile_eq_none, askFile_eq_some]
      refine ⟨fun ⟨folder', files', hs', hr⟩ => ?_, fun hr => ⟨folder, files, hs, hr⟩⟩
      obtain ⟨rfl, rfl⟩ := hs.eq hs'
      exact hr
    rw [askFolder_of_stands hs, hholds, map_eq_ok]
    constructor
    · rintro ⟨answer, ha, hp⟩
      obtain ⟨package, rfl, rfl⟩ := Option.map_eq_some_iff.1 hp
      exact ⟨rfl, ha⟩
    · rintro ⟨rfl, ha⟩
      exact ⟨some p.name, ha, rfl⟩
  · push Not at hs
    rw [askFolder_of_not_stands hs]
    refine ⟨nofun, fun ⟨_, folder, files, h, _⟩ => absurd h (hs folder files)⟩

theorem askFolder_eq_error : askFolder read d dir = .error e ↔ Breaks read d dir e := by
  by_cases hs : ∃ folder files, Stands d dir folder files
  · obtain ⟨folder, files, hs⟩ := hs
    rw [askFolder_of_stands hs, map_eq_error, firstAnswer_eq (by simp)]
    simp only [askFile_eq_none, askFile_eq_error]
    refine ⟨fun hr => ⟨folder, files, hs, hr⟩, fun ⟨folder', files', hs', hr⟩ => ?_⟩
    obtain ⟨rfl, rfl⟩ := hs.eq hs'
    exact hr
  · push Not at hs
    rw [askFolder_of_not_stands hs]
    exact ⟨nofun, fun ⟨folder, files, h, _⟩ => absurd h (hs folder files)⟩

end Answers

section Order

/-- A path that starts at the working directory. -/
def Local (path : String) : Prop := "./".toList <+: path.toList ∨ "../".toList <+: path.toList

/-- The order in which folders are looked at. -/
def Order (w : Workspace) (path : String) (dirs : List String) : Prop :=
  (Local path ∧ dirs = [Path.join w.cwd path]) ∨
  (¬ Local path ∧ ∃ around, Path.Chain w.cwd around ∧
    dirs = (w.goroot.toList.map fun root => Path.join (Path.join root "src") path) ++
      (around.map fun folder => Path.join (Path.join folder "vendor") path) ++
      (w.gopath.map fun root => Path.join (Path.join root "src") path))

theorem isLocal_iff {path : String} : isLocal path ↔ Local path := by
  rw [isLocal, Bool.or_eq_true, List.isPrefixOf_iff_prefix, List.isPrefixOf_iff_prefix, Local]

theorem order_candidates (w : Workspace) (path : String) : w.Order path (w.candidates path) := by
  rw [candidates]
  by_cases h : isLocal path
  · rw [if_pos h]
    exact .inl ⟨isLocal_iff.1 h, rfl⟩
  · rw [if_neg h]
    exact .inr ⟨fun hl => h (isLocal_iff.2 hl), _, Path.chain_ancestors w.cwd, rfl⟩

theorem Order.unique {path : String} {dirs dirs' : List String} (h : w.Order path dirs)
    (h' : w.Order path dirs') : dirs = dirs' := by
  rcases h with ⟨hl, rfl⟩ | ⟨hl, around, hc, rfl⟩ <;> rcases h' with ⟨hl', rfl⟩ | ⟨hl', around', hc', rfl⟩
  · rfl
  · exact absurd hl hl'
  · exact absurd hl' hl
  · rw [hc.unique hc']

theorem order_iff {path : String} {dirs : List String} : w.Order path dirs ↔ dirs = w.candidates path := by
  refine ⟨fun h => h.unique (w.order_candidates path), ?_⟩
  rintro rfl
  exact w.order_candidates path

end Order

section Unread

variable {xs xs' : List (List String × Node)}

/-- Two things at a place of which at most the content differs, in a file that takes no part in a build. -/
def Alike (spot : List String) (node node' : Node) : Prop :=
  node' = node ∨ node ≠ .folder ∧ node' ≠ .folder ∧
    ∀ folder name, spot = folder ++ [name] → ¬ IsSource name

def Match (x x' : List String × Node) : Prop := x'.1 = x.1 ∧ Alike x.1 x.2 x'.2

/-- Two disks that differ at most in what stands in files that take no part in a build. -/
structure SameBuild (d d' : Disk) : Prop where
  root : d'.root = d.root
  cwd : d'.cwd = d.cwd
  nodes : List.Forall₂ Match d.nodes d'.nodes

theorem any_isFolder (h : List.Forall₂ Match xs xs') (spot : List String) :
    (xs'.any fun (names, node) => (spot.isPrefixOf names && spot.length < names.length) ||
      (names == spot && node == .folder)) =
    xs.any fun (names, node) => (spot.isPrefixOf names && spot.length < names.length) ||
      (names == spot && node == .folder) := by
  induction h with
  | nil => rfl
  | @cons x x' xs xs' hx _ ih =>
      obtain ⟨hnames, ha⟩ := hx
      have hnode : (x'.2 == Node.folder) = (x.2 == Node.folder) := by
        rcases ha with he | ⟨hn, hn', -⟩
        · rw [he]
        · rw [beq_false_of_ne hn, beq_false_of_ne hn']
      rw [List.any_cons, List.any_cons, ih]
      dsimp only
      rw [hnames, hnode]

theorem SameBuild.isFolder (h : SameBuild d d') (spot : List String) :
    d'.isFolder spot = d.isFolder spot := by
  rw [Disk.isFolder, Disk.isFolder, any_isFolder h.nodes]

theorem map_fst_of_match (h : List.Forall₂ Match xs xs') :
    xs'.map Prod.fst = xs.map Prod.fst := by
  induction h with
  | nil => rfl
  | cons hx _ ih => rw [List.map_cons, List.map_cons, hx.1, ih]

theorem lookup_match (h : List.Forall₂ Match xs xs') (spot : List String) :
    xs'.lookup spot = xs.lookup spot ∨ ∃ node node',
      xs.lookup spot = some node ∧ xs'.lookup spot = some node' ∧ Alike spot node node' := by
  induction h with
  | nil => exact .inl rfl
  | @cons x x' xs xs' hx _ ih =>
      obtain ⟨names, node⟩ := x
      obtain ⟨names', node'⟩ := x'
      obtain ⟨he, ha⟩ := hx
      dsimp only at he ha
      subst he
      rw [List.lookup_cons, List.lookup_cons]
      cases hp : spot == names' with
      | true => exact .inr ⟨node, node', rfl, rfl, beq_iff_eq.1 hp ▸ ha⟩
      | false => exact ih

theorem SameBuild.node? (h : SameBuild d d') (spot : List String) :
    d'.node? spot = d.node? spot ∨ ∃ node node',
      d.node? spot = some node ∧ d'.node? spot = some node' ∧ Alike spot node node' := by
  rw [Disk.node?, Disk.node?, h.isFolder]
  rcases lookup_match h.nodes spot with hl | ⟨node, node', hn, hn', ha⟩
  · rw [hl]
    exact .inl rfl
  · rw [hn, hn']
    exact .inr ⟨node, node', rfl, rfl, ha⟩

theorem walk_cons_of_ne_folder {node : Node} (h : d.node? spot = some node) (hne : node ≠ .folder)
    (name : String) (names : List String) : d.walk spot (name :: names) = .error .notFolder := by
  rw [Disk.walk, h]
  cases node with
  | folder => exact absurd rfl hne
  | text | binary => rfl

theorem SameBuild.walk (h : SameBuild d d') (spot names : List String) :
    d'.walk spot names = d.walk spot names := by
  induction names generalizing spot with
  | nil => rfl
  | cons name names ih =>
      rcases h.node? spot with hn | ⟨node, node', hn, hn', rfl | ⟨hne, hne', -⟩⟩
      · rw [Disk.walk, Disk.walk, hn]
        simp only [ih]
      · rw [Disk.walk, Disk.walk, hn, hn']
        simp only [ih]
      · rw [walk_cons_of_ne_folder hn hne, walk_cons_of_ne_folder hn' hne']

theorem SameBuild.place (h : SameBuild d d') (path : String) : d'.place path = d.place path := by
  simp only [Disk.place, h.root, h.cwd, h.walk]

theorem SameBuild.listing (h : SameBuild d d') (folder : List String) :
    d'.listing folder = d.listing folder := by
  have hlist : ∀ d : Disk, d.listing folder = List.mergeSort (((d.nodes.map Prod.fst).filterMap fun names =>
      (folder.isPrefixOf? names).bind List.head?).eraseDups) fun a b => decide (a ≤ b) := by
    intro d
    rw [List.filterMap_map]
    rfl
  rw [hlist, hlist, map_fst_of_match h.nodes]

theorem SameBuild.readAt (h : SameBuild d d') (hname : IsSource name) (folder : List String) :
    d'.readAt (folder ++ [name]) = d.readAt (folder ++ [name]) := by
  rw [Disk.readAt, Disk.readAt]
  rcases h.node? (folder ++ [name]) with hn | ⟨node, node', hn, hn', rfl | ⟨-, -, hno⟩⟩
  · rw [hn]
  · rw [hn, hn']
  · exact absurd hname (hno folder name rfl)

theorem SameBuild.askFolder (h : SameBuild d d') (dir : String) :
    askFolder read d' dir = askFolder read d dir := by
  have hpackage : ∀ folder, packageIn read d' folder = packageIn read d folder := by
    intro folder
    rw [packageIn, packageIn, packageOf_eq, packageOf_eq, h.listing]
    refine firstAnswer_congr fun name hname => ?_
    rw [askFile, askFile, h.readAt (isBuildFile_iff.1 (List.mem_filter.1 hname).2)]
  rw [Workspace.askFolder, Workspace.askFolder, h.place]
  simp only [h.isFolder, hpackage]

end Unread

/-- A search takes the first of the folders that does not pass, and a failure only from a file that it
comes upon. It makes no difference what stands in a file that takes no part in a build. -/
theorem find_first (w : Workspace) (read : Syntax.ClauseReader) (d : Disk) (path : String) : ∃ dirs,
    (∀ dirs', w.Order path dirs' ↔ dirs' = dirs) ∧
    (∀ p, w.find read d path = .ok p ↔
      Reaches (Passed read d) (fun dir => dir = p.dir ∧ Holds read d dir p.name) dirs) ∧
    (∀ e, w.find read d path = .error (.unreadable e) ↔
      Reaches (Passed read d) (fun dir => Breaks read d dir e) dirs) ∧
    (∀ reason, w.find read d path = .error (.unresolved reason) ↔
      reason = "package not found in GOROOT, vendor or GOPATH" ∧ ∀ dir ∈ dirs, Passed read d dir) ∧
    ∀ d', SameBuild d d' → w.find read d' path = w.find read d path := by
  refine ⟨w.candidates path, fun _ => order_iff, fun p => ?_, fun e => ?_, fun reason => ?_, fun d' h => ?_⟩
  · rw [find, firstOf_eq, found_eq_ok, firstAnswer_eq (by simp)]
    simp only [askFolder_eq_none, askFolder_eq_some]
  · rw [find, firstOf_eq, found_eq_unreadable, firstAnswer_eq (by simp)]
    simp only [askFolder_eq_none, askFolder_eq_error]
  · rw [find, firstOf_eq, found_eq_unresolved, firstAnswer_eq_none]
    simp only [askFolder_eq_none]
  · rw [find, find, firstOf_eq, firstOf_eq, firstAnswer_congr fun dir _ => h.askFolder dir]

/-- The nearest folder has only a test, and in the one above it the second file names the package. -/
theorem find_first_vendored :
    let w : Workspace := ⟨none, ["/go"], "/w/cmd/tool"⟩
    let read := Syntax.packageClauses
    let disk (test : Node) : Disk := ⟨"", ["w"], [(["w", "cmd", "vendor", "dep", "dep_test.go"], test),
      (["w", "vendor", "dep", "b.go"], .text "package dep\n".toList),
      (["w", "vendor", "dep", "a.go"], .text "// dep\n".toList),
      (["go", "src", "dep", "dep.go"], .text "package other\n".toList)]⟩
    let tested := disk (.text "package dep_test\n".toList)
    SameBuild tested (disk .binary) ∧ w.find read tested "dep" = .ok ⟨"/w/vendor/dep", "dep"⟩ ∧
      w.find read (disk .binary) "dep" = .ok ⟨"/w/vendor/dep", "dep"⟩ := by
  intro w read disk tested
  have hfound : w.find read tested "dep" = .ok ⟨"/w/vendor/dep", "dep"⟩ := by
    have hdirs : w.candidates "dep" = ["/w/cmd/tool/vendor/dep", "/w/cmd/vendor/dep", "/w/vendor/dep",
        "/vendor/dep", "/go/src/dep"] := by decide +kernel
    have hlow : tested.place "/w/cmd/tool/vendor/dep" = .error .missing := by decide +kernel
    have hnear : tested.place "/w/cmd/vendor/dep" = .ok ["w", "cmd", "vendor", "dep"] := by decide +kernel
    have hfar : tested.place "/w/vendor/dep" = .ok ["w", "vendor", "dep"] := by decide +kernel
    have htests : packageIn read tested ["w", "cmd", "vendor", "dep"] = .ok none := by
      have hfiles : Sources tested ["w", "cmd", "vendor", "dep"] [] := by
        refine ⟨.nil, fun name => ⟨nofun, fun ⟨hsource, below, node, hmem⟩ => ?_⟩⟩
        have hname : name = "dep_test.go" := by
          simp [tested, disk] at hmem
          exact hmem.1.1
        subst hname
        exact absurd (by decide) hsource.2
      rw [packageIn, (sources_listing _ _).eq hfiles]
      rfl
    have hpackage : packageIn read tested ["w", "vendor", "dep"] = .ok (some "dep") := by
      have hfiles : Sources tested ["w", "vendor", "dep"] ["a.go", "b.go"] := by
        refine ⟨by decide, fun name => ⟨fun hname => ?_, fun ⟨_, below, node, hmem⟩ => ?_⟩⟩
        · refine ⟨isBuildFile_iff.1 ?_, [], ?_⟩
          · revert name
            decide
          · revert name
            simp [tested, disk]
        · simp [tested, disk] at hmem
          rcases hmem with ⟨⟨rfl, -⟩, -⟩ | ⟨⟨rfl, -⟩, -⟩ <;> decide
      rw [packageIn, (sources_listing _ _).eq hfiles]
      decide +kernel
    rw [find, hdirs]
    simp only [firstOf, hlow, hnear, hfar, htests, hpackage]
    decide +kernel
  have hsame : SameBuild tested (disk .binary) := by
    refine ⟨rfl, rfl, .cons ⟨rfl, .inr ⟨nofun, nofun, fun folder name hname hsource => ?_⟩⟩ ?_⟩
    · have hlast : name = "dep_test.go" := by simpa [eq_comm] using congrArg List.getLast? hname
      subst hlast
      exact hsource.2 (by decide)
    · exact List.forall₂_same.2 fun x _ => ⟨rfl, .inl rfl⟩
  obtain ⟨dirs, -, -, -, -, hbuild⟩ := find_first w read tested "dep"
  exact ⟨hsame, hfound, (hbuild _ hsame).trans hfound⟩

end Workspace

end GoOutline
