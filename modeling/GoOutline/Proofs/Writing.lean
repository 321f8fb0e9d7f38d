import GoOutline.CommandLine.Run
import GoOutline.Proofs.History
import GoOutline.Proofs.Options
import GoOutline.Proofs.Reparsing

/-!
What the command line leaves on the disk. A run writes nothing unless it is told to change a file and
succeeds, and then it writes one file: the formatted text of the document that the change makes.
-/

namespace GoOutline

namespace Disk

variable {d : Disk} {path : String} {place q : List String} {node : Node} {old new : List Char}

theorem lookup_put_self (d : Disk) (place : List String) (node : Node) :
    (d.put place node).nodes.lookup place = some node := by
  have hnone : (d.nodes.filter (·.1 != place)).lookup place = none := by
    refine List.lookup_eq_none_iff.2 fun e he => ?_
    have hne : e.1 ≠ place := by simpa using (List.mem_filter.1 he).2
    simpa using hne.symm
  rw [put, List.lookup_append, hnone, List.lookup_cons_self]
  rfl

theorem lookup_put_of_ne (hq : q ≠ place) :
    (d.put place node).nodes.lookup q = d.nodes.lookup q := by
  have hb : (q == place) = false := beq_false_of_ne hq
  have hfilter (nodes : List (List String × Node)) :
      (nodes.filter (·.1 != place)).lookup q = nodes.lookup q := by
    induction nodes with
    | nil => rfl
    | cons e nodes ih =>
        obtain ⟨names, n⟩ := e
        by_cases hn : names = place
        · simp [hn, ih, List.lookup_cons, hb]
        · simp [hn, List.lookup_cons, ih]
  simp [put, List.lookup_append, hfilter, List.lookup_cons, hb]

/-- Something new in a place that is taken makes no folder and takes none away. -/
theorem isFolder_put (hp : place ∈ d.nodes.map Prod.fst) (hq : q ≠ place) :
    (d.put place node).isFolder q = d.isFolder q := by
  obtain ⟨old, hm, ho⟩ := List.mem_map.1 hp
  -- What stands in the place counts only for the folders around it.
  have hb : (place == q) = false := beq_false_of_ne hq.symm
  simp only [isFolder, put]
  congr 1
  rw [Bool.eq_iff_iff, List.any_eq_true, List.any_eq_true]
  constructor
  · rintro ⟨e, he, hf⟩
    rcases List.mem_append.1 he with he | he
    · exact ⟨e, (List.mem_filter.1 he).1, hf⟩
    · rw [List.mem_singleton.1 he] at hf
      exact ⟨old, hm, by simpa [ho, hb] using hf⟩
  · rintro ⟨e, he, hf⟩
    by_cases hn : e.1 = place
    · refine ⟨(place, node), List.mem_append_right _ List.mem_cons_self, ?_⟩
      simpa [hn, hb] using hf
    · exact ⟨e, List.mem_append_left _ (List.mem_filter.2 ⟨he, by simpa using hn⟩), hf⟩

theorem node?_put_self (d : Disk) (place : List String) (node : Node) :
    (d.put place node).node? place = some node := by
  rw [node?, lookup_put_self]

theorem node?_put_of_ne (hp : place ∈ d.nodes.map Prod.fst) (hq : q ≠ place) :
    (d.put place node).node? q = d.node? q := by
  rw [node?, node?, lookup_put_of_ne hq, isFolder_put hp hq]

theorem mem_of_node? (h : d.node? place = some (.text old)) : place ∈ d.nodes.map Prod.fst := by
  unfold node? at h
  split at h
  next n hn =>
    obtain ⟨front, back, he, -⟩ := List.lookup_eq_some_iff.1 hn
    simp [he]
  next => split at h <;> cases h

/-- A path leads where it did, as no text is on the way of a path. -/
theorem walk_put (h : d.node? place = some (.text old)) (names start : List String) :
    (d.put place (.text new)).walk start names = d.walk start names := by
  induction names generalizing start with
  | nil => rfl
  | cons name names ih =>
      rw [walk, walk]
      by_cases hs : start = place
      · rw [hs, node?_put_self, h]
      · rw [node?_put_of_ne (mem_of_node? h) hs]
        simp only [ih]

theorem place_put (h : d.node? place = some (.text old)) (path : String) :
    (d.put place (.text new)).place path = d.place path := by
  simp only [Disk.place, walk_put h]
  rfl

/-- Two disks with the same in all places but that of one file. -/
structure Rewritten (d d' : Disk) (path : String) (content : List Char) : Prop where
  paths : ∀ p, d'.place p = d.place p
  read : d'.read path = .ok content
  others : ∀ q, d.place path ≠ .ok q → d'.node? q = d.node? q

theorem rewritten_write (h : d.read path = .ok old) (new : List Char) :
    d.Rewritten (d.write path new) path new := by
  obtain ⟨place, hp, hr⟩ := bind_eq_ok.1 h
  have hn : d.node? place = some (.text old) := by
    unfold readAt at hr
    split at hr
    next content hn => rw [hn, Except.ok.inj hr]
    all_goals cases hr
  have hw : d.write path new = d.put place (.text new) := by rw [write, hp]
  rw [hw]
  refine ⟨place_put hn, ?_, fun q hq => ?_⟩
  · exact bind_eq_ok.2 ⟨place, (place_put hn path).trans hp, by rw [readAt, node?_put_self]⟩
  · refine node?_put_of_ne (mem_of_node? hn) fun he => hq ?_
    rw [he, hp]

end Disk

namespace Document

variable {settings : Settings} {find : Finder} {text : List Char} {d : Document}

theorem ofText_eq_ok (h : ofText settings find text = .ok d) :
    d.settings = settings ∧ d.text = text := by
  cases hr : read settings find .empty text with
  | mk answer memo =>
      cases answer with
      | error e => simp only [ofText, hr, reduceCtorEq] at h
      | ok o =>
          simp only [ofText, hr, Except.ok.injEq] at h
          subst h
          exact ⟨rfl, text_of_read (by rw [hr])⟩

end Document

namespace CommandLine

open Text

/-- The disk behind a run. -/
def Outcome.leave (o : Outcome) (disk : Disk) : Disk :=
  match o.written with
  | some (path, content) => disk.write path content
  | none => disk

namespace Invocation

variable {i : Invocation} {change : Change} {s : Surroundings} {c : Config} {old new : List Char}
  {write : Bool}

/-- What comes of the text of a file under a configuration: the text is read, the edit that a change
asks for succeeds on it, and the text of the document behind it is formatted. -/
def Gives (i : Invocation) (change : Change) (c : Config) (s : Surroundings)
    (old new : List Char) : Prop :=
  s.disk.read i.file = .ok old ∧
    ∃ d d' e, Document.ofText c.settings (finder c s) old = .ok d ∧
      change.prepare = .ok (.ok e) ∧ d.apply (finder c s) e = (.ok (), d') ∧
      c.formatter.formatter.format s.programs d'.text = .ok new

theorem openFile_eq_ok {d : Document} : i.openFile c s = .ok d ↔
    ∃ old, s.disk.read i.file = .ok old ∧ Document.ofText c.settings (finder c s) old = .ok d := by
  cases hr : s.disk.read i.file with
  | error e => simp [openFile, hr]
  | ok old =>
      cases hd : Document.ofText c.settings (finder c s) old with
      | error e => simp [openFile, hr, hd]
      | ok d' => simp [openFile, hr, hd]

theorem changed_eq_ok {programs : Programs} {find : Finder} {d : Document} {e : Edit} :
    changed programs find d e = .ok new ↔
      ∃ d', d.apply find e = (.ok (), d') ∧ d'.rendered programs = .ok new := by
  rcases h : d.apply find e with ⟨_ | _, d'⟩
  · simp [changed, h]
  · simp [changed, h]

theorem rendered_eq {d d' : Document} {find : Finder} {e : Edit} {r : Except Error Unit}
    (hd : d.settings = c.settings) (ha : d.apply find e = (r, d')) (programs : Programs) :
    d'.rendered programs = c.formatter.formatter.format programs d'.text := by
  have hs := Document.settings_apply d find e
  rw [ha, hd] at hs
  rw [Document.rendered, show d'.settings = c.settings from hs]
  rfl

/-- A command that changes a file succeeds where all that it takes does, and ends with the same old
and new text whether or not it writes. -/
theorem answer_eq_ok {a : Answer} (hc : i.command = .change change write) :
    i.answer c s = .ok a ↔
      ∃ old new, i.Gives change c s old new ∧ a = finish i.file write old new := by
  rw [answer, hc]
  constructor
  · intro h
    obtain ⟨prepared, hp, h⟩ := bind_eq_ok.1 h
    obtain ⟨d, hd, h⟩ := bind_eq_ok.1 h
    obtain ⟨e, he, h⟩ := bind_eq_ok.1 h
    obtain ⟨new, hnew, h⟩ := bind_eq_ok.1 h
    obtain ⟨old, hold, hd⟩ := openFile_eq_ok.1 hd
    obtain ⟨hset, htext⟩ := Document.ofText_eq_ok hd
    obtain ⟨d', ha, hr⟩ := changed_eq_ok.1 (mapError_eq_ok.1 hnew)
    rw [rendered_eq hset ha] at hr
    refine ⟨old, new, ⟨hold, d, d', e, hd, hp.trans (congrArg _ he), ha, hr⟩, ?_⟩
    rw [← htext]
    exact (Except.ok.inj h).symm
  · rintro ⟨old, new, ⟨hold, d, d', e, hd, hp, ha, hr⟩, rfl⟩
    obtain ⟨hset, htext⟩ := Document.ofText_eq_ok hd
    rw [← rendered_eq hset ha] at hr
    refine bind_eq_ok.2 ⟨_, hp, bind_eq_ok.2 ⟨d, openFile_eq_ok.2 ⟨old, hold, hd⟩, ?_⟩⟩
    refine bind_eq_ok.2 ⟨e, rfl, bind_eq_ok.2 ⟨new, ?_, by rw [htext]; rfl⟩⟩
    exact mapError_eq_ok.2 (changed_eq_ok.2 ⟨d', ha, hr⟩)

/-- A run has a configuration and an answer, which is all that it does, or it fails. -/
theorem run_cases (i : Invocation) (s : Surroundings) :
    (∃ c a, i.loadConfig s.disk = .ok c ∧ i.answer c s = .ok a ∧
      i.run s = ⟨0, a.output, i.notice s.disk, a.written⟩) ∨
    (i.run s).status = 1 ∧ (i.run s).written = none := by
  unfold run
  cases ha : (i.loadConfig s.disk).bind fun c => i.answer c s with
  | error e => exact .inr ⟨rfl, rfl⟩
  | ok a =>
      obtain ⟨c, hc, ha⟩ := bind_eq_ok.1 ha
      exact .inl ⟨c, a, hc, ha, rfl⟩

theorem run_eq_of_answer {a : Answer} (hc : i.loadConfig s.disk = .ok c)
    (ha : i.answer c s = .ok a) : i.run s = ⟨0, a.output, i.notice s.disk, a.written⟩ := by
  have h : ((i.loadConfig s.disk).bind fun c => i.answer c s) = .ok a :=
    bind_eq_ok.2 ⟨c, hc, ha⟩
  rw [run, h]

/-- Only a command that changes a file and is told to write does so, and only if it succeeds. -/
theorem command_of_written (h : (i.run s).written ≠ none) :
    (∃ change, i.command = .change change true) ∧ (i.run s).status = 0 := by
  rcases run_cases i s with ⟨c, a, -, ha, hrun⟩ | ⟨-, hw⟩
  · rw [hrun] at h ⊢
    refine ⟨?_, rfl⟩
    cases hc : i.command with
    | inspect json | find name json =>
        rw [answer, hc] at ha
        obtain ⟨d, -, ha⟩ := bind_eq_ok.1 ha
        cases ha
        exact absurd rfl h
    | change change write =>
        cases write with
        | true => exact ⟨change, rfl⟩
        | false =>
            obtain ⟨old, new, -, rfl⟩ := (answer_eq_ok hc).1 ha
            refine absurd ?_ h
            simp only [finish, Bool.false_eq_true, if_false]
            split <;> rfl
  · exact absurd hw h

/-- What is given without another formatter can be read again. -/
theorem Gives.exists_ofText (h : i.Gives change c s old new) (hc : c.formatter = .verbatim)
    (find : Finder) : ∃ o, Outline.ofText c.settings.dialect find new = .ok o := by
  obtain ⟨-, d, d', e, hd, -, ha, hf⟩ := h
  have hset := Document.settings_apply d (finder c s) e
  have hsettled := (Document.settled_of_ofText hd).apply (finder c s) e
  rw [ha] at hset hsettled
  have hread := hsettled.ofText_eq
  rw [show d'.settings = d.settings from hset, (Document.ofText_eq_ok hd).1] at hread
  rw [hc] at hf
  cases hf
  exact Outline.exists_ofText_verbatimText hread find

end Invocation

theorem unified_ne_bullet (oldTitle newTitle : String) (old new : List Char) (text : String) :
    Diff.unified oldTitle newTitle old new ≠ bullet text := by
  intro h
  have hhead := congrArg List.head? h
  have hb : (bullet text).head? = some '•' := by
    simp [bullet, line]
  unfold Diff.unified at hhead
  dsimp only at hhead
  split at hhead
  · simp [hb] at hhead
  · simp [hb] at hhead

/-- The arguments are those of a run that changes a file, and writes the file or shows the change. -/
def Asks (args : List String) (i : Invocation) (change : Change) (write : Bool) : Prop :=
  Request.ofArguments? args = some (.run { i with command := .change change write })

theorem leave_eq_self {o : Outcome} (h : o.written = none) (disk : Disk) : o.leave disk = disk := by
  rw [Outcome.leave, h]

/-- A run that shows a change says that there is none where the text stays what it is. -/
theorem output_eq_bullet {args : List String} {i : Invocation} {change : Change} {s : Surroundings}
    {c : Config} {old new : List Char} (ha : Asks args i change false)
    (hc : i.loadConfig s.disk = .ok c) (hg : i.Gives change c s old new) :
    (run args s).written = none ∧ (run args s).status = 0 ∧
      ((run args s).output = bullet "No changes" ↔ new = old) := by
  let j : Invocation := { i with command := .change change false }
  have hans : j.answer c s = .ok (Invocation.finish j.file false old new) :=
    (Invocation.answer_eq_ok rfl).2 ⟨old, new, hg, rfl⟩
  have hrun : run args s = j.run s := by rw [run, ha]
  rw [hrun, Invocation.run_eq_of_answer (i := j) hc hans]
  by_cases he : old = new
  · simp [Invocation.finish, he]
  · simp [Invocation.finish, he, unified_ne_bullet, Ne.symm he]

/-- A run leaves the disk as it is, unless it is told to change a file, to write it, and succeeds.
Then it writes that file and no other: what the formatter makes of the text of the document on which
the edit has succeeded, and which can be read again if the formatter is no other program. Without the
option to write, the same arguments change nothing, and say so where that text is the old one. -/
theorem leave_run (args : List String) (s : Surroundings) :
    ((∀ i change, Asks args i change true → (run args s).status ≠ 0) →
      (run args s).leave s.disk = s.disk) ∧
    ∀ i change, Asks args i change true → (run args s).status = 0 →
      ∃ c old new, i.loadConfig s.disk = .ok c ∧ i.Gives change c s old new ∧
        s.disk.Rewritten ((run args s).leave s.disk) i.file new ∧
        (c.formatter = .verbatim →
          ∀ find, ∃ o, Outline.ofText c.settings.dialect find new = .ok o) ∧
        (∀ front flag back, args = front ++ flag :: back → flag ∈ Request.writeWords →
          "--" ∉ front → Asks (front ++ back) i change false) ∧
        ∀ args', Asks args' i change false →
          (run args' s).leave s.disk = s.disk ∧ (run args' s).status = 0 ∧
            ((run args' s).output = bullet "No changes" ↔ new = old) := by
  constructor
  · intro h
    refine leave_eq_self (by_contra fun hw => ?_) s.disk
    cases hr : Request.ofArguments? args with
    | none => exact hw (by rw [run, hr])
    | some r =>
        cases r with
        | help | version => exact hw (by rw [run, hr])
        | run i =>
            have hrun : run args s = i.run s := by rw [run, hr]
            rw [hrun] at hw
            obtain ⟨⟨change, hc⟩, hs⟩ := Invocation.command_of_written hw
            refine h i change ?_ (hrun ▸ hs)
            rw [Asks, hr, ← hc]
  · intro i change ha hs
    let j : Invocation := { i with command := .change change true }
    have hrun : run args s = j.run s := by rw [run, ha]
    rcases Invocation.run_cases j s with ⟨c, a, hc, hans, he⟩ | ⟨hf, -⟩
    case inr =>
      rw [hrun, hf] at hs
      cases hs
    obtain ⟨old, new, hg, rfl⟩ := (Invocation.answer_eq_ok rfl).1 hans
    have hleave : (run args s).leave s.disk = s.disk.write i.file new := by rw [hrun, he]; rfl
    refine ⟨c, old, new, hc, hg, ?_, fun hv => hg.exists_ofText hv, ?_, fun args' ha' => ?_⟩
    · rw [hleave]
      exact Disk.rewritten_write hg.1 new
    · rintro front flag back rfl hf hno
      exact Request.ofArguments?_erase (i := j) hf hno ha rfl
    · obtain ⟨hw, hs', ho⟩ := output_eq_bullet ha' hc hg
      exact ⟨leave_eq_self hw s.disk, hs', ho⟩

/-- A field is added to a structure in one of two files. -/
theorem leave_run_add_field :
    let text := "package p\n\ntype T struct \x7b\x7d\n".toList
    let disk : Disk := ⟨"", [], [(["a.go"], .text text), (["b.go"], .text text)]⟩
    let s : Surroundings := ⟨disk, "/", "/", fun _ _ => .cannotStart ""⟩
    let args := ["add-field", "a.go", "T", "--write", "X", "int"]
    let i : Invocation := ⟨".gosource.json", false, "a.go", .inspect false⟩
    let change : Change := .addField "T" "X" "int" none
    Asks args i change true ∧ (run args s).status = 0 ∧
      disk.Rewritten ((run args s).leave disk) "a.go"
        "package p\n\ntype T struct \x7b\n\tX int\n\x7d\n".toList ∧
      Asks ["add-field", "a.go", "T", "X", "int"] i change false ∧
      (run ["add-field", "a.go", "T", "X", "int"] s).output ≠ bullet "No changes" := by
  intro text disk s args i change
  have ha : Asks args i change true := by unfold Asks; decide +kernel
  have hs : (run args s).status = 0 := by decide +kernel
  obtain ⟨c, old, new, -, hg, hd, -, herase, hshow⟩ := (leave_run args s).2 i change ha hs
  have hold : old = text := Except.ok.inj (hg.1.symm.trans (by decide +kernel))
  have hnew : new = "package p\n\ntype T struct \x7b\n\tX int\n\x7d\n".toList :=
    Except.ok.inj (hd.read.symm.trans (by decide +kernel))
  have ha' := herase ["add-field", "a.go", "T"] "--write" ["X", "int"] rfl (by decide) (by decide)
  refine ⟨ha, hs, hnew ▸ hd, ha', fun ho => ?_⟩
  have he := ((hshow _ ha').2.2).1 ho
  rw [hnew, hold] at he
  exact absurd he (by decide)

end CommandLine

end GoOutline
