import Mathlib.Data.List.Basic
import GoOutline.Edit.Document

/-!
Documents over time. Edits come one after the other, and the packages behind the imports may change
between any two of them. What a document shows is what its text reads as under the answers it
remembers, whatever happened to it before.
-/

namespace GoOutline

namespace Package.Memo

variable {m m' : Memo} {find : Finder} {path : String} {paths : List String}

/-- The answers of one memo stand in another. -/
def Within (m m' : Memo) : Prop := ∀ path a, m.get? path = some a → m'.get? path = some a

def Knows (m : Memo) (path : String) : Prop := ∃ a, m.get? path = some a

theorem Within.refl (m : Memo) : m.Within m := fun _ _ h => h

theorem Within.trans {m'' : Memo} (h : m.Within m') (h' : m'.Within m'') : m.Within m'' :=
  fun path a ha => h' path a (h path a ha)

theorem Knows.within (h : m.Knows path) (hw : m.Within m') : m'.Knows path :=
  let ⟨a, ha⟩ := h
  ⟨a, hw path a ha⟩

theorem ask_of_knows (h : m.Knows path) : m.ask find path = m := by
  obtain ⟨a, ha⟩ := h
  simp [ask, ha]

theorem get?_append (m : Memo) (a : Except String Package) (path q : String) :
    get? ⟨m.answers ++ [(path, a)]⟩ q = (m.get? q).or (if q = path then some a else none) := by
  simp only [get?, List.lookup_append, List.lookup_cons, List.lookup_nil]
  by_cases hq : q = path
  · simp [hq]
  · simp [hq, beq_false_of_ne hq]

theorem within_ask (m : Memo) (find : Finder) (path : String) : m.Within (m.ask find path) := by
  intro q a hq
  cases hp : m.get? path with
  | some b => simpa only [ask, hp] using hq
  | none => simp only [ask, hp, get?_append, hq, Option.some_or]

theorem knows_ask (m : Memo) (find : Finder) (path : String) : (m.ask find path).Knows path := by
  cases hp : m.get? path with
  | some b => exact ⟨b, by simp only [ask, hp]⟩
  | none =>
      refine ⟨(find path).mapError PackageError.reason, ?_⟩
      simp only [ask, hp, get?_append, Option.none_or, if_true]

theorem within_askAll (m : Memo) (find : Finder) (paths : List String) :
    m.Within (m.askAll find paths) := by
  induction paths generalizing m with
  | nil => exact .refl m
  | cons path rest ih => exact (within_ask m find path).trans (ih (m.ask find path))

theorem knows_askAll (m : Memo) (find : Finder) (h : path ∈ paths) :
    (m.askAll find paths).Knows path := by
  induction paths generalizing m with
  | nil => cases h
  | cons q rest ih =>
      rcases List.mem_cons.1 h with rfl | h
      · exact (knows_ask m find path).within (within_askAll _ find rest)
      · exact ih (m.ask find q) h

theorem askAll_of_knows (h : ∀ path ∈ paths, m.Knows path) : m.askAll find paths = m := by
  induction paths with
  | nil => rfl
  | cons path rest ih =>
      have hm : m.ask find path = m := ask_of_knows (h path List.mem_cons_self)
      rw [askAll, List.foldl_cons, hm]
      exact ih fun q hq => h q (List.mem_cons_of_mem _ hq)

theorem find_eq_of_within (h : m.Knows path) (hw : m.Within m') : m'.find path = m.find path := by
  obtain ⟨a, ha⟩ := h
  simp only [find, ha, hw path a ha]

end Package.Memo

namespace Outline

open Syntax

variable {find find' : Finder} {layout : Layout}

theorem importOf_congr {spec : ImportSpec}
    (h : ∀ p, (Text.Quoted.unquote spec.path.toList).map String.ofList = some p → find p = find' p) :
    importOf find spec = importOf find' spec := by
  cases hp : Text.Quoted.unquote spec.path.toList with
  | none => simp only [importOf, hp, Option.map_none]
  | some p => simp only [importOf, hp, Option.map_some, h (String.ofList p) (by simp [hp])]

/-- The description of a layout rests on the answers for the paths that it imports. -/
theorem ofLayout_congr (dialect : Annotation.Dialect) (text : List Char)
    (h : ∀ p ∈ importPaths layout, find p = find' p) :
    ofLayout dialect find text layout = ofLayout dialect find' text layout := by
  have hi : (importSpecs layout).filterMap (importOf find) =
      (importSpecs layout).filterMap (importOf find') := by
    refine List.filterMap_congr fun spec hs => importOf_congr fun p hp => ?_
    exact h p (List.mem_filterMap.2 ⟨spec, hs, hp⟩)
  simp only [ofLayout, hi]

theorem text_of_ofLayout {dialect : Annotation.Dialect} {text : List Char} {o : Outline}
    (h : ofLayout dialect find text layout = .ok o) : o.text = text := by
  simp only [ofLayout, bind, Except.bind] at h
  split at h
  · cases h
  · cases h
    rfl

end Outline

/-- An edit, and what the packages are while it takes place. -/
structure Request where
  find : Finder
  edit : Edit

namespace Document

open Package

variable {settings : Settings} {find : Finder} {m m' : Memo} {text : List Char} {d : Document}

/-- Carries out requests in their order. -/
def run (d : Document) (requests : List Request) : Document :=
  requests.foldl (fun d r => (d.apply r.find r.edit).2) d

/-- The snapshot is what the text reads as, and the memo has all answers that this takes. -/
def Settled (d : Document) : Prop :=
  ∀ find, read d.settings find d.memo d.text = (.ok d.outline, d.memo)

theorem read_within (settings : Settings) (find : Finder) (m : Memo) (text : List Char) :
    m.Within (read settings find m text).2 := by
  cases h : Outline.layoutOf text with
  | error e => simpa only [read, h] using Memo.Within.refl m
  | ok layout => simpa only [read, h] using Memo.within_askAll m find _

/-- A text that is read again asks for nothing, and neither does it once the memo has grown. -/
theorem read_again {o : Outline} (h : (read settings find m text).1 = .ok o)
    (hw : (read settings find m text).2.Within m') (find' : Finder) :
    read settings find' m' text = (.ok o, m') := by
  cases hl : Outline.layoutOf text with
  | error e => simp only [read, hl, reduceCtorEq] at h
  | ok layout =>
      simp only [read, hl] at h hw ⊢
      have hk : ∀ p ∈ Outline.importPaths layout,
          (m.askAll find (Outline.importPaths layout)).Knows p :=
        fun p hp => Memo.knows_askAll m find hp
      have hm : m'.askAll find' (Outline.importPaths layout) = m' :=
        Memo.askAll_of_knows fun p hp => (hk p hp).within hw
      rw [hm, Outline.ofLayout_congr _ _ fun p hp => Memo.find_eq_of_within (hk p hp) hw, h]

theorem text_of_read {o : Outline} (h : (read settings find m text).1 = .ok o) : o.text = text := by
  cases hl : Outline.layoutOf text with
  | error e => simp only [read, hl, reduceCtorEq] at h
  | ok layout =>
      simp only [read, hl] at h
      exact Outline.text_of_ofLayout h

theorem Settled.of_read {o : Outline} (h : (read settings find m text).1 = .ok o)
    (hw : (read settings find m text).2.Within m') : Settled ⟨settings, m', o⟩ := by
  intro find'
  have ht : text = Document.text ⟨settings, m', o⟩ := (text_of_read h).symm
  exact ht ▸ read_again h hw find'

theorem settled_of_ofText (h : ofText settings find text = .ok d) : d.Settled := by
  cases hr : read settings find .empty text with
  | mk answer memo =>
      cases answer with
      | error e => simp only [ofText, hr, reduceCtorEq] at h
      | ok o =>
          simp only [ofText, hr, Except.ok.injEq] at h
          subst h
          exact .of_read (by rw [hr]) (by rw [hr]; exact .refl memo)

theorem Settled.within (h : d.Settled) (hw : d.memo.Within m) :
    Settled { d with memo := m } := by
  intro find
  have hr : (read d.settings find d.memo d.text).1 = .ok d.outline := by rw [h find]
  exact read_again hr (by rwa [h find]) find

theorem commit_failed {e : Error} (h : (d.commit find text).1 = .error e) :
    (d.commit find text).2 = { d with memo := (read d.settings find d.memo text).2 } := by
  cases hr : read d.settings find d.memo text with
  | mk answer memo =>
      cases answer with
      | error e' => simp only [commit, hr]
      | ok o => simp only [commit, hr, reduceCtorEq] at h

theorem Settled.commit (h : d.Settled) (find : Finder) (text : List Char) :
    (d.commit find text).2.Settled := by
  have hw := read_within d.settings find d.memo text
  cases hr : read d.settings find d.memo text with
  | mk answer memo =>
      rw [hr] at hw
      cases answer with
      | error e => simpa only [Document.commit, hr] using h.within hw
      | ok o =>
          have hs : Settled ⟨d.settings, memo, o⟩ :=
            .of_read (by rw [hr]) (by rw [hr]; exact .refl memo)
          simpa only [Document.commit, hr] using hs

theorem settings_commit (d : Document) (find : Finder) (text : List Char) :
    (d.commit find text).2.settings = d.settings := by
  cases hr : read d.settings find d.memo text with
  | mk answer memo => cases answer <;> simp only [commit, hr]

theorem Settled.apply (h : d.Settled) (find : Finder) (e : Edit) : (d.apply find e).2.Settled := by
  cases hs : e.splice? d.settings d.outline with
  | error err => simpa only [Document.apply, hs] using h
  | ok s =>
      cases s with
      | none => simpa only [Document.apply, hs] using h
      | some s => simpa only [Document.apply, hs] using h.commit find _

theorem settings_apply (d : Document) (find : Finder) (e : Edit) :
    (d.apply find e).2.settings = d.settings := by
  cases hs : e.splice? d.settings d.outline with
  | error err => simp only [apply, hs]
  | ok s =>
      cases s with
      | none => simp only [apply, hs]
      | some s => simp only [apply, hs, settings_commit]

/-- A failed edit changes nothing but the memo. -/
theorem apply_failed {e : Edit} {err : Error} (h : (d.apply find e).1 = .error err) :
    ∃ memo, (d.apply find e).2 = { d with memo := memo } := by
  cases hs : e.splice? d.settings d.outline with
  | error err' => exact ⟨d.memo, by simp only [apply, hs]⟩
  | ok s =>
      cases s with
      | none => exact ⟨d.memo, by simp only [apply, hs]⟩
      | some s =>
          simp only [apply, hs] at h ⊢
          exact ⟨_, commit_failed h⟩

theorem Settled.run (h : d.Settled) (requests : List Request) : (d.run requests).Settled := by
  induction requests generalizing d with
  | nil => exact h
  | cons r rest ih => exact ih (h.apply r.find r.edit)

theorem settings_run (d : Document) (requests : List Request) :
    (d.run requests).settings = d.settings := by
  induction requests generalizing d with
  | nil => rfl
  | cons r rest ih => exact (ih _).trans (settings_apply d r.find r.edit)

/-- A settled document is the outline of its text under its own answers alone. -/
theorem Settled.ofText_eq (h : d.Settled) :
    Outline.ofText d.settings.dialect d.memo.find d.text = .ok d.outline := by
  have hr := h d.memo.find
  cases hl : Outline.layoutOf d.text with
  | error e => simp only [read, hl, Prod.mk.injEq, reduceCtorEq, false_and] at hr
  | ok layout =>
      simp only [read, hl, Prod.mk.injEq] at hr
      rw [hr.2] at hr
      simpa only [Outline.ofText, hl, bind, Except.bind] using hr.1

theorem ofText_run (h : ofText settings find text = .ok d) (requests : List Request) :
    Outline.ofText d.settings.dialect (d.run requests).memo.find (d.run requests).text =
      .ok (d.run requests).outline := by
  rw [← settings_run d requests]
  exact ((settled_of_ofText h).run requests).ofText_eq

/-- After any requests, whatever the packages were during each of them, the snapshot is what its
text reads as under the answers remembered so far, and the text can be read again without a further
question. A request that fails then leaves the text and the whole outline as they are. -/
theorem run_snapshot (h : ofText settings find text = .ok d) (requests : List Request) :
    (d.run requests).settings = d.settings ∧
    Outline.ofText d.settings.dialect (d.run requests).memo.find (d.run requests).text =
      .ok (d.run requests).outline ∧
    (∀ find', read d.settings find' (d.run requests).memo (d.run requests).text =
      (.ok (d.run requests).outline, (d.run requests).memo)) ∧
    ∀ (r : Request) (e : Error), ((d.run requests).apply r.find r.edit).1 = .error e →
      (d.run (requests ++ [r])).text = (d.run requests).text ∧
      (d.run (requests ++ [r])).outline = (d.run requests).outline := by
  have hs : (d.run requests).Settled := (settled_of_ofText h).run requests
  have hset : (d.run requests).settings = d.settings := settings_run d requests
  refine ⟨hset, ofText_run h requests, fun find' => hset ▸ hs find', fun r e he => ?_⟩
  obtain ⟨memo, hm⟩ := apply_failed he
  have hr : d.run (requests ++ [r]) = { d.run requests with memo := memo } := by
    simpa only [run, List.foldl_append, List.foldl_cons, List.foldl_nil] using hm
  rw [hr]
  exact ⟨rfl, rfl⟩

/-- Code that breaks the text comes after code that does not. -/
theorem run_snapshot_broken_code :
    let settings : Settings := ⟨⟨"gen", false⟩, "\t", .verbatim⟩
    let find : Finder := fun _ => .error (.unresolved "no packages")
    let good : Request := ⟨find, .appendCode "f" "return"⟩
    let bad : Request := ⟨find, .appendCode "f" "if \x7b"⟩
    ∃ d, ofText settings find "package p\n\nimport \"os\"\n\nfunc f() \x7b\x7d\n".toList = .ok d ∧
      (∃ line column found,
        ((d.run [good]).apply bad.find bad.edit).1 = .error (.malformed line column found)) ∧
      (d.run [good, bad]).text = (d.run [good]).text ∧
      (d.run [good, bad]).outline = (d.run [good]).outline := by
  intro settings find good bad
  have hm : (ofText settings find "package p\n\nimport \"os\"\n\nfunc f() \x7b\x7d\n".toList).map
      (fun d => ((d.run [good]).apply bad.find bad.edit).1) =
        .ok (.error (.malformed 1 1 "package p")) := by
    decide +kernel
  cases hd : ofText settings find "package p\n\nimport \"os\"\n\nfunc f() \x7b\x7d\n".toList with
  | error e => simp only [hd, Except.map, reduceCtorEq] at hm
  | ok d =>
      simp only [hd, Except.map, Except.ok.injEq] at hm
      exact ⟨d, rfl, ⟨1, 1, _, hm⟩, (run_snapshot hd [good]).2.2.2 bad _ hm⟩

end Document

end GoOutline
