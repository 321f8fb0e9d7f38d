import GoOutline.Error
import GoOutline.Proofs.Forms
import GoOutline.Proofs.History

/-!
Packages that are asked for once. Behind a memo stands whatever answers import paths, and it may
answer differently each time: its answers may depend on what it has been asked before, and on what
happens in between. What is kept is the answer to the first question for each path.
-/

namespace GoOutline

open Package

namespace Error

/-- What is kept of an error. -/
def reason : Error → String
  | .unresolved _ reason => reason
  | e => e.message

/-- An error as it is told to those who ask for a path. -/
def under (path : String) (e : Error) : Error := .unresolved path e.reason

end Error

namespace PackageError

def ofError : Error → PackageError
  | .unreadable cause => .unreadable cause
  | e => .unresolved e.reason

def under (path : String) : PackageError → Error
  | .unresolved reason => .unresolved path reason
  | .unreadable cause => .unreadable cause

theorem reason_ofError (e : Error) : (ofError e).reason = e.reason := by
  cases e <;> rfl

end PackageError

/-- Answers import paths, and may change with each of them. -/
abbrev Registry (σ : Type) := String → σ → Except Error Package × σ

/-- Something happens outside of a registry, or a path is asked for. -/
inductive Event (σ : Type) where
  | change (f : σ → σ)
  | ask (path : String)

namespace Event

variable {σ τ : Type}

def path? : Event σ → Option String
  | change _ => none
  | ask path => some path

/-- The same event where more is remembered. -/
def aside : Event σ → Event (σ × τ)
  | change f => .change fun x => (f x.1, x.2)
  | ask path => .ask path

@[simp] theorem aside_ask (path : String) :
    (ask path : Event σ).aside = (ask path : Event (σ × τ)) := rfl

/-- Whether something may follow from an event for the answer to a path. -/
def concerns (path : String) : Event σ → Bool
  | change _ => true
  | ask q => q = path

end Event

/-- Paths with the answers to them. -/
abbrev Answers := List (String × Except Error Package)

namespace Registry

variable {σ : Type} {inner : Registry σ} {s : σ} {m m' : Memo} {log : Answers} {path q : String}

/-- Asks for what has not been asked before. -/
def cached (inner : Registry σ) : Registry (σ × Memo) := fun path x =>
  let y := match x.2.get? path with
    | some _ => x
    | none =>
      let (a, s) := inner path x.1
      (s, x.2.ask (fun _ => a.mapError .ofError) path)
  ((y.2.find path).mapError (PackageError.under path), y)

/-- Keeps account of each question. -/
def recorded (inner : Registry σ) : Registry (σ × Answers) := fun path x =>
  let (a, s) := inner path x.1
  (a, s, x.2 ++ [(path, a)])

/-- What is answered in the course of some events. -/
def run (r : Registry σ) : List (Event σ) → σ → Answers × σ
  | [], s => ([], s)
  | .change f :: events, s => run r events (f s)
  | .ask path :: events, s =>
    let (a, s) := r path s
    let (as, s) := run r events s
    ((path, a) :: as, s)

theorem run_ask (r : Registry σ) (path : String) (events : List (Event σ)) (s : σ) :
    r.run (.ask path :: events) s = ((path, (r path s).1) :: (r.run events (r path s).2).1,
      (r.run events (r path s).2).2) := rfl

theorem mapError_mapError {α ε ε' ε'' : Type} (f : ε → ε') (g : ε' → ε'') (x : Except ε α) :
    (x.mapError f).mapError g = x.mapError fun e => g (f e) := by
  cases x <;> rfl

theorem find_of_get? {a : Except String Package} (h : m.get? path = some a) :
    (m.find path).mapError (PackageError.under path) = a.mapError (Error.unresolved path) := by
  cases a <;> simp only [Memo.find, h] <;> rfl

theorem cached_of_known {a : Except String Package} (h : m.get? path = some a) :
    inner.cached path (s, m) = (a.mapError (.unresolved path), s, m) := by
  simp only [cached, h, find_of_get? h]

theorem cached_of_unknown (h : m.get? path = none) :
    inner.cached path (s, m) = ((inner path s).1.mapError (Error.under path), (inner path s).2,
      ⟨m.answers ++ [(path, (inner path s).1.mapError Error.reason)]⟩) := by
  have hask : m.ask (fun _ => (inner path s).1.mapError PackageError.ofError) path =
      ⟨m.answers ++ [(path, (inner path s).1.mapError Error.reason)]⟩ := by
    simp only [Memo.ask, h, mapError_mapError, PackageError.reason_ofError]
  have hget : Memo.get? ⟨m.answers ++ [(path, (inner path s).1.mapError Error.reason)]⟩ path =
      some ((inner path s).1.mapError Error.reason) := by
    simp [Memo.get?_append, h]
  simp only [cached, h, hask, find_of_get? hget, mapError_mapError]
  rfl

/-- An account of questions and the memo that goes with it. -/
structure Keeps (inner : Registry σ) (log : Answers) (m : Memo) : Prop where
  get? : ∀ path, m.get? path = (log.lookup path).map (Except.mapError Error.reason)
  once : (log.map Prod.fst).Nodup
  given : ∀ x ∈ log, ∃ s, (inner x.1 s).1 = x.2

theorem keeps_empty (inner : Registry σ) : Keeps inner [] .empty where
  get? _ := rfl
  once := List.nodup_nil
  given _ h := absurd h List.not_mem_nil

theorem not_mem_of_lookup (h : log.lookup path = none) : path ∉ log.map Prod.fst := by
  intro hm
  obtain ⟨x, hx, rfl⟩ := List.mem_map.1 hm
  simpa using List.lookup_eq_none_iff.1 h x hx

theorem Keeps.append (hk : Keeps inner log m) (h : log.lookup path = none) (s : σ) :
    Keeps inner (log ++ [(path, (inner path s).1)])
      ⟨m.answers ++ [(path, (inner path s).1.mapError Error.reason)]⟩ where
  get? q := by
    rw [Memo.get?_append, hk.get?, List.lookup_append]
    by_cases hq : q = path
    · simp [hq, h]
    · simp [hq, List.lookup_cons, beq_false_of_ne hq]
  once := by
    rw [List.map_append]
    exact Table.nodup_append_one hk.once (not_mem_of_lookup h)
  given x hx := by
    rcases List.mem_append.1 hx with hx | hx
    · exact hk.given x hx
    · rw [List.mem_singleton.1 hx]
      exact ⟨s, rfl⟩

/-- One question: either it has been asked before, or it is asked now and never again. -/
theorem cached_keeps (hk : Keeps inner log m) (path : String) (s : σ) :
    ∃ a s' m' new, inner.cached path (s, m) = (a, s', m') ∧
      inner.recorded.cached path ((s, log), m) = (a, (s', log ++ new), m') ∧
      Keeps inner (log ++ new) m' ∧ (∀ x ∈ new, x.1 = path) ∧
      ((log ++ new).lookup path).map (Except.mapError (Error.under path)) = some a := by
  cases h : log.lookup path with
  | some a =>
      have hget : m.get? path = some (a.mapError Error.reason) := by rw [hk.get?, h]; rfl
      refine ⟨_, s, m, [], cached_of_known hget, ?_, ?_, by simp, ?_⟩
      · rw [cached_of_known hget, List.append_nil]
      · rwa [List.append_nil]
      · rw [List.append_nil, h, Option.map_some, mapError_mapError]
        rfl
  | none =>
      have hget : m.get? path = none := by rw [hk.get?, h]; rfl
      refine ⟨_, _, _, [(path, (inner path s).1)], cached_of_unknown hget, ?_, hk.append h s, ?_, ?_⟩
      · rw [cached_of_unknown hget]
        rfl
      · simp
      · simp [List.lookup_append, h]

theorem lookup_append_of_some {a : Except Error Package} (h : log.lookup path = some a)
    (new : Answers) : (log ++ new).lookup path = some a := by
  rw [List.lookup_append, h, Option.some_or]

/-- Events from a memo on that goes with an account. -/
theorem run_keeps (hk : Keeps inner log m) (events : List (Event σ)) (s : σ) :
    ∃ answers s' m' new,
      inner.cached.run (events.map .aside) (s, m) = (answers, s', m') ∧
      inner.recorded.cached.run (events.map fun e => e.aside.aside) ((s, log), m) =
        (answers, (s', log ++ new), m') ∧
      Keeps inner (log ++ new) m' ∧ (∀ x ∈ new, x.1 ∈ answers.map Prod.fst) ∧
      answers.map Prod.fst = events.filterMap Event.path? ∧
      ∀ x ∈ answers, ((log ++ new).lookup x.1).map (Except.mapError (Error.under x.1)) = some x.2 := by
  induction events generalizing s m log with
  | nil => exact ⟨[], s, m, [], rfl, by simp [run], by simpa, by simp, rfl, by simp⟩
  | cons event events ih =>
      cases event with
      | change f => exact ih hk (f s)
      | ask path =>
          obtain ⟨a, s₁, m₁, new₁, hrun₁, hlog₁, hk₁, hnew₁, ha⟩ := cached_keeps hk path s
          obtain ⟨answers, s₂, m₂, new₂, hrun₂, hlog₂, hk₂, hnew₂, hpaths, hanswers⟩ := ih hk₁ s₁
          refine ⟨(path, a) :: answers, s₂, m₂, new₁ ++ new₂, ?_, ?_, ?_, ?_, ?_, ?_⟩
          · rw [List.map_cons, Event.aside_ask, run_ask, hrun₁, hrun₂]
          · rw [List.map_cons, Event.aside_ask, Event.aside_ask, run_ask, hlog₁, hlog₂,
              List.append_assoc]
          · rwa [← List.append_assoc]
          · intro x hx
            rcases List.mem_append.1 hx with hx | hx
            · exact List.mem_cons.2 (.inl (hnew₁ x hx))
            · exact List.mem_cons_of_mem _ (hnew₂ x hx)
          · rw [List.map_cons, hpaths]
            rfl
          · intro x hx
            rw [← List.append_assoc]
            rcases List.mem_cons.1 hx with rfl | hx
            · obtain ⟨b, hb, hab⟩ := Option.map_eq_some_iff.1 ha
              rw [lookup_append_of_some hb, Option.map_some, hab]
            · exact hanswers x hx

theorem get?_cached (hq : q ≠ path) : (inner.cached q (s, m)).2.2.get? path = m.get? path := by
  cases h : m.get? q with
  | some a => rw [cached_of_known h]
  | none => simp [cached_of_unknown h, Memo.get?_append, Ne.symm hq]

/-- Where questions leave a registry as it is, those for other paths can be left out. -/
theorem run_filter (hs : ∀ path s, (inner path s).2 = s) (h : m.get? path = m'.get? path)
    (events : List (Event σ)) (s : σ) :
    (inner.cached.run (events.map .aside) (s, m)).1.filter (fun x => x.1 = path) =
      (inner.cached.run ((events.filter (Event.concerns path)).map .aside) (s, m')).1 := by
  induction events generalizing s m m' with
  | nil => rfl
  | cons event events ih =>
      cases event with
      | change f => exact ih h (f s)
      | ask q =>
          have hstate (m : Memo) : (inner.cached q (s, m)).2 = (s, (inner.cached q (s, m)).2.2) := by
            cases h : m.get? q with
            | some a => rw [cached_of_known h]
            | none => rw [cached_of_unknown h, hs]
          by_cases hq : q = path
          · subst hq
            have hsame : (inner.cached q (s, m)).1 = (inner.cached q (s, m')).1 ∧
                (inner.cached q (s, m)).2.2.get? q = (inner.cached q (s, m')).2.2.get? q := by
              cases hm : m.get? q with
              | some a =>
                  rw [cached_of_known hm, cached_of_known (h ▸ hm)]
                  exact ⟨rfl, h⟩
              | none =>
                  rw [cached_of_unknown hm, cached_of_unknown (h ▸ hm)]
                  simp [Memo.get?_append, hm, h ▸ hm]
            rw [List.filter_cons_of_pos (by simp [Event.concerns]), List.map_cons, List.map_cons,
              Event.aside_ask, run_ask, run_ask, List.filter_cons_of_pos (by simp), hsame.1, hstate m,
              hstate m', ih hsame.2 s]
          · have hget : (inner.cached q (s, m)).2.2.get? path = m'.get? path :=
              (get?_cached hq).trans h
            rw [List.filter_cons_of_neg (by simp [Event.concerns, hq]), List.map_cons,
              Event.aside_ask, run_ask, List.filter_cons_of_neg (by simp [hq]), hstate m, ih hget s]

/-- Whatever a registry answers, and however its answers change, behind a memo it is asked once for
each path that is asked for. Each answer for the path is what it said then: a package as it is, a
failure as one of the path with the same reason. Questions for other paths have no part in it. So
the answers of a registry that never changes its mind are its own but for the wording of its
failures. -/
theorem run_cached (inner : Registry σ) (events : List (Event σ)) (s : σ) :
    ∃ (answers log : Answers) (s' : σ) (m : Memo),
      inner.cached.run (events.map .aside) (s, .empty) = (answers, s', m) ∧
      inner.recorded.cached.run (events.map fun e => e.aside.aside) ((s, []), .empty) =
        (answers, (s', log), m) ∧
      answers.map Prod.fst = events.filterMap Event.path? ∧
      (log.map Prod.fst).Nodup ∧ (∀ x ∈ log, x.1 ∈ answers.map Prod.fst) ∧
      (∀ x ∈ log, ∃ s, (inner x.1 s).1 = x.2) ∧
      (∀ x ∈ answers, ∃ a, (x.1, a) ∈ log ∧ x.2 = a.mapError fun e => .unresolved x.1 e.reason) ∧
      (∀ x ∈ answers, ∀ y ∈ answers, x.1 = y.1 → x.2 = y.2) ∧
      ((∀ path s, (inner path s).2 = s) → ∀ path, answers.filter (fun x => x.1 = path) =
        (inner.cached.run ((events.filter (Event.concerns path)).map .aside) (s, .empty)).1) ∧
      ∀ fixed : String → Except Error Package, (∀ path s, (inner path s).1 = fixed path) →
        ∀ x ∈ answers, (∀ p, x.2 = .ok p ↔ fixed x.1 = .ok p) ∧
          ((∃ e, x.2 = .error e) ↔ ∃ e, fixed x.1 = .error e) := by
  obtain ⟨answers, s', m, log, hrun, hlog, hk, hnew, hpaths, hanswers⟩ :=
    run_keeps (keeps_empty inner) events s
  rw [List.nil_append] at hlog hk hanswers
  have htold (x) (hx : x ∈ answers) :
      ∃ a, log.lookup x.1 = some a ∧ a.mapError (Error.under x.1) = x.2 :=
    Option.map_eq_some_iff.1 (hanswers x hx)
  have hmem {path : String} {a} (h : log.lookup path = some a) : (path, a) ∈ log :=
    (Json.lookup_eq_some_iff_mem hk.once).1 h
  refine ⟨answers, log, s', m, hrun, hlog, hpaths, hk.once, hnew, hk.given, ?_, ?_, ?_, ?_⟩
  · intro x hx
    obtain ⟨a, ha, hax⟩ := htold x hx
    exact ⟨a, hmem ha, hax.symm⟩
  · rintro ⟨path, x⟩ hx ⟨_, y⟩ hy rfl
    exact Option.some.inj ((hanswers _ hx).symm.trans (hanswers _ hy))
  · intro hs path
    have hfilter := run_filter hs (rfl : Memo.empty.get? path = Memo.empty.get? path) events s
    rwa [hrun] at hfilter
  · intro fixed hfixed x hx
    obtain ⟨a, ha, hax⟩ := htold x hx
    obtain ⟨s, hs⟩ := hk.given _ (hmem ha)
    rw [← hax, ← hfixed x.1 s, hs]
    cases a with
    | ok p => simp [Except.mapError]
    | error e => simp [Except.mapError]

/-- One package and a path that cannot be read, whatever happens in between. -/
theorem run_cached_one_package :
    let inner : Registry Nat := fun path n =>
      (if path = "p" then .ok ⟨"/p", "p"⟩ else .error (.unreadable .missing), n)
    let failure : Error := .unresolved "q" "IO error: No such file or directory (os error 2)"
    let answers : Answers := [("q", .error failure), ("p", .ok ⟨"/p", "p"⟩), ("q", .error failure)]
    (inner.cached.run [.ask "q", .change fun x => (x.1 + 1, x.2), .ask "p", .ask "q"] (0, .empty)).1 =
        answers ∧
      answers.filter (fun x => x.1 = "q") =
        (inner.cached.run [.ask "q", .change fun x => (x.1 + 1, x.2), .ask "q"] (0, .empty)).1 ∧
      ∀ x ∈ answers, (∀ p, x.2 = .ok p ↔ (inner x.1 0).1 = .ok p) ∧
        ((∃ e, x.2 = .error e) ↔ ∃ e, (inner x.1 0).1 = .error e) := by
  intro inner failure answers
  have hanswers : (inner.cached.run [.ask "q", .change fun x => (x.1 + 1, x.2), .ask "p", .ask "q"]
      (0, .empty)).1 = answers := rfl
  obtain ⟨as, log, s', m, hrun, -, -, -, -, -, -, -, hothers, hfixed⟩ :=
    run_cached inner [.ask "q", .change (· + 1), .ask "p", .ask "q"] 0
  have has : as = answers := by
    rw [← hanswers]
    exact (congrArg Prod.fst hrun).symm
  rw [has] at hothers hfixed
  exact ⟨hanswers, hothers (fun _ _ => rfl) "q", hfixed (fun path => (inner path 0).1) fun _ _ => rfl⟩

/-- A registry that counts its questions is asked no second time for a path. -/
example : (Registry.run (cached fun path (n : Nat) => (.ok ⟨path, toString n⟩, n + 1))
    [.ask "p", .ask "q", .ask "p"] (0, .empty)).1 =
      [("p", .ok ⟨"p", "0"⟩), ("q", .ok ⟨"q", "1"⟩), ("p", .ok ⟨"p", "0"⟩)] := rfl

end Registry

end GoOutline
