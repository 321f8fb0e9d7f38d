import GoOutline.Proofs.Spelling

/-!
Parameter lists and where they are read. Between two commas of a list stands one entry, which has a
type that is read by a rule of its own. The parameters come from the entries.
-/

namespace GoOutline.Syntax.Grammar

open Syntax.Parser

variable {n : Nat} {p : Place} {ts us rest : List Token}

theorem lookAt_behind {t : Token} (hs : t.isSolid) (hp : t.isPlain) :
    lookAt 1 (t :: us) = lookAt 0 us := by
  rw [lookAt, if_pos]
  simp [hs, Token.not_isClosing_of_isPlain hp]

/-- The type of an entry, where a lone name is one. -/
def ParamEntry.type : ParamEntry → TypeExpr
  | .lone span name => .name span name
  | .named _ _ type => type
  | .complete decl => decl.type

/-- At most one name stands in an entry. -/
def ParamEntry.Single : ParamEntry → Prop
  | .complete d => d.names.length ≤ 1
  | _ => True

/-- The type of an entry is read among some tokens, and at most one name stands in the entry. -/
structure ParamEntry.IsRead (ts : List Token) (e : ParamEntry) : Prop where
  type : ∃ n p, (typeExpr n p).Reads ts e.type
  single : e.Single

theorem isRead_unnamedEntry {e : ParamEntry} (h : (unnamedEntry n).Reads ts e) : e.IsRead ts := by
  cases n with
  | zero => exact h.failure.elim
  | succ n =>
      obtain ⟨type, ht, h⟩ := h.bind
      obtain ⟨_, -, h⟩ := h.bind
      obtain ⟨_, -, h⟩ := h.bind
      cases h.pure
      exact ⟨⟨n, .inner, ht⟩, Nat.zero_le 1⟩

theorem isRead_namedEntry {e : ParamEntry} (h : (namedEntry n).Reads ts e) : e.IsRead ts := by
  cases n with
  | zero => exact h.failure.elim
  | succ n =>
      obtain ⟨_, -, h⟩ := h.bind
      obtain ⟨type, ht, h⟩ := h.bind
      cases h.pure
      exact ⟨⟨n, .inner, ht⟩, trivial⟩

/-- A name that stands alone reads as a type. -/
theorem reads_lone {t : Token} (hs : t :: us <:+ ts) (ht : t.kind = .name)
    (hu : (lookAt 0 us).isAny [",", ")"]) :
    (typeExpr 3 .inner).Reads ts (.name t.extent.span t.text) := by
  obtain ⟨text, hmem, hu⟩ := Token.exists_is_of_isAny hu
  have hno {other : String} (hne : other ∉ [",", ")"]) : (lookAt 0 us).is other = false :=
    Token.is_eq_false_of_is hu fun he => hne (he ▸ hmem)
  have hname : (typeName .inner).run (t :: us) = some ((.name · t.text), us) := by
    refine bind_eq_some.2 ⟨t, us, name_eq_some.2 ⟨rfl, ht⟩, ?_⟩
    refine bind_eq_some.2 ⟨_, us, peek_eq_some.2 ⟨rfl, rfl⟩, ?_⟩
    rw [hno (by decide), Bool.false_and, if_neg Bool.false_ne_true]
    exact pure_eq_some.2 ⟨rfl, rfl⟩
  have htype : (namedType 1 .inner).run (t :: us) = some ((.name · t.text), us) := by
    refine bind_eq_some.2 ⟨_, us, hname, ?_⟩
    refine bind_eq_some.2 ⟨_, us, peek_eq_some.2 ⟨rfl, rfl⟩, ?_⟩
    rw [takesArgs, hno (by decide), Bool.false_and, Bool.false_and, if_neg Bool.false_ne_true]
    exact pure_eq_some.2 ⟨rfl, rfl⟩
  have hform : (typeForm 2 .inner).run (t :: us) = some ((.name · t.text), us) := by
    refine (typeForm_of_name 1 .inner ?_).trans htype
    exact ht
  refine ⟨t :: us, us, hs, ?_⟩
  simp only [typeExpr, bind_eq_some, pure_eq_some]
  exact ⟨_, us, placed_eq_some.2 ⟨[t], rfl, hform, rfl⟩, rfl, rfl⟩

theorem isRead_paramEntry {e : ParamEntry} (h : (paramEntry n).Reads ts e) : e.IsRead ts := by
  cases n with
  | zero => exact h.failure.elim
  | succ n =>
      obtain ⟨us, rest, hs, h⟩ := h
      simp only [paramEntry, bind_eq_some, peek_eq_some, ahead_eq_some] at h
      obtain ⟨t, _, ⟨ht, rfl⟩, u, _, ⟨hu, rfl⟩, h⟩ := h
      split at h
      · simp only [bind_eq_some, discard_eq_some, advance_eq_some, pure_eq_some] at h
        obtain ⟨_, _, ⟨a, rfl, -⟩, type, _, htype, rfl, rfl⟩ := h
        exact ⟨⟨n, .inner, _, _, (List.suffix_cons a _).trans hs, htype⟩, Nat.zero_le 1⟩
      split at h
      next hname =>
        split at h
        · simp only [bind_eq_some, discard_eq_some, advance_eq_some, pure_eq_some] at h
          obtain ⟨_, _, ⟨a, rfl, -⟩, _, _, ⟨b, rfl, -⟩, type, _, htype, rfl, rfl⟩ := h
          have hmid := ((List.suffix_cons b _).trans (List.suffix_cons a _)).trans hs
          exact ⟨⟨n, .inner, _, _, hmid, htype⟩, Nat.le_refl 1⟩
        split at h
        next hlone =>
          simp only [bind_eq_some, discard_eq_some, advance_eq_some, pure_eq_some] at h
          obtain ⟨_, _, ⟨a, rfl, hsolid, hplain⟩, rfl, rfl⟩ := h
          rw [ht] at hname ⊢
          rw [hu, lookAt_behind hsolid hplain] at hlone
          exact ⟨⟨3, .inner, reads_lone hs (by simpa using hname) hlone⟩, trivial⟩
        split at h
        · exact isRead_unnamedEntry ⟨_, _, hs, h⟩
        split at h
        · rcases orElse_eq_some.1 h with h | ⟨-, h⟩
          · exact isRead_unnamedEntry ⟨_, _, hs, h⟩
          · exact isRead_namedEntry ⟨_, _, hs, h⟩
        · exact isRead_namedEntry ⟨_, _, hs, h⟩
      · exact isRead_unnamedEntry ⟨_, _, hs, h⟩

/-- The types of some parameters are those of their entries. -/
theorem exists_of_groupParams {pending : List (Span × String)} {es : List ParamEntry} :
    ∀ d ∈ groupParams pending es,
      (∃ q ∈ pending, d = unnamedParam q) ∨ ∃ e ∈ es, d.type = e.type := by
  have hpending {qs : List (Span × String)} {es : List ParamEntry} {d : ParamDecl}
      (hd : d ∈ qs.map unnamedParam) :
      (∃ q ∈ qs, d = unnamedParam q) ∨ ∃ e ∈ es, d.type = e.type := by
    obtain ⟨q, hq, rfl⟩ := List.mem_map.1 hd
    exact .inl ⟨q, hq, rfl⟩
  fun_induction groupParams pending es with
  | case1 pending => exact fun d hd => hpending hd
  | case2 pending span name rest ih =>
      intro d hd
      rcases ih d hd with ⟨q, hq, rfl⟩ | ⟨e, he, hde⟩
      · rcases List.mem_append.1 hq with hq | hq
        · exact .inl ⟨q, hq, rfl⟩
        · rw [List.mem_singleton.1 hq]
          exact .inr ⟨_, List.mem_cons_self, rfl⟩
      · exact .inr ⟨e, List.mem_cons_of_mem _ he, hde⟩
  | case3 pending span name type rest start ih =>
      intro d hd
      rcases List.mem_cons.1 hd with rfl | hd
      · exact .inr ⟨_, List.mem_cons_self, rfl⟩
      · rcases ih d hd with ⟨q, hq, -⟩ | ⟨e, he, hde⟩
        · cases hq
        · exact .inr ⟨e, List.mem_cons_of_mem _ he, hde⟩
  | case4 pending decl rest ih =>
      intro d hd
      rcases List.mem_append.1 hd with hd | hd
      · exact hpending hd
      rcases List.mem_cons.1 hd with rfl | hd
      · exact .inr ⟨_, List.mem_cons_self, rfl⟩
      · rcases ih d hd with ⟨q, hq, -⟩ | ⟨e, he, hde⟩
        · cases hq
        · exact .inr ⟨e, List.mem_cons_of_mem _ he, hde⟩

/-- How the entries of parameters or results are read: between parentheses, with a comma between any
two of them, or as a single type, or not at all. -/
inductive ReadEntries (ts : List Token) : List ParamEntry → Prop where
  | none : ReadEntries ts []
  | list {n : Nat} {us rest : List Token} {es : List ParamEntry} (hs : us <:+ ts)
      (h : Listed (paramEntry n) us es rest) : ReadEntries ts es
  | single {n : Nat} {p : Place} {type : TypeExpr} (h : (typeExpr n p).Reads ts type) :
      ReadEntries ts [.complete (.mk type.span [] type false)]

/-- Parameters or results come from entries that are read among some tokens. -/
def ReadParams (ts : List Token) (ds : List ParamDecl) : Prop :=
  ∃ es, ReadEntries ts es ∧ ds = groupParams [] es

theorem ReadEntries.isRead {es : List ParamEntry} (h : ReadEntries ts es) :
    ∀ e ∈ es, e.IsRead ts := by
  cases h with
  | none => simp
  | list hs h => exact fun e he => isRead_paramEntry (h.reads hs e he)
  | single h =>
      intro e he
      rw [List.mem_singleton.1 he]
      exact ⟨⟨_, _, h⟩, Nat.zero_le 1⟩

/-- The types of parameters are read. -/
theorem ReadParams.types {ds : List ParamDecl} (h : ReadParams ts ds) :
    ∀ d ∈ ds, ∃ n p, (typeExpr n p).Reads ts d.type := by
  obtain ⟨es, hes, rfl⟩ := h
  intro d hd
  rcases exists_of_groupParams d hd with ⟨q, hq, -⟩ | ⟨e, he, hde⟩
  · cases hq
  · rw [hde]
    exact (hes.isRead e he).type

theorem readParams_paramList {l : ParamList} (h : (paramList n).Reads ts l) :
    ReadParams ts l.decls := by
  cases n with
  | zero => exact h.failure.elim
  | succ n =>
      obtain ⟨g, hg, h⟩ := h.bind
      cases h.pure
      refine ⟨g.content, ?_, rfl⟩
      have hentries := hg.group
      cases n with
      | zero => exact hentries.failure.elim
      | succ n =>
          obtain ⟨t, -, hentries⟩ := hentries.bind
          split at hentries
          · obtain ⟨_, -, hentries⟩ := hentries.bind
            rw [← hentries.pure]
            exact .none
          · obtain ⟨us, rest, hs, hrun⟩ := hentries
            exact .list hs (listed_commaList hrun)

theorem readParams_resultList {ds : List ParamDecl} (h : (resultList n p).Reads ts ds) :
    ReadParams ts ds := by
  cases n with
  | zero => exact h.failure.elim
  | succ n =>
      obtain ⟨t, -, h⟩ := h.bind
      split at h
      · exact ⟨[], .none, h.pure.symm⟩
      split at h
      · obtain ⟨l, hl, h⟩ := h.bind
        rw [← h.pure]
        exact readParams_paramList hl
      split at h
      · obtain ⟨type, ht, h⟩ := h.bind
        exact ⟨_, .single ht, h.pure.symm⟩
      · exact ⟨[], .none, h.pure.symm⟩

/-- The receiver of a function is a parameter. -/
theorem readParams_receiver {f : FuncDecl} {l : ParamList} (h : (funcDecl n).Reads ts f)
    (hl : f.receiver = some l) : ReadParams ts l.decls := by
  cases n with
  | zero => exact h.failure.elim
  | succ n =>
      obtain ⟨_, -, h⟩ := h.bind
      obtain ⟨r, hr, h⟩ := h.bind
      obtain ⟨_, -, h⟩ := h.bind
      obtain ⟨_, -, h⟩ := h.bind
      obtain ⟨_, -, h⟩ := h.bind
      obtain ⟨_, -, h⟩ := h.bind
      obtain ⟨_, -, h⟩ := h.bind
      cases h.pure
      obtain rfl : r = some l := hl
      cases n with
      | zero => exact hr.failure.elim
      | succ n =>
          obtain ⟨t, -, hr⟩ := hr.bind
          split at hr
          · obtain ⟨l', hl', he⟩ := hr.map
            cases he
            exact readParams_paramList hl'
          · cases hr.pure

end GoOutline.Syntax.Grammar
