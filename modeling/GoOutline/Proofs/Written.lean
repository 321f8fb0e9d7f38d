import GoOutline.Proofs.Entries
import GoOutline.Proofs.Guards
import GoOutline.Proofs.Phrases

/-!
Types as texts. A text of one line that is a type and nothing else is read as the same type wherever
it is written, and what it stands for does not depend on the place.
-/

namespace GoOutline

open Text Syntax Syntax.Lexer Syntax.Grammar Syntax.Parser

variable {s t u v : List Char} {e : TypeExpr} {imports : List Import} {n k r : Nat} {p : Place}
  {z : Token} {rest : List Token}

namespace Syntax.Lexer

/-- The end of a text of one line. -/
def endOf (s : List Char) : Token := (State.bare (byteLength s) 0).stop

theorem ended_words (s : List Char) : Ended (words s ++ [endOf s]) :=
  ⟨endOf s, by simp, rfl⟩

theorem token_words_upto (s : List Char) : ∀ t ∈ words s ++ [endOf s], t.Upto s := by
  intro t ht
  rcases List.mem_append.1 ht with ht | ht
  · exact emit_upto (u := []) (by simp [State.bare]) rfl rfl (by simp [flat_pieces]) t ht
  · rw [List.mem_singleton.1 ht]
    have hs : IsBoundary s (byteLength s) := isBoundary_self s
    exact ⟨⟨hs, by simpa [endOf, State.stop, State.extent, State.bare, byteLength] using hs,
      Nat.zero_le _, Nat.zero_le _⟩, by simp [endOf, State.stop, State.bare]⟩

theorem reaches_words_end (s : List Char) (n r : Nat) :
    ∀ t ∈ words s ++ [endOf s], (Shift.onward n r).Reaches t.extent := by
  intro t ht
  constructor <;> simp only [Shift.onward] <;> omega

end Syntax.Lexer

/-- A text that is a type and nothing else. -/
structure TypeText (s : List Char) (e : TypeExpr) : Prop extends Phrase s where
  read : ∃ z, (typeExpr (16 * ((tokens s).length + 1)) .line).run (tokens s) = some (e, [z])

namespace TypeText

theorem run_words (h : TypeText s e) : ∃ k, 16 * (words s ++ [endOf s]).length + 2 < k ∧
    (typeExpr k .line).run (words s ++ [endOf s]) = some (e, [endOf s]) := by
  obtain ⟨z, hz⟩ := h.read
  have htokens : tokens s = words s ++ [endOf s] := tokens_of_phrase h.toPhrase
  rw [htokens] at hz
  have hbound : 16 * (words s ++ [endOf s]).length + 2 < 16 * ((words s ++ [endOf s]).length + 1) := by
    omega
  generalize 16 * ((words s ++ [endOf s]).length + 1) = k at hz hbound
  obtain ⟨used, hu, -⟩ := (typeExpr k .line).takes hz
  obtain ⟨-, hend⟩ := List.append_inj' hu rfl
  rw [← (List.cons.inj hend).1] at hz
  exact ⟨k, hbound, hz⟩

/-- Whatever stays up to the end of the text stays in the type. -/
theorem fixed (h : TypeText s e) : (Motion.upto s).type e = e := by
  have hall : ∀ t ∈ words s ++ [endOf s], (Motion.upto s).token t = t := fun t ht =>
    token_of_upto (token_words_upto s t ht)
  obtain ⟨k, hk, hrun⟩ := h.run_words
  obtain ⟨e', he, hmoves⟩ := run_moved (m := k) (.typeExpr .line) hrun
    ⟨ended_words s, Motion.fair_of_fixed hall⟩ hk hk
  have hmap : (words s ++ [endOf s]).map (Motion.upto s).token = words s ++ [endOf s] :=
    (List.map_congr_left hall).trans (List.map_id _)
  obtain rfl : e' = (Motion.upto s).type e := hmoves
  rw [hmap] at he
  exact (Prod.mk.inj (Option.some.inj (he.symm.trans hrun))).1

/-- The type where its text stands in a line, in front of what goes on with no type. -/
theorem run_at (h : TypeText s e) (n r : Nat) (hp : p ≠ .bare) (hz : Passive p z)
    (hk : 16 * (wordsAt n r s).length + 18 < k) (rest : List Token) :
    (typeExpr k p).run (wordsAt n r s ++ z :: rest) =
      some ((Shift.onward n r).motion.type e, z :: rest) := by
  rw [wordsAt_eq] at hk ⊢
  rw [List.length_map] at hk
  set d := Shift.onward n r
  obtain ⟨k₀, hk₀, hrun⟩ := h.run_words
  obtain ⟨e', he, hmoves⟩ := run_moved (d := d.motion) (m := k) (.typeExpr .line) hrun
    ⟨ended_words s, Shift.fair (reaches_words_end s n r)⟩ hk₀
    (by show 16 * (words s ++ [endOf s]).length + 2 < k; simp; omega)
  obtain rfl : e' = d.motion.type e := hmoves
  rw [List.map_append] at he
  refine (turns .line p k).typeExpr ?_ (.inr ⟨.inr ⟨rfl, rfl, rfl⟩, hz⟩) he rest
  intro t ht
  obtain ⟨w, hw, rfl⟩ := List.mem_map.1 ht
  exact .inr ⟨by decide, hp, newline_words h.toPhrase w hw⟩

/-- The text of a type says the same wherever it stands. -/
theorem type_at (h : TypeText s e) (imports : List Import) (u v : List Char) (r : Nat) :
    Scope.type ⟨u ++ s ++ v, imports⟩ ((Shift.onward (byteLength u) r).motion.type e) =
      Scope.type ⟨s, imports⟩ e :=
  Scope.type_kept imports (keeps_within u s v r) e h.fixed

end TypeText

namespace Syntax.Grammar

variable {t w : Token} {l mid : List Token}

/-- A type that starts with a name is a named one. -/
theorem namedType_of_typeExpr (h : (typeExpr k p).run (t :: l) = some (e, rest)) (ht : t.kind = .name) :
    ∃ j build used, k = j + 2 ∧ (namedType j p).run (t :: l) = some (build, rest) ∧
      t :: l = used ++ rest ∧ e = build (extentOf used).span := by
  rcases k with _ | _ | k
  · cases h
  · obtain ⟨_, _, hp, -⟩ := bind_eq_some.1 h
    obtain ⟨_, _, hf, -⟩ := placed_eq_some.1 hp
    cases hf
  obtain ⟨⟨extent, build⟩, _, hp, hend⟩ := bind_eq_some.1 h
  obtain ⟨rfl, rfl⟩ := pure_eq_some.1 hend
  obtain ⟨used, hu, hf, rfl⟩ := placed_eq_some.1 hp
  rw [typeForm, run_peek_cons, if_pos (by simp [ht])] at hf
  exact ⟨k, build, used, rfl, hf, hu, rfl⟩

/-- Behind the name that a type starts with stands a dot or a bracket, if the type goes on. -/
theorem typeExpr_name (h : (typeExpr k p).run (t :: l) = some (e, rest)) (ht : t.kind = .name) :
    (e = .name t.extent.span t.text ∧ rest = l) ∨ ∃ w l', l = w :: l' ∧ (w.is "." ∨ w.is "[") := by
  obtain ⟨j, build, used, rfl, hf, hu, rfl⟩ := namedType_of_typeExpr h ht
  rcases j with _ | j
  · cases hf
  obtain ⟨form, mid, hname, hargs⟩ := bind_eq_some.1 hf
  obtain ⟨_, _, hfirst, hdot⟩ := bind_eq_some.1 hname
  obtain ⟨hlist, -⟩ := name_eq_some.1 hfirst
  obtain ⟨rfl, rfl⟩ := List.cons.inj hlist
  by_cases hgo : ∃ w l', l = w :: l' ∧ (w.is "." ∨ w.is "[")
  · exact .inr hgo
  have hno : (lookAt 0 l).is "." = false ∧ (lookAt 0 l).is "[" = false := by
    rcases l with _ | ⟨w, l⟩
    · exact ⟨rfl, rfl⟩
    · simp only [← Bool.not_eq_true]
      exact ⟨fun hw => hgo ⟨w, l, rfl, .inl hw⟩, fun hw => hgo ⟨w, l, rfl, .inr hw⟩⟩
  obtain ⟨v, _, hv, hdot⟩ := bind_eq_some.1 hdot
  obtain ⟨rfl, rfl⟩ := peek_eq_some.1 hv
  rw [hno.1, Bool.false_and, if_neg Bool.false_ne_true] at hdot
  obtain ⟨rfl, rfl⟩ := pure_eq_some.1 hdot
  obtain ⟨v, _, hv, hargs⟩ := bind_eq_some.1 hargs
  obtain ⟨rfl, rfl⟩ := peek_eq_some.1 hv
  have htakes : takesArgs p (lookAt 0 l) = false := by simp [takesArgs, hno.2]
  rw [htakes, if_neg Bool.false_ne_true] at hargs
  obtain ⟨rfl, rfl⟩ := pure_eq_some.1 hargs
  have hall : [t] ++ l = used ++ l := hu
  obtain rfl : [t] = used := List.append_cancel_right hall
  exact .inl ⟨rfl, rfl⟩

/-- A name alone is a type. -/
theorem typeExpr_of_name (ht : t.kind = .name) (hz : z.is "." = false)
    (hz' : z.is "[" = false) :
    (typeExpr (k + 3) .line).run (t :: z :: rest) = some (.name t.extent.span t.text, z :: rest) := by
  have hname : (typeName .line).run (t :: z :: rest) = some ((.name · t.text), z :: rest) := by
    refine bind_eq_some.2 ⟨t, _, name_eq_some.2 ⟨rfl, ht⟩, ?_⟩
    rw [run_peek_cons, hz, Bool.false_and, if_neg Bool.false_ne_true]
    rfl
  have htakes : takesArgs .line z = false := by simp [takesArgs, hz']
  have hform : (typeForm (k + 2) .line).run (t :: z :: rest) = some ((.name · t.text), z :: rest) := by
    rw [typeForm, run_peek_cons, if_pos (by simp [ht])]
    refine bind_eq_some.2 ⟨_, _, hname, ?_⟩
    rw [run_peek_cons, htakes, if_neg Bool.false_ne_true]
    rfl
  exact bind_eq_some.2 ⟨(extentOf [t], (.name · t.text)), _,
    placed_eq_some.2 ⟨[t], rfl, hform, rfl⟩, rfl⟩

/-- Brackets that a type starts with are followed by a token that a type can start with. -/
theorem exists_behind_brackets {β : Type} {q : Parser β} {g : Grouped β}
    (h : (typeExpr k p).run (w :: l) = some (e, rest)) (hw : w.is "[")
    (hg : (group .square q).run (w :: l) = some (g, mid)) :
    ∃ used v tail, w :: l = used ++ (v :: tail ++ rest) ∧ mid = v :: tail ++ rest ∧ startsType v := by
  obtain ⟨j, g', mid', elem, -, hg', helem⟩ := bracketed_typeExpr h hw
  obtain rfl := group_rest_unique hg hg'
  obtain ⟨used, hused, -⟩ := (group .square q).takes hg
  obtain ⟨taken, rfl, -⟩ := (typeExpr j p).takes helem
  have hne : taken ≠ [] := (consumes_typeExpr j p).ne_nil helem
  obtain ⟨v, tail, rfl⟩ := List.exists_cons_of_ne_nil hne
  exact ⟨used, v, tail, hused, rfl, startsType_of_typeExpr helem⟩

section Entries

/-- The parameter that an entry stands for by itself. -/
def ParamEntry.decl : ParamEntry → ParamDecl
  | .lone span name => unnamedParam (span, name)
  | .named span name type => .mk span [name] type false
  | .complete decl => decl

def ParamEntry.isNamed : ParamEntry → Bool
  | .named .. => true
  | _ => false

def ParamEntry.isLone : ParamEntry → Bool
  | .lone .. => true
  | _ => false

theorem groupParams_unnamed {xs : List ParamEntry} (h : ∀ x ∈ xs, x.isNamed = false)
    (pending : List (Span × String)) :
    groupParams pending xs = pending.map unnamedParam ++ xs.map ParamEntry.decl := by
  induction xs generalizing pending with
  | nil => simp [groupParams]
  | cons x xs ih =>
      have hmore := fun y hy => h y (List.mem_cons_of_mem x hy)
      cases x with
      | lone span name => simp [groupParams, ih hmore, ParamEntry.decl]
      | named span name type => exact absurd (h _ List.mem_cons_self) (by simp [ParamEntry.isNamed])
      | complete decl => simp [groupParams, ih hmore, ParamEntry.decl]

theorem groupParams_named {xs : List ParamEntry} (h : ∀ x ∈ xs, x.isLone = false) :
    groupParams [] xs = xs.map ParamEntry.decl := by
  induction xs with
  | nil => rfl
  | cons x xs ih =>
      have hmore := ih fun y hy => h y (List.mem_cons_of_mem x hy)
      cases x with
      | lone span name => exact absurd (h _ List.mem_cons_self) (by simp [ParamEntry.isLone])
      | named span name type => simp [groupParams, hmore, ParamEntry.decl]
      | complete decl => simp [groupParams, hmore, ParamEntry.decl]

variable {seg : List Token}

/-- The first two tokens, where the first one is no end. -/
theorem run_peek_ahead {α : Type} {f : Token → Token → Parser α} {u : Token} {us : List Token}
    (ht : t.isSolid) (hc : t.isClosing = false) :
    (Parser.peek >>= fun t => Parser.ahead 1 >>= f t).run (t :: u :: us) =
      (f t u).run (t :: u :: us) := by
  rw [run_peek_cons, run_bind]
  have hlook : (Parser.ahead 1).run (t :: u :: us) = some (u, t :: u :: us) := by
    simp [Parser.ahead, lookAt, ht, hc]
  rw [hlook]
  rfl

/-- A name is no end. -/
theorem run_peek_ahead_name {α : Type} {f : Token → Token → Parser α} {u : Token} {us : List Token}
    (ht : t.kind = .name) :
    (Parser.peek >>= fun t => Parser.ahead 1 >>= f t).run (t :: u :: us) =
      (f t u).run (t :: u :: us) := by
  have hplain : t.isPlain := Token.isPlain_of_kind (by simp [ht])
  exact run_peek_ahead (by simp [Token.isSolid, ht])
    (by simpa using Token.not_isClosing_of_isPlain hplain)

theorem run_discard_name (ht : t.kind = .name) : (discard advance).run (t :: l) = some (⟨⟩, l) :=
  discard_eq_some.2 ⟨t, advance_eq_some.2 ⟨rfl, by simp [Token.isSolid, ht],
    Token.isPlain_of_kind (by simp [ht])⟩⟩

theorem run_discard_is {text : String} (ht : t.is text)
    (htext : ∀ b : Bracket, text ≠ b.opening ∧ text ≠ b.closing) :
    (discard advance).run (t :: l) = some (⟨⟩, l) :=
  discard_eq_some.2 ⟨t, advance_eq_some.2 ⟨rfl, Token.isSolid_of_is ht, Token.isPlain_of_is ht htext⟩⟩

theorem run_unnamedEntry (h : (typeExpr k .inner).run (t :: l) = some (e, z :: rest))
    (hz : z.isAny [",", ")"]) : (unnamedEntry (k + 1)).run (t :: l) =
      some (.complete (.mk e.span [] e false), z :: rest) := by
  refine bind_eq_some.2 ⟨e, z :: rest, h, ?_⟩
  rw [run_peek_cons]
  exact bind_eq_some.2 ⟨(), _, require_eq_some.2 ⟨hz, rfl⟩, rfl⟩

theorem is_eq_false_of_startsType {text : String} (h : startsType t)
    (htext : text ∉ ["*", "(", "[", "map", "chan", "<-", "func", "struct", "interface", "~"]) :
    t.is text = false := by
  rw [← Bool.not_eq_true]
  intro ht
  rw [startsType, Token.isAny, Token.kind_of_is ht] at h
  simp only [Token.is, Bool.and_eq_true, beq_iff_eq] at ht
  simp [ht.2] at h
  simp at htext
  tauto

theorem not_startsType_of_isAny (h : t.isAny [",", ")"]) : startsType t = false := by
  rw [← Bool.not_eq_true]
  intro hstarts
  obtain ⟨text, hmem, ht⟩ := Token.exists_is_of_isAny h
  have hall : ∀ text ∈ [",", ")"], text ∉ ["*", "(", "[", "map", "chan", "<-", "func", "struct",
    "interface", "~"] := by decide
  rw [is_eq_false_of_startsType hstarts (hall text hmem)] at ht
  cases ht

theorem isAny_eq_false_of_startsType (h : startsType t) : t.isAny [",", ")"] = false := by
  rw [← Bool.not_eq_true]
  intro ht
  rw [not_startsType_of_isAny ht] at h
  cases h

/-- The first token of a piece is neither an end nor a closing bracket. -/
theorem first_of_run {α : Type} {q : Parser α} {a : α} (h : q.run (t :: seg ++ rest) = some (a, rest)) :
    t.isSolid ∧ t.isClosing = false := by
  obtain ⟨used, hu, hsolid, hbalanced⟩ := q.takes h
  obtain rfl : t :: seg = used := List.append_cancel_right hu
  refine ⟨hsolid t List.mem_cons_self, ?_⟩
  rw [← Bool.not_eq_true]
  exact fun hc => not_balanced_of_isClosing hc seg hbalanced

/-- A type that is an entry of a parameter list by itself. -/
theorem run_paramEntry_unnamed (h : (typeExpr k .inner).run (t :: seg ++ z :: rest) = some (e, z :: rest))
    (hz : z.isAny [",", ")"]) : ∃ x, (paramEntry (k + 2)).run (t :: seg ++ z :: rest) =
      some (x, z :: rest) ∧ x.decl = .mk e.span [] e false ∧ x.isNamed = false := by
  obtain ⟨hsolid, hclosing⟩ := first_of_run h
  have hstarts := startsType_of_typeExpr h
  have hdots : t.is "..." = false := is_eq_false_of_startsType hstarts (by decide)
  have hentry : (unnamedEntry (k + 1)).run (t :: (seg ++ z :: rest)) =
      some (.complete (.mk e.span [] e false), z :: rest) := run_unnamedEntry h hz
  have hcomplete : (ParamEntry.complete (.mk e.span [] e false)).decl = .mk e.span [] e false ∧
      (ParamEntry.complete (.mk e.span [] e false)).isNamed = false := ⟨rfl, rfl⟩
  by_cases ht : t.kind = .name
  · rcases typeExpr_name h ht with ⟨rfl, hrest⟩ | ⟨w, l, hl, hw⟩
    · have hseg : seg = [] := by simpa using hrest
      subst hseg
      have hz' : z.is "..." = false := by
        obtain ⟨text, hmem, hz⟩ := Token.exists_is_of_isAny hz
        exact Token.is_eq_false_of_is hz (by rintro rfl; simp at hmem)
      refine ⟨.lone t.extent.span t.text, ?_, rfl, rfl⟩
      rw [List.cons_append, List.nil_append, paramEntry, run_peek_ahead hsolid hclosing]
      simp only [hdots, ht, hz', hz, Bool.false_eq_true, if_false, beq_self_eq_true, if_true]
      exact bind_eq_some.2 ⟨(), _, run_discard_name ht, rfl⟩
    · refine ⟨_, ?_, hcomplete⟩
      have hl' : seg ++ z :: rest = w :: l := hl
      rw [List.cons_append]
      rw [hl'] at hentry ⊢
      rw [paramEntry, run_peek_ahead hsolid hclosing]
      have hw' : w.is "..." = false ∧ w.isAny [",", ")"] = false := by
        rcases hw with hw | hw <;>
          exact ⟨Token.is_eq_false_of_is hw (by decide), (Token.isAny_of_is hw _).trans (by decide)⟩
      simp only [hdots, ht, hw'.1, hw'.2, Bool.false_eq_true, if_false, beq_self_eq_true, if_true]
      rcases hw with hw | hw
      · rw [if_pos hw]
        exact hentry
      · rw [if_neg (by simp [Token.is_eq_false_of_is hw]), if_pos hw]
        exact orElse_eq_some.2 (.inl hentry)
  · obtain ⟨u, us, hu⟩ : ∃ u us, seg ++ z :: rest = u :: us := by cases seg <;> simp
    refine ⟨_, ?_, hcomplete⟩
    rw [List.cons_append]
    rw [hu] at hentry ⊢
    rw [paramEntry, run_peek_ahead hsolid hclosing]
    simp only [hdots, ht, Bool.false_eq_true, if_false, beq_iff_eq]
    exact hentry

/-- A name in front of its type. -/
theorem run_paramEntry_named (ht : t.kind = .name)
    (h : (typeExpr k .inner).run (w :: seg ++ z :: rest) = some (e, z :: rest)) :
    (paramEntry (k + 2)).run (t :: w :: seg ++ z :: rest) =
      some (.named ⟨t.extent.span.start, e.span.stop⟩ t.text e, z :: rest) := by
  have hstarts := startsType_of_typeExpr h
  have hnamed : (namedEntry (k + 1)).run (t :: w :: seg ++ z :: rest) =
      some (.named ⟨t.extent.span.start, e.span.stop⟩ t.text e, z :: rest) :=
    bind_eq_some.2 ⟨t, _, name_eq_some.2 ⟨rfl, ht⟩, bind_eq_some.2 ⟨e, _, h, rfl⟩⟩
  have hdots : t.is "..." = false := is_eq_false_of_startsType (by simp [startsType, ht]) (by decide)
  have hw : w.is "..." = false := is_eq_false_of_startsType hstarts (by decide)
  have hdot : w.is "." = false := is_eq_false_of_startsType hstarts (by decide)
  rw [List.cons_append, List.cons_append] at hnamed ⊢
  rw [paramEntry, run_peek_ahead_name ht]
  simp only [hdots, ht, hw, hdot, isAny_eq_false_of_startsType hstarts, Bool.false_eq_true, if_false,
    beq_self_eq_true, if_true]
  by_cases hb : w.is "["
  · rw [if_pos hb]
    refine orElse_eq_some.2 (.inr ⟨?_, hnamed⟩)
    rw [Option.eq_none_iff_forall_ne_some]
    rintro ⟨x, left⟩ hx
    obtain ⟨e', mid, htype, hx⟩ := bind_eq_some.1 hx
    obtain ⟨j, build, used, rfl, hform, -, -⟩ := namedType_of_typeExpr htype ht
    obtain ⟨_, q, g, hg⟩ := bracketed_namedType hform hb (by simp [takesArgs, hb])
    obtain ⟨_, v, tail, -, rfl, hv⟩ := exists_behind_brackets h hb hg
    rw [List.cons_append, run_peek_cons] at hx
    obtain ⟨_, _, hrequire, -⟩ := bind_eq_some.1 hx
    rw [isAny_eq_false_of_startsType hv] at hrequire
    exact absurd (require_eq_some.1 hrequire).1 Bool.false_ne_true
  · rw [if_neg hb]
    exact hnamed

theorem run_paramEntry_variadic (ht : t.is "...")
    (h : (typeExpr k .inner).run l = some (e, rest)) : (paramEntry (k + 1)).run (t :: l) =
      some (.complete (.mk ⟨t.extent.span.start, e.span.stop⟩ [] e true), rest) := by
  have hadvance : (discard advance).run (t :: l) = some (⟨⟩, l) :=
    run_discard_is ht fun b => by cases b <;> decide
  rw [paramEntry, run_peek_cons]
  refine bind_eq_some.2 ⟨_, _, ahead_eq_some.2 ⟨rfl, rfl⟩, ?_⟩
  simp only [ht, if_true]
  exact bind_eq_some.2 ⟨⟨⟩, _, hadvance, bind_eq_some.2 ⟨e, _, h, rfl⟩⟩

theorem run_paramEntry_namedVariadic (ht : t.kind = .name) (hw : w.is "...")
    (h : (typeExpr k .inner).run l = some (e, rest)) : (paramEntry (k + 1)).run (t :: w :: l) =
      some (.complete (.mk ⟨t.extent.span.start, e.span.stop⟩ [t.text] e true), rest) := by
  have hdots : t.is "..." = false := is_eq_false_of_startsType (by simp [startsType, ht]) (by decide)
  have hsecond : (discard advance).run (w :: l) = some (⟨⟩, l) :=
    run_discard_is hw fun b => by cases b <;> decide
  rw [paramEntry, run_peek_ahead_name ht]
  simp only [hdots, ht, hw, Bool.false_eq_true, if_false, beq_self_eq_true, if_true]
  exact bind_eq_some.2 ⟨⟨⟩, _, run_discard_name ht, bind_eq_some.2 ⟨⟨⟩, _, hsecond,
    bind_eq_some.2 ⟨e, _, h, rfl⟩⟩⟩

variable {α : Type} {q : Parser α} {a : α} {as : List α} {m : Nat}

theorem is_close_of_run (h : q.run (t :: seg ++ rest) = some (a, rest)) : t.is ")" = false := by
  rw [← Bool.not_eq_true]
  intro ht
  have hclosing : t.isClosing := Token.isClosing_of_closes (b := .round) ht
  rw [(first_of_run h).2] at hclosing
  cases hclosing

theorem commaList_last (h : q.run (t :: seg ++ z :: rest) = some (a, z :: rest)) (hz : z.is ")") :
    (commaList ")" q (m + 1)).run (t :: seg ++ z :: rest) = some ([a], z :: rest) := by
  have ht := is_close_of_run h
  rw [List.cons_append] at h ⊢
  rw [commaList, run_peek_cons, if_neg (by simp [ht])]
  refine bind_eq_some.2 ⟨a, z :: rest, h, bind_eq_some.2 ⟨false, z :: rest, ?_, ?_⟩⟩
  · exact accept_eq_some.2 (.inr ⟨rfl, rfl, Token.is_eq_false_of_is hz (by decide)⟩)
  · rw [if_neg Bool.false_ne_true, run_peek_cons]
    exact bind_eq_some.2 ⟨(), _, require_eq_some.2 ⟨hz, rfl⟩, rfl⟩

theorem commaList_next {c : Token} (h : q.run (t :: seg ++ c :: l) = some (a, c :: l)) (hc : c.is ",")
    (hl : (commaList ")" q m).run l = some (as, rest)) :
    (commaList ")" q (m + 1)).run (t :: seg ++ c :: l) = some (a :: as, rest) := by
  have ht := is_close_of_run h
  rw [List.cons_append] at h ⊢
  rw [commaList, run_peek_cons, if_neg (by simp [ht])]
  refine bind_eq_some.2 ⟨a, c :: l, h, bind_eq_some.2 ⟨true, l, ?_, ?_⟩⟩
  · exact accept_eq_some.2 (.inl ⟨rfl, c, rfl, hc, Token.isPlain_of_is hc fun b => by
      cases b <;> decide⟩)
  · rw [if_pos rfl]
    exact bind_eq_some.2 ⟨as, rest, hl, rfl⟩

end Entries

end Syntax.Grammar

/-- A text in the place of a type, and the type that it stands for. -/
def Denotes (imports : List Import) (s : List Char) (T : GoType) : Prop :=
  ∃ e, TypeText s e ∧ Scope.type ⟨s, imports⟩ e = T

/-- A name stands for itself. -/
theorem denotes_name (h : IsName s) (imports : List Import) :
    Denotes imports s (.simple (String.ofList s)) := by
  have hwords : words s = [tokenAt 0 0 .name s] := h.wordsAt_eq 0 0
  refine ⟨.name (tokenAt 0 0 .name s).extent.span (String.ofList s), ⟨h.phrase, endOf s, ?_⟩, rfl⟩
  rw [tokens_of_phrase h.phrase, hwords]
  exact typeExpr_of_name rfl rfl rfl

theorem TypeText.exists_wordsAt (h : TypeText s e) (n r : Nat) :
    ∃ t ts, wordsAt n r s = t :: ts ∧ startsType t := by
  obtain ⟨k, -, hrun⟩ := h.run_words
  obtain ⟨t, ts, hwords, -⟩ := h.toPhrase.emit_first (.bare n r)
  rw [hwords] at hrun
  refine ⟨_, _, by rw [wordsAt_eq, hwords, List.map_cons], ?_⟩
  rw [Motion.startsType_token]
  exact startsType_of_typeExpr hrun

/-- A parameter that can be written, and what it is read as. -/
inductive Parameter.ReadAs (imports : List Import) : Parameter → Parameter → Prop
  | mk {name : Option String} {type T : GoType} (variadic : Bool)
      (hname : ∀ n ∈ name, IsName n.toList) (htype : Denotes imports type.render T) :
      ReadAs imports (.mk name type variadic) (.mk name T variadic)

namespace Parameter.ReadAs

variable {p q : Parameter}

theorem phrase (h : ReadAs imports p q) : Phrase p.render := by
  obtain ⟨variadic, hname, e, he, -⟩ := h
  next name type T =>
  have hdots : Phrase ((if variadic then "...".toList else []) ++ type.render) := by
    cases variadic
    · exact he.toPhrase
    · exact he.toPhrase.dots
  cases name with
  | none => exact hdots
  | some n => simpa [render, GoType.renderParameter] using (hname n rfl).phrase.spaced hdots

theorem exists_wordsAt (h : ReadAs imports p q) (n r : Nat) :
    ∃ t ts, wordsAt n r p.render = t :: ts ∧ t.is "," = false := by
  obtain ⟨variadic, hname, e, he, -⟩ := h
  next name type T =>
  cases name with
  | some m =>
      have hm := hname m rfl
      have hrender : ∃ l, render (.mk (some m) type variadic) = m.toList ++ ' ' :: l := by
        simp [render, GoType.renderParameter]
      obtain ⟨l, hl⟩ := hrender
      rw [hl, hm.phrase.wordsAt_spaced, hm.wordsAt_eq]
      exact ⟨_, _, rfl, rfl⟩
  | none =>
      cases variadic with
      | true =>
          have hrender : render (.mk none type true) = "...".toList ++ type.render := rfl
          rw [hrender, wordsAt_dots]
          exact ⟨_, _, rfl, rfl⟩
      | false =>
          obtain ⟨t, ts, hwords, hstarts⟩ := he.exists_wordsAt n r
          exact ⟨t, ts, hwords, is_eq_false_of_startsType hstarts (by decide)⟩

/-- A parameter is an entry of a parameter list. -/
theorem run_paramEntry (h : ReadAs imports p q) (hz : z.isAny [",", ")"])
    (hk : 16 * (wordsAt n r p.render).length + 20 < k) (rest : List Token) :
    ∃ x, (paramEntry k).run (wordsAt n r p.render ++ z :: rest) = some (x, z :: rest) ∧
      (∀ u v, byteLength u = n → Scope.param ⟨u ++ p.render ++ v, imports⟩ x.decl = [q]) ∧
      (p.name = none → x.isNamed = false) ∧ (p.name ≠ none → x.isLone = false) := by
  obtain ⟨variadic, hname, e, he, hT⟩ := h
  next name type T =>
  have hpassive : Passive .inner z := by
    obtain ⟨text, hmem, hz⟩ := Token.exists_is_of_isAny hz
    have hall : ∀ text ∈ [",", ")"], text ∉ ["*", "(", "[", "map", "chan", "<-", "func", "struct",
      "interface", "~", ".", "|"] := by decide
    exact passive_of_is hz .inner (hall text hmem)
  -- What the type is read as behind the rest of the parameter.
  have hread {x u v : List Char} (hu : byteLength u = n) :
      Scope.type ⟨u ++ (x ++ type.render) ++ v, imports⟩
        ((Shift.onward (n + byteLength x) r).motion.type e) = T := by
    have hat := he.type_at imports (u ++ x) v r
    rwa [byteLength_append, hu, List.append_assoc u x, hT] at hat
  obtain ⟨k, rfl⟩ : ∃ j, k = j + 2 := ⟨k - 2, by omega⟩
  cases name with
  | none =>
      cases variadic with
      | false =>
          have hrender : render (.mk none type false) = type.render := rfl
          rw [hrender] at hk ⊢
          have htype := he.run_at (p := .inner) n r (by decide) hpassive (k := k) (by omega) rest
          obtain ⟨t, ts, hwords, -⟩ := he.exists_wordsAt n r
          rw [hwords] at htype ⊢
          obtain ⟨x, hx, hdecl, hnamed⟩ := run_paramEntry_unnamed htype hz
          refine ⟨x, hx, fun u v hu => ?_, fun _ => hnamed, fun hn => absurd rfl hn⟩
          rw [hdecl]
          exact congrArg (fun T => [Parameter.mk none T false]) (hread (x := []) hu)
      | true =>
          have hrender : render (.mk none type true) = "...".toList ++ type.render := rfl
          rw [hrender, wordsAt_dots] at hk ⊢
          rw [List.length_cons] at hk
          have htype := he.run_at (p := .inner) (n + byteLength "...".toList) r (by decide) hpassive
            (k := k + 1) (by omega) rest
          refine ⟨_, run_paramEntry_variadic rfl htype, fun u v hu => ?_, fun _ => rfl,
            fun hn => absurd rfl hn⟩
          exact congrArg (fun T => [Parameter.mk none T true]) (hread hu)
  | some name =>
      have hname := hname name rfl
      cases variadic with
      | false =>
          have hrender : render (.mk (some name) type false) = name.toList ++ ' ' :: type.render := by
            simp [render, GoType.renderParameter]
          rw [hrender, hname.phrase.wordsAt_spaced, hname.wordsAt_eq] at hk ⊢
          simp only [List.length_append, List.length_cons, List.length_nil] at hk
          have htype := he.run_at (p := .inner) (n + byteLength name.toList + 1) r (by decide)
            hpassive (k := k) (by omega) rest
          obtain ⟨t, ts, hwords, -⟩ := he.exists_wordsAt (n + byteLength name.toList + 1) r
          rw [hwords] at htype ⊢
          refine ⟨_, run_paramEntry_named rfl htype, fun u v hu => ?_,
            fun hn => absurd hn (Option.some_ne_none name), fun _ => rfl⟩
          have hat := hread (x := name.toList ++ [' ']) (v := v) hu
          have hspace : byteLength [' '] = 1 := by decide
          simp only [byteLength_append, hspace, List.append_assoc, ← Nat.add_assoc] at hat
          simp [Scope.param, ParamEntry.decl, tokenAt, ← hat]
      | true =>
          have hrender : render (.mk (some name) type true) =
              name.toList ++ ' ' :: ("...".toList ++ type.render) := by
            simp [render, GoType.renderParameter]
          rw [hrender, hname.phrase.wordsAt_spaced, hname.wordsAt_eq, wordsAt_dots] at hk ⊢
          simp only [List.length_append, List.length_cons, List.length_nil] at hk
          have htype := he.run_at (p := .inner)
            (n + byteLength name.toList + 1 + byteLength "...".toList) r (by decide)
            hpassive (k := k + 1) (by omega) rest
          refine ⟨_, run_paramEntry_namedVariadic rfl rfl htype, fun u v hu => ?_,
            fun hn => absurd hn (Option.some_ne_none name), fun _ => rfl⟩
          have hat := hread (x := name.toList ++ ' ' :: "...".toList) (v := v) hu
          have hspace : byteLength (' ' :: "...".toList) = 1 + byteLength "...".toList := by decide
          simp only [byteLength_append, hspace, List.append_assoc, ← Nat.add_assoc] at hat
          simp [Scope.param, ParamEntry.decl, tokenAt, ← hat]

end Parameter.ReadAs

/-- The parameters of a list, without the parentheses around them. -/
def renderInner (ps : List Parameter) : List Char := [',', ' '].intercalate (ps.map Parameter.render)

section ParameterLists

variable {ps qs : List Parameter} {m : Nat}

theorem renderInner_cons (p p' : Parameter) (ps : List Parameter) :
    renderInner (p :: p' :: ps) = p.render ++ ',' :: ' ' :: renderInner (p' :: ps) := by
  simp [renderInner, List.intercalate]

/-- Parameters are the entries of a parameter list, in their order. -/
theorem run_commaList (h : List.Forall₂ (Parameter.ReadAs imports) ps qs) (hne : ps ≠ [])
    (hz : z.is ")") (hm : ps.length < m) (hk : 16 * (wordsAt n r (renderInner ps)).length + 20 < k)
    (rest : List Token) :
    ∃ xs, (commaList ")" (paramEntry k) m).run (wordsAt n r (renderInner ps) ++ z :: rest) =
        some (xs, z :: rest) ∧
      (∀ u v, byteLength u = n →
        Scope.params ⟨u ++ renderInner ps ++ v, imports⟩ (xs.map ParamEntry.decl) = qs) ∧
      ((∀ p ∈ ps, p.name = none) → ∀ x ∈ xs, x.isNamed = false) ∧
      ((∀ p ∈ ps, p.name ≠ none) → ∀ x ∈ xs, x.isLone = false) := by
  induction h generalizing n m with
  | nil => exact absurd rfl hne
  | @cons p q ps qs hp hps ih =>
      obtain ⟨m, rfl⟩ : ∃ j, m = j + 1 := ⟨m - 1, by omega⟩
      cases hps with
      | nil =>
          have hinner : renderInner [p] = p.render := by simp [renderInner, List.intercalate]
          rw [hinner] at hk ⊢
          obtain ⟨x, hx, hdecl, hnamed, hlone⟩ := hp.run_paramEntry (n := n) (r := r)
            ((Token.isAny_of_is hz _).trans (by decide)) hk rest
          refine ⟨[x], ?_, fun u v hu => ?_, by simpa using hnamed, by simpa using hlone⟩
          · obtain ⟨t, ts, hwords⟩ := hp.phrase.exists_wordsAt n r
            rw [hwords] at hx ⊢
            exact commaList_last hx hz
          · rw [List.map_cons, List.map_nil, Scope.params, hdecl u v hu]
            rfl
      | @cons p' q' ps qs hp' hps =>
          have hcomma : byteLength [','] = 1 := by decide
          rw [renderInner_cons, hp.phrase.wordsAt_append (edge_cons (by decide +kernel) _),
            wordsAt_delimiter (by decide), wordsAt_space, hcomma] at hk ⊢
          simp only [List.length_append, List.length_cons] at hk
          set next := n + byteLength p.render + 1 + 1
          obtain ⟨x, hx, hdecl, hnamed, hlone⟩ := hp.run_paramEntry (n := n) (r := r)
            (z := tokenAt (n + byteLength p.render) r .fixed [',']) rfl (k := k) (by omega)
            (wordsAt next r (renderInner (p' :: ps)) ++ z :: rest)
          obtain ⟨xs, hxs, hdecls, hnameds, hlones⟩ := ih (n := next) (m := m)
            (List.cons_ne_nil p' ps) (by simpa using hm) (by omega)
          refine ⟨x :: xs, ?_, fun u v hu => ?_, fun hn y hy => ?_, fun hn y hy => ?_⟩
          · obtain ⟨t, ts, hwords⟩ := hp.phrase.exists_wordsAt n r
            rw [List.append_assoc, List.cons_append]
            rw [hwords] at hx ⊢
            exact commaList_next hx rfl hxs
          · have hfirst := hdecl u (',' :: ' ' :: renderInner (p' :: ps) ++ v) hu
            have hmore := hdecls (u ++ p.render ++ [',', ' ']) v (by
              have hsep : byteLength [',', ' '] = 2 := by decide
              simp only [byteLength_append, hu, hsep, next])
            simp only [List.append_assoc, List.cons_append, List.nil_append] at hfirst hmore ⊢
            rw [List.map_cons, Scope.params, hfirst, hmore]
            rfl
          · rcases List.mem_cons.1 hy with rfl | hy
            · exact hnamed (hn p List.mem_cons_self)
            · exact hnameds (fun p hp => hn p (List.mem_cons_of_mem _ hp)) y hy
          · rcases List.mem_cons.1 hy with rfl | hy
            · exact hlone (hn p List.mem_cons_self)
            · exact hlones (fun p hp => hn p (List.mem_cons_of_mem _ hp)) y hy

theorem phrase_renderInner (h : List.Forall₂ (Parameter.ReadAs imports) ps qs) (hne : ps ≠ []) :
    Phrase (renderInner ps) ∧ ps.length ≤ (wordsAt n r (renderInner ps)).length ∧
      ∃ t ts, wordsAt n r (renderInner ps) = t :: ts ∧ t.is "," = false := by
  induction h generalizing n with
  | nil => exact absurd rfl hne
  | @cons p q ps qs hp hps ih =>
      cases hps with
      | nil =>
          have hinner : renderInner [p] = p.render := by simp [renderInner, List.intercalate]
          obtain ⟨t, ts, hwords, ht⟩ := hp.exists_wordsAt n r
          rw [hinner, hwords]
          exact ⟨hp.phrase, by simp, t, ts, rfl, ht⟩
      | @cons p' q' ps qs hp' hps =>
          obtain ⟨hphrase, -⟩ := ih (n := n) (List.cons_ne_nil p' ps)
          have hcomma : Phrase (',' :: ' ' :: renderInner (p' :: ps)) := by
            have hc : Phrase [','] := .of_delimiter (by decide)
            exact hc.spaced hphrase
          rw [renderInner_cons]
          refine ⟨hp.phrase.append hcomma (edge_cons (by decide +kernel) _), ?_⟩
          rw [hp.phrase.wordsAt_append (edge_cons (by decide +kernel) _), wordsAt_delimiter (by decide),
            wordsAt_space]
          obtain ⟨t, ts, hwords, ht⟩ := hp.exists_wordsAt n r
          have hmore := (ih (n := n + byteLength p.render + byteLength [','] + 1)
            (List.cons_ne_nil p' ps)).2.1
          rw [hwords]
          refine ⟨?_, t, _, rfl, ht⟩
          simp only [List.length_append, List.length_cons] at hmore ⊢
          omega

theorem phrase_renderParams (h : List.Forall₂ (Parameter.ReadAs imports) ps qs) :
    Phrase (renderParams ps) := by
  have hclose : Phrase [')'] := .of_delimiter (by decide)
  by_cases hne : ps = []
  · subst hne
    exact hclose.delimited (c := '(') (by decide)
  · have hinner := (phrase_renderInner (n := 0) (r := 0) h hne).1
    exact (hinner.append hclose (edge_cons (by decide +kernel) [])).delimited (c := '(') (by decide)

theorem run_paramEntries (h : List.Forall₂ (Parameter.ReadAs imports) ps qs)
    (hnames : (∀ p ∈ ps, p.name = none) ∨ ∀ p ∈ ps, p.name ≠ none)
    (hk : 16 * (wordsAt n r (renderInner ps)).length + 20 < k) (hz : z.is ")") (rest : List Token) :
    ∃ xs, (paramEntries (k + 1)).run (wordsAt n r (renderInner ps) ++ z :: rest) =
        some (xs, z :: rest) ∧
      ∀ u v, byteLength u = n →
        Scope.params ⟨u ++ renderInner ps ++ v, imports⟩ (groupParams [] xs) = qs := by
  by_cases hne : ps = []
  · subst hne
    obtain rfl : qs = [] := by simpa using h
    have hnil : wordsAt n r (renderInner []) = [] := by simp [renderInner, wordsAt, pieces, emit]
    obtain ⟨k, rfl⟩ : ∃ j, k = j + 1 := ⟨k - 1, by omega⟩
    refine ⟨[], ?_, fun _ _ _ => rfl⟩
    rw [hnil, List.nil_append, paramEntries, run_peek_cons,
      if_neg (by simp [Token.is_eq_false_of_is hz]), commaList, run_peek_cons, if_pos hz]
    rfl
  · obtain ⟨-, hlen, t, ts, hwords, hcomma⟩ := phrase_renderInner (n := n) (r := r) h hne
    obtain ⟨xs, hxs, hdecls, hnamed, hlone⟩ := run_commaList h hne hz (m := k) (by omega) hk rest
    refine ⟨xs, ?_, fun u v hu => ?_⟩
    · rw [hwords, List.cons_append] at hxs ⊢
      rw [paramEntries, run_peek_cons, if_neg (by simp [hcomma])]
      exact hxs
    · have hgroup : groupParams [] xs = xs.map ParamEntry.decl := by
        rcases hnames with hn | hn
        · exact groupParams_unnamed (hnamed hn) []
        · exact groupParams_named (hlone hn)
      rw [hgroup]
      exact hdecls u v hu

/-- Parameters between parentheses are a parameter list, if all have names or none has. -/
theorem run_paramList (h : List.Forall₂ (Parameter.ReadAs imports) ps qs)
    (hnames : (∀ p ∈ ps, p.name = none) ∨ ∀ p ∈ ps, p.name ≠ none)
    (hk : 16 * (wordsAt n r (renderParams ps)).length + 8 < k) (rest : List Token) :
    ∃ l, (paramList k).run (wordsAt n r (renderParams ps) ++ rest) = some (l, rest) ∧
      ∀ u v, byteLength u = n → Scope.params ⟨u ++ renderParams ps ++ v, imports⟩ l.decls = qs := by
  obtain ⟨k, rfl⟩ : ∃ j, k = j + 2 := ⟨k - 2, by omega⟩
  have hparen : byteLength ['('] = 1 := by decide
  set close := tokenAt (n + 1 + byteLength (renderInner ps)) r .fixed [')']
  have hwords : wordsAt n r (renderParams ps) =
      tokenAt n r .fixed ['('] :: (wordsAt (n + 1) r (renderInner ps) ++ [close]) := by
    have hclose (m : Nat) : wordsAt m r [')'] = [tokenAt m r .fixed [')']] := by
      rw [wordsAt_delimiter (by decide)]
      simp [wordsAt, pieces, emit]
    have hrender : renderParams ps = '(' :: (renderInner ps ++ [')']) := rfl
    rw [hrender, wordsAt_delimiter (by decide), hparen]
    by_cases hne : ps = []
    · subst hne
      have hnil : renderInner [] = [] := by simp [renderInner]
      have hnone : wordsAt (n + 1) r [] = [] := by simp [wordsAt, pieces, emit]
      simp only [close, hnil, List.nil_append, hclose, hnone, byteLength, Nat.add_zero]
    · rw [(phrase_renderInner (n := n) (r := r) h hne).1.wordsAt_append
        (edge_cons (by decide +kernel) []), hclose]
  rw [hwords] at hk ⊢
  simp only [List.length_cons, List.length_append, List.length_nil] at hk
  obtain ⟨xs, hxs, hdecls⟩ := run_paramEntries (n := n + 1) (r := r) (k := k) (z := close) h hnames
    (by omega) rfl rest
  refine ⟨⟨_, groupParams [] xs⟩, bind_eq_some.2 ⟨⟨tokenAt n r .fixed ['('], xs, close⟩, rest,
    group_eq_some.2 ⟨wordsAt (n + 1) r (renderInner ps) ++ close :: rest, by simp, rfl, hxs, rfl⟩,
    rfl⟩, fun u v hu => ?_⟩
  have hat := hdecls (u ++ ['(']) ([')'] ++ v) (by simp [hu, hparen])
  simpa [renderParams, renderInner] using hat

/-- Results that can be written: a result alone is no type in parentheses, and none is variadic. -/
structure Plain (ps : List Parameter) : Prop where
  variadic : ∀ p ∈ ps, p.variadic = false
  parens : ∀ p ∈ ps, p.type.render.head? ≠ some '('

/-- A result without a name stands without parentheses. -/
theorem run_resultList_lone {type : GoType} {q : Parameter}
    (h : Parameter.ReadAs imports (.mk none type false) q) (hparen : type.render.head? ≠ some '(')
    (hz : z.newline)
    (hk : 16 * (wordsAt n r (renderResults [.mk none type false])).length + 19 < k) (rest : List Token) :
    ∃ ds, (resultList (k + 1) .line).run
        (wordsAt n r (renderResults [.mk none type false]) ++ z :: rest) = some (ds, z :: rest) ∧
      ∀ u v, byteLength u = n →
        Scope.params ⟨u ++ renderResults [.mk none type false] ++ v, imports⟩ ds = [q] := by
  obtain ⟨-, -, e, he, hT⟩ := h
  have hspace : byteLength [' '] = 1 := by decide
  have hrender : renderResults [.mk none type false] = ' ' :: type.render := rfl
  rw [hrender, wordsAt_space] at hk ⊢
  have htype := he.run_at (p := .line) (n + 1) r (by decide) (.inl ⟨rfl, hz⟩) (k := k) (by omega) rest
  obtain ⟨t, ts, hwords, hstarts⟩ := he.exists_wordsAt (n + 1) r
  have hnewline := newline_wordsAt he.toPhrase (n + 1) r t (by simp [hwords])
  have hopen : t.is "(" = false := by
    rw [← Bool.not_eq_true]
    intro ht
    obtain ⟨l, hl⟩ := exists_of_wordsAt he.toPhrase hwords
    have htext : t.text = "(" := eq_of_beq (Bool.and_eq_true_iff.1 ht).2
    rw [hl, htext] at hparen
    exact hparen rfl
  rw [hwords, List.cons_append] at htype ⊢
  set e' := (Shift.onward (n + 1) r).motion.type e with he'
  refine ⟨[.mk e'.span [] e' false], ?_, fun u v hu => ?_⟩
  · rw [resultList, run_peek_cons, if_neg (by simp [hnewline]), if_neg (by simp [hopen]), if_pos hstarts]
    exact bind_eq_some.2 ⟨_, _, htype, rfl⟩
  · have hat := he.type_at imports (u ++ [' ']) v r
    rw [byteLength_append, hu, hspace, hT, List.append_assoc u] at hat
    simp only [Scope.params, Scope.param, ← hat, he']
    simp

/-- Results behind a parameter list, in front of the end of a line. -/
theorem run_resultList (h : List.Forall₂ (Parameter.ReadAs imports) ps qs)
    (hnames : (∀ p ∈ ps, p.name = none) ∨ ∀ p ∈ ps, p.name ≠ none) (hplain : Plain ps)
    (hz : z.newline) (hk : 16 * (wordsAt n r (renderResults ps)).length + 20 < k)
    (rest : List Token) :
    ∃ ds, (resultList k .line).run (wordsAt n r (renderResults ps) ++ z :: rest) =
        some (ds, z :: rest) ∧
      ∀ u v, byteLength u = n → Scope.params ⟨u ++ renderResults ps ++ v, imports⟩ ds = qs := by
  obtain ⟨k, rfl⟩ : ∃ j, k = j + 1 := ⟨k - 1, by omega⟩
  have hspace : byteLength [' '] = 1 := by decide
  by_cases hlone : ∃ type variadic, ps = [.mk none type variadic]
  · obtain ⟨type, variadic, rfl⟩ := hlone
    have hvariadic : variadic = false := hplain.variadic _ List.mem_cons_self
    subst hvariadic
    obtain ⟨q, _, hq, hnil, rfl⟩ := List.forall₂_cons_left_iff.1 h
    obtain rfl := List.forall₂_nil_left_iff.1 hnil
    exact run_resultList_lone hq (hplain.parens _ List.mem_cons_self) hz (by omega) rest
  by_cases hnil : ps = []
  · subst hnil
    obtain rfl := List.forall₂_nil_left_iff.1 h
    refine ⟨[], ?_, fun _ _ _ => rfl⟩
    have hnone : wordsAt n r (renderResults []) = [] := by simp [renderResults, wordsAt, pieces, emit]
    rw [hnone, List.nil_append, resultList, run_peek_cons, if_pos (by simp [hz])]
    rfl
  · have hrender : renderResults ps = ' ' :: renderParams ps := by
      rcases ps with _ | ⟨⟨_ | name, type, variadic⟩, _ | ⟨p, ps⟩⟩
      · exact absurd rfl hnil
      · exact absurd ⟨type, variadic, rfl⟩ hlone
      all_goals rfl
    rw [hrender, wordsAt_space] at hk ⊢
    obtain ⟨l, hl, hdecls⟩ := run_paramList (n := n + 1) (r := r) (k := k) h hnames (by omega)
      (z :: rest)
    refine ⟨l.decls, ?_, fun u v hu => ?_⟩
    · have hwords : wordsAt (n + 1) r (renderParams ps) = tokenAt (n + 1) r .fixed ['('] :: _ :=
        wordsAt_delimiter (by decide) (n + 1) r _
      rw [hwords, List.cons_append] at hl ⊢
      rw [resultList, run_peek_cons, if_neg (by simp [tokenAt]), if_pos (by rfl)]
      exact bind_eq_some.2 ⟨l, _, hl, rfl⟩
    · have hat := hdecls (u ++ [' ']) v (by rw [byteLength_append, hu, hspace])
      simpa using hat

end ParameterLists

end GoOutline
