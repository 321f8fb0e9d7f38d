import GoOutline.Proofs.Segments

/-!
The shapes that the rules of the grammar give the parts of a tree: which delimiters stand around
a body or a list, and which tokens its members come from.
-/

namespace GoOutline.Syntax

open Syntax.Parser

variable {ts rest used mid : List Token} {n : Nat}

/-- Tokens that the rule for parameters takes, in front of others. -/
def DerivesParameter (seg ahead : List Token) : Prop :=
  ∃ n e rest, (Grammar.paramEntry n).run (seg ++ ahead ++ rest) = some (e, ahead ++ rest)

/-- A parameter list between parentheses. Its last declaration ends where the last parameter does,
with nothing but a comma behind. -/
structure ParamList.From (used : List Token) (l : ParamList) (mid : List Token) : Prop where
  parens : Enclosed "(" ")" l.parens used mid
  empty : l.decls = [] → mid = [] ∨ ∃ c, mid = [c] ∧ c.is ","
  last : ∀ d, l.decls.getLast? = some d → ∃ pre seg tail close,
    mid = pre ++ seg ++ tail ∧ used.getLast? = some close ∧ seg ≠ [] ∧
    d.span.stop = (extentOf seg).span.stop ∧ DerivesParameter seg (tail ++ [close]) ∧
    (tail = [] ∨ ∃ c, tail = [c] ∧ c.is ",")

def FieldDecl.From (used : List Token) (f : FieldDecl) : Prop := Covers used f.extent

def InterfaceElem.From (used : List Token) (e : InterfaceElem) : Prop := Covers used e.extent

def StructBody.From (used : List Token) (b : StructBody) : Prop :=
  ∃ k body mid, used = k :: body ∧ Enclosed lbrace rbrace b.braces body mid ∧
    Strewn FieldDecl.From mid (members b.fields)

def InterfaceBody.From (used : List Token) (b : InterfaceBody) : Prop :=
  ∃ k body mid, used = k :: body ∧ Enclosed lbrace rbrace b.braces body mid ∧
    Strewn InterfaceElem.From mid (members b.elems)

def TypeBody.From (used : List Token) : TypeBody → Prop
  | .struct _ b => b.From used
  | .interface _ b => b.From used
  | .plain _ => True

/-- The body of a definition stands at its end. -/
def TypeEntry.From (used : List Token) (e : TypeEntry) : Prop :=
  Covers used e.extent ∧
    ∀ spec, e = .definition spec → ∃ front body, used = front ++ body ∧ spec.body.From body

def TypeDecl.From (used : List Token) : TypeDecl → Prop
  | .lone e => ∃ k body, used = k :: body ∧ e.From body
  | .group es => ∃ k d body mid, used = k :: body ∧ Enclosed "(" ")" d body mid ∧
      Strewn TypeEntry.From mid (members es)

/-- The parameters of a function stand in front of its body. -/
def FuncDecl.From (used : List Token) (f : FuncDecl) : Prop :=
  ∃ front list mid gap body, used = front ++ list ++ gap ++ body ∧ f.params.From list mid ∧
    ∀ d, f.braces = some d → ∃ inner, Enclosed lbrace rbrace d body inner

def ImportSpec.From (used : List Token) (s : ImportSpec) : Prop := Covers used s.extent

def ImportDecl.From (used : List Token) (d : ImportDecl) : Prop :=
  ∃ k body, used = k :: body ∧ d.keyword = k.extent.span ∧
    match d.parens with
    | none => ∃ spec, d.specs = [spec] ∧ spec.From body
    | some p => ∃ mid, Enclosed "(" ")" p body mid ∧ Strewn ImportSpec.From mid d.specs

def ItemKind.From (used : List Token) : ItemKind → Prop
  | .package name place => ∃ k t, used = [k, t] ∧ name = t.text ∧ place = t.extent.span
  | .imports d => d.From used
  | .types d => d.From used
  | .func d => d.From used
  | .values | .statement => True

def Item.From (used : List Token) (i : Item) : Prop :=
  i.extent = extentOf used ∧ i.kind.From used

namespace Grammar

/-- A form of type takes the place it is given. -/
def Places (build : Span → TypeExpr) : Prop := ∀ span, (build span).span = span

theorem places_other : Places .other := fun _ => rfl

theorem places_typeName (p : Place) : Yields (typeName p) Places := by
  refine .behind _ fun first => .behind _ fun t => .ite ?_ (yields_pure fun _ => rfl)
  exact .behind _ fun _ => .behind _ fun second => yields_pure fun _ => rfl

theorem places_namedType (n : Nat) (p : Place) : Yields (namedType n p) Places := by
  cases n with
  | zero => exact yields_failure
  | succ n =>
      refine .bind (places_typeName p) fun form hf => .behind _ fun u => .ite ?_ (yields_pure hf)
      exact .behind _ fun _ => yields_pure places_other

theorem places_typeForm (n : Nat) (p : Place) : Yields (typeForm n p) Places := by
  cases n with
  | zero => exact yields_failure
  | succ n =>
      refine .behind _ fun t => .ite (places_namedType n p) ?_
      refine .ite (.behind _ fun _ => .behind _ fun elem => yields_pure fun _ => rfl) ?_
      refine .ite (.behind _ fun _ => yields_pure places_other) ?_
      refine .ite (.behind _ fun length => .behind _ fun elem => yields_pure ?_) ?_
      · cases length.content <;> exact fun _ => rfl
      refine .ite (.behind _ fun _ => .behind _ fun key => .behind _ fun value =>
        yields_pure fun _ => rfl) ?_
      refine .ite (.behind _ fun _ => .behind _ fun _ => .behind _ fun _ =>
        yields_pure places_other) ?_
      refine .ite (.behind _ fun _ => .behind _ fun _ => .behind _ fun _ =>
        yields_pure places_other) ?_
      refine .ite (.behind _ fun _ => .behind _ fun _ => .behind _ fun u => .ite
        (.behind _ fun _ => yields_pure places_other) (yields_pure places_other)) ?_
      refine .ite (.behind _ fun _ => .behind _ fun params => .behind _ fun results =>
        yields_pure fun _ => rfl) ?_
      refine .ite (.behind _ fun _ => yields_pure places_other) ?_
      exact .ite (.behind _ fun _ => yields_pure places_other) yields_failure

theorem span_typeExpr {p : Place} {type : TypeExpr} (h : (typeExpr n p).run ts = some (type, rest)) :
    ∃ used, ts = used ++ rest ∧ used ≠ [] ∧ type.span = (extentOf used).span := by
  cases n with
  | zero => exact (failure_eq_some h).elim
  | succ n =>
      simp only [typeExpr, bind_eq_some, pure_eq_some] at h
      obtain ⟨⟨e, build⟩, mid, hp, rfl, rfl⟩ := h
      obtain ⟨used, rfl, hu, hr⟩ := covers_placed (consumes_typeForm n p) hp
      refine ⟨used, rfl, hu.1, ?_⟩
      rw [← hu.2]
      exact places_typeForm n p hr e.span

def ParamEntry.stop : ParamEntry → Nat
  | .lone span _ => span.stop
  | .named span _ _ => span.stop
  | .complete decl => decl.span.stop

/-- The last declaration ends where the last entry does. -/
theorem stop_groupParams (pending : List (Span × String)) (entries : List ParamEntry) :
    (groupParams pending entries).getLast?.map (·.span.stop) =
      (entries.getLast?.map ParamEntry.stop).or (pending.getLast?.map (·.1.stop)) := by
  fun_induction groupParams pending entries with
  | case1 pending => simp [unnamedParam, ParamDecl.span, Function.comp_def]
  | case2 pending span name rest ih =>
      rw [ih]
      cases hr : rest.getLast? <;> simp [ParamEntry.stop, List.getLast?_cons, hr]
  | case3 pending span name type rest start ih =>
      rw [List.getLast?_cons, Option.map_some]
      cases hr : rest.getLast? <;> cases hg : (groupParams [] rest).getLast? <;>
        simp_all [ParamEntry.stop, ParamDecl.span, List.getLast?_cons]
  | case4 pending decl rest ih =>
      rw [List.getLast?_append, List.getLast?_cons]
      cases hr : rest.getLast? <;> cases hg : (groupParams [] rest).getLast? <;>
        simp_all [ParamEntry.stop, List.getLast?_cons]

/-- A parameter behind some tokens ends where its type does. -/
theorem stop_typeExpr_append {p : Place} {type : TypeExpr} (pre : List Token)
    (h : (typeExpr n p).run ts = some (type, rest)) :
    ∃ used, pre ++ ts = used ++ rest ∧ used ≠ [] ∧
      type.span.stop = (extentOf used).span.stop := by
  obtain ⟨used, rfl, hne, hs⟩ := span_typeExpr h
  refine ⟨pre ++ used, by simp, by simp [hne], ?_⟩
  rw [hs, stop_extentOf_append pre hne]

theorem stop_unnamedEntry {e : ParamEntry} (h : (unnamedEntry n).run ts = some (e, rest)) :
    ∃ used, ts = used ++ rest ∧ used ≠ [] ∧ ParamEntry.stop e = (extentOf used).span.stop := by
  cases n with
  | zero => exact (failure_eq_some h).elim
  | succ n =>
      simp only [unnamedEntry, bind_eq_some, peek_eq_some, require_eq_some, pure_eq_some] at h
      obtain ⟨type, _, ht, _, _, ⟨rfl, rfl⟩, _, _, ⟨_, rfl⟩, rfl, rfl⟩ := h
      exact stop_typeExpr_append [] ht

theorem stop_namedEntry {e : ParamEntry} (h : (namedEntry n).run ts = some (e, rest)) :
    ∃ used, ts = used ++ rest ∧ used ≠ [] ∧ ParamEntry.stop e = (extentOf used).span.stop := by
  cases n with
  | zero => exact (failure_eq_some h).elim
  | succ n =>
      simp only [namedEntry, name, bind_eq_some, ofKind_eq_some, pure_eq_some] at h
      obtain ⟨t, _, ⟨rfl, _⟩, type, _, ht, rfl, rfl⟩ := h
      exact stop_typeExpr_append [t] ht

/-- An entry ends with its last token. -/
theorem stop_paramEntry {e : ParamEntry} (h : (paramEntry n).run ts = some (e, rest)) :
    ∃ used, ts = used ++ rest ∧ used ≠ [] ∧ ParamEntry.stop e = (extentOf used).span.stop := by
  cases n with
  | zero => exact (failure_eq_some h).elim
  | succ n =>
      simp only [paramEntry, bind_eq_some, peek_eq_some, ahead_eq_some] at h
      obtain ⟨t, _, ⟨ht, rfl⟩, u, _, ⟨rfl, rfl⟩, h⟩ := h
      split at h
      · simp only [bind_eq_some, discard_eq_some, advance_eq_some, pure_eq_some] at h
        obtain ⟨_, _, ⟨a, rfl, _⟩, type, _, htype, rfl, rfl⟩ := h
        exact stop_typeExpr_append [a] htype
      split at h
      · split at h
        · simp only [bind_eq_some, discard_eq_some, advance_eq_some, pure_eq_some] at h
          obtain ⟨_, _, ⟨a, rfl, _⟩, _, _, ⟨b, rfl, _⟩, type, _, htype, rfl, rfl⟩ := h
          exact stop_typeExpr_append [a, b] htype
        split at h
        · simp only [bind_eq_some, discard_eq_some, advance_eq_some, pure_eq_some] at h
          obtain ⟨_, _, ⟨a, rfl, _⟩, rfl, rfl⟩ := h
          exact ⟨[a], rfl, by simp, by rw [ht]; rfl⟩
        split at h
        · exact stop_unnamedEntry h
        split at h
        · rcases orElse_eq_some.1 h with h | ⟨_, h⟩
          · exact stop_unnamedEntry h
          · exact stop_namedEntry h
        · exact stop_namedEntry h
      · exact stop_unnamedEntry h

/-- Parameters with nothing but a comma behind the last one. -/
theorem from_paramEntries {entries : List ParamEntry}
    (h : (paramEntries n).run (mid ++ rest) = some (entries, rest)) :
    (entries = [] → mid = [] ∨ ∃ c, mid = [c] ∧ c.is ",") ∧
      ∀ e, entries.getLast? = some e → ∃ n pre seg tail, mid = pre ++ seg ++ tail ∧ seg ≠ [] ∧
        ParamEntry.stop e = (extentOf seg).span.stop ∧
        (paramEntry n).run (seg ++ (tail ++ rest)) = some (e, tail ++ rest) ∧
        (tail = [] ∨ ∃ c, tail = [c] ∧ c.is ",") := by
  cases n with
  | zero => exact (failure_eq_some h).elim
  | succ n =>
      simp only [paramEntries, bind_eq_some, peek_eq_some] at h
      obtain ⟨t, _, ⟨rfl, rfl⟩, h⟩ := h
      split at h
      next hcomma =>
        simp only [bind_eq_some, discard_eq_some, advance_eq_some, pure_eq_some] at h
        obtain ⟨_, _, ⟨a, ha, _⟩, rfl, rfl⟩ := h
        rw [ha] at hcomma
        exact ⟨fun _ => .inr ⟨a, List.append_cancel_right ha, hcomma⟩, by simp⟩
      next =>
        have hl := listed_commaList h
        constructor
        · rintro rfl
          exact .inl (by simpa using hl.eq_of_nil)
        · intro e he
          obtain ⟨pre, seg, tail, hm, hr, ht⟩ := hl.last_item he
          obtain ⟨used, hu, hne, hend⟩ := stop_paramEntry hr
          obtain rfl : seg = used := List.append_cancel_right hu
          exact ⟨n, pre, seg, tail, List.append_cancel_right hm, hne, hend, hr, ht⟩

theorem from_paramList {l : ParamList} (h : (paramList n).run ts = some (l, rest)) :
    ∃ used mid, ts = used ++ rest ∧ l.From used mid := by
  cases n with
  | zero => exact (failure_eq_some h).elim
  | succ n =>
      simp only [paramList, bind_eq_some, pure_eq_some] at h
      obtain ⟨g, _, hg, rfl, rfl⟩ := h
      obtain ⟨mid, rfl, he, hp⟩ := enclosed_group hg
      obtain ⟨hempty, hlast⟩ := from_paramEntries he
      have hs := stop_groupParams [] g.content
      refine ⟨g.opening :: mid ++ [g.closing], mid, rfl, hp, fun hd => hempty ?_, fun d hd => ?_⟩
      · rw [show groupParams [] g.content = [] from hd] at hs
        simpa [eq_comm] using hs
      · rw [show (groupParams [] g.content).getLast? = some d from hd] at hs
        simp only [Option.map_some, List.getLast?_nil, Option.map_none, Option.or_none] at hs
        obtain ⟨e, he, hstop⟩ := Option.map_eq_some_iff.1 hs.symm
        obtain ⟨n, pre, seg, tail, rfl, hne, hend, hr, ht⟩ := hlast e he
        refine ⟨pre, seg, tail, g.closing, rfl, List.getLast?_concat, hne, ?_, ?_, ht⟩
        · rw [← hend, hstop]
        · exact ⟨n, e, _, by simpa using hr⟩

theorem from_fieldDecl {f : FieldDecl} (h : (fieldDecl n).run ts = some (f, rest)) :
    ∃ used, ts = used ++ rest ∧ f.From used := by
  cases n with
  | zero => exact (failure_eq_some h).elim
  | succ n =>
      simp only [fieldDecl, bind_eq_some, pure_eq_some] at h
      obtain ⟨⟨e, head, type, tag⟩, _, hp, rfl, rfl⟩ := h
      obtain ⟨used, rfl, hu, _⟩ := covers_placed ((consumes_fieldHead n).bind _) hp
      exact ⟨used, rfl, hu⟩

theorem from_interfaceElem {e : InterfaceElem} (h : (interfaceElem n).run ts = some (e, rest)) :
    ∃ used, ts = used ++ rest ∧ e.From used := by
  cases n with
  | zero => exact (failure_eq_some h).elim
  | succ n =>
      simp only [interfaceElem, bind_eq_some, peek_eq_some, ahead_eq_some] at h
      obtain ⟨t, _, ⟨rfl, rfl⟩, u, _, ⟨rfl, rfl⟩, h⟩ := h
      split at h
      next =>
        obtain ⟨⟨e, name, params, results⟩, _, hp, h⟩ := bind_eq_some.1 h
        obtain ⟨rfl, rfl⟩ := pure_eq_some.1 h
        obtain ⟨used, rfl, hu, _⟩ := covers_placed (consumes_name.bind _) hp
        exact ⟨used, rfl, hu⟩
      next =>
        obtain ⟨⟨e, first, more⟩, _, hp, h⟩ := bind_eq_some.1 h
        obtain ⟨rfl, rfl⟩ := pure_eq_some.1 h
        obtain ⟨used, rfl, hu, _⟩ := covers_placed (consumes_unionType n .line) hp
        exact ⟨used, rfl, hu⟩

theorem from_structBody {b : StructBody} (h : (structBody n).run ts = some (b, rest)) :
    ∃ used, ts = used ++ rest ∧ b.From used := by
  cases n with
  | zero => exact (failure_eq_some h).elim
  | succ n =>
      simp only [structBody, bind_eq_some, discard_eq_some, expect_eq_some, pure_eq_some] at h
      obtain ⟨_, _, ⟨k, rfl, _⟩, g, _, hg, rfl, rfl⟩ := h
      obtain ⟨mid, rfl, hf, he⟩ := enclosed_group hg
      obtain ⟨used, hu, hm⟩ := strewn_memberList (fun _ _ _ => from_fieldDecl) hf
      obtain rfl : mid = used := List.append_cancel_right hu
      exact ⟨k :: (g.opening :: mid ++ [g.closing]), by simp, k, _, mid, rfl, he, hm⟩

theorem from_interfaceBody {b : InterfaceBody} (h : (interfaceBody n).run ts = some (b, rest)) :
    ∃ used, ts = used ++ rest ∧ b.From used := by
  cases n with
  | zero => exact (failure_eq_some h).elim
  | succ n =>
      simp only [interfaceBody, bind_eq_some, discard_eq_some, expect_eq_some, pure_eq_some] at h
      obtain ⟨_, _, ⟨k, rfl, _⟩, g, _, hg, rfl, rfl⟩ := h
      obtain ⟨mid, rfl, hf, he⟩ := enclosed_group hg
      obtain ⟨used, hu, hm⟩ := strewn_memberList (fun _ _ _ => from_interfaceElem) hf
      obtain rfl : mid = used := List.append_cancel_right hu
      refine ⟨k :: (g.opening :: mid ++ [g.closing]), by simp, k, _, mid, rfl, he, ?_⟩
      simpa using hm

theorem from_typeBody {b : TypeBody} (h : (typeBody n).run ts = some (b, rest)) :
    ∃ used, ts = used ++ rest ∧ b.From used := by
  cases n with
  | zero => exact (failure_eq_some h).elim
  | succ n =>
      simp only [typeBody, bind_eq_some, peek_eq_some] at h
      obtain ⟨t, _, ⟨rfl, rfl⟩, h⟩ := h
      split at h
      next =>
        obtain ⟨⟨e, b⟩, _, hp, h⟩ := bind_eq_some.1 h
        obtain ⟨rfl, rfl⟩ := pure_eq_some.1 h
        obtain ⟨_, _, hb, _⟩ := placed_eq_some.1 hp
        exact from_structBody hb
      next =>
        split at h
        next =>
          obtain ⟨⟨e, b⟩, _, hp, h⟩ := bind_eq_some.1 h
          obtain ⟨rfl, rfl⟩ := pure_eq_some.1 h
          obtain ⟨_, _, hb, _⟩ := placed_eq_some.1 hp
          exact from_interfaceBody hb
        next =>
          obtain ⟨type, _, ht, h⟩ := bind_eq_some.1 h
          obtain ⟨rfl, rfl⟩ := pure_eq_some.1 h
          obtain ⟨used, rfl, _⟩ := (typeExpr n .line).takes ht
          exact ⟨used, rfl, trivial⟩

/-- The body of a definition, if there is one, is read last. -/
theorem from_typeRight {o : Option TypeBody} (h : (typeRight n).run ts = some (o, rest)) :
    ∃ front body, ts = front ++ body ++ rest ∧ ∀ b, o = some b → b.From body := by
  cases n with
  | zero => exact (failure_eq_some h).elim
  | succ n =>
      obtain ⟨same, mid, ha, hr⟩ := bind_eq_some.1 h
      obtain ⟨front, rfl, _⟩ := (accept "=").takes ha
      split at hr
      next =>
        obtain ⟨_, _, ht, hp⟩ := bind_eq_some.1 hr
        obtain ⟨rfl, rfl⟩ := pure_eq_some.1 hp
        obtain ⟨used, rfl, _⟩ := (discard (typeExpr n .line)).takes ht
        exact ⟨front, used, by simp, by simp⟩
      next =>
        obtain ⟨b, _, hb, hp⟩ := bind_eq_some.1 hr
        obtain ⟨rfl, rfl⟩ := pure_eq_some.1 hp
        obtain ⟨used, rfl, hu⟩ := from_typeBody hb
        exact ⟨front, used, by simp, fun b' hb' => Option.some.inj hb' ▸ hu⟩

theorem from_typeBehind {o : Option TypeBody} (h : (typeBehind n).run ts = some (o, rest)) :
    ∃ front body, ts = front ++ body ++ rest ∧ ∀ b, o = some b → b.From body := by
  cases n with
  | zero => exact (failure_eq_some h).elim
  | succ n =>
      simp only [typeBehind, bind_eq_some, peek_eq_some, ahead_eq_some] at h
      obtain ⟨t, _, ⟨rfl, rfl⟩, u, _, ⟨rfl, rfl⟩, v, _, ⟨rfl, rfl⟩, h⟩ := h
      split at h
      next =>
        rcases orElse_eq_some.1 h with h | ⟨_, h⟩
        · obtain ⟨_, _, hr, h⟩ := seqRight_eq_some.1 h
          obtain ⟨_, rfl⟩ := require_eq_some.1 hr
          exact from_typeRight h
        · obtain ⟨_, mid, hp, h⟩ := seqRight_eq_some.1 h
          obtain ⟨front, hf, _⟩ := Parser.takes _ hp
          obtain ⟨gap, body, rfl, hb⟩ := from_typeRight h
          exact ⟨front ++ gap, body, by simp [hf], hb⟩
      next => exact from_typeRight h

theorem from_typeEntry {e : TypeEntry} (h : (typeEntry n).run ts = some (e, rest)) :
    ∃ used, ts = used ++ rest ∧ e.From used := by
  cases n with
  | zero => exact (failure_eq_some h).elim
  | succ n =>
      obtain ⟨⟨e, name, body⟩, _, hp, h⟩ := bind_eq_some.1 h
      obtain ⟨rfl, rfl⟩ := pure_eq_some.1 h
      obtain ⟨used, rfl, hu, hr⟩ := covers_placed (consumes_name.bind _) hp
      simp only [bind_eq_some, pure_eq_some, Prod.mk.injEq] at hr
      obtain ⟨t, _, ht, o, _, ho, ⟨rfl, rfl⟩, rfl⟩ := hr
      obtain ⟨front, hf, _⟩ := Parser.takes _ ht
      obtain ⟨gap, seg, rfl, hb⟩ := from_typeBehind ho
      obtain rfl : used = front ++ gap ++ seg := List.append_cancel_right (by simpa using hf)
      refine ⟨_, rfl, ?_⟩
      cases o with
      | none => exact ⟨hu, by simp⟩
      | some b =>
          refine ⟨hu, fun spec hs => ⟨front ++ gap, seg, rfl, ?_⟩⟩
          cases hs
          exact hb b rfl

theorem from_typeDecl {d : TypeDecl} (h : (typeDecl n).run ts = some (d, rest)) :
    ∃ used, ts = used ++ rest ∧ d.From used := by
  cases n with
  | zero => exact (failure_eq_some h).elim
  | succ n =>
      simp only [typeDecl, bind_eq_some, discard_eq_some, expect_eq_some, peek_eq_some] at h
      obtain ⟨_, _, ⟨k, rfl, _⟩, t, _, ⟨rfl, rfl⟩, h⟩ := h
      split at h
      next =>
        obtain ⟨g, _, hg, hp⟩ := bind_eq_some.1 h
        obtain ⟨rfl, rfl⟩ := pure_eq_some.1 hp
        obtain ⟨mid, rfl, hf, he⟩ := enclosed_group hg
        obtain ⟨used, hu, hm⟩ := strewn_memberList (fun _ _ _ => from_typeEntry) hf
        obtain rfl : mid = used := List.append_cancel_right hu
        refine ⟨k :: (g.opening :: mid ++ [g.closing]), by simp, k, _, _, mid, rfl, he, ?_⟩
        simpa using hm
      next =>
        obtain ⟨e, _, he, hp⟩ := bind_eq_some.1 h
        obtain ⟨rfl, rfl⟩ := pure_eq_some.1 hp
        obtain ⟨used, rfl, hu⟩ := from_typeEntry he
        exact ⟨k :: used, rfl, k, used, rfl, hu⟩

theorem from_block {d : Delimiters} (h : (block n).run ts = some (d, rest)) :
    ∃ used inner, ts = used ++ rest ∧ Enclosed lbrace rbrace d used inner := by
  cases n with
  | zero => exact (failure_eq_some h).elim
  | succ n =>
      simp only [block, bind_eq_some, pure_eq_some] at h
      obtain ⟨g, _, hg, rfl, rfl⟩ := h
      obtain ⟨inner, rfl, _, he⟩ := enclosed_group hg
      exact ⟨_, inner, rfl, he⟩

theorem from_body {o : Option Delimiters} (h : (body n).run ts = some (o, rest)) :
    ∃ used, ts = used ++ rest ∧
      ∀ d, o = some d → ∃ inner, Enclosed lbrace rbrace d used inner := by
  cases n with
  | zero => exact (failure_eq_some h).elim
  | succ n =>
      simp only [body, bind_eq_some, peek_eq_some] at h
      obtain ⟨t, _, ⟨rfl, rfl⟩, h⟩ := h
      split at h
      next =>
        obtain ⟨d, hb, rfl⟩ := map_eq_some.1 h
        obtain ⟨used, inner, rfl, he⟩ := from_block hb
        exact ⟨used, rfl, fun d' hd => Option.some.inj hd ▸ ⟨inner, he⟩⟩
      next =>
        obtain ⟨rfl, rfl⟩ := pure_eq_some.1 h
        exact ⟨[], rfl, by simp⟩

theorem from_funcDecl {f : FuncDecl} (h : (funcDecl n).run ts = some (f, rest)) :
    ∃ used, ts = used ++ rest ∧ f.From used := by
  cases n with
  | zero => exact (failure_eq_some h).elim
  | succ n =>
      simp only [funcDecl, bind_eq_some, pure_eq_some] at h
      obtain ⟨_, _, hk, r, _, hr, t, _, ht, _, _, hg, params, _, hp, results, _, hs, braces, _,
        hb, rfl, rfl⟩ := h
      obtain ⟨kw, rfl, _⟩ := Parser.takes _ hk
      obtain ⟨recv, rfl, _⟩ := Parser.takes _ hr
      obtain ⟨nm, rfl, _⟩ := Parser.takes _ ht
      obtain ⟨gen, rfl, _⟩ := Parser.takes _ hg
      obtain ⟨list, mid, rfl, hl⟩ := from_paramList hp
      obtain ⟨res, rfl, _⟩ := Parser.takes _ hs
      obtain ⟨seg, rfl, hseg⟩ := from_body hb
      exact ⟨kw ++ recv ++ nm ++ gen ++ list ++ res ++ seg, by simp, kw ++ recv ++ nm ++ gen, list,
        mid, res, seg, rfl, hl, hseg⟩

theorem from_importSpec {i : ImportSpec} (h : importSpec.run ts = some (i, rest)) :
    ∃ used, ts = used ++ rest ∧ i.From used := by
  simp only [importSpec, bind_eq_some, pure_eq_some] at h
  obtain ⟨⟨e, nm, path⟩, _, hp, rfl, rfl⟩ := h
  obtain ⟨used, rfl, hu, _⟩ :=
    covers_placed (.behind _ fun _ => (consumes_ofKind _).bind _) hp
  exact ⟨used, rfl, hu⟩

theorem from_importDecl {d : ImportDecl} (h : (importDecl n).run ts = some (d, rest)) :
    ∃ used, ts = used ++ rest ∧ d.From used := by
  simp only [importDecl, bind_eq_some, expect_eq_some, peek_eq_some] at h
  obtain ⟨k, _, ⟨rfl, _⟩, t, _, ⟨rfl, rfl⟩, h⟩ := h
  split at h
  next =>
    obtain ⟨g, _, hg, hp⟩ := bind_eq_some.1 h
    obtain ⟨rfl, rfl⟩ := pure_eq_some.1 hp
    obtain ⟨mid, rfl, hf, he⟩ := enclosed_group hg
    obtain ⟨used, hu, hm⟩ := strewn_memberList (fun _ _ _ => from_importSpec) hf
    obtain rfl : mid = used := List.append_cancel_right hu
    exact ⟨k :: (g.opening :: mid ++ [g.closing]), by simp, k, _, rfl, rfl, mid, he, hm⟩
  next =>
    obtain ⟨spec, _, hs, hp⟩ := bind_eq_some.1 h
    obtain ⟨rfl, rfl⟩ := pure_eq_some.1 hp
    obtain ⟨used, rfl, hu⟩ := from_importSpec hs
    exact ⟨k :: used, rfl, k, used, rfl, rfl, spec, rfl, hu⟩

theorem from_itemKind {i : ItemKind} (h : (itemKind n).run ts = some (i, rest)) :
    ∃ used, ts = used ++ rest ∧ i.From used := by
  obtain ⟨seg, hseg, _⟩ := Parser.takes _ h
  obtain ⟨t, _, hp, h⟩ := bind_eq_some.1 h
  obtain ⟨rfl, rfl⟩ := peek_eq_some.1 hp
  split at h
  · simp only [packageClause, name, bind_eq_some, discard_eq_some, expect_eq_some, ofKind_eq_some,
      pure_eq_some] at h
    obtain ⟨t, _, ⟨_, _, ⟨k, rfl, _⟩, rfl, _⟩, rfl, rfl⟩ := h
    exact ⟨[k, t], rfl, k, t, rfl, rfl, rfl⟩
  split at h
  · obtain ⟨d, hd, rfl⟩ := map_eq_some.1 h
    exact from_importDecl hd
  split at h
  · obtain ⟨d, hd, rfl⟩ := map_eq_some.1 h
    exact from_typeDecl hd
  split at h
  · obtain ⟨_, _, _, hp⟩ := bind_eq_some.1 h
    obtain ⟨rfl, rfl⟩ := pure_eq_some.1 hp
    exact ⟨seg, hseg, trivial⟩
  split at h
  · obtain ⟨m, _, hm, hr⟩ := bind_eq_some.1 h
    obtain ⟨rfl, rfl⟩ := foresee_eq_some.1 hm
    rcases orElse_eq_some.1 hr with hf | ⟨_, hr⟩
    · obtain ⟨f, hd, rfl⟩ := map_eq_some.1 hf
      exact from_funcDecl hd
    · obtain ⟨_, _, _, hp⟩ := seqRight_eq_some.1 hr
      obtain ⟨rfl, rfl⟩ := pure_eq_some.1 hp
      exact ⟨seg, hseg, trivial⟩
  · obtain ⟨_, _, _, hp⟩ := bind_eq_some.1 h
    obtain ⟨rfl, rfl⟩ := pure_eq_some.1 hp
    exact ⟨seg, hseg, trivial⟩

theorem from_itemList {k : Nat} {items : List (Sibling Item)}
    (h : (itemList n k).run ts = some (items, rest)) :
    ∃ used, ts = used ++ rest ∧ Strewn Item.From used (members items) := by
  induction k generalizing ts items with
  | zero => exact (failure_eq_some h).elim
  | succ k ih =>
      simp only [itemList, bind_eq_some, peek_eq_some] at h
      obtain ⟨t, _, ⟨rfl, rfl⟩, h⟩ := h
      split at h
      · obtain ⟨rfl, rfl⟩ := pure_eq_some.1 h
        exact ⟨[], rfl, by simpa using .nil []⟩
      obtain ⟨⟨seg, kind⟩, mid, ht, h⟩ := bind_eq_some.1 h
      obtain ⟨rfl, hk⟩ := taking_eq_some.1 ht
      obtain ⟨seg', hs, hf⟩ := from_itemKind hk
      obtain rfl : seg = seg' := List.append_cancel_right hs
      have hi : Strewn Item.From seg [⟨extentOf seg, kind⟩] := .single ⟨rfl, hf⟩
      obtain ⟨u, _, hu, h⟩ := bind_eq_some.1 h
      obtain ⟨rfl, rfl⟩ := peek_eq_some.1 hu
      split at h
      · obtain ⟨items', _, hr, hp⟩ := bind_eq_some.1 h
        obtain ⟨rfl, rfl⟩ := pure_eq_some.1 hp
        obtain ⟨used, rfl, hus⟩ := ih hr
        exact ⟨seg ++ used, by simp, by simpa using hi.append hus⟩
      split at h
      · simp only [bind_eq_some, discard_eq_some, advance_eq_some, pure_eq_some] at h
        obtain ⟨_, _, ⟨c, rfl, _⟩, items', _, hr, rfl, rfl⟩ := h
        obtain ⟨used, rfl, hus⟩ := ih hr
        have ha := hi.append (hus.gap_append [c])
        exact ⟨seg ++ ([c] ++ used), by simp, by simpa using ha⟩
      · obtain ⟨b, _, hg, h⟩ := bind_eq_some.1 h
        obtain ⟨gap, rfl, _⟩ := Parser.takes _ hg
        simp only [bind_eq_some, require_eq_some, pure_eq_some] at h
        obtain ⟨_, _, ⟨_, rfl⟩, items', _, hr, rfl, rfl⟩ := h
        obtain ⟨used, rfl, hus⟩ := ih hr
        have ha := hi.append (hus.gap_append gap)
        exact ⟨seg ++ (gap ++ used), by simp, by simpa using ha⟩

end Grammar

end GoOutline.Syntax
