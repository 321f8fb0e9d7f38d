import GoOutline.Proofs.Naming

/-!
The types of a file and what they consist of. Each type, however deep it stands in another one, is
read by a rule of its own.
-/

namespace GoOutline.Syntax

open Syntax.Parser

namespace TypeExpr

/-- A type is read among some tokens, perhaps as that of an embedded field. -/
def IsRead (ts : List Token) (e : TypeExpr) : Prop :=
  Grammar.IsNamed ts e ∨ ∃ n p, (Grammar.typeExpr n p).Reads ts e

end TypeExpr

theorem Grammar.ReadParams.isRead {ts : List Token} {ds : List ParamDecl}
    (h : Grammar.ReadParams ts ds) : ∀ d ∈ ds, d.type.IsRead ts :=
  fun d hd => .inr (h.types d hd)

open Grammar

/-- The parts of a type are read among some tokens. -/
def TypeExpr.Parts (ts : List Token) : TypeExpr → Prop
  | .name span id => IsNamed ts (.name span id)
  | .qualified span package id => IsNamed ts (.qualified span package id)
  | .pointer _ elem | .slice _ elem | .array _ _ elem => elem.IsRead ts
  | .map _ key value => key.IsRead ts ∧ value.IsRead ts
  | .function _ params results => ReadParams ts params ∧ ReadParams ts results
  | .other _ => True

namespace Grammar

variable {n : Nat} {p : Place} {ts us rest : List Token} {e : TypeExpr}

theorem IsNamed.parts (h : IsNamed ts e) : e.Parts ts := by
  have hnamed := h
  obtain ⟨⟨q, name, args, hq, hn, ho, hc⟩, -, rfl⟩ := h
  cases args with
  | cons o args => trivial
  | nil => cases q <;> exact hnamed

/-- A type that does not start with a name. -/
theorem parts_of_typeForm {build : Span → TypeExpr} (hs : us <:+ ts)
    (hname : (lookAt 0 us).kind ≠ .name) (h : (typeForm n p).run us = some (build, rest))
    (span : Span) : (build span).Parts ts := by
  cases n with
  | zero => exact (failure_eq_some h).elim
  | succ n =>
      simp only [typeForm, bind_eq_some, peek_eq_some] at h
      obtain ⟨t, _, ⟨rfl, rfl⟩, h⟩ := h
      rw [if_neg (by simpa using hname)] at h
      replace h : Reads _ ts build := ⟨us, rest, hs, h⟩
      rcases h.ite with h | h
      · obtain ⟨_, -, h⟩ := h.bind
        obtain ⟨elem, helem, h⟩ := h.bind
        cases h.pure
        exact .inr ⟨n, p, helem⟩
      rcases h.ite with h | h
      · obtain ⟨_, -, h⟩ := h.bind
        cases h.pure
        trivial
      rcases h.ite with h | h
      · obtain ⟨⟨_, length, _⟩, -, h⟩ := h.bind
        obtain ⟨elem, helem, h⟩ := h.bind
        cases h.pure
        cases length <;> exact .inr ⟨n, p, helem⟩
      rcases h.ite with h | h
      · obtain ⟨_, -, h⟩ := h.bind
        obtain ⟨key, hkey, h⟩ := h.bind
        obtain ⟨value, hvalue, h⟩ := h.bind
        cases h.pure
        exact ⟨.inr ⟨n, .inner, hkey.group⟩, .inr ⟨n, p, hvalue⟩⟩
      rcases h.ite with h | h
      · obtain ⟨_, -, h⟩ := h.bind
        obtain ⟨_, -, h⟩ := h.bind
        obtain ⟨_, -, h⟩ := h.bind
        cases h.pure
        trivial
      rcases h.ite with h | h
      · obtain ⟨_, -, h⟩ := h.bind
        obtain ⟨_, -, h⟩ := h.bind
        obtain ⟨_, -, h⟩ := h.bind
        cases h.pure
        trivial
      rcases h.ite with h | h
      · obtain ⟨_, -, h⟩ := h.bind
        obtain ⟨_, -, h⟩ := h.bind
        obtain ⟨_, -, h⟩ := h.bind
        rcases h.ite with h | h
        · obtain ⟨_, -, h⟩ := h.bind
          cases h.pure
          trivial
        · cases h.pure
          trivial
      rcases h.ite with h | h
      · obtain ⟨_, -, h⟩ := h.bind
        obtain ⟨params, hparams, h⟩ := h.bind
        obtain ⟨results, hresults, h⟩ := h.bind
        cases h.pure
        exact ⟨readParams_paramList hparams, readParams_resultList hresults⟩
      rcases h.ite with h | h
      · obtain ⟨_, -, h⟩ := h.bind
        cases h.pure
        trivial
      rcases h.ite with h | h
      · obtain ⟨_, -, h⟩ := h.bind
        cases h.pure
        trivial
      · exact h.failure.elim

theorem parts_of_typeExpr (h : (typeExpr n p).Reads ts e) : e.Parts ts := by
  obtain ⟨us, rest, hs, h⟩ := h
  by_cases hname : (lookAt 0 us).kind = .name
  · obtain ⟨w, rfl, rfl⟩ := exists_of_typeExpr h hname
    exact IsNamed.parts ⟨w, ⟨rest, hs⟩, rfl⟩
  · cases n with
    | zero => exact (failure_eq_some h).elim
    | succ n =>
        simp only [typeExpr, bind_eq_some, pure_eq_some] at h
        obtain ⟨⟨place, build⟩, _, hp, rfl, rfl⟩ := h
        obtain ⟨used, -, hf, -⟩ := placed_eq_some.1 hp
        exact parts_of_typeForm hs hname hf place.span

end Grammar

/-- Whatever type is read, its parts are read. -/
theorem TypeExpr.IsRead.parts {ts : List Token} {e : TypeExpr} (h : e.IsRead ts) : e.Parts ts := by
  obtain h | ⟨n, p, h⟩ := h
  · exact h.parts
  · exact parts_of_typeExpr h

mutual

/-- A type and the types within it, each in front of those within itself. Where names share a type
there is one for each of them. -/
def TypeExpr.within : TypeExpr → List TypeExpr
  | .name span id => [.name span id]
  | .qualified span package id => [.qualified span package id]
  | .pointer span elem => .pointer span elem :: elem.within
  | .slice span elem => .slice span elem :: elem.within
  | .array span length elem => .array span length elem :: elem.within
  | .map span key value => .map span key value :: (key.within ++ value.within)
  | .function span params results =>
    .function span params results :: (withinAll params ++ withinAll results)
  | .other span => [.other span]

def ParamDecl.within : ParamDecl → List TypeExpr
  | .mk _ names type _ => (List.replicate (max names.length 1) type.within).flatten

def withinAll : List ParamDecl → List TypeExpr
  | [] => []
  | d :: ds => d.within ++ withinAll ds

end

section Within

variable {ts : List Token}

mutual

/-- Whatever type is read, all types within it are. -/
theorem isRead_within (e : TypeExpr) (h : e.IsRead ts) : ∀ x ∈ e.within, x.IsRead ts := by
  match e, h.parts with
  | .name _ _, _ | .qualified _ _ _, _ | .other _, _ => simpa [TypeExpr.within] using h
  | .pointer _ elem, hparts => exact List.forall_mem_cons.2 ⟨h, isRead_within elem hparts⟩
  | .slice _ elem, hparts => exact List.forall_mem_cons.2 ⟨h, isRead_within elem hparts⟩
  | .array _ _ elem, hparts => exact List.forall_mem_cons.2 ⟨h, isRead_within elem hparts⟩
  | .map _ key value, hparts =>
      exact List.forall_mem_cons.2 ⟨h, List.forall_mem_append.2
        ⟨isRead_within key hparts.1, isRead_within value hparts.2⟩⟩
  | .function _ params results, hparts =>
      exact List.forall_mem_cons.2 ⟨h, List.forall_mem_append.2
        ⟨isRead_withinAll params hparts.1.isRead, isRead_withinAll results hparts.2.isRead⟩⟩

theorem isRead_withinParam (d : ParamDecl) (h : d.type.IsRead ts) :
    ∀ x ∈ d.within, x.IsRead ts := by
  match d with
  | .mk _ names type _ =>
      intro x hx
      obtain ⟨xs, hxs, hx⟩ := List.mem_flatten.1 hx
      obtain ⟨-, rfl⟩ := List.mem_replicate.1 hxs
      exact isRead_within type h x hx

theorem isRead_withinAll (ds : List ParamDecl) (h : ∀ d ∈ ds, d.type.IsRead ts) :
    ∀ x ∈ withinAll ds, x.IsRead ts := by
  match ds with
  | [] => simp [withinAll]
  | d :: ds =>
      obtain ⟨hd, hds⟩ := List.forall_mem_cons.1 h
      exact List.forall_mem_append.2 ⟨isRead_withinParam d hd, isRead_withinAll ds hds⟩

end

end Within

section Files

def InterfaceElem.typeExprs : InterfaceElem → List TypeExpr
  | .method m => (m.params.decls ++ m.results).map ParamDecl.type
  | .embedding _ first more => first :: more

def TypeBody.typeExprs : TypeBody → List TypeExpr
  | .struct _ b => (members b.fields).map FieldDecl.type
  | .interface _ b => (members b.elems).flatMap InterfaceElem.typeExprs
  | .plain type => [type]

def TypeEntry.typeExprs : TypeEntry → List TypeExpr
  | .definition spec => spec.body.typeExprs
  | .synonym _ => []

def TypeDecl.typeExprs : TypeDecl → List TypeExpr
  | .lone e => e.typeExprs
  | .group es => (members es).flatMap TypeEntry.typeExprs

def FuncDecl.typeExprs (f : FuncDecl) : List TypeExpr :=
  (f.receiver.elim [] ParamList.decls ++ f.params.decls ++ f.results).map ParamDecl.type

def ItemKind.typeExprs : ItemKind → List TypeExpr
  | .types d => d.typeExprs
  | .func f => f.typeExprs
  | _ => []

/-- The types of fields, parameters and results, those that interfaces embed, and those that are
given a name. -/
def Tree.typeExprs (t : Tree) : List TypeExpr := (members t.items).flatMap (·.kind.typeExprs)

variable {n : Nat} {p : Place} {ts : List Token}

theorem isRead_of_fieldDecl {d : FieldDecl} (h : (fieldDecl n).Reads ts d) :
    d.type.IsRead ts ∧ d.head ≠ .named [] := by
  cases n with
  | zero => exact h.failure.elim
  | succ n =>
      obtain ⟨⟨extent, head, type, tag⟩, hp, h⟩ := h.bind
      cases h.pure
      obtain ⟨⟨head', type'⟩, hh, hp⟩ := hp.placed.bind
      obtain ⟨_, -, hp⟩ := hp.bind
      cases hp.pure
      rcases isNamed_of_fieldHead hh with ⟨⟨names, hne, rfl⟩, hread⟩ | ⟨⟨pointer, rfl⟩, hnamed⟩
      · exact ⟨.inr hread, fun he => hne (FieldHead.named.inj he)⟩
      · exact ⟨.inl hnamed, FieldHead.noConfusion⟩

theorem isRead_of_unionType {u : TypeExpr × List TypeExpr} (h : (unionType n p).Reads ts u) :
    ∀ e ∈ u.1 :: u.2, e.IsRead ts := by
  induction n generalizing u with
  | zero => exact h.failure.elim
  | succ n ih =>
      obtain ⟨first, hfirst, h⟩ := h.bind
      obtain ⟨t, -, h⟩ := h.bind
      have hread : first.IsRead ts := .inr ⟨n, p, hfirst⟩
      split at h
      · obtain ⟨_, -, h⟩ := h.bind
        obtain ⟨⟨second, more⟩, hmore, h⟩ := h.bind
        cases h.pure
        exact List.forall_mem_cons.2 ⟨hread, ih hmore⟩
      · cases h.pure
        simpa using hread

/-- How an element of an interface is read. -/
def InterfaceElem.IsRead (ts : List Token) : InterfaceElem → Prop
  | .method m => ReadParams ts m.params.decls ∧ ReadParams ts m.results
  | .embedding _ first more => ∀ e ∈ first :: more, e.IsRead ts

theorem isRead_of_interfaceElem {x : InterfaceElem} (h : (interfaceElem n).Reads ts x) :
    x.IsRead ts := by
  cases n with
  | zero => exact h.failure.elim
  | succ n =>
      obtain ⟨t, -, h⟩ := h.bind
      obtain ⟨u, -, h⟩ := h.bind
      split at h
      · obtain ⟨⟨extent, name, params, results⟩, hp, h⟩ := h.bind
        cases h.pure
        obtain ⟨_, -, hp⟩ := hp.placed.bind
        obtain ⟨params', hparams, hp⟩ := hp.bind
        obtain ⟨results', hresults, hp⟩ := hp.bind
        cases hp.pure
        exact ⟨readParams_paramList hparams, readParams_resultList hresults⟩
      · obtain ⟨⟨extent, first, more⟩, hp, h⟩ := h.bind
        cases h.pure
        exact isRead_of_unionType hp.placed

theorem InterfaceElem.IsRead.typeExprs {x : InterfaceElem} (h : x.IsRead ts) :
    ∀ e ∈ x.typeExprs, e.IsRead ts := by
  cases x with
  | method m =>
      intro e he
      obtain ⟨d, hd, rfl⟩ := List.mem_map.1 he
      rcases List.mem_append.1 hd with hd | hd
      · exact h.1.isRead d hd
      · exact h.2.isRead d hd
  | embedding extent first more => exact h

theorem readParams_of_funcDecl {f : FuncDecl} (h : (funcDecl n).Reads ts f) :
    ReadParams ts f.params.decls ∧ ReadParams ts f.results := by
  cases n with
  | zero => exact h.failure.elim
  | succ n =>
      obtain ⟨_, -, h⟩ := h.bind
      obtain ⟨_, -, h⟩ := h.bind
      obtain ⟨_, -, h⟩ := h.bind
      obtain ⟨_, -, h⟩ := h.bind
      obtain ⟨params, hparams, h⟩ := h.bind
      obtain ⟨results, hresults, h⟩ := h.bind
      obtain ⟨_, -, h⟩ := h.bind
      cases h.pure
      exact ⟨readParams_paramList hparams, readParams_resultList hresults⟩

theorem isRead_of_funcDecl {f : FuncDecl} (h : (funcDecl n).Reads ts f) :
    ∀ e ∈ f.typeExprs, e.IsRead ts := by
  have hreceiver : ∀ d ∈ f.receiver.elim [] ParamList.decls, d.type.IsRead ts := by
    cases hr : f.receiver with
    | none => simp
    | some l => exact (readParams_receiver h hr).isRead
  have hparts := readParams_of_funcDecl h
  intro e he
  obtain ⟨d, hd, rfl⟩ := List.mem_map.1 he
  rcases List.mem_append.1 hd with hd | hd
  · rcases List.mem_append.1 hd with hd | hd
    · exact hreceiver d hd
    · exact hparts.1.isRead d hd
  · exact hparts.2.isRead d hd

theorem TypeBody.Among.isRead {b : TypeBody} (h : b.Among ts) : ∀ e ∈ b.typeExprs, e.IsRead ts := by
  cases b with
  | struct span b =>
      obtain ⟨n, h⟩ := h
      intro e he
      obtain ⟨d, hd, rfl⟩ := List.mem_map.1 he
      exact (isRead_of_fieldDecl (h.reads d hd)).1
  | interface span b =>
      obtain ⟨n, h⟩ := h
      intro e he
      obtain ⟨x, hx, he⟩ := List.mem_flatMap.1 he
      exact (isRead_of_interfaceElem (h.reads x hx)).typeExprs e he
  | plain type =>
      intro e he
      rw [List.mem_singleton.1 he]
      exact .inr h

theorem TypeEntry.Among.isRead {x : TypeEntry} (h : x.Among ts) :
    ∀ e ∈ x.typeExprs, e.IsRead ts := by
  cases x with
  | definition spec => exact TypeBody.Among.isRead h
  | synonym extent => simp [TypeEntry.typeExprs]

theorem ItemKind.Among.isRead {k : ItemKind} (h : k.Among ts) :
    ∀ e ∈ k.typeExprs, e.IsRead ts := by
  cases k with
  | types d =>
      cases d with
      | lone x => exact TypeEntry.Among.isRead h
      | group es =>
          intro e he
          obtain ⟨x, hx, he⟩ := List.mem_flatMap.1 he
          exact (h.2 x hx).isRead e he
  | func f =>
      obtain ⟨n, h⟩ := h
      exact isRead_of_funcDecl h
  | package | imports | values | statement => simp [ItemKind.typeExprs]

/-- The types of a file are read among its tokens. -/
theorem Tree.isRead_typeExprs {text : List Char} {tree : Tree} (h : Tree.ofText? text = some tree) :
    ∀ e ∈ tree.typeExprs, e.IsRead (Lexer.tokens text) := by
  intro e he
  obtain ⟨i, hi, he⟩ := List.mem_flatMap.1 he
  exact (Tree.among_items h i hi).isRead e he

end Files

end GoOutline.Syntax
