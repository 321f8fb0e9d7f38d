import GoOutline.Proofs.Parts

/-!
Imports and types. What a file imports decides which qualified names stand for names of an import and
which are kept as their text. A type is written the same either way.
-/

namespace GoOutline

open Text Syntax

namespace Syntax

/-- A qualified name, and where it stands. -/
structure Reference where
  span : Span
  package : String
  id : String
deriving DecidableEq, Repr

def TypeExpr.reference? : TypeExpr → Option Reference
  | .qualified span package id => some ⟨span, package, id⟩
  | _ => none

/-- The qualified names in a type, where they may refer to an import. -/
def TypeExpr.references (e : TypeExpr) : List Reference := e.within.filterMap TypeExpr.reference?

def ParamDecl.references (d : ParamDecl) : List Reference := d.within.filterMap TypeExpr.reference?

def referencesAll (ds : List ParamDecl) : List Reference :=
  (withinAll ds).filterMap TypeExpr.reference?

section References

variable (span : Span)

theorem references_map (key value : TypeExpr) :
    (TypeExpr.map span key value).references = key.references ++ value.references :=
  List.filterMap_append

theorem references_function (params results : List ParamDecl) :
    (TypeExpr.function span params results).references =
      referencesAll params ++ referencesAll results :=
  List.filterMap_append

theorem references_param (names : List String) (type : TypeExpr) (variadic : Bool) :
    (ParamDecl.mk span names type variadic).references =
      (List.replicate (max names.length 1) type.references).flatten := by
  rw [ParamDecl.references, ParamDecl.within, List.filterMap_flatten, List.map_replicate]
  rfl

theorem referencesAll_cons (d : ParamDecl) (ds : List ParamDecl) :
    referencesAll (d :: ds) = d.references ++ referencesAll ds :=
  List.filterMap_append

end References

end Syntax

/-- The name that an import goes by: its alias, or else the name of its package. Nothing goes by a
blank or a dot. -/
def Import.GoesBy (i : Import) (name : String) : Prop :=
  match i.localName with
  | none => i.packageName = name
  | some a => a = name ∧ a ≠ "_" ∧ a ≠ "."

/-- What a qualified name stands for: a name of the first import that goes by the package, or just
its text if nothing is imported by that name. -/
inductive Refers (imports : List Import) (r : Reference) : GoType → Prop where
  | imported {front back : List Import} {i : Import} (h : imports = front ++ i :: back)
      (hi : i.GoesBy r.package) (hfront : ∀ j ∈ front, ¬ j.GoesBy r.package) :
      Refers imports r (.imported r.id i)
  | raw (h : ∀ i ∈ imports, ¬ i.GoesBy r.package) :
      Refers imports r (.raw (r.package ++ "." ++ r.id))

/-- A qualified name resolved against two lists of imports. -/
def RefersBoth (is js : List Import) (r : Reference) (t u : GoType) : Prop :=
  Refers is r t ∧ Refers js r u

mutual

/-- Two types differ in nothing but what some qualified names stand for. -/
inductive Differ (R : Reference → GoType → GoType → Prop) :
    List Reference → GoType → GoType → Prop where
  | simple (name : String) : Differ R [] (.simple name) (.simple name)
  | raw (text : String) : Differ R [] (.raw text) (.raw text)
  | reference {r : Reference} {t u : GoType} (h : R r t u) : Differ R [r] t u
  | pointer {rs : List Reference} {t u : GoType} (h : Differ R rs t u) :
      Differ R rs (.pointer t) (.pointer u)
  | array {rs : List Reference} {t u : GoType} (length : Option String) (h : Differ R rs t u) :
      Differ R rs (.array length t) (.array length u)
  | map {rs qs : List Reference} {t u t' u' : GoType} (hkey : Differ R rs t u)
      (hvalue : Differ R qs t' u') : Differ R (rs ++ qs) (.map t t') (.map u u')
  | function {rs qs : List Reference} {ps ps' ts ts' : List Parameter}
      (hparams : DifferAll R rs ps ps') (hresults : DifferAll R qs ts ts') :
      Differ R (rs ++ qs) (.function ps ts) (.function ps' ts')

inductive DifferAll (R : Reference → GoType → GoType → Prop) :
    List Reference → List Parameter → List Parameter → Prop where
  | nil : DifferAll R [] [] []
  | cons {rs qs : List Reference} {t u : GoType} {ps ps' : List Parameter} (name : Option String)
      (variadic : Bool) (h : Differ R rs t u) (hps : DifferAll R qs ps ps') :
      DifferAll R (rs ++ qs) (.mk name t variadic :: ps) (.mk name u variadic :: ps')

end

section Names

variable {imports : List Import} {r : Reference} {t : GoType} {i : Import} {name : String}

theorem Import.goesBy_iff : i.GoesBy name ↔ i.qualifier? = some name := by
  unfold Import.GoesBy Import.qualifier?
  cases i.localName with
  | none => simp
  | some a => by_cases h : a = "_" ∨ a = "." <;> simp [h] <;> grind

/-- A qualified name is resolved as it should be, if its text is the package, a dot and the name. -/
theorem refers_type {s : Scope}
    (h : s.slice r.span = r.package ++ "." ++ r.id) :
    Refers s.imports r (s.type (.qualified r.span r.package r.id)) := by
  rw [Scope.type]
  cases hi : s.import? r.package with
  | none =>
      rw [h]
      refine .raw fun i hmem hname => ?_
      exact List.find?_eq_none.1 hi i hmem (by simp [Import.goesBy_iff.1 hname])
  | some i =>
      obtain ⟨hp, front, back, hsplit, hfront⟩ := List.find?_eq_some_iff_append.1 hi
      refine .imported hsplit (Import.goesBy_iff.2 (by simpa using hp)) fun j hj hname => ?_
      simpa [Import.goesBy_iff.1 hname] using hfront j hj

theorem Refers.render_eq (h : Refers imports r t) :
    t.render = r.package.toList ++ '.' :: r.id.toList := by
  cases h with
  | imported h hi hfront => simp [GoType.render, Import.goesBy_iff.1 hi]
  | raw h => simp [GoType.render]

theorem Refers.baseName?_eq (h : Refers imports r t)
    (hpackage : ∀ c ∈ r.package.toList, isIdentifierPart c)
    (hid : ∀ c ∈ r.id.toList, isIdentifierPart c) (hne : r.id.toList ≠ []) :
    t.baseName? = some r.id := by
  cases h with
  | imported => rfl
  | raw =>
      have hname : GoType.nameInText (r.package ++ "." ++ r.id).toList = r.id.toList := by
        have hcut := nameInText_qualified (uncut_of_word hpackage) (uncut_of_word hid)
          (u := []) (by simp)
        simpa using hcut
      rw [GoType.baseName?, hname, if_neg (by simpa using hne), String.ofList_toList]

end Names

section Resolution

variable {text : List Char} {is js : List Import}

theorem differAll_names {R : Reference → GoType → GoType → Prop} {rs : List Reference}
    {t u : GoType} (h : Differ R rs t u) (names : List String) (variadic : Bool) :
    DifferAll R (List.replicate names.length rs).flatten
      (names.map fun n => .mk (some n) t variadic) (names.map fun n => .mk (some n) u variadic) := by
  induction names with
  | nil => exact .nil
  | cons n names ih => exact .cons (some n) variadic h ih

theorem DifferAll.append {R : Reference → GoType → GoType → Prop} {rs qs : List Reference}
    {ps ps' ts ts' : List Parameter} (h : DifferAll R rs ps ps') (h' : DifferAll R qs ts ts') :
    DifferAll R (rs ++ qs) (ps ++ ts) (ps' ++ ts') := by
  match h with
  | .nil => exact h'
  | .cons name variadic ht hps =>
      rw [List.append_assoc]
      exact .cons name variadic ht (hps.append h')

mutual

/-- If the qualified names in a type are written as such, the lists of imports decide what they stand
for, and nothing else. -/
theorem differ_type (e : TypeExpr)
    (h : ∀ r ∈ e.references, Scope.slice ⟨text, []⟩ r.span = r.package ++ "." ++ r.id) :
    Differ (RefersBoth is js) e.references (Scope.type ⟨text, is⟩ e) (Scope.type ⟨text, js⟩ e) := by
  match e with
  | .name _ id => exact .simple id
  | .other span => exact .raw _
  | .qualified span package id =>
      have hslice := h ⟨span, package, id⟩ (List.mem_singleton_self _)
      exact .reference ⟨refers_type (s := ⟨text, is⟩) hslice, refers_type (s := ⟨text, js⟩) hslice⟩
  | .pointer _ elem => exact .pointer (differ_type elem h)
  | .slice _ elem => exact .array none (differ_type elem h)
  | .array _ length elem => exact .array _ (differ_type elem h)
  | .map span key value =>
      rw [references_map] at h ⊢
      obtain ⟨hkey, hvalue⟩ := List.forall_mem_append.1 h
      exact .map (differ_type key hkey) (differ_type value hvalue)
  | .function span params results =>
      rw [references_function] at h ⊢
      obtain ⟨hparams, hresults⟩ := List.forall_mem_append.1 h
      exact .function (differAll_params params hparams) (differAll_params results hresults)

theorem differAll_param (d : ParamDecl)
    (h : ∀ r ∈ d.references, Scope.slice ⟨text, []⟩ r.span = r.package ++ "." ++ r.id) :
    DifferAll (RefersBoth is js) d.references (Scope.param ⟨text, is⟩ d)
      (Scope.param ⟨text, js⟩ d) := by
  match d with
  | .mk span names type variadic =>
      rw [references_param] at h ⊢
      have htype : Differ (RefersBoth is js) type.references (Scope.type ⟨text, is⟩ type)
          (Scope.type ⟨text, js⟩ type) := by
        refine differ_type type fun r hr => h r (List.mem_flatten.2 ⟨type.references, ?_, hr⟩)
        exact List.mem_replicate.2 ⟨by omega, rfl⟩
      cases names with
      | nil => exact .cons none variadic htype .nil
      | cons n names =>
          have hone : 1 ≤ (n :: names).length := Nat.succ_pos _
          rw [Nat.max_eq_left hone]
          exact differAll_names htype (n :: names) variadic

theorem differAll_params (ds : List ParamDecl)
    (h : ∀ r ∈ referencesAll ds, Scope.slice ⟨text, []⟩ r.span = r.package ++ "." ++ r.id) :
    DifferAll (RefersBoth is js) (referencesAll ds) (Scope.params ⟨text, is⟩ ds)
      (Scope.params ⟨text, js⟩ ds) := by
  match ds with
  | [] => exact .nil
  | d :: ds =>
      rw [referencesAll_cons] at h ⊢
      obtain ⟨hd, hds⟩ := List.forall_mem_append.1 h
      exact (differAll_param d hd).append (differAll_params ds hds)

end

end Resolution

section Writing

variable {R : Reference → GoType → GoType → Prop}

/-- Whether results need parentheses does not depend on their types. -/
theorem DifferAll.renderResults_eq {rs : List Reference} {ps ps' : List Parameter}
    (h : DifferAll R rs ps ps')
    (hps : ps.map Parameter.render = ps'.map Parameter.render) :
    renderResults ps = renderResults ps' := by
  cases h with
  | nil => rfl
  | cons name variadic ht hmore =>
      cases name with
      | some name => simp only [renderResults, renderParams, hps]
      | none =>
          cases hmore with
          | nil => simpa [renderResults] using hps
          | cons => simp only [renderResults, renderParams, hps]

mutual

/-- Types are written the same if the qualified names that they differ in are. -/
theorem Differ.render_eq {rs : List Reference} {t u : GoType} (h : Differ R rs t u)
    (hR : ∀ r ∈ rs, ∀ t u, R r t u → t.render = u.render) : t.render = u.render := by
  match h, hR with
  | .simple _, _ | .raw _, _ => rfl
  | .reference h, hR => exact hR _ (List.mem_singleton_self _) _ _ h
  | .pointer h, hR => rw [GoType.render, GoType.render, h.render_eq hR]
  | .array length h, hR => rw [GoType.render, GoType.render, h.render_eq hR]
  | .map hkey hvalue, hR =>
      rw [GoType.render, GoType.render,
        hkey.render_eq fun r hr => hR r (List.mem_append_left _ hr),
        hvalue.render_eq fun r hr => hR r (List.mem_append_right _ hr)]
  | .function hparams hresults, hR =>
      have hps := hparams.map_render_eq fun r hr => hR r (List.mem_append_left _ hr)
      have hts := hresults.map_render_eq fun r hr => hR r (List.mem_append_right _ hr)
      rw [GoType.render_function, GoType.render_function, renderParams, hps,
        hresults.renderResults_eq hts, ← renderParams]

theorem DifferAll.map_render_eq {rs : List Reference} {ps ps' : List Parameter}
    (h : DifferAll R rs ps ps')
    (hR : ∀ r ∈ rs, ∀ t u, R r t u → t.render = u.render) :
    ps.map Parameter.render = ps'.map Parameter.render := by
  match h, hR with
  | .nil, _ => rfl
  | .cons name variadic ht hps, hR =>
      have hts := ht.render_eq fun r hr => hR r (List.mem_append_left _ hr)
      have hmore := hps.map_render_eq fun r hr => hR r (List.mem_append_right _ hr)
      simp only [List.map_cons, hmore, Parameter.render, GoType.renderParameter, hts]

end

theorem Differ.baseName?_eq {rs : List Reference} {t u : GoType} (h : Differ R rs t u)
    (hR : ∀ r ∈ rs, ∀ t u, R r t u → t.baseName? = u.baseName?) : t.baseName? = u.baseName? := by
  match h, hR with
  | .simple _, _ | .raw _, _ | .array _ _, _ | .map _ _, _ | .function _ _, _ => rfl
  | .reference h, hR => exact hR _ (List.mem_singleton_self _) _ _ h
  | .pointer h, hR => exact h.baseName?_eq hR

end Writing

namespace Syntax.Lexer

variable {st : State} {s pre text : List Char} {t u : Token} {front us : List Token}

/-- What a scan skips in front of a token starts with a blank or with the slash of a comment. -/
def Skips (s : List Char) : Prop := ∀ c ∈ s.head?, isSpace c ∨ c = '/'

theorem skips_of_piece {c : Char} {r : List Char}
    (h : (piece (c :: r)).1 = .space ∨ (piece (c :: r)).1 = .comment) : isSpace c ∨ c = '/' := by
  unfold piece at h
  split at h
  next hs => exact .inl (by simpa using hs)
  next =>
    split at h
    next n hc =>
      unfold comment at hc
      split at hc
      next he => exact .inr (List.cons.inj he).1
      next he => exact .inr (List.cons.inj he).1
      next => cases hc
    next =>
      split at h
      · rcases h with h | h <;> cases h
      split at h
      · rcases h with h | h <;> cases h
      split at h <;> rcases h with h | h <;> cases h

/-- A token stands behind what is skipped, and the tokens behind it come from what is left. -/
def First (offset : Nat) (s : List Char) (t : Token) (us : List Token) : Prop :=
  ∃ skipped rest, s = skipped ++ (t.text.toList ++ rest) ∧ Skips skipped ∧
    t.extent.span = ⟨offset + byteLength skipped,
      offset + byteLength (skipped ++ t.text.toList)⟩ ∧
    (us = [] ∨ ∃ st, st.offset = offset + byteLength (skipped ++ t.text.toList) ∧
      us = scan st rest)

theorem First.skip {offset : Nat} {p : List Char} (hp : ∃ c ∈ p.head?, isSpace c ∨ c = '/')
    (h : First (offset + byteLength p) s t us) : First offset (p ++ s) t us := by
  obtain ⟨c, hc, hskip⟩ := hp
  obtain ⟨skipped, rest, rfl, -, hspan, hmore⟩ := h
  refine ⟨p ++ skipped, rest, by simp, ?_, ?_, ?_⟩
  · simpa [Skips, List.head?_append, Option.mem_def.1 hc] using hskip
  · simpa [byteLength_append, Nat.add_assoc] using hspan
  · simpa [byteLength_append, Nat.add_assoc] using hmore

/-- What the first token of a scan stands behind, and where the others come from. -/
theorem first_of_scan (h : scan st s = t :: us) : First st.offset s t us := by
  fun_induction scan st s with
  | case1 st =>
      obtain ⟨rfl, rfl⟩ := List.cons.inj h
      exact ⟨[], [], rfl, by simp [Skips], by simp [State.extent, byteLength], .inl rfl⟩
  | case2 st c r n text rest hp ih =>
      have hs : c :: r = text ++ rest := by simp [text, rest]
      rw [hs]
      exact (ih h).skip ⟨c, rfl, skips_of_piece (.inl (congrArg Prod.fst hp))⟩
  | case3 st c r n text rest comment hp ih =>
      have hs : c :: r = text ++ rest := by simp [text, rest]
      rw [hs]
      exact (ih h).skip ⟨c, rfl, skips_of_piece (.inr (congrArg Prod.fst hp))⟩
  | case4 st c r n text rest kind hp ih =>
      obtain ⟨rfl, rfl⟩ := List.cons.inj h
      refine ⟨[], rest, by simp [text, rest], by simp [Skips], ?_, .inr ⟨_, ?_, rfl⟩⟩
      · simp [State.extent, byteLength]
      · simp [State.pass]

/-- Behind any of its tokens a scan goes on with the text that is left there. -/
theorem exists_scan_of_append (ht : text = pre ++ s) (ho : st.offset = byteLength pre)
    (h : scan st s = front ++ us) (hne : us ≠ []) :
    ∃ st' pre' s', text = pre' ++ s' ∧ st'.offset = byteLength pre' ∧ scan st' s' = us := by
  induction front generalizing st pre s with
  | nil => exact ⟨st, pre, s, ht, ho, h⟩
  | cons t front ih =>
      obtain ⟨skipped, rest, rfl, -, -, hmore⟩ := first_of_scan h
      rcases hmore with hnil | ⟨st', ho', hmore⟩
      · exact absurd (List.append_eq_nil_iff.1 hnil).2 hne
      · have htext : text = (pre ++ skipped ++ t.text.toList) ++ rest := by simp [ht]
        refine ih htext ?_ hmore.symm
        simp only [ho', ho, byteLength_append, Nat.add_assoc]

/-- Between two tokens stands what the scan skips in front of the second one. -/
theorem skips_gap (h : tokens text = front ++ t :: u :: us) : Skips (gap text t u) := by
  have hscan : ∃ st pre s, text = pre ++ s ∧ st.offset = byteLength pre ∧
      scan st s = front ++ t :: u :: us := by
    unfold tokens at h
    split at h
    next rest => exact ⟨_, ['\ufeff'], rest, rfl, rfl, h⟩
    next => exact ⟨_, [], text, rfl, rfl, h⟩
  obtain ⟨st, pre, s, rfl, ho, hscan⟩ := hscan
  obtain ⟨st, pre, s, htext, ho, hscan⟩ := exists_scan_of_append rfl ho hscan (by simp)
  obtain ⟨skipped, rest, rfl, -, hspan, hmore⟩ := first_of_scan hscan
  rcases hmore with hnil | ⟨st', ho', hmore⟩
  · cases hnil
  obtain ⟨skipped', rest', rfl, hskips, hspan', -⟩ := first_of_scan hmore.symm
  have hgap : Text.slice (pre ++ skipped ++ t.text.toList ++ skipped' ++ (u.text.toList ++ rest'))
      ⟨byteLength (pre ++ skipped ++ t.text.toList),
        byteLength (pre ++ skipped ++ t.text.toList ++ skipped')⟩ = skipped' := slice_append _ _ _
  rw [gap, htext, hspan, hspan', ho', ho]
  simp only [byteLength_append, List.append_assoc, Nat.add_assoc] at hgap ⊢
  rwa [hgap]

end Syntax.Lexer
section Written

open Syntax.Parser Grammar

namespace Syntax

/-- A qualified name is written as a name, a dot and a name. -/
def Reference.IsWritten (ts : List Token) (r : Reference) : Prop :=
  ∃ p d i rest, p.kind = .name ∧ d.is "." ∧ i.kind = .name ∧ p :: d :: i :: rest <:+ ts ∧
    r = ⟨(extentOf [p, d, i]).span, p.text, i.text⟩

theorem isWritten_of_isNamed {ts : List Token} {span : Span} {package id : String}
    (h : IsNamed ts (.qualified span package id)) :
    Reference.IsWritten ts ⟨span, package, id⟩ := by
  obtain ⟨⟨q, name, args, hq, hn, ho, hc⟩, ⟨rest, hs⟩, he⟩ := h
  cases args with
  | cons o args => cases he
  | nil =>
      cases q with
      | none => cases he
      | some q =>
          obtain ⟨rfl, rfl, rfl⟩ := TypeExpr.qualified.inj he
          exact ⟨q.1, q.2, name, rest, (hq q rfl).1, (hq q rfl).2, hn, hs, rfl⟩

/-- The qualified names in a type that is read are written as such, however deep they stand. -/
theorem isWritten_references {ts : List Token} {e : TypeExpr} (h : e.IsRead ts) :
    ∀ r ∈ e.references, r.IsWritten ts := by
  intro r hr
  obtain ⟨x, hx, hxr⟩ := List.mem_filterMap.1 hr
  have hparts := (isRead_within e h x hx).parts
  cases x with
  | qualified span package id =>
      obtain rfl := Option.some.inj hxr
      exact isWritten_of_isNamed hparts
  | _ => cases hxr

/-- Neither a blank nor a comment stands in a piece of text. In a qualified name a slash can only be
that of a comment. -/
def Tight (s : List Char) : Prop := ∀ c ∈ s, Lexer.isSpace c = false ∧ c ≠ '/'

instance (s : List Char) : Decidable (Tight s) :=
  List.decidableBAll (fun c => Lexer.isSpace c = false ∧ c ≠ '/') s

theorem Tight.eq_nil_of_skips {s : List Char} (h : Tight s) (hs : Lexer.Skips s) : s = [] := by
  cases s with
  | nil => rfl
  | cons c s =>
      obtain ⟨hspace, hslash⟩ := h c List.mem_cons_self
      rcases hs c rfl with hc | hc
      · exact absurd hc (by simp [hspace])
      · exact absurd hc hslash

variable {text : List Char} {r : Reference}

/-- Nothing stands around the dot of a qualified name that is written without blanks. -/
theorem Reference.IsWritten.slice_eq (h : r.IsWritten (Lexer.tokens text))
    (ht : Tight (Text.slice text r.span)) :
    Text.slice text r.span = r.package.toList ++ '.' :: r.id.toList := by
  obtain ⟨p, d, i, rest, -, hd, -, ⟨front, htokens⟩, rfl⟩ := h
  have hlaid : Laid text [p, d, i] := by
    have hall : Laid text (front ++ ([p, d, i] ++ rest)) := htokens ▸ Lexer.laid_tokens text
    exact hall.right.left
  have hdot : d.text.toList = ['.'] := Token.toList_of_is hd
  have hslice : Text.slice text (extentOf [p, d, i]).span =
      p.text.toList ++ (gap text p d ++ ('.' :: (gap text d i ++ i.text.toList))) := by
    rw [hlaid.slice_cons, hlaid.tail.slice_cons, hlaid.tail.tail.slice_singleton, hdot]
    rfl
  rw [hslice] at ht ⊢
  have htokens' : Lexer.tokens text = (front ++ [p]) ++ d :: i :: rest := by simp [← htokens]
  have hfirst : gap text p d = [] :=
    Tight.eq_nil_of_skips (fun c hc => ht c (by simp [hc])) (Lexer.skips_gap htokens.symm)
  have hsecond : gap text d i = [] :=
    Tight.eq_nil_of_skips (fun c hc => ht c (by simp [hc])) (Lexer.skips_gap htokens')
  simp [hfirst, hsecond]

end Syntax

end Written

/-- Whatever type a file has, it is written the same and has the same base against any two lists of
imports, if no blanks or comments stand in the qualified names that may be resolved. The two types
differ only in what these stand for. -/
theorem render_type_imports {text : List Char} {tree : Tree} {e : TypeExpr}
    (htree : Tree.ofText? text = some tree) (he : e ∈ tree.typeExprs)
    (htight : ∀ r ∈ e.references, Tight (Text.slice text r.span)) (is js : List Import) :
    let t := Scope.type ⟨text, is⟩ e
    let u := Scope.type ⟨text, js⟩ e
    t.render = u.render ∧ t.baseName? = u.baseName? ∧
      Differ (RefersBoth is js) e.references t u := by
  intro t u
  have hwritten := isWritten_references (Tree.isRead_typeExprs htree e he)
  have hslice : ∀ r ∈ e.references, Scope.slice ⟨text, []⟩ r.span = r.package ++ "." ++ r.id := by
    intro r hr
    rw [Scope.slice, (hwritten r hr).slice_eq (htight r hr)]
    simp [String.append_assoc]
  have hdiffer : Differ (RefersBoth is js) e.references t u := differ_type e hslice
  refine ⟨hdiffer.render_eq fun r hr t u h => ?_, hdiffer.baseName?_eq fun r hr t u h => ?_, hdiffer⟩
  · rw [h.1.render_eq, h.2.render_eq]
  · obtain ⟨p, d, i, rest, hp, hd, hi, hs, rfl⟩ := hwritten r hr
    have hmem {t : Token} (ht : t ∈ [p, d, i]) : t ∈ Lexer.tokens text := by
      refine hs.subset ?_
      simp only [List.mem_cons, List.not_mem_nil, or_false] at ht ⊢
      tauto
    have hwords := Lexer.word_tokens text
    have hpackage := hwords p (hmem (by simp)) hp
    have hid := hwords i (hmem (by simp)) hi
    have hne := text_ne_nil htree (hmem (t := i) (by simp)) (by simp [hi])
    rw [h.1.baseName?_eq hpackage hid hne, h.2.baseName?_eq hpackage hid hne]

/-- A package under its own name, and nothing imported at all. -/
theorem render_type_imports_nested :
    let text := "package p\n\ntype T func(a, b []foo.A) map[string]*bar.B\n".toList
    let is : List Import := [⟨none, "example/foo", none, none⟩]
    ∃ tree e, Tree.ofText? text = some tree ∧ e ∈ tree.typeExprs ∧
      e.references.map (fun r => r.package ++ "." ++ r.id) = ["foo.A", "foo.A", "bar.B"] ∧
      (Scope.type ⟨text, is⟩ e).render =
        "func(a []foo.A, b []foo.A) map[string]*bar.B".toList ∧
      (Scope.type ⟨text, is⟩ e).render = (Scope.type ⟨text, []⟩ e).render := by
  intro text is
  have hm : (Tree.ofText? text).map (fun t => t.typeExprs.map fun e =>
      (e.references, (Scope.type ⟨text, is⟩ e).render)) =
      some [([⟨⟨30, 35⟩, "foo", "A"⟩, ⟨⟨30, 35⟩, "foo", "A"⟩, ⟨⟨49, 54⟩, "bar", "B"⟩],
        "func(a []foo.A, b []foo.A) map[string]*bar.B".toList)] := by
    decide +kernel
  obtain ⟨tree, htree, hmap⟩ := Option.map_eq_some_iff.1 hm
  obtain ⟨e, es, hes, he, -⟩ := List.map_eq_cons_iff.1 hmap
  obtain ⟨hrefs, hrender⟩ := Prod.mk.inj he
  have hmem : e ∈ tree.typeExprs := by simp [hes]
  have htight : ∀ r ∈ e.references, Tight (Text.slice text r.span) := by
    rw [hrefs]
    decide +kernel
  exact ⟨tree, e, htree, hmem, by rw [hrefs]; rfl, hrender,
    (render_type_imports htree hmem htight is []).1⟩

end GoOutline
