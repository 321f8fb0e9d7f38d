import GoOutline.Proofs.Placement
import GoOutline.Proofs.Settled

/-!
The order of the items of a file. A file is accepted exactly if it has a package clause, then
imports, then declarations. Otherwise it has no package clause, or an error points at its first item
that does not fit behind the ones in front of it.
-/

namespace GoOutline

open Text Syntax Docs

namespace Text

variable {s a b text : List Char} {line column offset : Nat}

/-- The line and the byte column of an offset, both from one. -/
def At (text : List Char) (line column offset : Nat) : Prop := ∃ above left right,
  text = above ++ left ++ right ∧ (above = [] ∨ ∃ a, above = a ++ ['\n']) ∧ '\n' ∉ left ∧
    offset = byteLength (above ++ left) ∧
    line = above.count '\n' + 1 ∧ column = byteLength left + 1

theorem lastLine_of_not_mem (h : '\n' ∉ s) : lastLine s = s := by
  rw [lastLine, List.splitOn_eq_singleton h]
  rfl

theorem lastLine_append_newline (a s : List Char) : lastLine (a ++ '\n' :: s) = lastLine s := by
  induction hn : a.length using Nat.strongRecOn generalizing a with
  | _ n ih =>
      subst hn
      have hfirst {l : List Char} (hl : '\n' ∉ l) (r : List Char) :
          lastLine (l ++ '\n' :: r) = lastLine r := by
        obtain ⟨x, xs, hx⟩ := List.exists_cons_of_ne_nil (List.splitOn_ne_nil '\n' r)
        rw [lastLine, lastLine, List.splitOn_append_cons_self_of_not_mem hl, hx]
        simp [List.getLastD]
      rcases exists_line a with ha | ⟨l, r, rfl, hl⟩
      · exact hfirst ha s
      · rw [List.append_assoc, List.cons_append, hfirst hl]
        exact ih r.length (by simp; omega) r rfl

/-- The position of a boundary says where it stands among the lines. -/
theorem position_eq_iff (h : IsBoundary text offset) :
    (line = (position text offset).1 + 1 ∧ column = (position text offset).2 + 1) ↔
      At text line column offset := by
  have hat {above left right : List Char} (ha : above = [] ∨ ∃ a, above = a ++ ['\n'])
      (hl : '\n' ∉ left) : position (above ++ left ++ right) (byteLength (above ++ left)) =
        (above.count '\n', byteLength left) := by
    have hlast : lastLine (above ++ left) = left := by
      rcases ha with rfl | ⟨a, rfl⟩
      · exact lastLine_of_not_mem hl
      · rw [List.append_assoc, List.singleton_append, lastLine_append_newline,
          lastLine_of_not_mem hl]
    rw [position, takeBytes_byteLength, hlast, List.count_append, List.count_eq_zero.2 hl,
      Nat.add_zero]
  constructor
  · rintro ⟨rfl, rfl⟩
    obtain ⟨p, ⟨right, rfl⟩, rfl⟩ := h
    obtain ⟨above, left, rfl, ha, hl⟩ := exists_lines p
    rw [hat ha hl]
    exact ⟨above, left, right, rfl, ha, hl, rfl, rfl, rfl⟩
  · rintro ⟨above, left, right, rfl, ha, hl, rfl, rfl, rfl⟩
    rw [hat ha hl]
    exact ⟨rfl, rfl⟩

end Text

namespace Syntax.Layout

section Order

variable {items front back front' back' : List Item} {x x' : Item} {fault fault' : LayoutFault}

def isImport (i : Item) : Bool :=
  match i.kind with
  | .imports _ => true
  | _ => false

def isDeclaration (i : Item) : Bool :=
  match i.kind with
  | .types _ | .func _ | .values => true
  | _ => false

/-- A package clause, then imports, then declarations. -/
def Arranged (items : List Item) : Prop := ∃ p is ds, items = p :: (is ++ ds) ∧ isPackage p ∧
  (∀ i ∈ is, isImport i) ∧ ∀ d ∈ ds, isDeclaration d

/-- More items can be put behind these so that all are in order. -/
def Begins (items : List Item) : Prop := ∃ more, Arranged (items ++ more)

/-- How an item fails to fit behind others. -/
inductive Misplaced (front : List Item) (x : Item) : LayoutFault → Prop
  | secondPackage (hp : ∃ i ∈ front, isPackage i) (hx : isPackage x) :
      Misplaced front x .secondPackage
  | beforePackage (hp : ∀ i ∈ front, isPackage i = false) (hx : isPackage x = false) :
      Misplaced front x .beforePackage
  | lateImport (hp : ∃ i ∈ front, isPackage i) (hd : ∃ i ∈ front, isDeclaration i)
      (hx : isImport x) : Misplaced front x .lateImport
  | looseStatement (hp : ∃ i ∈ front, isPackage i) (hx : x.kind = .statement) :
      Misplaced front x .looseStatement

theorem not_isDeclaration_of_isPackage (h : isPackage x) : isDeclaration x = false := by
  unfold isPackage at h
  unfold isDeclaration
  split at h <;> simp_all

theorem not_isDeclaration_of_isImport (h : isImport x) : isDeclaration x = false := by
  unfold isImport at h
  unfold isDeclaration
  split at h <;> simp_all

theorem not_isImport_of_isPackage (h : isPackage x) : isImport x = false := by
  unfold isPackage at h
  unfold isImport
  split at h <;> simp_all

/-- Whether one item more keeps the order. -/
theorem arranged_concat : Arranged (front ++ [x]) ↔ front = [] ∧ isPackage x ∨
    Arranged front ∧ (isDeclaration x ∨ isImport x ∧ ∀ i ∈ front, isDeclaration i = false) := by
  constructor
  · rintro ⟨p, is, ds, he, hp, hi, hd⟩
    have hlast {s : List Item} {i : Item} (he : front ++ [x] = s ++ [i]) : front = s ∧ x = i := by
      simpa using List.append_inj' he rfl
    -- The last item is a declaration, or an import if there is none, or the package clause.
    rcases List.eq_nil_or_concat' ds with rfl | ⟨ds, d, rfl⟩
    · rcases List.eq_nil_or_concat' is with rfl | ⟨is, i, rfl⟩
      · obtain ⟨rfl, rfl⟩ := hlast (s := []) he
        exact .inl ⟨rfl, hp⟩
      · obtain ⟨rfl, rfl⟩ := hlast (s := p :: is) (by simpa using he)
        obtain ⟨hi, hx⟩ := List.forall_mem_append.1 hi
        refine .inr ⟨⟨p, is, [], by simp, hp, hi, by simp⟩, .inr ⟨hx x (by simp), ?_⟩⟩
        refine List.forall_mem_cons.2 ⟨not_isDeclaration_of_isPackage hp, fun i him => ?_⟩
        exact not_isDeclaration_of_isImport (hi i him)
    · obtain ⟨rfl, rfl⟩ := hlast (s := p :: (is ++ ds)) (by simpa using he)
      obtain ⟨hd, hx⟩ := List.forall_mem_append.1 hd
      exact .inr ⟨⟨p, is, ds, rfl, hp, hi, hd⟩, .inl (hx x (by simp))⟩
  · rintro (⟨rfl, hx⟩ | ⟨⟨p, is, ds, rfl, hp, hi, hd⟩, hx | ⟨hx, hnone⟩⟩)
    · exact ⟨x, [], [], rfl, hx, by simp, by simp⟩
    · exact ⟨p, is, ds ++ [x], by simp, hp, hi,
        List.forall_mem_append.2 ⟨hd, by simpa using hx⟩⟩
    · obtain rfl : ds = [] := by
        refine List.eq_nil_iff_forall_not_mem.2 fun d hdm => ?_
        have hnot := hnone d (by simp [hdm])
        rw [hd d hdm] at hnot
        cases hnot
      exact ⟨p, is ++ [x], [], by simp, hp,
        List.forall_mem_append.2 ⟨hi, by simpa using hx⟩, by simp⟩

theorem Arranged.begins (h : Arranged items) : Begins items := ⟨[], by rwa [List.append_nil]⟩

theorem begins_nil : Begins [] :=
  ⟨[⟨default, .package "" default⟩], _, [], [], rfl, rfl, by simp, by simp⟩

theorem begins_iff : Begins items ↔ items = [] ∨ Arranged items := by
  constructor
  · rintro ⟨more, h⟩
    induction more using List.reverseRecOn with
    | nil => exact .inr (by rwa [List.append_nil] at h)
    | append_singleton more x ih =>
        rw [← List.append_assoc, arranged_concat] at h
        rcases h with ⟨hnil, -⟩ | ⟨h, -⟩
        · exact .inl (List.append_eq_nil_iff.1 hnil).1
        · exact ih h
  · rintro (rfl | h)
    · exact begins_nil
    · exact h.begins

theorem Begins.of_append (h : Begins (front ++ back)) : Begins front := by
  obtain ⟨more, h⟩ := h
  exact ⟨back ++ more, by rwa [← List.append_assoc]⟩

theorem Arranged.exists_package (h : Arranged items) : ∃ i ∈ items, isPackage i := by
  obtain ⟨p, is, ds, rfl, hp, -⟩ := h
  exact ⟨p, List.mem_cons_self, hp⟩

/-- What is misplaced breaks the order. -/
theorem Misplaced.not_begins (h : Misplaced front x fault) : ¬ Begins (front ++ [x]) := by
  rw [begins_iff, arranged_concat]
  rintro (hnil | ⟨rfl, hx⟩ | ⟨hfront, hx⟩)
  · simp at hnil
  · cases h with
    | secondPackage hp => simp at hp
    | beforePackage hp hn => rw [hx] at hn; cases hn
    | lateImport hp => simp at hp
    | looseStatement hp => simp at hp
  · cases h with
    | secondPackage hp hn =>
        rw [not_isDeclaration_of_isPackage hn, not_isImport_of_isPackage hn] at hx
        simp at hx
    | beforePackage hp =>
        obtain ⟨i, hi, hpi⟩ := hfront.exists_package
        rw [hp i hi] at hpi
        cases hpi
    | lateImport hp hd hn =>
        obtain ⟨i, hi, hdi⟩ := hd
        rcases hx with hx | ⟨-, hx⟩
        · rw [not_isDeclaration_of_isImport hn] at hx
          cases hx
        · rw [hx i hi] at hdi
          cases hdi
    | looseStatement hp hn =>
        simp [isDeclaration, isImport, hn] at hx

def faultOf (front : List Item) (x : Item) : LayoutFault :=
  if front.any isPackage then
    match x.kind with
    | .package .. => .secondPackage
    | .imports _ => .lateImport
    | _ => .looseStatement
  else .beforePackage

/-- An item is misplaced in one way. -/
theorem Misplaced.eq_faultOf (h : Misplaced front x fault) : fault = faultOf front x := by
  cases h with
  | secondPackage hp hx =>
      rw [faultOf, if_pos (List.any_eq_true.2 hp)]
      unfold isPackage at hx
      split at hx
      next hk => rw [hk]
      next => cases hx
  | beforePackage hp => rw [faultOf, if_neg (by simpa using hp)]
  | lateImport hp hd hx =>
      rw [faultOf, if_pos (List.any_eq_true.2 hp)]
      unfold isImport at hx
      split at hx
      next hk => rw [hk]
      next => cases hx
  | looseStatement hp hx => rw [faultOf, if_pos (List.any_eq_true.2 hp), hx]

/-- The order breaks at one item. -/
theorem eq_of_not_begins (he : front ++ x :: back = front' ++ x' :: back') (hf : Begins front)
    (hx : ¬ Begins (front ++ [x])) (hf' : Begins front') (hx' : ¬ Begins (front' ++ [x'])) :
    front = front' ∧ x = x' := by
  have hshort {s t u v : List Item} {y z : Item} (he : s ++ y :: u = t ++ z :: v)
      (ht : Begins t) (hy : ¬ Begins (s ++ [y])) : t.length ≤ s.length := by
    by_contra hlen
    -- The longer one starts with what breaks the order.
    have hy' : s ++ [y] <+: t ++ z :: v := ⟨u, by rw [← he]; simp⟩
    have hpre : s ++ [y] <+: t :=
      List.prefix_of_prefix_length_le hy' (List.prefix_append t _) (by simp; omega)
    obtain ⟨r, rfl⟩ := hpre
    exact hy ht.of_append
  have hlen := Nat.le_antisymm (hshort he.symm hf hx') (hshort he hf' hx)
  obtain ⟨hfront, hback⟩ := List.append_inj he hlen
  exact ⟨hfront, (List.cons.inj hback).1⟩

end Order

/-- The messages tell all faults apart. -/
theorem message_injective : Function.Injective LayoutFault.message := by
  intro fault fault' h
  cases fault <;> cases fault' <;> first | rfl | exact absurd h (by decide)

section Outcomes

variable {items ds : List (Documented Item)} {front : List Item} {layout : Layout} {e : LayoutError}
  {is : List (Extent × ImportDecl)} {r r' : Except LayoutError Layout}

/-- Some items go on in order behind others, up to one that is misplaced. -/
def StopsAt (front : List Item) (items : List (Documented Item)) (e : LayoutError) : Prop :=
  ∃ mid x back fault, items = mid ++ x :: back ∧ Begins (front ++ mid.map Documented.item) ∧
    Misplaced (front ++ mid.map Documented.item) x.item fault ∧
    e = .misplaced fault x.item.extent.span.start

theorem StopsAt.cons {d : Documented Item} (h : StopsAt (front ++ [d.item]) items e) :
    StopsAt front (d :: items) e := by
  obtain ⟨mid, x, back, fault, rfl, hb, hm, he⟩ := h
  have hmid : front ++ [d.item] ++ mid.map Documented.item =
      front ++ (d :: mid).map Documented.item := by simp
  rw [hmid] at hb hm
  exact ⟨d :: mid, x, back, fault, rfl, hb, hm, he⟩

theorem stopsAt_head {d : Documented Item} {fault : LayoutFault} (hf : Begins front)
    (h : Misplaced front d.item fault) :
    StopsAt front (d :: items) (.misplaced fault d.item.extent.span.start) :=
  ⟨[], d, items, fault, rfl, by simpa using hf, by simpa using h, rfl⟩

theorem declarationsOf_isDeclaration (h : declarationsOf items = .ok ds) :
    ∀ d ∈ items, isDeclaration d.item := by
  induction items generalizing ds with
  | nil => simp
  | cons d rest ih =>
      rw [declarationsOf] at h
      split at h
      · cases h
      · cases h
      · cases h
      all_goals
        next hk =>
          obtain ⟨ds', hr, -⟩ := map_eq_ok.1 h
          exact List.forall_mem_cons.2 ⟨by simp [isDeclaration, hk], ih hr⟩

theorem partsOf_isDeclaration (h : partsOf items = .ok (is, ds)) :
    ∀ d ∈ ds, isDeclaration d.item := by
  induction items generalizing is ds with
  | nil =>
      cases h
      simp
  | cons d rest ih =>
      rw [partsOf] at h
      split at h
      next =>
        obtain ⟨⟨is', ds'⟩, hr, h⟩ := map_eq_ok.1 h
        cases h
        exact ih hr
      next =>
        obtain ⟨ds', hd, h⟩ := map_eq_ok.1 h
        cases h
        rw [declarationsOf_eq_ok hd]
        exact declarationsOf_isDeclaration hd

/-- Declarations go on behind what is in order, up to the first item that is none. -/
theorem declarationsOf_eq_error (hf : Arranged front)
    (hd : (∃ i ∈ front, isDeclaration i) ∨ ∀ d ∈ items.head?, isImport d.item = false)
    (h : declarationsOf items = .error e) : StopsAt front items e := by
  have hp := hf.exists_package
  induction items generalizing front with
  | nil => cases h
  | cons d rest ih =>
      rw [declarationsOf] at h
      split at h
      next hk =>
        cases h
        exact stopsAt_head hf.begins (.secondPackage hp (by rw [isPackage, hk]))
      next hk =>
        cases h
        have hi : isImport d.item := by rw [isImport, hk]
        rcases hd with hd | hd
        · exact stopsAt_head hf.begins (.lateImport hp hd hi)
        · rw [hd d rfl] at hi
          cases hi
      next hk =>
        cases h
        exact stopsAt_head hf.begins (.looseStatement hp hk)
      all_goals
        next hk =>
          have hdecl : isDeclaration d.item := by rw [isDeclaration, hk]
          have hmore : Arranged (front ++ [d.item]) := arranged_concat.2 (.inr ⟨hf, .inl hdecl⟩)
          have hsome : ∃ i ∈ front ++ [d.item], isDeclaration i := ⟨d.item, by simp, hdecl⟩
          exact (ih hmore (.inl hsome) (map_eq_error.1 h) hmore.exists_package).cons

/-- Imports and declarations go on in order behind imports. -/
theorem partsOf_eq_error (hf : Arranged front) (hd : ∀ i ∈ front, isDeclaration i = false)
    (h : partsOf items = .error e) : StopsAt front items e := by
  induction items generalizing front with
  | nil => cases h
  | cons d rest ih =>
      rw [partsOf] at h
      split at h
      next hk =>
        have hi : isImport d.item := by rw [isImport, hk]
        have hmore : Arranged (front ++ [d.item]) := arranged_concat.2 (.inr ⟨hf, .inr ⟨hi, hd⟩⟩)
        refine (ih hmore ?_ (map_eq_error.1 h)).cons
        exact List.forall_mem_append.2 ⟨hd, by simpa using not_isDeclaration_of_isImport hi⟩
      next hk =>
        refine declarationsOf_eq_error hf (.inr ?_) (map_eq_error.1 h)
        rintro _ ⟨⟩
        unfold isImport
        split
        next decl hi => exact absurd hi (hk decl)
        next => rfl

/-- What is right to say about the items of a file. -/
def Right (items : List (Documented Item)) : Except LayoutError Layout → Prop
  | .ok l => ∃ p front, items = p :: (front ++ l.declarations) ∧
      p.item.kind = .package l.package l.place ∧ List.Forall₂ Imports front l.imports ∧
      ∀ d ∈ l.declarations, isDeclaration d.item
  | .error .missingPackage => ∀ d ∈ items, isPackage d.item = false
  | .error (.misplaced fault offset) => (∃ d ∈ items, isPackage d.item) ∧
      StopsAt [] items (.misplaced fault offset)

theorem right_ofItems (items : List (Documented Item)) : Right items (ofItems items) := by
  cases items with
  | nil => exact fun d hd => by cases hd
  | cons p rest =>
      rw [ofItems]
      split
      next name place hk =>
        have hp : isPackage p.item := by rw [isPackage, hk]
        have hone : Arranged ([] ++ [p.item]) := arranged_concat.2 (.inl ⟨rfl, hp⟩)
        cases h : partsOf rest with
        | ok x =>
            obtain ⟨is, ds⟩ := x
            obtain ⟨front, rfl, hfront⟩ := partsOf_eq_ok h
            exact ⟨p, front, rfl, hk, hfront, partsOf_isDeclaration h⟩
        | error e =>
            have hstop := partsOf_eq_error hone (by simpa using not_isDeclaration_of_isPackage hp) h
            have hstop := hstop.cons
            obtain ⟨mid, x, back, fault, he, hb, hm, rfl⟩ := hstop
            exact ⟨⟨p, by simp, hp⟩, mid, x, back, fault, he, hb, hm, rfl⟩
      next hk =>
        have hp : isPackage p.item = false := by
          unfold isPackage
          split
          next name place hp => exact absurd hp (hk name place)
          next => rfl
        split
        next hany =>
          exact ⟨List.any_eq_true.1 hany, stopsAt_head begins_nil (.beforePackage (by simp) hp)⟩
        next hany =>
          have hnone : ∀ d ∈ p :: rest, isPackage d.item = false := by simpa using hany
          exact hnone

theorem declarationsOf_of_isDeclaration (h : ∀ d ∈ items, isDeclaration d.item) :
    declarationsOf items = .ok items := by
  induction items with
  | nil => rfl
  | cons d rest ih =>
      obtain ⟨hd, hrest⟩ := List.forall_mem_cons.1 h
      unfold isDeclaration at hd
      rw [declarationsOf, ih hrest]
      split at hd <;> simp_all [Functor.map, Except.map]

theorem partsOf_append {front : List (Documented Item)} (hf : List.Forall₂ Imports front is)
    (hd : ∀ d ∈ ds, isDeclaration d.item) : partsOf (front ++ ds) = .ok (is, ds) := by
  induction hf with
  | @cons d i front is hi _ ih =>
      rw [List.cons_append, partsOf, hi.2, ih, hi.1]
      rfl
  | nil =>
      cases ds with
      | nil => rfl
      | cons d rest =>
          have hdecl := declarationsOf_of_isDeclaration hd
          have hone := hd d List.mem_cons_self
          rw [List.nil_append, partsOf, hdecl]
          unfold isDeclaration at hone
          split at hone <;> simp_all [Functor.map, Except.map]

theorem ofItems_of_right (h : Right items (.ok layout)) : ofItems items = .ok layout := by
  obtain ⟨p, front, rfl, hk, hi, hd⟩ := h
  rw [ofItems, hk, partsOf_append hi hd]
  rfl

theorem isImport_of_imports {front : List (Documented Item)} (h : List.Forall₂ Imports front is) :
    ∀ d ∈ front, isImport d.item := by
  induction h with
  | nil => simp
  | cons hd _ ih => exact List.forall_mem_cons.2 ⟨by rw [isImport, hd.2], ih⟩

theorem arranged_of_right (h : Right items (.ok layout)) :
    Arranged (items.map Documented.item) := by
  obtain ⟨p, front, rfl, hk, hi, hd⟩ := h
  refine ⟨p.item, front.map Documented.item, layout.declarations.map Documented.item, by simp,
    by rw [isPackage, hk], List.forall_mem_map.2 (isImport_of_imports hi), List.forall_mem_map.2 hd⟩

theorem StopsAt.not_arranged (h : StopsAt [] items e) : ¬ Arranged (items.map Documented.item) := by
  obtain ⟨mid, x, back, fault, rfl, -, hm, -⟩ := h
  intro ho
  have hall : (mid ++ x :: back).map Documented.item =
      mid.map Documented.item ++ [x.item] ++ back.map Documented.item := by simp
  rw [hall] at ho
  exact hm.not_begins ho.begins.of_append

theorem StopsAt.unique {e' : LayoutError} (h : StopsAt [] items e) (h' : StopsAt [] items e') :
    e = e' := by
  obtain ⟨mid, x, back, fault, rfl, hb, hm, rfl⟩ := h
  obtain ⟨mid', x', back', fault', he, hb', hm', rfl⟩ := h'
  rw [List.nil_append] at hb hm hb' hm'
  have he := congrArg (List.map Documented.item) he
  rw [List.map_append, List.map_cons, List.map_append, List.map_cons] at he
  obtain ⟨hmid, hx⟩ := eq_of_not_begins he hb hm.not_begins hb' hm'.not_begins
  rw [hm.eq_faultOf, hm'.eq_faultOf, hmid, hx]

theorem Right.unique (h : Right items r) (h' : Right items r') : r = r' := by
  have hpackage {l : Layout} (h : Right items (.ok l)) : ∃ d ∈ items, isPackage d.item := by
    obtain ⟨i, hi, hp⟩ := (arranged_of_right h).exists_package
    obtain ⟨d, hd, rfl⟩ := List.mem_map.1 hi
    exact ⟨d, hd, hp⟩
  have hnone : (∃ d ∈ items, isPackage d.item) → ¬ Right items (.error .missingPackage) := by
    rintro ⟨d, hd, hp⟩ hno
    rw [hno d hd] at hp
    cases hp
  rcases r with (_ | ⟨fault, offset⟩) | l <;> rcases r' with (_ | ⟨fault', offset'⟩) | l'
  · rfl
  · exact absurd h (hnone h'.1)
  · exact absurd h (hnone (hpackage h'))
  · exact absurd h' (hnone h.1)
  · rw [h.2.unique h'.2]
  · exact absurd (arranged_of_right h') h.2.not_arranged
  · exact absurd h' (hnone (hpackage h))
  · exact absurd (arranged_of_right h) h'.2.not_arranged
  · rw [← ofItems_of_right h, ofItems_of_right h']

theorem ofItems_eq_iff : ofItems items = r ↔ Right items r :=
  ⟨fun h => h ▸ right_ofItems items, fun h => (right_ofItems items).unique h⟩

/-- The items of a file are in order exactly if there is a layout for them. -/
theorem exists_right_iff : (∃ l, Right items (.ok l)) ↔ Arranged (items.map Documented.item) := by
  refine ⟨fun ⟨_, h⟩ => arranged_of_right h, fun h => ?_⟩
  have hright := right_ofItems items
  generalize ofItems items = r at hright
  rcases r with (_ | ⟨fault, offset⟩) | l
  · obtain ⟨i, hi, hp⟩ := h.exists_package
    obtain ⟨d, hd, rfl⟩ := List.mem_map.1 hi
    rw [hright d hd] at hp
    cases hp
  · exact absurd h hright.2.not_arranged
  · exact ⟨l, hright⟩

/-- The same for items without docs. -/
theorem stopsAt_iff {fault : LayoutFault} {offset : Nat} :
    StopsAt [] items (.misplaced fault offset) ↔ ∃ front x back,
      items.map Documented.item = front ++ x :: back ∧ Begins front ∧ Misplaced front x fault ∧
        offset = x.extent.span.start := by
  constructor
  · rintro ⟨mid, x, back, fault', rfl, hb, hm, he⟩
    cases he
    exact ⟨mid.map Documented.item, x.item, back.map Documented.item, by simp, hb, hm, rfl⟩
  · rintro ⟨front, x, back, he, hb, hm, rfl⟩
    obtain ⟨mid, rest, rfl, rfl, hrest⟩ := List.map_eq_append_iff.1 he
    obtain ⟨d, back, rfl, rfl, rfl⟩ := List.map_eq_cons_iff.1 hrest
    exact ⟨mid, d, back, fault, rfl, hb, hm, rfl⟩

end Outcomes

end Syntax.Layout

namespace Outline

open Syntax.Layout

variable {text : List Char} {tree : Tree} {x : Item}

/-- An item starts where the text can be cut. -/
theorem isBoundary_start (h : Tree.ofText? text = some tree) (hx : x ∈ members tree.items) :
    IsBoundary text x.extent.span.start := by
  obtain ⟨⟨items, rest⟩, hrun, rfl⟩ := Option.map_eq_some_iff.1 h
  obtain ⟨used, hu, hs⟩ := Grammar.from_itemList hrun
  obtain ⟨pre, seg, post, rfl, hfrom⟩ := hs.exists_of_mem hx
  have hseg : Segment text seg := ⟨pre, post ++ rest, by rw [hu]; simp⟩
  rw [hfrom.1]
  by_cases hne : seg = []
  · rw [hne]
    exact ⟨[], List.nil_prefix, rfl⟩
  · exact (hseg.laid.fits_extentOf hne).start

theorem layoutOf_ok_iff (h : Tree.ofText? text = some tree) {layout : Layout} :
    layoutOf text = .ok layout ↔ Right (attach Item.extent tree.items) (.ok layout) := by
  simp only [← ofItems_eq_iff, layoutOf, h, Layout.ofTree]
  rcases ofItems (attach Item.extent tree.items) with (_ | ⟨fault, offset⟩) | l <;> simp

theorem layoutOf_missing_iff (h : Tree.ofText? text = some tree) :
    layoutOf text = .error .missingPackage ↔ ∀ i ∈ members tree.items, isPackage i = false := by
  have hright : Right (attach Item.extent tree.items) (.error .missingPackage) ↔
      ∀ i ∈ members tree.items, isPackage i = false := by
    rw [← map_item_attach Item.extent, List.forall_mem_map]
    rfl
  simp only [← hright, ← ofItems_eq_iff, layoutOf, h, Layout.ofTree]
  rcases ofItems (attach Item.extent tree.items) with (_ | ⟨fault, offset⟩) | l <;> simp

theorem layoutOf_misplaced_iff (h : Tree.ofText? text = some tree) {line column : Nat}
    {fault : LayoutFault} : layoutOf text = .error (.misplaced line column fault) ↔
      (∃ i ∈ members tree.items, isPackage i) ∧ ∃ front x back,
        members tree.items = front ++ x :: back ∧ Begins front ∧ Misplaced front x fault ∧
          At text line column x.extent.span.start := by
  have hposition : layoutOf text = .error (.misplaced line column fault) ↔ ∃ offset,
      Right (attach Item.extent tree.items) (.error (.misplaced fault offset)) ∧
        line = (position text offset).1 + 1 ∧ column = (position text offset).2 + 1 := by
    simp only [← ofItems_eq_iff, layoutOf, h, Layout.ofTree]
    rcases ofItems (attach Item.extent tree.items) with (_ | ⟨fault', offset⟩) | l
    · simp
    · constructor
      · intro he
        cases he
        exact ⟨offset, rfl, rfl, rfl⟩
      · rintro ⟨offset, he, rfl, rfl⟩
        cases he
        rfl
    · simp
  rw [hposition]
  constructor
  · rintro ⟨offset, ⟨⟨d, hd, hp⟩, hstop⟩, hat⟩
    obtain ⟨front, x, back, he, hb, hm, rfl⟩ := stopsAt_iff.1 hstop
    rw [map_item_attach] at he
    exact ⟨⟨d.item, mem_of_attach hd, hp⟩, front, x, back, he, hb, hm,
      (position_eq_iff (isBoundary_start h (by simp [he]))).1 hat⟩
  · rintro ⟨hp, front, x, back, he, hb, hm, hat⟩
    have hstart := isBoundary_start h (x := x) (by simp [he])
    rw [← map_item_attach Item.extent] at hp he
    obtain ⟨_, hi, hp⟩ := hp
    obtain ⟨d, hd, rfl⟩ := List.mem_map.1 hi
    exact ⟨x.extent.span.start, ⟨⟨d, hd, hp⟩, stopsAt_iff.2 ⟨front, x, back, he, hb, hm, rfl⟩⟩,
      (position_eq_iff hstart).2 hat⟩

/-- A file is accepted exactly if its items are a package clause, imports and declarations in this
order, and then all of them are in its layout. If it has no package clause, this is the error.
Otherwise the error is at the first item that does not fit behind the ones in front of it, and the
message tells how it fails to fit. -/
theorem layoutOf_arranged (h : Tree.ofText? text = some tree) :
    ((∃ layout, layoutOf text = .ok layout) ↔ Arranged (members tree.items)) ∧
    (∀ layout, layoutOf text = .ok layout ↔ ∃ p front,
      attach Item.extent tree.items = p :: (front ++ layout.declarations) ∧
      p.item.kind = .package layout.package layout.place ∧
      List.Forall₂ Imports front layout.imports ∧
      ∀ d ∈ layout.declarations, isDeclaration d.item) ∧
    (layoutOf text = .error .missingPackage ↔ ∀ i ∈ members tree.items, isPackage i = false) ∧
    (∀ line column fault, layoutOf text = .error (.misplaced line column fault) ↔
      (∃ i ∈ members tree.items, isPackage i) ∧ ∃ front x back,
        members tree.items = front ++ x :: back ∧ Begins front ∧ ¬ Begins (front ++ [x]) ∧
        Misplaced front x fault ∧ At text line column x.extent.span.start) ∧
    (∀ e, layoutOf text = .error e →
      e = .missingPackage ∨ ∃ line column fault, e = .misplaced line column fault) ∧
    Function.Injective LayoutFault.message := by
  refine ⟨?_, fun layout => layoutOf_ok_iff h, layoutOf_missing_iff h, fun line column fault => ?_,
    fun e he => ?_, ?_⟩
  · rw [← map_item_attach Item.extent, ← exists_right_iff]
    exact exists_congr fun layout => layoutOf_ok_iff h
  · rw [layoutOf_misplaced_iff h]
    refine and_congr_right fun _ => exists_congr fun front => exists_congr fun x =>
      exists_congr fun back => and_congr_right fun _ => and_congr_right fun _ => ?_
    exact ⟨fun ⟨hm, hat⟩ => ⟨hm.not_begins, hm, hat⟩, fun ⟨_, hm, hat⟩ => ⟨hm, hat⟩⟩
  · rw [layoutOf, h] at he
    dsimp only at he
    split at he
    · cases he
    · cases he
      exact .inl rfl
    · cases he
      exact .inr ⟨_, _, _, rfl⟩
  · exact message_injective

/-- An import behind a declaration, and behind a tab on its line. -/
theorem layoutOf_arranged_late_import :
    let text := "package p\n\nvar x = 1\n\n\timport \"fmt\"\n".toList
    ∃ tree, Tree.ofText? text = some tree ∧
      layoutOf text = .error (.misplaced 5 2 .lateImport) ∧ ∃ front x back,
        members tree.items = front ++ x :: back ∧ Begins front ∧ ¬ Begins (front ++ [x]) ∧
        Misplaced front x .lateImport ∧ At text 5 2 x.extent.span.start := by
  intro text
  have hsome : (Tree.ofText? text).isSome := by decide +kernel
  have hunit : (fun _ => ()) <$> layoutOf text = .error (.misplaced 5 2 .lateImport) := by
    decide +kernel
  have herror := map_eq_error.1 hunit
  obtain ⟨tree, htree⟩ := Option.isSome_iff_exists.1 hsome
  exact ⟨tree, htree, herror, ((layoutOf_arranged htree).2.2.2.1 5 2 .lateImport).1 herror |>.2⟩

end Outline

end GoOutline
