import GoOutline.Proofs.Endings

/-!
Members in front of other endings. A field or an interface element that ends with its line or its
list is read the same whatever ends it.
-/

namespace GoOutline.Syntax

namespace Parser

variable {α β : Type} {p : Parser α} {q : Parser β}

/-- A look at the first two tokens of a piece, the second of which may be the one behind it. -/
theorem Follows.look {C : Token → Prop} {E : Token → Token → Prop} {f g : Token → Token → Parser β}
    (hc : Consumes (Parser.peek >>= fun t => ahead 1 >>= f t))
    (hf : ∀ ⦃t u seg z z' rest b⦄, (∀ x ∈ t :: u :: seg, C x) → E z z' →
      (f t u).run (t :: u :: seg ++ z :: rest) = some (b, z :: rest) →
        ∀ rest', (g t u).run (t :: u :: seg ++ z' :: rest') = some (b, z' :: rest'))
    (hz : ∀ ⦃t z z' rest b⦄, C t → E z z' → (f t z).run (t :: z :: rest) = some (b, z :: rest) →
      ∀ rest', (g t z').run (t :: z' :: rest') = some (b, z' :: rest')) :
    Follows C E (Parser.peek >>= fun t => ahead 1 >>= f t)
      (Parser.peek >>= fun t => ahead 1 >>= g t) := by
  intro seg z z' rest b hs hzz hr rest'
  rcases seg with _ | ⟨t, seg⟩
  · exact absurd (hc hr) (Nat.lt_irrefl _)
  obtain ⟨_, he, hsolid, hb⟩ := Parser.takes _ hr
  obtain rfl := List.append_cancel_right he
  have hcl : t.isClosing = false := by
    rw [← Bool.not_eq_true]
    exact fun hc => not_balanced_of_isClosing hc seg hb
  have hl (rest : List Token) : lookAt 1 (t :: seg ++ rest) = lookAt 0 (seg ++ rest) := by
    simp [lookAt, hsolid t List.mem_cons_self, hcl]
  change (f t (lookAt 1 (t :: seg ++ z :: rest))).run _ = _ at hr
  show (g t (lookAt 1 (t :: seg ++ z' :: rest'))).run _ = _
  rw [hl] at hr ⊢
  cases seg with
  | nil => exact hz (hs t List.mem_cons_self) hzz hr rest'
  | cons u seg => exact hf hs hzz hr rest'

/-- Two ways of reading what stands between brackets end at the same place. -/
theorem group_rest_unique {b : Bracket} {g : Grouped α} {h : Grouped β} {ts rest rest' : List Token}
    (hg : (group b p).run ts = some (g, rest)) (hh : (group b q).run ts = some (h, rest')) :
    rest = rest' := by
  obtain ⟨us, rfl, _, hp, hc⟩ := group_eq_some.1 hg
  obtain ⟨_, he, _, hq, hc'⟩ := group_eq_some.1 hh
  obtain rfl := (List.cons.inj he).2
  obtain ⟨x, rfl, _, hx⟩ := p.takes hp
  obtain ⟨y, hy, _, hyb⟩ := q.takes hq
  obtain ⟨left, rfl, hl⟩ := hyb.exists_append hx (Token.isClosing_of_closes hc) hy
  cases left with
  | nil => exact (List.cons.inj hl).2.symm
  | cons c left =>
      rw [List.cons_append, List.cons.injEq] at hl
      have hb := hx.of_append hyb
      exact (not_balanced_of_isClosing (hl.1 ▸ Token.isClosing_of_closes hc') left hb).elim

end Parser

namespace Grammar

open Syntax.Parser

variable {n : Nat} {t u z z' : Token} {seg rest : List Token}

/-- A token behind a complete member. -/
def Ends (z : Token) : Prop := z.newline ∨ z.is rbrace ∨ isTerminator z

/-- What stands behind a member at two places. -/
def Behind (z z' : Token) : Prop := z = z' ∨ (Ends z ∧ Ends z')

/-- Any token. -/
def Any (_ : Token) : Prop := True

theorem behind_self (t : Token) : Behind t t := .inl rfl

theorem passive_of_is {text : String} (h : z.is text) (p : Place)
    (ht : text ∉ ["*", "(", "[", "map", "chan", "<-", "func", "struct", "interface", "~", ".", "|"]) :
    Passive p z := by
  simp only [List.mem_cons, List.not_mem_nil, or_false, not_or] at ht
  refine .inr ⟨?_, Token.is_eq_false_of_is h (by simp [ht]), Token.is_eq_false_of_is h (by simp [ht])⟩
  simp [startsType, Token.isAny_of_is h, Token.kind_of_is h, ht]

theorem Ends.newline_or_is (h : Ends z) :
    z.newline ∨ ∃ text ∈ [rbrace, ";", "\x00"], z.is text := by
  rcases h with h | h | h
  · exact .inl h
  · exact .inr ⟨_, by simp, h⟩
  · obtain ⟨text, ht, h⟩ := Token.exists_is_of_isAny h
    exact .inr ⟨text, List.mem_cons_of_mem _ ht, h⟩

theorem Ends.passive (h : Ends z) : Passive .line z := by
  rcases h.newline_or_is with h | ⟨text, ht, h⟩
  · exact .inl ⟨rfl, h⟩
  · refine passive_of_is h .line ?_
    simp only [List.mem_cons, List.not_mem_nil, or_false] at ht
    rcases ht with rfl | rfl | rfl <;> decide

theorem Behind.border (h : Behind z z') : Border .line .line z z' := by
  rcases h with rfl | ⟨h, h'⟩
  · exact .inl ⟨.inl rfl, rfl⟩
  · exact .inr ⟨h.passive, h'.passive⟩

theorem Ends.endsField (h : Ends z) : endsField z := by
  simp only [Grammar.endsField, Bool.or_eq_true]
  rcases h with h | h | h
  · exact .inl (.inl (.inl h))
  · exact .inl (.inl (.inr h))
  · exact .inl (.inr h)

theorem follows_typeExpr (n : Nat) : Follows Any Behind (typeExpr n .line) (typeExpr n .line) :=
  ((turns .line .line n).typeExpr.weaken fun _ _ => .inl rfl).imp fun _ _ h => h.border

theorem follows_namedLine (n : Nat) : Follows Any Behind (namedType n .line) (namedType n .line) :=
  ((follows_namedType n).weaken fun _ _ => .inl rfl).imp fun _ _ h => h.border

theorem follows_embeddedField (n : Nat) :
    Follows Any Behind (embeddedField n) (embeddedField n) := by
  cases n with
  | zero => exact .failure
  | succ n =>
      refine .bind (fun t _ => behind_self t) (follows_namedLine n).placed fun x => ?_
      refine .stay (b := (.embedded false, x.2 x.1.span)) (fun t _ => ?_) fun z z' rest a hz hr => ?_
      · exact .bind (fun t _ => behind_self t) (.require _) fun _ => .pure _
      · obtain ⟨_, _, hq, ha⟩ := bind_eq_some.1 hr
        obtain ⟨he, rfl⟩ := require_eq_some.1 hq
        have he' : endsField z' := by
          rcases hz with rfl | ⟨_, h⟩
          · exact he
          · exact h.endsField
        refine ⟨(pure_eq_some.1 ha).1.symm, ?_⟩
        rw [he']
        rfl

theorem follows_namedFields (n : Nat) : Follows Any Behind (namedFields n) (namedFields n) := by
  cases n with
  | zero => exact .failure
  | succ n =>
      refine .bind_consumes ((Follows.name.commaSep false n).imp fun z z' h => h) (fun names => ?_)
        fun names => ?_
      · exact (consumes_typeExpr n .line).bind _
      · exact .bind (fun t _ => behind_self t) (follows_typeExpr n) fun type => .pure _

/-- A type with brackets in front goes on behind them. -/
theorem bracketed_typeExpr {p : Place} {e : TypeExpr} {ts : List Token}
    (h : (typeExpr n p).run (t :: ts) = some (e, rest)) (ht : t.is "[") :
    ∃ j g mid elem, n = j + 2 ∧ (group .square (arrayLength j)).run (t :: ts) = some (g, mid) ∧
      (typeExpr j p).run mid = some (elem, rest) := by
  rcases n with _ | _ | n
  · cases h
  · obtain ⟨⟨_, _⟩, _, hp, _⟩ := bind_eq_some.1 h
    obtain ⟨_, _, hf, _⟩ := placed_eq_some.1 hp
    cases hf
  · obtain ⟨⟨_, _⟩, _, hp, hr⟩ := bind_eq_some.1 h
    obtain ⟨rfl, rfl⟩ := pure_eq_some.1 hr
    obtain ⟨used, hu, hf, _⟩ := placed_eq_some.1 hp
    rw [typeForm, run_peek_cons] at hf
    simp only [Token.kind_of_is ht, Token.is_eq_false_of_is ht (b := "*") (by decide),
      Token.is_eq_false_of_is ht (b := "(") (by decide), ht, if_true] at hf
    obtain ⟨g, mid, hg, hf⟩ := bind_eq_some.1 hf
    obtain ⟨elem, _, he, hf⟩ := bind_eq_some.1 hf
    have hrest := (pure_eq_some.1 (by exact hf)).2
    exact ⟨n, g, mid, elem, rfl, hg, hrest ▸ he⟩

/-- Names and their type, where brackets stand behind the first name. -/
theorem bracketed_namedFields {a : FieldHead × TypeExpr} {l : List Token}
    (h : (namedFields n).run (t :: u :: l) = some (a, rest)) (hu : u.is "[") :
    ∃ j g mid elem, (group .square (arrayLength j)).run (u :: l) = some (g, mid) ∧
      (typeExpr j .line).run mid = some (elem, rest) := by
  rcases n with _ | _ | n
  · cases h
  · cases h
  · obtain ⟨_, mid, hc, h⟩ := bind_eq_some.1 h
    obtain ⟨_, _, he, h⟩ := bind_eq_some.1 h
    obtain ⟨_, rfl⟩ := pure_eq_some.1 h
    obtain ⟨_, _, hn, hc⟩ := bind_eq_some.1 hc
    obtain ⟨hn, _⟩ := ofKind_eq_some.1 hn
    obtain rfl := (List.cons.inj hn).2
    obtain ⟨more, _, hm, hc⟩ := bind_eq_some.1 hc
    rw [acceptComma, run_peek_cons, Token.is_eq_false_of_is hu (by decide), Bool.false_and] at hm
    obtain ⟨rfl, rfl⟩ := pure_eq_some.1 hm
    obtain ⟨_, rfl⟩ := pure_eq_some.1 hc
    obtain ⟨j, g, mid, elem, _, h⟩ := bracketed_typeExpr he hu
    exact ⟨j, g, mid, elem, h⟩

/-- A generic type alone, where its arguments stand behind its name. -/
theorem bracketed_namedType {p : Place} {f : Span → TypeExpr} {l : List Token}
    (h : (namedType n p).run (t :: u :: l) = some (f, rest)) (hu : u.is "[")
    (ha : takesArgs p u) :
    ∃ (β : Type) (p : Parser β) (g : Grouped β),
      (group .square p).run (u :: l) = some (g, rest) := by
  rcases n with _ | n
  · cases h
  obtain ⟨_, _, hform, hargs⟩ := bind_eq_some.1 h
  obtain ⟨_, _, hname, hdot⟩ := bind_eq_some.1 hform
  obtain ⟨htok, _⟩ := ofKind_eq_some.1 hname
  obtain rfl := (List.cons.inj htok).2
  rw [run_peek_cons, Token.is_eq_false_of_is hu (by decide)] at hdot
  obtain ⟨_, rfl⟩ := pure_eq_some.1 hdot
  rw [run_peek_cons, if_pos ha] at hargs
  obtain ⟨_, _, htypes, hend⟩ := bind_eq_some.1 hargs
  obtain rfl := (pure_eq_some.1 hend).2
  obtain ⟨_, htypes⟩ := discard_eq_some.1 htypes
  rcases n with _ | n
  · cases htypes
  obtain ⟨g, _, hg, hq⟩ := bind_eq_some.1 htypes
  obtain ⟨_, _, hq, hend⟩ := bind_eq_some.1 hq
  obtain rfl := (require_eq_some.1 hq).2
  obtain rfl := (pure_eq_some.1 hend).2
  exact ⟨_, _, g, hg⟩

/-- If brackets behind a name are no type arguments, they are none in front of another ending. -/
theorem follows_bracketed (n : Nat) {a : FieldHead × TypeExpr} (hu : u.is "[")
    (hn : u.newline = false) (hz : Behind z z')
    (hr : (embeddedField n <|> namedFields n).run (t :: u :: seg ++ z :: rest) = some (a, z :: rest))
    (rest' : List Token) :
    (embeddedField n <|> namedFields n).run (t :: u :: seg ++ z' :: rest') =
      some (a, z' :: rest') := by
  have hs : ∀ x ∈ t :: u :: seg, Any x := fun _ _ => trivial
  rcases orElse_eq_some.1 hr with h | ⟨hno, h⟩
  · exact orElse_eq_some.2 (.inl (follows_embeddedField n hs hz h rest'))
  refine orElse_eq_some.2 (.inr ⟨?_, follows_namedFields n hs hz h rest'⟩)
  rw [← Option.not_isSome_iff_eq_none, Option.isSome_iff_exists]
  rintro ⟨⟨b, mid⟩, hb⟩
  rcases n with _ | n
  · cases h
  obtain ⟨⟨e, build⟩, _, hplaced, hends⟩ := bind_eq_some.1 hb
  obtain ⟨used, _, hname, rfl⟩ := placed_eq_some.1 hplaced
  obtain ⟨_, q, g', hg'⟩ := bracketed_namedType (l := seg ++ z' :: rest') hname hu
    (by simp [takesArgs, hu, hn])
  obtain ⟨j, g, _, elem, hg, helem⟩ := bracketed_namedFields (l := seg ++ z :: rest) h hu
  -- The element of the array starts with a token of the piece, whatever stands behind the piece.
  obtain ⟨taken, rfl, _⟩ := (typeExpr j .line).takes helem
  have hne : taken ≠ [] := (consumes_typeExpr j .line).ne_nil helem
  obtain ⟨w, tail, rfl⟩ := List.exists_cons_of_ne_nil hne
  obtain ⟨brackets, he, _⟩ := (group .square (arrayLength j)).takes hg
  obtain hseg : u :: seg = brackets ++ w :: tail :=
    (List.append_left_inj (z :: rest)).1 (by simpa using he)
  have hsame : ∀ x ∈ brackets, Any x := fun _ _ => trivial
  have hlist (ys : List Token) : u :: (seg ++ ys) = brackets ++ w :: (tail ++ ys) := by
    rw [← List.cons_append, hseg]
    simp
  have hw : Same Any w w := ⟨trivial, rfl⟩
  have hmid : (group .square (arrayLength j)).run (u :: (seg ++ z' :: rest')) =
      some (g, w :: (tail ++ z' :: rest')) := by
    rw [hlist] at hg ⊢
    exact Follows.group .square (arrayLength j) hsame hw hg _
  obtain rfl := group_rest_unique hmid hg'
  have hends' : endsField w := by
    rw [run_peek_cons] at hends
    obtain ⟨_, _, hq, _⟩ := bind_eq_some.1 hends
    exact (require_eq_some.1 hq).1
  have hold : (namedType n .line).run (t :: u :: (seg ++ z :: rest)) =
      some (build, w :: (tail ++ z :: rest)) := by
    have hname : (namedType n .line).run (t :: u :: (seg ++ z' :: rest')) = _ := hname
    rw [hlist, ← List.cons_append] at hname ⊢
    exact follows_namedLine n (fun _ _ => trivial) (behind_self w) hname _
  have hfield : (embeddedField (n + 1)).run (t :: u :: seg ++ z :: rest) =
      some ((.embedded false, build (extentOf (t :: brackets)).span), w :: (tail ++ z :: rest)) := by
    refine bind_eq_some.2 ⟨(extentOf (t :: brackets), build), w :: (tail ++ z :: rest), ?_, ?_⟩
    · exact placed_eq_some.2 ⟨t :: brackets, congrArg (t :: ·) (hlist _), hold, rfl⟩
    · show (require (endsField w) >>= fun _ => pure _).run _ = _
      rw [hends']
      rfl
  rw [hno] at hfield
  cases hfield

theorem follows_pointer (n : Nat) (b : Bool) : Follows Any Behind
    (do discard advance; require b; return (FieldHead.embedded true, ← typeExpr n .line))
    (do discard advance; require b; return (FieldHead.embedded true, ← typeExpr n .line)) :=
  .bind (fun t _ => behind_self t) Follows.advance.discard fun _ =>
    .bind (fun t _ => behind_self t) (.require b) fun _ =>
      .bind (fun t _ => behind_self t) (follows_typeExpr n) fun _ => .pure _

theorem follows_fieldHead (n : Nat) : Follows Any Behind (fieldHead n) (fieldHead n) := by
  cases n with
  | zero => exact .failure
  | succ n =>
      refine .look (consumes_fieldHead (n + 1)) ?_ ?_
      · intro t u seg z z' rest a hs hz hr rest'
        by_cases hp : t.is "*"
        · simp only [hp, if_true] at hr ⊢
          exact follows_pointer n _ hs hz hr rest'
        simp only [hp] at hr ⊢
        by_cases he : endsField u || u.is "."
        · simp only [he, if_true] at hr ⊢
          exact follows_embeddedField n hs hz hr rest'
        simp only [he] at hr ⊢
        by_cases hb : u.is "["
        · simp only [hb, if_true] at hr ⊢
          refine follows_bracketed n hb ?_ hz hr rest'
          simp only [endsField, Bool.or_eq_true, not_or, Bool.not_eq_true] at he
          exact he.1.1.1.1
        · simp only [hb] at hr ⊢
          exact follows_namedFields n hs hz hr rest'
      · intro t z z' rest a ht hz hr rest'
        have hs : ∀ x ∈ [t], Any x := fun _ _ => trivial
        by_cases hp : t.is "*"
        · simp only [hp, if_true] at hr
          obtain ⟨_, _, ht, hr⟩ := bind_eq_some.1 hr
          obtain ⟨_, ht⟩ := discard_eq_some.1 ht
          obtain rfl := (List.cons.inj (advance_eq_some.1 ht).1).2
          have hc := (consumes_typeExpr n .line).bind fun e =>
            (pure (FieldHead.embedded true, e) : Parser (FieldHead × TypeExpr))
          exact absurd (Consumes.behind _ (fun _ => hc) hr) (Nat.lt_irrefl _)
        simp only [hp] at hr ⊢
        rcases hz with rfl | ⟨hz, hz'⟩
        · by_cases he : endsField z || z.is "."
          · simp only [he, if_true] at hr ⊢
            exact follows_embeddedField n hs (behind_self z) hr rest'
          simp only [he] at hr ⊢
          by_cases hb : z.is "["
          · simp only [hb, if_true] at hr ⊢
            rcases orElse_eq_some.1 hr with h | ⟨_, h⟩
            · exact orElse_eq_some.2 (.inl (follows_embeddedField n hs (behind_self z) h rest'))
            · obtain ⟨j, g, mid, elem, hg, helem⟩ := bracketed_namedFields h hb
              have := consumes_group _ _ hg
              have := consumes_typeExpr j .line helem
              omega
          · simp only [hb] at hr ⊢
            exact follows_namedFields n hs (behind_self z) hr rest'
        · simp only [hz.endsField, hz'.endsField, Bool.true_or, if_true] at hr ⊢
          exact follows_embeddedField n hs (.inr ⟨hz, hz'⟩) hr rest'

theorem Ends.tag_eq_false (h : Ends z) : (z.kind == .string && !z.newline) = false := by
  rcases h.newline_or_is with h | ⟨text, _, h⟩
  · rw [h, Bool.not_true, Bool.and_false]
  · rw [Token.kind_of_is h]
    rfl

theorem Ends.call_eq_false (h : Ends z) : (z.is "(" && !z.newline) = false := by
  rcases h.newline_or_is with h | ⟨text, ht, h⟩
  · rw [h, Bool.not_true, Bool.and_false]
  · rw [Token.is_eq_false_of_is h, Bool.false_and]
    rintro rfl
    revert ht
    decide

theorem follows_fieldTag : Follows Any Behind fieldTag fieldTag := by
  refine .whenever none (consumes_advance.map _) (fun _ _ => rfl) (fun z z' hz => ?_)
    Follows.advance.map
  rcases hz with rfl | ⟨h, h'⟩
  · rfl
  · rw [h.tag_eq_false, h'.tag_eq_false]

theorem follows_fieldDecl (n : Nat) : Follows Any Behind (fieldDecl n) (fieldDecl n) := by
  cases n with
  | zero => exact .failure
  | succ n =>
      have hb (t : Token) (_ : Any t) : Behind t t := behind_self t
      refine .bind hb (Follows.placed ?_) fun x => .pure _
      exact .bind hb (follows_fieldHead n) fun _ => .bind hb follows_fieldTag fun tag => .pure _

theorem follows_method (n : Nat) : Follows Any Behind
    (placed do
      let name ← name
      let params ← paramList n
      let results ← resultList n .line
      return (name.text, params, results))
    (placed do
      let name ← name
      let params ← paramList n
      let results ← resultList n .line
      return (name.text, params, results)) := by
  have hb (t : Token) (_ : Any t) : Behind t t := behind_self t
  have hr : Follows Any Behind (resultList n .line) (resultList n .line) :=
    ((turns .line .line n).resultList.weaken fun _ _ => .inl rfl).imp fun _ _ h => h.border
  refine Follows.placed (.bind hb .name fun name => ?_)
  exact .bind hb (follows_paramList hb n) fun params => .bind hb hr fun results => .pure _

theorem follows_interfaceElem (n : Nat) :
    Follows Any Behind (interfaceElem n) (interfaceElem n) := by
  cases n with
  | zero => exact .failure
  | succ n =>
      have hb (t : Token) (_ : Any t) : Behind t t := behind_self t
      have hu : Follows Any Behind (unionType n .line) (unionType n .line) :=
        ((follows_unionType .line .line n).weaken fun _ _ => .inl rfl).imp fun _ _ h => h.border
      have he := hu.placed
      have hm := follows_method n
      refine .look (consumes_interfaceElem (n + 1)) ?_ ?_
      · intro t u seg z z' rest a hs hz hr rest'
        exact Follows.ite (.bind hb hm fun x => .pure _) (.bind hb he fun x => .pure _) hs hz hr rest'
      · intro t z z' rest a ht hz hr rest'
        have hs : ∀ x ∈ [t], Any x := fun _ _ => trivial
        have hc : (t.kind == .name && z'.is "(" && !z'.newline) =
            (t.kind == .name && z.is "(" && !z.newline) := by
          rcases hz with rfl | ⟨h, h'⟩
          · rfl
          · rw [Bool.and_assoc, Bool.and_assoc, h.call_eq_false, h'.call_eq_false]
        rw [hc]
        exact Follows.ite (.bind hb hm fun x => .pure _) (.bind hb he fun x => .pure _) hs hz hr rest'

end Grammar

end GoOutline.Syntax
