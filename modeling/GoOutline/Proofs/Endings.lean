import GoOutline.Proofs.Borders

/-!
Types and members in front of other endings. A type that is read at one place is read at another, if
no line ends inside of it, and a member is read the same whatever ends it.
-/

namespace GoOutline.Syntax.Grammar

open Syntax.Parser

variable {n : Nat} {p p' : Place} {C : Token → Prop} {E : Token → Token → Prop}

/-- No type at this place goes on with this token. -/
def Passive (p : Place) (z : Token) : Prop :=
  (p = .line ∧ z.newline) ∨ (startsType z = false ∧ z.is "." = false ∧ z.is "|" = false)

/-- Two places at which a token means the same for a type. -/
def Level (p p' : Place) (t : Token) : Prop :=
  p = p' ∨ (p ≠ .bare ∧ p' ≠ .bare ∧ t.newline = false)

/-- What stands behind a type at two places. -/
def Border (p p' : Place) (z z' : Token) : Prop :=
  Same (Level p p') z z' ∨ (Passive p z ∧ Passive p' z')

theorem border_self {t : Token} (h : Level p p' t) : Border p p' t t := .inl ⟨h, rfl⟩

/-- A token that goes on with a type unless it starts a line that counts. -/
def goesOn (p : Place) (text : String) (t : Token) : Bool := t.is text && !(p == .line && t.newline)

theorem goesOn_of_level {t : Token} (h : Level p p' t) (text : String) :
    goesOn p text t = goesOn p' text t := by
  rcases h with rfl | ⟨_, _, hn⟩
  · rfl
  · simp [goesOn, hn]

theorem goesOn_of_passive {z : Token} (h : Passive p z) {s : String}
    (ht : z.is s → startsType z ∨ z.is "." ∨ z.is "|") : goesOn p s z = false := by
  rcases h with ⟨rfl, hn⟩ | ⟨hs, hd, hb⟩
  · simp [goesOn, hn]
  · have hne : z.is s = false := by
      rw [← Bool.not_eq_true]
      intro hz
      rcases ht hz with h | h | h
      · rw [hs] at h
        cases h
      · rw [hd] at h
        cases h
      · rw [hb] at h
        cases h
    simp [goesOn, hne]

theorem goesOn_of_border {z z' : Token} (h : Border p p' z z') {text : String}
    (ht : ∀ t : Token, t.is text → startsType t ∨ t.is "." ∨ t.is "|") :
    goesOn p text z = goesOn p' text z' := by
  rcases h with ⟨h, rfl⟩ | ⟨h, h'⟩
  · exact goesOn_of_level h text
  · rw [goesOn_of_passive h (ht z), goesOn_of_passive h' (ht z')]

theorem startsType_of_is {t : Token} {text : String} (h : t.is text)
    (ht : text ∈ ["*", "(", "[", "map", "chan", "<-", "func", "struct", "interface", "~"]) :
    startsType t := by
  simp only [Token.is, Bool.and_eq_true, beq_iff_eq] at h
  simp only [startsType, Token.isAny, h.1, h.2, Bool.or_eq_true, Bool.and_eq_true]
  exact .inr ⟨rfl, List.contains_iff_mem.2 ht⟩

theorem takesArgs_of_level {t : Token} (h : Level p p' t) : takesArgs p t = takesArgs p' t := by
  rcases h with rfl | ⟨hp, hp', hn⟩
  · rfl
  · have hb : (p != .bare) = true := by simpa using hp
    have hb' : (p' != .bare) = true := by simpa using hp'
    rw [takesArgs, takesArgs, hb, hb', hn, Bool.and_false, Bool.and_false]

theorem takesArgs_of_passive {z : Token} (h : Passive p z) : takesArgs p z = false := by
  have hg := goesOn_of_passive h (s := "[") fun hz => .inl (startsType_of_is hz (by decide))
  simp only [goesOn, Bool.and_eq_false_iff] at hg
  simp only [takesArgs, Bool.and_eq_false_iff]
  rcases hg with hg | hg
  · exact .inl (.inl hg)
  · exact .inr hg

theorem takesArgs_of_border {z z' : Token} (h : Border p p' z z') :
    takesArgs p z = takesArgs p' z' := by
  rcases h with ⟨h, rfl⟩ | ⟨h, h'⟩
  · exact takesArgs_of_level h
  · rw [takesArgs_of_passive h, takesArgs_of_passive h']

theorem follows_paramList (hC : ∀ t, C t → E t t) (n : Nat) :
    Follows C E (paramList n) (paramList n) := by
  cases n with
  | zero => exact .failure
  | succ n => exact .bind hC (.group _ _) fun _ => .pure _

theorem follows_typeArgs (hC : ∀ t, C t → E t t) (n : Nat) :
    Follows C E (typeArgs n) (typeArgs n) := by
  cases n with
  | zero => exact .failure
  | succ n => exact .bind hC (.group _ _) fun _ => .bind hC (.require _) fun _ => .pure _

theorem follows_structBody (hC : ∀ t, C t → E t t) (n : Nat) :
    Follows C E (structBody n) (structBody n) := by
  cases n with
  | zero => exact .failure
  | succ n =>
      exact .bind hC (Follows.expect _).discard fun _ => .bind hC (.group _ _) fun _ => .pure _

theorem follows_interfaceBody (hC : ∀ t, C t → E t t) (n : Nat) :
    Follows C E (interfaceBody n) (interfaceBody n) := by
  cases n with
  | zero => exact .failure
  | succ n =>
      exact .bind hC (Follows.expect _).discard fun _ => .bind hC (.group _ _) fun _ => .pure _

theorem follows_typeName : Follows (Level p p') (Border p p') (typeName p) (typeName p') := by
  refine .bind (fun _ => border_self) .name fun first => ?_
  refine .whenever _ (consumes_advance.discard.bind _) (fun t ht => ?_) (fun z z' hz => ?_) ?_
  · exact goesOn_of_level ht "."
  · exact goesOn_of_border hz fun t ht => .inr (.inl ht)
  · exact .bind (fun _ => border_self) Follows.advance.discard fun _ =>
      .bind (fun _ => border_self) .name fun second => .pure _

theorem follows_namedType (n : Nat) :
    Follows (Level p p') (Border p p') (namedType n p) (namedType n p') := by
  cases n with
  | zero => exact .failure
  | succ n =>
      refine .bind (fun _ => border_self) follows_typeName fun form => ?_
      refine .whenever _ ((consumes_typeArgs n).discard.bind _) (fun t => takesArgs_of_level)
        (fun z z' => takesArgs_of_border) ?_
      exact .bind (fun _ => border_self) (follows_typeArgs (fun _ => border_self) n).discard
        fun _ => .pure _

/-- The rules for types in front of two borders, at one bound. -/
structure Turns (p p' : Place) (n : Nat) : Prop where
  typeExpr : Follows (Level p p') (Border p p') (typeExpr n p) (typeExpr n p')
  typeForm : Follows (Level p p') (Border p p') (typeForm n p) (typeForm n p')
  resultList : Follows (Level p p') (Border p p') (resultList n p) (resultList n p')

theorem follows_typeForm (h : Turns p p' n) :
    Follows (Level p p') (Border p p') (typeForm (n + 1) p) (typeForm (n + 1) p') := by
  have hb (t : Token) (ht : Level p p' t) : Border p p' t t := border_self ht
  have he := h.typeExpr
  have hc := consumes_typeExpr n p
  refine .peek (consumes_typeForm (n + 1) p) fun t ht => .ite (follows_namedType n) ?_
  refine .ite (.bind hb Follows.advance.discard fun _ => .bind hb he fun elem => .pure _) ?_
  refine .ite (.bind hb (Follows.group _ _).discard fun _ => .pure _) ?_
  refine .ite (.bind hb (.group _ _) fun length => .bind hb he fun elem => .pure _) ?_
  refine .ite (.bind hb Follows.advance.discard fun _ => .bind hb (.group _ _) fun key => ?_) ?_
  · exact .bind hb he fun value => .pure _
  refine .ite (.bind hb Follows.advance.discard fun _ => ?_) ?_
  · exact .bind_consumes (Follows.accept "<-").discard (fun _ => hc.discard.bind _) fun _ =>
      .bind hb he.discard fun _ => .pure _
  refine .ite (.bind hb Follows.advance.discard fun _ => ?_) ?_
  · exact .bind hb (Follows.expect "chan").discard fun _ => .bind hb he.discard fun _ => .pure _
  refine .ite (.bind hb Follows.advance.discard fun _ => .bind hb he.discard fun _ => ?_) ?_
  · refine .whenever _ ((consumes_typeArgs n).discard.bind _) (fun t => takesArgs_of_level)
      (fun z z' => takesArgs_of_border) ?_
    exact .bind hb (follows_typeArgs hb n).discard fun _ => .pure _
  refine .ite (.bind hb Follows.advance.discard fun _ => ?_) ?_
  · exact .bind hb (follows_paramList hb n) fun params => .bind hb h.resultList fun results => .pure _
  refine .ite (.bind hb (follows_structBody hb n).discard fun _ => .pure _) ?_
  exact .ite (.bind hb (follows_interfaceBody hb n).discard fun _ => .pure _) .failure

theorem ends_of_passive {z : Token} (h : Passive p z) :
    (p == .line && z.newline) = true ∨ (z.is "(" = false ∧ startsType z = false) := by
  rcases h with ⟨rfl, hn⟩ | ⟨hs, _⟩
  · exact .inl hn
  · refine .inr ⟨?_, hs⟩
    rw [← Bool.not_eq_true]
    intro ho
    rw [startsType_of_is ho (by decide)] at hs
    cases hs

theorem follows_resultList (h : Turns p p' n) :
    Follows (Level p p') (Border p p') (resultList (n + 1) p) (resultList (n + 1) p') := by
  have hb (t : Token) (ht : Level p p' t) : Border p p' t t := border_self ht
  have hl (t : Token) (ht : Level p p' t) : (p == .line && t.newline) = (p' == .line && t.newline) := by
    rcases ht with rfl | ⟨_, _, hn⟩
    · rfl
    · rw [hn, Bool.and_false, Bool.and_false]
  refine .stay (b := []) (fun t ht => ?_) fun z z' rest a hz ha => ?_
  · rw [hl t ht]
    refine .ite (.pure _) (.ite (.bind hb (follows_paramList hb n) fun results => .pure _) ?_)
    exact .ite (.bind hb h.typeExpr fun type => .pure _) (.pure _)
  · rcases hz with ⟨hz, rfl⟩ | ⟨hz, hz'⟩
    · rw [← hl z hz]
      split at ha
      next hc => exact ⟨(pure_eq_some.1 ha).1.symm, if_pos hc⟩
      next hc =>
        rw [if_neg hc]
        split at ha
        · exact absurd ((consumes_paramList n).bind _ ha) (Nat.lt_irrefl _)
        next ho =>
          rw [if_neg ho]
          split at ha
          · exact absurd ((consumes_typeExpr n p).bind _ ha) (Nat.lt_irrefl _)
          next hs => exact ⟨(pure_eq_some.1 ha).1.symm, if_neg hs⟩
    · have hnone {q : Place} {y : Token} {f g : Parser (List ParamDecl)} (hy : Passive q y) :
          (if q == .line && y.newline then pure [] else if y.is "(" then f
            else if startsType y then g else pure [] : Parser (List ParamDecl)) = pure [] := by
        rcases ends_of_passive hy with h | ⟨h, h'⟩
        · rw [if_pos h]
        · simp [h, h']
      refine ⟨?_, hnone hz'⟩
      rw [hnone hz] at ha
      exact (pure_eq_some.1 ha).1.symm

theorem turns (p p' : Place) (n : Nat) : Turns p p' n := by
  induction n with
  | zero => exact ⟨.failure, .failure, .failure⟩
  | succ n ih =>
      refine ⟨?_, follows_typeForm ih, follows_resultList ih⟩
      exact .bind (fun _ => border_self) ih.typeForm.placed fun _ => .pure _

theorem follows_unionType (p p' : Place) (n : Nat) :
    Follows (Level p p') (Border p p') (unionType n p) (unionType n p') := by
  have hb (t : Token) (ht : Level p p' t) : Border p p' t t := border_self ht
  induction n with
  | zero => exact .failure
  | succ n ih =>
      refine .bind hb (turns p p' n).typeExpr fun first => ?_
      refine .whenever _ (consumes_advance.discard.bind _) (fun t ht => ?_) (fun z z' hz => ?_) ?_
      · exact goesOn_of_level ht "|"
      · exact goesOn_of_border hz fun t ht => .inr (.inr ht)
      · exact .bind hb Follows.advance.discard fun _ => .bind hb ih fun more => .pure _

end GoOutline.Syntax.Grammar
