import GoOutline.Proofs.Outcomes
import GoOutline.Syntax.Layout

/-!
What an accepted layout consists of: all items of the file, in their order.
-/

namespace GoOutline.Syntax.Layout

open Docs

variable {items ds : List (Documented Item)} {layout : Layout}

/-- An item that is an import declaration at a place. -/
def Imports (d : Documented Item) (i : Extent × ImportDecl) : Prop :=
  d.item.extent = i.1 ∧ d.item.kind = .imports i.2

theorem declarationsOf_eq_ok (h : declarationsOf items = .ok ds) : ds = items := by
  induction items generalizing ds with
  | nil =>
      cases h
      rfl
  | cons d rest ih =>
      rw [declarationsOf] at h
      split at h
      · cases h
      · cases h
      · cases h
      all_goals
        obtain ⟨ds', hr, rfl⟩ := map_eq_ok.1 h
        rw [ih hr]

theorem partsOf_eq_ok {is : List (Extent × ImportDecl)} (h : partsOf items = .ok (is, ds)) :
    ∃ front, items = front ++ ds ∧ List.Forall₂ Imports front is := by
  induction items generalizing is ds with
  | nil =>
      cases h
      exact ⟨[], rfl, .nil⟩
  | cons d rest ih =>
      rw [partsOf] at h
      split at h
      · next decl hk =>
        obtain ⟨⟨is', ds'⟩, hr, h⟩ := map_eq_ok.1 h
        cases h
        obtain ⟨front, rfl, hf⟩ := ih hr
        exact ⟨d :: front, rfl, .cons ⟨rfl, hk⟩ hf⟩
      · obtain ⟨ds', hd, h⟩ := map_eq_ok.1 h
        cases h
        exact ⟨[], (declarationsOf_eq_ok hd).symm, .nil⟩

/-- The package clause comes first, then the imports, then the declarations. -/
theorem ofItems_eq_ok (h : ofItems items = .ok layout) :
    ∃ d front, items = d :: (front ++ layout.declarations) ∧
      d.item.kind = .package layout.package layout.place ∧
      List.Forall₂ Imports front layout.imports := by
  cases items with
  | nil => cases h
  | cons d rest =>
      rw [ofItems] at h
      split at h
      · next name place hk =>
        obtain ⟨⟨is, ds⟩, hp, rfl⟩ := map_eq_ok.1 h
        obtain ⟨front, rfl, hf⟩ := partsOf_eq_ok hp
        exact ⟨d, front, rfl, hk, hf⟩
      · split at h <;> cases h

theorem declarationsOf_ne_statement (h : declarationsOf items = .ok ds) :
    ∀ d ∈ items, d.item.kind ≠ .statement := by
  induction items generalizing ds with
  | nil => simp
  | cons d rest ih =>
      rw [declarationsOf] at h
      split at h
      · cases h
      · cases h
      · cases h
      all_goals
        next hk =>
          obtain ⟨ds', hr, -⟩ := map_eq_ok.1 h
          simpa [hk] using ih hr

theorem partsOf_ne_statement {is : List (Extent × ImportDecl)} (h : partsOf items = .ok (is, ds)) :
    ∀ d ∈ items, d.item.kind ≠ .statement := by
  induction items generalizing is ds with
  | nil => simp
  | cons d rest ih =>
      rw [partsOf] at h
      split at h
      next decl hk =>
        obtain ⟨⟨is', ds'⟩, hr, -⟩ := map_eq_ok.1 h
        simpa [hk] using ih hr
      next =>
        obtain ⟨ds', hd, -⟩ := map_eq_ok.1 h
        exact declarationsOf_ne_statement hd

/-- A file has no statements outside of its declarations. -/
theorem ofItems_ne_statement (h : ofItems items = .ok layout) :
    ∀ d ∈ items, d.item.kind ≠ .statement := by
  cases items with
  | nil => cases h
  | cons d rest =>
      rw [ofItems] at h
      split at h
      next name place hk =>
        obtain ⟨⟨is, ds⟩, hp, -⟩ := map_eq_ok.1 h
        simpa [hk] using partsOf_ne_statement hp
      next => split at h <;> cases h

end GoOutline.Syntax.Layout
