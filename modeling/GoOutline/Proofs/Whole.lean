import GoOutline.Proofs.Neighbours
import GoOutline.Proofs.Splicing
import GoOutline.Proofs.Swapping
import GoOutline.Proofs.Settled

/-!
Documents whose text leaves no comment open. An edit that leaves the imports of such a document as
they are needs no answers that the document does not have, and leaves it whole.
-/

namespace GoOutline

open Text Syntax Syntax.Lexer

namespace Document

variable {settings : Settings} {find : Finder} {text : List Char} {d : Document} {layout : Layout}

/-- A document that answers to its text, with lenient annotations, blanks to indent with and no comment
left open. -/
structure Whole (d : Document) (layout : Layout) : Prop where
  shows : Outline.Shows ⟨d.settings.dialect.marker, false⟩ d.memo.find d.text layout d.outline
  asked : ∀ find, d.memo.askAll find (Outline.importPaths layout) = d.memo
  lenient : d.settings.dialect.strict = false
  indent : ∀ c ∈ d.settings.indent.toList, isSpace c
  closed : Closes (pieces d.text) []

/-- In whatever way a document has been come to, it is whole if no comment is left open. -/
theorem exists_whole (h : ofText settings find text = .ok d) (requests : List Request)
    (hlenient : d.settings.dialect.strict = false) (hindent : ∀ c ∈ d.settings.indent.toList, isSpace c)
    (hclosed : Closes (pieces (d.run requests).text) []) : ∃ layout, (d.run requests).Whole layout := by
  have hsettled : (d.run requests).Settled := (settled_of_ofText h).run requests
  have hsettings : (d.run requests).settings = d.settings := settings_run d requests
  rw [← hsettings] at hlenient hindent
  have hdialect : (d.run requests).settings.dialect = ⟨(d.run requests).settings.dialect.marker, false⟩ := by
    rw [← hlenient]
  have hread (find : Finder) := hsettled find
  unfold read at hread
  cases hl : Outline.layoutOf (d.run requests).text with
  | error e =>
      simp only [hl, Prod.mk.injEq, reduceCtorEq, false_and] at hread
      exact (hread find).elim
  | ok layout =>
      simp only [hl, Prod.mk.injEq] at hread
      have hask (find : Finder) := (hread find).2
      have hoffered := (hread (d.run requests).memo.find).1
      rw [hask, hdialect] at hoffered
      exact ⟨layout, ⟨hl, hoffered⟩, hask, hlenient, hindent, hclosed⟩

namespace Whole

theorem dialect (h : d.Whole layout) : d.settings.dialect = ⟨d.settings.dialect.marker, false⟩ := by
  rw [← h.lenient]

theorem ofText_eq (h : d.Whole layout) :
    Outline.ofText ⟨d.settings.dialect.marker, false⟩ d.memo.find d.text = .ok d.outline :=
  bind_eq_ok.2 ⟨layout, h.shows.laid, h.shows.read⟩

theorem wellPlaced (h : d.Whole layout) : d.outline.WellPlaced :=
  Outline.wellPlaced_of_ofText h.ofText_eq

/-- A text with the same imports is read without a question, and the document stays whole. -/
theorem commit (h : d.Whole layout) {layout' : Layout} {p : Outline}
    (hs : Outline.Shows ⟨d.settings.dialect.marker, false⟩ d.memo.find text layout' p)
    (himports : layout'.imports = layout.imports) (hclosed : Closes (pieces text) []) :
    (∀ find, d.commit find text = (.ok (), { d with outline := p })) ∧ p.text = text ∧
      ({ d with outline := p } : Document).Whole layout' := by
  have hpaths : Outline.importPaths layout' = Outline.importPaths layout := by
    rw [Outline.importPaths, Outline.importSpecs, himports]
    rfl
  have htext : p.text = text := Outline.text_of_ofLayout hs.read
  have hread := hs.read
  rw [← h.dialect] at hread
  refine ⟨fun find => ?_, htext, ?_, fun find => ?_, h.lenient, h.indent, ?_⟩
  · simp only [Document.commit, Document.read, hs.laid, hpaths, h.asked, hread]
  · rwa [Document.text, htext]
  · rw [hpaths]
    exact h.asked find
  · rwa [Document.text, htext]

/-- An edit of a body that leaves the imports as they are needs no question. -/
theorem apply (h : d.Whole layout) {e : Edit} {s : Span} {layout' : Layout} {p : Outline}
    (hbody : e.body? d.outline = some s)
    (hs : Outline.Shows ⟨d.settings.dialect.marker, false⟩ d.memo.find ((d.bodySplice s e).apply d.text)
      layout' p)
    (himports : layout'.imports = layout.imports)
    (hclosed : Closes (pieces ((d.bodySplice s e).apply d.text)) []) :
    (∀ find, d.apply find e = (.ok (), { d with outline := p })) ∧
      p.text = (d.bodySplice s e).apply d.text ∧ ({ d with outline := p } : Document).Whole layout' := by
  obtain ⟨hcommit, htext, hwhole⟩ := h.commit hs himports hclosed
  exact ⟨fun find => by rw [apply_of_body? hbody, hcommit], htext, hwhole⟩

end Whole

end Document

end GoOutline
