import GoOutline.Config
import GoOutline.Proofs.Forms
import GoOutline.Proofs.Rendering

/-!
Saved configurations. What a file leaves out is what holds by default, so that a configuration is
read back from its text, and a file that can be read at all is settled once it has been saved.
-/

namespace GoOutline.Config

open Json

variable {c : Config} {j : Json}

def buildSlots (c : Config) : Slots :=
  [("goroot", c.goroot.map .string),
    ("gopath", if c.gopath.isEmpty then none else some (strings c.gopath))]

def slots (c : Config) : Slots :=
  [("marker", some (.string c.marker)), ("strict_annotations", some (.bool c.strict)),
    ("indent", some (.string c.indent)), ("formatter", some (.string c.formatter.tag)),
    ("build", some c.buildToJson)]

theorem buildToJson_eq (c : Config) : c.buildToJson = .object c.buildSlots.members := by
  obtain ⟨marker, strict, indent, formatter, goroot, gopath⟩ := c
  cases goroot <;> cases gopath <;> rfl

theorem buildOfJson?_of_carries (h : Carries c.buildSlots j) :
    buildOfJson? j = some (c.goroot, c.gopath) := by
  obtain ⟨r, hr, -, hget⟩ := Carries.exists_record ["goroot", "gopath"] h rfl (by decide)
  have hroot := withDefault_nullable? (o := c.goroot) (hget "goroot")
  have hpath : r.withDefault "gopath" [] (listOf? text?) = some c.gopath := by
    have h := hget "gopath"
    obtain ⟨marker, strict, indent, formatter, goroot, gopath⟩ := c
    cases gopath with
    | nil => simp only [Record.withDefault, show r.get? "gopath" = none from h]
    | cons p ps =>
        simp only [Record.withDefault, show r.get? "gopath" = some (strings (p :: ps)) from h]
        exact mapM_text?_strings (p :: ps)
  simp [buildOfJson?, hr, hroot, hpath]

theorem ofTag?_tag (f : FormatterChoice) : FormatterChoice.ofTag? f.tag = some f := by
  cases f <;> rfl

/-- A configuration is read from its members, in whatever order they come and whatever other members
stand between them. -/
theorem ofJson?_of_carries (h : Carries c.slots j) : ofJson? j = some c := by
  obtain ⟨r, hr, -, hget⟩ :=
    Carries.exists_record ["marker", "strict_annotations", "indent", "formatter", "build"] h rfl
      (by decide)
  have hmarker : r.get? "marker" = some (.string c.marker) := hget "marker"
  have hstrict : r.get? "strict_annotations" = some (.bool c.strict) := hget "strict_annotations"
  have hindent : r.get? "indent" = some (.string c.indent) := hget "indent"
  have hformatter : r.get? "formatter" = some (.string c.formatter.tag) := hget "formatter"
  have hbuild : r.get? "build" = some c.buildToJson := hget "build"
  have hread : buildOfJson? c.buildToJson = some (c.goroot, c.gopath) := by
    rw [buildToJson_eq]
    exact buildOfJson?_of_carries (carries_members _)
  simp [ofJson?, hr, Record.withDefault, hmarker, hstrict, hindent, hformatter, hbuild, hread, text?,
    bool?, tag?, ofTag?_tag]

theorem readsBack_toJson (c : Config) : ReadsBack c.toJson := by
  have hbuild : ReadsBack c.buildToJson := by
    rw [buildToJson_eq]
    refine readsBack_object fun m hm => ?_
    obtain ⟨marker, strict, indent, formatter, goroot, gopath⟩ := c
    have hm := mem_members.1 hm
    simp only [buildSlots, List.mem_cons, Prod.mk.injEq, List.not_mem_nil, or_false] at hm
    rcases hm with ⟨-, hv⟩ | ⟨-, hv⟩
    · obtain ⟨s, -, he⟩ := Option.map_eq_some_iff.1 hv.symm
      exact he ▸ readsBack_string s
    · split at hv
      · cases hv
      · exact Option.some.inj hv ▸ readsBack_strings gopath
  refine readsBack_object fun m hm => ?_
  simp only [List.mem_cons, List.not_mem_nil, or_false] at hm
  rcases hm with rfl | rfl | rfl | rfl | rfl
  · exact readsBack_string c.marker
  · exact readsBack_bool c.strict
  · exact readsBack_string c.indent
  · exact readsBack_string c.formatter.tag
  · exact hbuild

theorem load?_save (c : Config) : load? c.save = some c := by
  have hload : ofJson? c.toJson = some c := ofJson?_of_carries (carries_members _)
  rw [load?, save, ofText?_pretty c.readsBack_toJson, Option.bind_some, hload]

/-- Every configuration is loaded from the text that it is saved as. So a text that can be loaded
holds the same value once it is saved, and is saved as the same text from then on. -/
theorem load?_save_again :
    (∀ c : Config, load? c.save = some c) ∧
    ∀ text : List Char,
      (load? text).bind (fun c => load? c.save) = load? text ∧
      ((load? text).bind fun c => (load? c.save).map save) = (load? text).map save := by
  refine ⟨load?_save, fun text => ?_⟩
  cases load? text with
  | none => exact ⟨rfl, rfl⟩
  | some c => simp [load?_save]

end GoOutline.Config
