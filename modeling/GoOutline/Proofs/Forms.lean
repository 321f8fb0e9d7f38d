import Mathlib.Data.List.Nodup
import Mathlib.Data.List.Perm.Basic
import GoOutline.GoType.Json

/-!
The forms that a value may have in JSON. The members of an object count by their names: they may
come in any order, and others may stand between them. A value reads back from each of its forms, and
the one it is written in is among them.
-/

namespace GoOutline

namespace Json

/-- The members that an object may have, each with its value if it is there. -/
abbrev Slots := List (String × Option Json)

namespace Slots

def names (slots : Slots) : List String := slots.map Prod.fst

/-- The members that are there. -/
def members (slots : Slots) : List (String × Json) := slots.filterMap fun s => s.2.map (s.1, ·)

end Slots

/-- An object in which the names in question have the given values. -/
def Carries (slots : Slots) (j : Json) : Prop :=
  ∃ ms, j = .object ms ∧ (ms.filter fun m => slots.names.contains m.1).Perm slots.members

variable {slots : Slots} {j v : Json} {name : String} {ms : List (String × Json)}

theorem eraseDups_of_nodup {l : List String} (h : l.Nodup) : l.eraseDups = l := by
  induction l with
  | nil => rfl
  | cons a l ih =>
      obtain ⟨ha, hl⟩ := List.nodup_cons.1 h
      have hkeep : l.filter (fun b => !b == a) = l := by
        refine List.filter_eq_self.2 fun b hb => ?_
        have hne : b ≠ a := fun he => ha (he ▸ hb)
        simp [hne]
      rw [List.eraseDups_cons, hkeep, ih hl]

theorem lookup_eq_some_iff_mem {α : Type} {l : List (String × α)} (hl : (l.map Prod.fst).Nodup)
    {a : α} : l.lookup name = some a ↔ (name, a) ∈ l := by
  induction l with
  | nil => simp
  | cons e l ih =>
      obtain ⟨n, b⟩ := e
      obtain ⟨hn, hl⟩ := List.nodup_cons.1 hl
      rw [List.lookup_cons]
      by_cases he : name = n
      · subst he
        have hno : (name, a) ∉ l := fun hm => hn (List.mem_map.2 ⟨_, hm, rfl⟩)
        simp [hno, eq_comm]
      · have hne : (name == n) = false := beq_false_of_ne he
        simp [hne, he, ih hl]

theorem mem_members : (name, v) ∈ slots.members ↔ (name, some v) ∈ slots := by
  simp only [Slots.members, List.mem_filterMap, Option.map_eq_some_iff, Prod.mk.injEq]
  constructor
  · rintro ⟨⟨n, o⟩, hs, w, rfl, rfl, rfl⟩
    exact hs
  · intro hs
    exact ⟨_, hs, v, rfl, rfl, rfl⟩

theorem names_members (slots : Slots) : (slots.members.map Prod.fst).Sublist slots.names := by
  induction slots with
  | nil => exact .slnil
  | cons s slots ih =>
      obtain ⟨n, o⟩ := s
      cases o with
      | none => exact ih.cons n
      | some v => exact ih.cons_cons n

/-- The object with the members that are there and no others. -/
theorem carries_members (slots : Slots) : Carries slots (.object slots.members) := by
  refine ⟨slots.members, rfl, ?_⟩
  have hkeep : slots.members.filter (fun m => slots.names.contains m.1) = slots.members := by
    refine List.filter_eq_self.2 fun m hm => ?_
    rw [List.contains_iff_mem]
    exact (names_members slots).subset (List.mem_map_of_mem hm)
  rw [hkeep]

/-- An object is read as a record of the names in question, whatever other members it has. -/
theorem Carries.exists_record (names : List String) (h : Carries slots j)
    (hnames : slots.names = names) (hn : names.Nodup) :
    ∃ r : Record, Record.ofJson? names j = some r ∧ GoType.parts? names j = some r ∧
      ∀ name, r.get? name = (slots.lookup name).join := by
  subst hnames
  obtain ⟨ms, rfl, hp⟩ := h
  have hknown : ((ms.filter fun m => slots.names.contains m.1).map Prod.fst).Nodup :=
    (hp.map Prod.fst).nodup_iff.2 ((names_members slots).nodup hn)
  have hof : Record.ofMembers? slots.names ms =
      some ⟨ms.filter fun m => slots.names.contains m.1⟩ := by
    rw [Record.ofMembers?, eraseDups_of_nodup hknown, List.length_map, if_pos rfl]
  refine ⟨_, hof, hof, fun name => ?_⟩
  refine Option.ext fun v => ?_
  rw [Record.get?, lookup_eq_some_iff_mem hknown, hp.mem_iff, mem_members,
    ← lookup_eq_some_iff_mem hn, Option.join_eq_some_iff]

theorem depth_le_depthMembers (h : (name, v) ∈ ms) : depth v ≤ depthMembers ms := by
  induction ms with
  | nil => cases h
  | cons m ms ih =>
      obtain ⟨n, w⟩ := m
      rw [depthMembers]
      rcases List.mem_cons.1 h with he | h
      · cases he
        exact Nat.le_max_left _ _
      · exact Nat.le_trans (ih h) (Nat.le_max_right _ _)

/-- What is in an object is less deep than the object. -/
theorem Carries.depth_lt (h : Carries slots j) (hs : (name, some v) ∈ slots) : depth v < depth j := by
  obtain ⟨ms, rfl, hp⟩ := h
  have hm := (List.mem_filter.1 (hp.mem_iff.2 (mem_members.2 hs))).1
  exact Nat.lt_succ_of_le (depth_le_depthMembers hm)

theorem depth_lt_array {items : List Json} (h : v ∈ items) : depth v < depth (.array items) := by
  refine Nat.lt_succ_of_le ?_
  induction items with
  | nil => cases h
  | cons i items ih =>
      rw [depthItems]
      rcases List.mem_cons.1 h with rfl | h
      · exact Nat.le_max_left _ _
      · exact Nat.le_trans (ih h) (Nat.le_max_right _ _)

end Json

open Json

def Annotation.slots (a : Annotation) : Slots :=
  [("name", some (.string a.name)), ("args", if a.args.isEmpty then none else some (strings a.args))]

def Annotation.Form (a : Annotation) : Json → Prop := Carries a.slots

def Import.slots (i : Import) : Slots :=
  [("alias", i.localName.map .string), ("path", some (.string i.path)),
    ("package", i.package.map .string), ("dir", i.dir.map .string)]

def Import.Form (i : Import) : Json → Prop := Carries i.slots

namespace GoType

/-- A kind with its value. -/
def kindSlots (kind : String) (value : Json) : Slots :=
  [("kind", some (.string kind)), ("value", some value)]

def parameterSlots (name : Option String) (type : Json) (variadic : Bool) : Slots :=
  [("name", name.map .string), ("type", some type),
    ("variadic", if variadic then some (.bool true) else none)]

mutual

inductive Form : GoType → Json → Prop
  | simple {name : String} {j : Json} (h : Carries (kindSlots "simple" (.string name)) j) :
      Form (.simple name) j
  | imported {name : String} {origin : Import} {i v j : Json} (hi : origin.Form i)
      (hv : Carries [("name", some (.string name)), ("import", some i)] v)
      (h : Carries (kindSlots "imported" v) j) : Form (.imported name origin) j
  | pointer {elem : GoType} {v j : Json} (hv : Form elem v) (h : Carries (kindSlots "pointer" v) j) :
      Form (.pointer elem) j
  | array {length : Option String} {elem : GoType} {e v j : Json} (he : Form elem e)
      (hv : Carries [("len", length.map .string), ("elem", some e)] v)
      (h : Carries (kindSlots "array" v) j) : Form (.array length elem) j
  | map {key value : GoType} {k e v j : Json} (hk : Form key k) (he : Form value e)
      (hv : Carries [("key", some k), ("value", some e)] v) (h : Carries (kindSlots "map" v) j) :
      Form (.map key value) j
  | function {params results : List Parameter} {ps rs : List Json} {v j : Json}
      (hp : FormList params ps) (hr : FormList results rs)
      (hv : Carries [("params", some (.array ps)), ("results", some (.array rs))] v)
      (h : Carries (kindSlots "function" v) j) : Form (.function params results) j
  | raw {text : String} {j : Json} (h : Carries (kindSlots "raw" (.string text)) j) :
      Form (.raw text) j

inductive ParameterForm : Parameter → Json → Prop
  | mk {name : Option String} {type : GoType} {variadic : Bool} {t j : Json} (ht : Form type t)
      (h : Carries (parameterSlots name t variadic) j) : ParameterForm (.mk name type variadic) j

inductive FormList : List Parameter → List Json → Prop
  | nil : FormList [] []
  | cons {p : Parameter} {ps : List Parameter} {j : Json} {js : List Json} (h : ParameterForm p j)
      (hs : FormList ps js) : FormList (p :: ps) (j :: js)

end

end GoType

def Parameter.Form : Parameter → Json → Prop := GoType.ParameterForm

theorem mapM_text?_strings (texts : List String) : (texts.map Json.string).mapM text? = some texts := by
  induction texts with
  | nil => rfl
  | cons t texts ih =>
      rw [List.map_cons, List.mapM_cons, ih]
      rfl

/-- What is not there reads as nothing. -/
theorem withDefault_nullable? {r : Record} {name : String} {o : Option String}
    (h : r.get? name = o.map .string) : r.withDefault name none (nullable? text?) = some o := by
  cases o with
  | none => simp only [Record.withDefault, h, Option.map_none]
  | some t =>
      simp only [Record.withDefault, h, Option.map_some]
      rfl

theorem required_of_get? {α : Type} {r : Record} {name : String} {v : Json} {a : α}
    {read : Json → Option α} (h : r.get? name = some v) (hv : read v = some a) :
    r.required name read = some a := by
  rw [Record.required, h, Option.bind_some, hv]

namespace Annotation

variable {a : Annotation} {j : Json}

theorem form_toJson (a : Annotation) : a.Form a.toJson := by
  have h : a.toJson = .object a.slots.members := by
    obtain ⟨name, args⟩ := a
    cases args <;> rfl
  rw [h]
  exact carries_members _

theorem ofJson?_of_form (h : a.Form j) : ofJson? j = some a := by
  obtain ⟨r, hr, -, hget⟩ := Carries.exists_record ["name", "args"] h rfl (by decide)
  have hname : r.required "name" text? = some a.name := required_of_get? (hget "name") rfl
  have hargs : r.withDefault "args" [] (listOf? text?) = some a.args := by
    have h := hget "args"
    obtain ⟨name, args⟩ := a
    cases args with
    | nil => simp only [Record.withDefault, show r.get? "args" = none from h]
    | cons arg args =>
        simp only [Record.withDefault, show r.get? "args" = some (strings (arg :: args)) from h]
        exact mapM_text?_strings (arg :: args)
  simp [ofJson?, hr, hname, hargs]

end Annotation

namespace Import

variable {i : Import} {j : Json}

theorem form_toJson (i : Import) : i.Form i.toJson := by
  have h : i.toJson = .object i.slots.members := by
    obtain ⟨name, path, package, dir⟩ := i
    cases name <;> cases package <;> cases dir <;> rfl
  rw [h]
  exact carries_members _

theorem ofJson?_of_form (h : i.Form j) : ofJson? j = some i := by
  obtain ⟨r, hr, -, hget⟩ :=
    Carries.exists_record ["alias", "path", "package", "dir"] h rfl (by decide)
  have halias := withDefault_nullable? (o := i.localName) (hget "alias")
  have hpath : r.required "path" text? = some i.path := required_of_get? (hget "path") rfl
  have hpackage := withDefault_nullable? (o := i.package) (hget "package")
  have hdir := withDefault_nullable? (o := i.dir) (hget "dir")
  simp [ofJson?, hr, halias, hpath, hpackage, hdir]

end Import

namespace GoType

/-- What kind an object says, and the value that goes with it. -/
theorem Carries.exists_kind {kind : String} {v j : Json} (h : Carries (kindSlots kind v) j) :
    ∃ r : Record, Record.ofJson? ["kind", "value"] j = some r ∧
      r.required "kind" tag? = some kind ∧ r.get? "value" = some v := by
  obtain ⟨r, hr, -, hget⟩ := Carries.exists_record ["kind", "value"] h rfl (by decide)
  exact ⟨r, hr, required_of_get? (hget "kind") rfl, hget "value"⟩

theorem depth_kind {kind : String} {v j : Json} (h : Carries (kindSlots kind v) j) :
    depth v < depth j :=
  h.depth_lt (.tail _ (.head _))

mutual

/-- A bound above the depth of a form is enough to read it. -/
theorem read_of_form : ∀ {t : GoType} {j : Json} {n : Nat}, Form t j → depth j < n →
    read n j = some t
  | _, _, 0, _, hn => absurd hn (Nat.not_lt_zero _)
  | _, j, n + 1, .simple h, hn => by
      obtain ⟨r, hr, hk, hv⟩ := Carries.exists_kind h
      simp [read, hr, hk, hv, text?]
  | _, j, n + 1, .raw h, hn => by
      obtain ⟨r, hr, hk, hv⟩ := Carries.exists_kind h
      simp [read, hr, hk, hv, text?]
  | _, j, n + 1, .imported hi hvalue h, hn => by
      obtain ⟨r, hr, hk, hv⟩ := Carries.exists_kind h
      obtain ⟨q, -, hq, hget⟩ := Carries.exists_record ["name", "import"] hvalue rfl (by decide)
      have hname : q.required "name" text? = some _ := required_of_get? (hget "name") rfl
      have himport := required_of_get? (hget "import") (Import.ofJson?_of_form hi)
      simp [read, hr, hk, hv, hq, hname, himport]
  | _, j, n + 1, .pointer hform h, hn => by
      obtain ⟨r, hr, hk, hv⟩ := Carries.exists_kind h
      have hd := depth_kind h
      have ih := read_of_form (n := n) hform (by omega)
      simp [read, hr, hk, hv, ih]
  | _, j, n + 1, .array helem hvalue h, hn => by
      obtain ⟨r, hr, hk, hv⟩ := Carries.exists_kind h
      obtain ⟨q, -, hq, hget⟩ := Carries.exists_record ["len", "elem"] hvalue rfl (by decide)
      have hd := depth_kind h
      have hde := hvalue.depth_lt (.tail _ (.head _))
      have hlen := withDefault_nullable? (hget "len")
      have hread := required_of_get? (hget "elem") (read_of_form (n := n) helem (by omega))
      simp [read, hr, hk, hv, hq, hlen, hread]
  | _, j, n + 1, .map hkey helem hvalue h, hn => by
      obtain ⟨r, hr, hk, hv⟩ := Carries.exists_kind h
      obtain ⟨q, -, hq, hget⟩ := Carries.exists_record ["key", "value"] hvalue rfl (by decide)
      have hd := depth_kind h
      have hdk := hvalue.depth_lt (.head _)
      have hde := hvalue.depth_lt (.tail _ (.head _))
      have hkeys := required_of_get? (hget "key") (read_of_form (n := n) hkey (by omega))
      have helems := required_of_get? (hget "value") (read_of_form (n := n) helem (by omega))
      simp [read, hr, hk, hv, hq, hkeys, helems]
  | _, j, n + 1, .function hparams hresults hvalue h, hn => by
      obtain ⟨r, hr, hk, hv⟩ := Carries.exists_kind h
      obtain ⟨q, -, hq, hget⟩ := Carries.exists_record ["params", "results"] hvalue rfl (by decide)
      have hd := depth_kind h
      have hdp := hvalue.depth_lt (.head _)
      have hdr := hvalue.depth_lt (.tail _ (.head _))
      have hps := required_of_get? (hget "params") (readList_of_form (n := n) hparams (by omega))
      have hrs := required_of_get? (hget "results") (readList_of_form (n := n) hresults (by omega))
      simp [read, hr, hk, hv, hq, hps, hrs]

theorem readParameter_of_form : ∀ {p : Parameter} {j : Json} {n : Nat}, ParameterForm p j →
    depth j < n → readParameter n j = some p
  | _, _, 0, _, hn => absurd hn (Nat.not_lt_zero _)
  | .mk _ _ variadic, j, n + 1, .mk htype h, hn => by
      obtain ⟨r, hr, -, hget⟩ :=
        Carries.exists_record ["name", "type", "variadic"] h rfl (by decide)
      have hd := h.depth_lt (.tail _ (.head _))
      have hname := withDefault_nullable? (hget "name")
      have hread := required_of_get? (hget "type") (read_of_form (n := n) htype (by omega))
      have hvariadic : r.withDefault "variadic" false bool? = some variadic := by
        have hslot := hget "variadic"
        cases variadic with
        | false => simp only [Record.withDefault, show r.get? "variadic" = none from hslot]
        | true =>
            simp only [Record.withDefault, show r.get? "variadic" = some (.bool true) from hslot]
            rfl
      simp [readParameter, hr, hname, hread, hvariadic]

theorem readList_of_form : ∀ {ps : List Parameter} {js : List Json} {n : Nat}, FormList ps js →
    depth (.array js) ≤ n → listOf? (readParameter n) (.array js) = some ps
  | _, _, _, .nil, _ => rfl
  | _, j :: js, n, .cons h hs, hn => by
      have hd : depth j < depth (.array (j :: js)) := depth_lt_array List.mem_cons_self
      have hds : depth (.array js) ≤ depth (.array (j :: js)) :=
        Nat.succ_le_succ (Nat.le_max_right _ _)
      have ih := readParameter_of_form (n := n) h (by omega)
      have ihs := readList_of_form (n := n) hs (by omega)
      rw [listOf?] at ihs ⊢
      rw [List.mapM_cons, ih, ihs]
      rfl

end

mutual

theorem form_toJson : ∀ t : GoType, Form t t.toJson
  | .simple _ => .simple (carries_members _)
  | .imported _ origin => .imported origin.form_toJson (carries_members _) (carries_members _)
  | .pointer elem => .pointer (form_toJson elem) (carries_members _)
  | .array none elem => .array (form_toJson elem) (carries_members _) (carries_members _)
  | .array (some _) elem => .array (form_toJson elem) (carries_members _) (carries_members _)
  | .map key value =>
      .map (form_toJson key) (form_toJson value) (carries_members _) (carries_members _)
  | .function params results =>
      .function (formList_toJson params) (formList_toJson results) (carries_members _)
        (carries_members _)
  | .raw _ => .raw (carries_members _)

theorem form_parameterToJson : ∀ p : Parameter, ParameterForm p (parameterToJson p)
  | .mk none type false => .mk (form_toJson type) (carries_members _)
  | .mk none type true => .mk (form_toJson type) (carries_members _)
  | .mk (some _) type false => .mk (form_toJson type) (carries_members _)
  | .mk (some _) type true => .mk (form_toJson type) (carries_members _)

theorem formList_toJson : ∀ ps : List Parameter, FormList ps (listToJson ps)
  | [] => .nil
  | p :: ps => .cons (form_parameterToJson p) (formList_toJson ps)

end

end GoType

/-- Types, parameters, imports and annotations can be read from the JSON that they are written as,
and from every other form of it, whatever members have been added to its objects and however their
members are ordered, at any depth. -/
theorem ofJson?_form :
    (∀ t : GoType, GoType.ofJson? t.toJson = some t ∧ t.Form t.toJson ∧
      ∀ j, t.Form j → GoType.ofJson? j = some t) ∧
    (∀ p : Parameter, Parameter.ofJson? p.toJson = some p ∧ p.Form p.toJson ∧
      ∀ j, p.Form j → Parameter.ofJson? j = some p) ∧
    (∀ i : Import, Import.ofJson? i.toJson = some i ∧ i.Form i.toJson ∧
      ∀ j, i.Form j → Import.ofJson? j = some i) ∧
    ∀ a : Annotation, Annotation.ofJson? a.toJson = some a ∧ a.Form a.toJson ∧
      ∀ j, a.Form j → Annotation.ofJson? j = some a := by
  have htype (t : GoType) (j : Json) (h : t.Form j) : GoType.ofJson? j = some t :=
    GoType.read_of_form h (Nat.lt_succ_self _)
  have hparam (p : Parameter) (j : Json) (h : p.Form j) : Parameter.ofJson? j = some p :=
    GoType.readParameter_of_form h (Nat.lt_succ_self _)
  refine ⟨fun t => ?_, fun p => ?_, fun i => ?_, fun a => ?_⟩
  · exact ⟨htype t _ t.form_toJson, t.form_toJson, htype t⟩
  · exact ⟨hparam p _ (GoType.form_parameterToJson p), GoType.form_parameterToJson p, hparam p⟩
  · exact ⟨i.ofJson?_of_form i.form_toJson, i.form_toJson, fun j h => i.ofJson?_of_form h⟩
  · exact ⟨a.ofJson?_of_form a.form_toJson, a.form_toJson, fun j h => a.ofJson?_of_form h⟩

/-- More members on every level, known names of other levels among them, and the value of a type in
front of its kind. -/
theorem ofJson?_form_more_members :
    let imported : GoType := .imported "T" ⟨none, "p", none, none⟩
    let array : GoType := .array (some "4") imported
    let origin : Json := .object [("extra", .null), ("path", .string "p")]
    let u : Json := .object [("import", origin), ("doc", .bool true), ("name", .string "T")]
    let e : Json := .object [("value", u), ("x", .null), ("kind", .string "imported")]
    let v : Json := .object [("elem", e), ("len", .string "4"), ("more", .array [])]
    let a : Json := .object [("value", v), ("kind", .string "array")]
    let p : Json :=
      .object [("variadic", .bool true), ("type", a), ("kind", .null), ("name", .string "a")]
    let w : Json := .object [("results", .array []), ("params", .array [p]), ("kind", .null)]
    let j : Json := .object [("value", w), ("params", .null), ("kind", .string "function")]
    GoType.Form (.function [.mk (some "a") array true] []) j ∧
      GoType.ofJson? j = some (.function [.mk (some "a") array true] []) := by
  intro imported array origin u e v a p w j
  have horigin : Import.Form ⟨none, "p", none, none⟩ origin := ⟨_, rfl, .refl _⟩
  have hu : Carries [("name", some (.string "T")), ("import", some origin)] u :=
    ⟨_, rfl, .swap _ _ _⟩
  have he : GoType.Form imported e := .imported horigin hu ⟨_, rfl, .swap _ _ _⟩
  have hv : Carries [("len", some (.string "4")), ("elem", some e)] v := ⟨_, rfl, .swap _ _ _⟩
  have ha : GoType.Form array a := .array he hv ⟨_, rfl, .swap _ _ _⟩
  have hp : GoType.ParameterForm (.mk (some "a") array true) p :=
    .mk ha ⟨_, rfl, List.reverse_perm (GoType.parameterSlots (some "a") a true).members⟩
  have hw : Carries [("params", some (.array [p])), ("results", some (.array []))] w :=
    ⟨_, rfl, .swap _ _ _⟩
  have hform : GoType.Form (.function [.mk (some "a") array true] []) j :=
    .function (.cons hp .nil) .nil hw ⟨_, rfl, .swap _ _ _⟩
  exact ⟨hform, (ofJson?_form.1 _).2.2 j hform⟩

end GoOutline
