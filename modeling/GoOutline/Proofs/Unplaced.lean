import GoOutline.Proofs.Neighbours

/-!
What an outline says, and not where. Two outlines that differ in nothing but places stay so where the
same declaration of both gives way to declarations that differ in nothing but places.
-/

namespace GoOutline

namespace Table

variable {α β : Type}

/-- A table with the values that a function makes of its values. -/
def map (f : α → β) (t : Table α) : Table β :=
  ⟨t.entries.map fun e => (e.1, f e.2), by simpa [Function.comp_def] using t.nodup⟩

@[simp] theorem names_map (f : α → β) (t : Table α) : (t.map f).names = t.names := by
  simp [map, names]

theorem get?_map (f : α → β) (t : Table α) (name : String) :
    (t.map f).get? name = (t.get? name).map f := by
  obtain ⟨entries, hnodup⟩ := t
  simp only [get?, map]
  clear hnodup
  induction entries with
  | nil => rfl
  | cons e entries ih =>
      obtain ⟨key, a⟩ := e
      simp only [List.map_cons, List.lookup_cons, ih]
      cases name == key <;> rfl

theorem map_insertNew (f : α → β) (t : Table α) (name : String) (a : α) :
    (t.insertNew name a).map f = (t.map f).insertNew name (f a) := by
  have hnames : (t.map f).entries.map Prod.fst = t.entries.map Prod.fst := names_map f t
  by_cases h : name ∈ t.entries.map Prod.fst
  · rw [insertNew, insertNew, dif_pos h, dif_pos (hnames ▸ h)]
  · rw [insertNew, insertNew, dif_neg h, dif_neg (hnames ▸ h)]
    simp [map]

theorem map_ofFirst (f : α → β) (es : List (String × α)) :
    (ofFirst es).map f = ofFirst (es.map fun e => (e.1, f e.2)) := by
  have hfold (t : Table α) : (es.foldl (fun t e => t.insertNew e.1 e.2) t).map f =
      (es.map fun e => (e.1, f e.2)).foldl (fun t e => t.insertNew e.1 e.2) (t.map f) := by
    induction es generalizing t with
    | nil => rfl
    | cons e es ih => rw [List.foldl_cons, ih, map_insertNew, List.map_cons, List.foldl_cons]
  exact hfold empty

/-- A table is told by its names and what they stand for. -/
theorem ext_get? {t u : Table α} (hn : t.names = u.names) (hg : ∀ name, t.get? name = u.get? name) :
    t = u := by
  have hentries (t : Table α) : t.entries.map some = t.names.map fun name =>
      (t.get? name).map (name, ·) := by
    rw [names, List.map_map]
    refine List.map_congr_left fun e he => ?_
    obtain ⟨front, back, hsplit⟩ := List.append_of_mem he
    have hnodup := t.nodup
    rw [hsplit, List.map_append, List.map_cons, List.nodup_append] at hnodup
    have hget : t.get? e.1 = some e.2 := by
      refine List.lookup_eq_some_iff.2 ⟨front, back, hsplit, fun x hx => bne_iff_ne.2 fun hk => ?_⟩
      exact hnodup.2.2 x.1 (List.mem_map_of_mem hx) e.1 List.mem_cons_self hk.symm
    simp [hget]
  refine eq_of_entries (List.map_injective_iff.2 (Option.some_injective _) ?_)
  rw [hentries, hentries, hn]
  exact List.map_congr_left fun name _ => by rw [hg]

end Table

namespace Outline

def Field.unplaced (f : Field) : Field := { f with span := default }

def Structure.unplaced (s : Structure) : Structure :=
  { s with span := default, inner := default, fields := s.fields.map Field.unplaced }

def Method.unplaced (m : Method) : Method := { m with span := default }

def Interface.unplaced (i : Interface) : Interface :=
  { i with span := default, inner := default, methods := i.methods.map Method.unplaced }

def Function.unplaced (f : Function) : Function :=
  { f with
    span := default, inner := f.inner.map fun _ => default, paramsSpan := default,
    lastParamEnd := f.lastParamEnd.map fun _ => default }

/-- What is declared, but for its places. -/
def Declared.unplaced : Declared → Declared
  | .struct s => .struct s.unplaced
  | .interface i => .interface i.unplaced
  | .function f => .function f.unplaced

@[simp] theorem Declared.unplaced_via (b : Nat → Nat) (d : Declared) :
    (d.via b).unplaced = d.unplaced := by
  cases d with
  | struct s => simp [via, unplaced, Structure.via, Structure.unplaced, Field.via, Field.unplaced]
  | interface i =>
      simp [via, unplaced, Interface.via, Interface.unplaced, Method.via, Method.unplaced]
  | function f =>
      simp [via, unplaced, Function.via, Function.unplaced, Function.comp_def]

/-- An outline without its text and without the places of what is declared. -/
def unplaced (o : Outline) : Outline :=
  { o with
    text := []
    structures := o.structures.map Structure.unplaced
    interfaces := o.interfaces.map Interface.unplaced
    functions := o.functions.map Function.unplaced }

variable {o p o' p' : Outline} {d d' : Declared} {target : TargetKind × String}

theorem declared?_unplaced (o : Outline) (target : TargetKind × String) :
    o.unplaced.declared? target = (o.declared? target).map Declared.unplaced := by
  obtain ⟨kind, name⟩ := target
  cases kind with
  | struct => simp [declared?, structure?, unplaced, Table.get?_map, Function.comp_def, Declared.unplaced]
  | interface =>
      simp [declared?, interface?, unplaced, Table.get?_map, Function.comp_def, Declared.unplaced]
  | function =>
      simp [declared?, function?, unplaced, Table.get?_map, Function.comp_def, Declared.unplaced]

/-- Outlines with the same head and the same names, that stand for the same but for its places. -/
theorem unplaced_eq (hpackage : o.package = p.package) (hend : o.packageEnd = p.packageEnd)
    (himports : o.imports = p.imports) (hdecls : o.importDecls = p.importDecls)
    (hs : o.structures.names = p.structures.names) (hi : o.interfaces.names = p.interfaces.names)
    (hf : o.functions.names = p.functions.names)
    (hd : ∀ target, (o.declared? target).map Declared.unplaced =
      (p.declared? target).map Declared.unplaced) : o.unplaced = p.unplaced := by
  have hall (target : TargetKind × String) :
      o.unplaced.declared? target = p.unplaced.declared? target := by
    rw [declared?_unplaced, declared?_unplaced, hd]
  have hstructures : o.unplaced.structures = p.unplaced.structures := by
    refine Table.ext_get? (by simpa [unplaced] using hs) fun name => ?_
    exact Option.map_injective (fun _ _ => Declared.struct.inj) (hall (.struct, name))
  have hinterfaces : o.unplaced.interfaces = p.unplaced.interfaces := by
    refine Table.ext_get? (by simpa [unplaced] using hi) fun name => ?_
    exact Option.map_injective (fun _ _ => Declared.interface.inj) (hall (.interface, name))
  have hfunctions : o.unplaced.functions = p.unplaced.functions := by
    refine Table.ext_get? (by simpa [unplaced] using hf) fun name => ?_
    exact Option.map_injective (fun _ _ => Declared.function.inj) (hall (.function, name))
  simp only [unplaced, Outline.mk.injEq] at hstructures hinterfaces hfunctions ⊢
  exact ⟨hpackage, hend, trivial, himports, hdecls, hstructures, hinterfaces, hfunctions⟩

/-- What declarations are but for their places is what tabulates an outline without places. -/
theorem Tabulates.unplaced {ds : List Declared} (h : o.Tabulates ds) :
    o.unplaced.Tabulates (ds.map Declared.unplaced) := by
  have hview {α : Type} {f : α → α} {view : Declared → Option α} {name : α → String}
      (hv : ∀ d : Declared, view d.unplaced = (view d).map f) (hn : ∀ a, name (f a) = name a) :
      (Table.ofFirst ((ds.filterMap view).map fun a => (name a, a))).map f =
        .ofFirst (((ds.map Declared.unplaced).filterMap view).map fun a => (name a, a)) := by
    have hlist : (ds.map Declared.unplaced).filterMap view = (ds.filterMap view).map f := by
      rw [List.filterMap_map, List.map_filterMap]
      exact List.filterMap_congr fun d _ => hv d
    rw [Table.map_ofFirst, hlist, List.map_map, List.map_map]
    simp only [Function.comp_def, hn]
  constructor
  · simp only [Outline.unplaced, h.structures]
    exact hview (fun d => by cases d <;> rfl) fun _ => rfl
  · simp only [Outline.unplaced, h.interfaces]
    exact hview (fun d => by cases d <;> rfl) fun _ => rfl
  · simp only [Outline.unplaced, h.functions]
    exact hview (fun d => by cases d <;> rfl) fun _ => rfl

/-- Outlines with the same head are told apart by nothing but places if their declarations are. -/
theorem SameHead.unplaced_congr {q : Outline} {ds es : List Declared} (ho : q.SameHead o)
    (hp : q.SameHead p) (hds : o.Tabulates ds) (hes : p.Tabulates es)
    (h : ds.map Declared.unplaced = es.map Declared.unplaced) : o.unplaced = p.unplaced := by
  obtain ⟨hs, hi, hf⟩ := hds.unplaced
  obtain ⟨hs', hi', hf'⟩ := hes.unplaced
  rw [h] at hs hi hf
  have hstructures := hs.trans hs'.symm
  have hinterfaces := hi.trans hi'.symm
  have hfunctions := hf.trans hf'.symm
  simp only [Outline.unplaced, Outline.mk.injEq] at hstructures hinterfaces hfunctions ⊢
  exact ⟨ho.package.trans hp.package.symm, ho.packageEnd.trans hp.packageEnd.symm, trivial,
    ho.imports.trans hp.imports.symm, ho.importDecls.trans hp.importDecls.symm, hstructures, hinterfaces,
    hfunctions⟩

/-- What a declaration gives way to shows where it stands, and nothing else does. -/
theorem Moves.declared?_unplaced {u : List Char} {n : Nat} {b : Nat → Nat}
    (h : o.Moves target d u n b p) (other : TargetKind × String) :
    (p.declared? other).map Declared.unplaced =
      if other = target then some d.unplaced else (o.declared? other).map Declared.unplaced := by
  obtain ⟨ds, es, -, -, hself, hother⟩ := h.declared?_eq
  split
  next ht => rw [ht, hself, Option.map_some]
  next ht =>
    obtain ⟨ho, hp⟩ := hother other ht
    have hunplaced : Declared.unplaced ∘ Declared.via b = Declared.unplaced :=
      funext fun e => e.unplaced_via b
    rw [ho, hp, Option.map_or, Option.map_or, Option.map_map, hunplaced]

/-- Outlines that differ in nothing but places do so where one declaration of theirs gives way to
declarations that differ in nothing but places. -/
theorem Moves.unplaced_congr {u u' : List Char} {n n' : Nat} {b b' : Nat → Nat}
    (h : o.Moves target d u n b p) (h' : o'.Moves target d' u' n' b' p') (hs : o.Spared target p)
    (hs' : o'.Spared target p') (ho : o.unplaced = o'.unplaced) (hd : d.unplaced = d'.unplaced) :
    p.unplaced = p'.unplaced := by
  have hnames {α : Type} {R R' : α → α → Prop} {f : α → α} {t t' v v' : Table α}
      (ht : t.Matches R v) (ht' : t'.Matches R' v') (he : t.map f = t'.map f) : v.names = v'.names := by
    rw [← ht.names, ← ht'.names, ← Table.names_map f t, he, Table.names_map]
  have hhead := ho
  simp only [unplaced, Outline.mk.injEq] at hhead
  obtain ⟨hpackage, hend, -, himports, hdecls, hst, hin, hfn⟩ := hhead
  refine unplaced_eq (by rw [h.package, h'.package, hpackage]) (by rw [h.packageEnd, h'.packageEnd, hend])
    (by rw [h.imports, h'.imports, himports]) (by rw [h.importDecls, h'.importDecls, hdecls])
    (hnames hs.structures hs'.structures hst) (hnames hs.interfaces hs'.interfaces hin)
    (hnames hs.functions hs'.functions hfn) fun other => ?_
  rw [h.declared?_unplaced, h'.declared?_unplaced, hd, ← Outline.declared?_unplaced,
    ← Outline.declared?_unplaced, ho]

end Outline

end GoOutline
