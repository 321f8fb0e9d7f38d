import GoOutline.Outline.Read

/-!
Types read off the nodes of a raw syntax tree. A node can be anything, so reading it can fail, and
whatever cannot be read is passed over. Nothing is, where the nodes are those of a type.
-/

namespace GoOutline

open Syntax

/-- A node with its named children, each with the field that it fills, and the marks between them. -/
inductive RawNode where
  | mk (kind text : String) (broken : Bool) (marks : List String)
    (children : List (Option String × RawNode))

namespace RawNode

def kind : RawNode → String
  | mk k _ _ _ _ => k

def text : RawNode → String
  | mk _ t _ _ _ => t

/-- An error stands somewhere in the node. -/
def broken : RawNode → Bool
  | mk _ _ b _ _ => b

def marks : RawNode → List String
  | mk _ _ _ ms _ => ms

def children : RawNode → List (Option String × RawNode)
  | mk _ _ _ _ cs => cs

abbrev Part (n : RawNode) : Type := { c : RawNode // sizeOf c < sizeOf n }

theorem sizeOf_lt_of_mem {n : RawNode} {c : Option String × RawNode} (h : c ∈ n.children) :
    sizeOf c.2 < sizeOf n := by
  obtain ⟨k, t, b, ms, cs⟩ := n
  have hlt := List.sizeOf_lt_of_mem (show c ∈ cs from h)
  obtain ⟨f, m⟩ := c
  simp only [Prod.mk.sizeOf_spec, mk.sizeOf_spec] at hlt ⊢
  omega

def parts (n : RawNode) : List (Option String × n.Part) :=
  n.children.attach.map fun c => (c.1.1, ⟨c.1.2, sizeOf_lt_of_mem c.2⟩)

/-- The first child in a field. -/
def child? (n : RawNode) (field : String) : Option n.Part :=
  (n.parts.find? (·.1 == some field)).map (·.2)

/-- The texts of the children in a field. -/
def texts (n : RawNode) (field : String) : List String :=
  (n.children.filter (·.1 == some field)).map (·.2.text)

/-- The first child that is no comment. -/
def first? (n : RawNode) : Option n.Part := (n.parts.map (·.2)).find? (·.val.kind != "comment")

end RawNode

/-- The text of a node that is no type. -/
structure Unsupported where
  text : String
deriving DecidableEq, Repr

namespace Scope

/-- A qualified name that lacks a part is kept as its text. -/
def qualified (s : Scope) (n : RawNode) : GoType :=
  match n.child? "package", n.child? "name" with
  | some p, some name =>
    match s.import? p.val.text with
    | some origin => .imported name.val.text origin
    | none => .raw n.text
  | _, _ => .raw n.text

mutual

def resolve (s : Scope) (n : RawNode) : Except Unsupported GoType :=
  if n.broken then .error ⟨n.text⟩
  else match n.kind with
  | "type_identifier" | "identifier" => .ok (.simple n.text)
  | "qualified_type" => .ok (s.qualified n)
  | "pointer_type" =>
    match n.first? with
    | some ⟨elem, _⟩ => .pointer <$> s.resolve elem
    | none => .error ⟨n.text⟩
  | "slice_type" =>
    match n.child? "element" with
    | some ⟨elem, _⟩ => .array none <$> s.resolve elem
    | none => .error ⟨n.text⟩
  | "array_type" =>
    match n.child? "length", n.child? "element" with
    | some ⟨length, _⟩, some ⟨elem, _⟩ => .array (some length.text) <$> s.resolve elem
    | _, _ => .error ⟨n.text⟩
  | "map_type" =>
    match n.child? "key" with
    | none => .error ⟨n.text⟩
    | some ⟨key, _⟩ => do
      let key ← s.resolve key
      match n.child? "value" with
      | some ⟨value, _⟩ => .map key <$> s.resolve value
      | none => .error ⟨n.text⟩
  | "function_type" =>
    match n.child? "parameters" with
    | some ⟨params, _⟩ =>
      match n.child? "result" with
      | some ⟨result, _⟩ => .ok (.function (s.parameters params) (s.results result))
      | none => .ok (.function (s.parameters params) [])
    | none => .error ⟨n.text⟩
  | _ => .ok (.raw n.text)
termination_by (sizeOf n, 2)

/-- The parameters in a list. A child that is no declaration, or one without a type, is passed
over. -/
def parameters (s : Scope) (list : RawNode) : List Parameter :=
  list.parts.flatMap fun c => s.declared c.2.val
termination_by (sizeOf list, 0)
decreasing_by exact Prod.Lex.left _ _ c.2.property

def declared (s : Scope) (decl : RawNode) : List Parameter :=
  if decl.kind == "parameter_declaration" || decl.kind == "variadic_parameter_declaration" then
    match decl.child? "type" with
    | none => []
    | some ⟨type, _⟩ =>
      match s.resolve type with
      | .error _ => []
      | .ok t =>
        let variadic := decl.kind == "variadic_parameter_declaration"
        match decl.texts "name" with
        | [] => [.mk none t variadic]
        | names => names.map fun name => .mk (some name) t variadic
  else []
termination_by (sizeOf decl, 1)

/-- A list of parameters or a type alone. -/
def results (s : Scope) (result : RawNode) : List Parameter :=
  if result.kind == "parameter_list" then s.parameters result
  else match s.resolve result with
  | .ok t => [.mk none t false]
  | .error _ => []
termination_by (sizeOf result, 3)

end

end Scope

namespace RawNode

def isComment (c : Option String × RawNode) : Bool := c.1 == none && c.2.kind == "comment"

/-- The children without the comments. -/
def bare (n : RawNode) : List (Option String × RawNode) := n.children.filter (!isComment ·)

/-- A node without errors. -/
structure Is (n : RawNode) (kind text : String) : Prop where
  kind : n.kind = kind
  text : n.text = text
  whole : n.broken = false

/-- The kinds of the types that have no form of their own. -/
def keptKinds : List String :=
  ["generic_type", "struct_type", "interface_type", "channel_type", "negated_type",
    "parenthesized_type"]

end RawNode

open RawNode

mutual

/-- A node is that of a type. Comments may stand anywhere in it, and errors nowhere. -/
inductive Shows (s : Scope) : RawNode → TypeExpr → Prop where
  | name {n : RawNode} {span : Span} {id kind : String}
      (hkind : kind = "type_identifier" ∨ kind = "identifier") (hn : n.Is kind id) :
      Shows s n (.name span id)
  | qualified {n p name : RawNode} {span : Span} {package id : String}
      (hn : n.Is "qualified_type" (s.slice span))
      (hcs : n.bare = [(some "package", p), (some "name", name)]) (hp : p.text = package)
      (hname : name.text = id) : Shows s n (.qualified span package id)
  | pointer {n m : RawNode} {span : Span} {elem : TypeExpr}
      (hn : n.Is "pointer_type" (s.slice span)) (hcs : n.bare = [(none, m)])
      (h : Shows s m elem) : Shows s n (.pointer span elem)
  | slice {n m : RawNode} {span : Span} {elem : TypeExpr}
      (hn : n.Is "slice_type" (s.slice span)) (hcs : n.bare = [(some "element", m)])
      (h : Shows s m elem) : Shows s n (.slice span elem)
  | array {n l m : RawNode} {span length : Span} {elem : TypeExpr}
      (hn : n.Is "array_type" (s.slice span))
      (hcs : n.bare = [(some "length", l), (some "element", m)]) (hl : l.text = s.slice length)
      (h : Shows s m elem) : Shows s n (.array span length elem)
  | map {n k v : RawNode} {span : Span} {key value : TypeExpr}
      (hn : n.Is "map_type" (s.slice span)) (hcs : n.bare = [(some "key", k), (some "value", v)])
      (hkey : Shows s k key) (hvalue : Shows s v value) : Shows s n (.map span key value)
  | function {n list : RawNode} {result : List (Option String × RawNode)} {span : Span}
      {params results : List ParamDecl} (hn : n.Is "function_type" (s.slice span))
      (hcs : n.bare = (some "parameters", list) :: result) (hparams : ShowsList s list params)
      (hresults : ShowsResult s result results) : Shows s n (.function span params results)
  | other {n : RawNode} {span : Span} {kind : String} (hkind : kind ∈ keptKinds)
      (hn : n.Is kind (s.slice span)) : Shows s n (.other span)

inductive ShowsList (s : Scope) : RawNode → List ParamDecl → Prop where
  | intro {n : RawNode} {ds : List ParamDecl} (hkind : n.kind = "parameter_list")
      (h : ShowsDecls s n.bare ds) : ShowsList s n ds

inductive ShowsDecls (s : Scope) : List (Option String × RawNode) → List ParamDecl → Prop where
  | nil : ShowsDecls s [] []
  | cons {n : RawNode} {cs : List (Option String × RawNode)} {d : ParamDecl}
      {ds : List ParamDecl} (hd : ShowsDecl s n d) (h : ShowsDecls s cs ds) :
      ShowsDecls s ((none, n) :: cs) (d :: ds)

inductive ShowsDecl (s : Scope) : RawNode → ParamDecl → Prop where
  | intro {n m : RawNode} {ids : List RawNode} {span : Span} {names : List String}
      {type : TypeExpr} {variadic : Bool}
      (hkind : n.kind =
        if variadic then "variadic_parameter_declaration" else "parameter_declaration")
      (hcs : n.bare = ids.map (fun i => (some "name", i)) ++ [(some "type", m)])
      (hids : ids.map RawNode.text = names) (h : Shows s m type) :
      ShowsDecl s n (.mk span names type variadic)

inductive ShowsResult (s : Scope) : List (Option String × RawNode) → List ParamDecl → Prop where
  | none : ShowsResult s [] []
  | list {n : RawNode} {ds : List ParamDecl} (h : ShowsList s n ds) :
      ShowsResult s [(some "result", n)] ds
  | single {n : RawNode} {span : Span} {type : TypeExpr} (h : Shows s n type) :
      ShowsResult s [(some "result", n)] [.mk span [] type false]

end

namespace RawNode

variable {n m : RawNode} {field : String} {o : Option String}

theorem map_parts (n : RawNode) : n.parts.map (fun c => (c.1, c.2.val)) = n.children := by
  rw [parts, List.map_map]
  exact List.attach_map_subtype_val n.children

section Bare

variable {p : Option String × RawNode → Bool}

/-- Whatever no comment has can be looked for among the other children alone. -/
theorem find?_bare (hp : ∀ c, isComment c → p c = false) (n : RawNode) :
    n.bare.find? p = n.children.find? p := by
  rw [bare, List.find?_filter]
  congr 1
  funext c
  cases hc : isComment c with
  | false => simp
  | true => simp [hp c hc]

theorem filter_bare (hp : ∀ c, isComment c → p c = false) (n : RawNode) :
    n.bare.filter p = n.children.filter p := by
  rw [bare, List.filter_filter]
  congr 1
  funext c
  cases hc : isComment c with
  | false => simp
  | true => simp [hp c hc]

theorem flatMap_bare {α : Type} {f : Option String × RawNode → List α}
    (hf : ∀ c, isComment c → f c = []) (n : RawNode) : n.bare.flatMap f = n.children.flatMap f := by
  rw [bare]
  induction n.children with
  | nil => rfl
  | cons c cs ih =>
      rw [List.flatMap_cons, ← ih, List.filter_cons]
      cases hc : isComment c with
      | false => rfl
      | true => rw [hf c hc]; rfl

theorem filterMap_bare {α : Type} {f : Option String × RawNode → Option α}
    (hf : ∀ c, isComment c → f c = none) (n : RawNode) :
    n.bare.filterMap f = n.children.filterMap f := by
  rw [bare, List.filterMap_filter]
  congr 1
  funext c
  cases hc : isComment c with
  | false => rfl
  | true => rw [hf c hc]; rfl

end Bare

/-- A comment stands in no field. -/
theorem not_field_of_isComment (field : String) (c : Option String × RawNode)
    (hc : isComment c) : (c.1 == some field) = false := by
  simp only [isComment, Bool.and_eq_true, beq_iff_eq] at hc
  simp [hc.1]

theorem kind_of_isComment {c : Option String × RawNode} (hc : isComment c) :
    c.2.kind = "comment" := by
  simp only [isComment, Bool.and_eq_true, beq_iff_eq] at hc
  exact hc.2

theorem not_solid_of_isComment (c : Option String × RawNode) (hc : isComment c) :
    (c.2.kind != "comment") = false := by
  simp [kind_of_isComment hc]

theorem val_child? (n : RawNode) (field : String) :
    (n.child? field).map (·.val) = (n.bare.find? (·.1 == some field)).map (·.2) := by
  rw [find?_bare (not_field_of_isComment field), ← map_parts, List.find?_map, child?,
    Option.map_map, Option.map_map]
  rfl

theorem child?_eq_some (field : String) (h : n.bare.find? (·.1 == some field) = some (o, m)) :
    ∃ hm, n.child? field = some ⟨m, hm⟩ := by
  have hval := val_child? n field
  rw [h, Option.map_some] at hval
  obtain ⟨c, hc, rfl⟩ := Option.map_eq_some_iff.1 hval
  exact ⟨c.property, hc⟩

theorem child?_eq_none (h : n.bare.find? (·.1 == some field) = none) : n.child? field = none := by
  have hval := val_child? n field
  rw [h, Option.map_none] at hval
  exact Option.map_eq_none_iff.1 hval

theorem texts_eq (n : RawNode) (field : String) :
    n.texts field = (n.bare.filter (·.1 == some field)).map (·.2.text) := by
  rw [filter_bare (not_field_of_isComment field), texts]

theorem first?_eq_some (h : n.bare = [(o, m)]) (hm : m.kind ≠ "comment") :
    ∃ hlt, n.first? = some ⟨m, hlt⟩ := by
  have hval : (n.first?).map (·.val) = (n.bare.find? (·.2.kind != "comment")).map (·.2) := by
    rw [find?_bare not_solid_of_isComment, ← map_parts, List.find?_map, first?, List.find?_map,
      Option.map_map, Option.map_map]
    rfl
  rw [h, List.find?_singleton, if_pos (by simpa using hm), Option.map_some] at hval
  obtain ⟨c, hc, rfl⟩ := Option.map_eq_some_iff.1 hval
  exact ⟨c.property, hc⟩

end RawNode

theorem Shows.kind_ne {s : Scope} {n : RawNode} {e : TypeExpr} (h : Shows s n e) :
    n.kind ≠ "comment" ∧ n.kind ≠ "parameter_list" := by
  cases h with
  | name hkind hn => rcases hkind with rfl | rfl <;> simp [hn.kind]
  | other hkind hn =>
      rw [hn.kind]
      constructor <;> rintro rfl <;> exact absurd hkind (by decide)
  | qualified hn | pointer hn | slice hn | array hn | map hn | function hn => simp [hn.kind]

section Resolving

variable {s : Scope}

theorem declared_comment {c : Option String × RawNode} (hc : isComment c) : s.declared c.2 = [] := by
  rw [Scope.declared, kind_of_isComment hc]
  rfl

theorem parameters_eq (n : RawNode) :
    s.parameters n = n.bare.flatMap fun c => s.declared c.2 := by
  rw [flatMap_bare fun c hc => declared_comment hc, ← map_parts, List.flatMap_map,
    Scope.parameters]

mutual

/-- The node of a type is read as the type. It is never unsupported. -/
theorem resolve_of_shows {n : RawNode} {e : TypeExpr} (h : Shows s n e) :
    s.resolve n = .ok (s.type e) := by
  match h with
  | .name hkind hn =>
      rw [Scope.resolve, hn.kind, hn.text, hn.whole]
      rcases hkind with rfl | rfl <;> rfl
  | .qualified hn hcs hp hname =>
      obtain ⟨hltp, hpackage⟩ := child?_eq_some "package" (by rw [hcs]; rfl)
      obtain ⟨hltn, hid⟩ := child?_eq_some "name" (by rw [hcs]; rfl)
      rw [Scope.resolve, hn.kind, hn.whole]
      simp only [Scope.qualified, hpackage, hid, hp, hname, hn.text, Scope.type]
      rfl
  | .pointer hn hcs h =>
      obtain ⟨hlt, hfirst⟩ := first?_eq_some hcs h.kind_ne.1
      rw [Scope.resolve, hn.kind, hn.whole, hfirst]
      simp only [resolve_of_shows h]
      rfl
  | .slice hn hcs h =>
      obtain ⟨hlt, helem⟩ := child?_eq_some "element" (by rw [hcs]; rfl)
      rw [Scope.resolve, hn.kind, hn.whole, helem]
      simp only [resolve_of_shows h]
      rfl
  | .array hn hcs hl h =>
      obtain ⟨hltl, hlength⟩ := child?_eq_some "length" (by rw [hcs]; rfl)
      obtain ⟨hlt, helem⟩ := child?_eq_some "element" (by rw [hcs]; rfl)
      rw [Scope.resolve, hn.kind, hn.whole, hlength, helem]
      simp only [resolve_of_shows h, hl]
      rfl
  | .map hn hcs hkey hvalue =>
      obtain ⟨hltk, hk⟩ := child?_eq_some "key" (by rw [hcs]; rfl)
      obtain ⟨hltv, hv⟩ := child?_eq_some "value" (by rw [hcs]; rfl)
      rw [Scope.resolve, hn.kind, hn.whole, hk, hv]
      simp only [resolve_of_shows hkey, resolve_of_shows hvalue]
      rfl
  | @Shows.function _ _ _ result _ _ _ hn hcs hparams hresults =>
      obtain ⟨hlt, hlist⟩ := child?_eq_some "parameters" (by rw [hcs]; rfl)
      have hps := parameters_of_showsList hparams
      have hrs := results_of_showsResult hresults
      have hfind : n.bare.find? (·.1 == some "result") = result.find? (·.1 == some "result") := by
        rw [hcs]
        rfl
      rw [Scope.resolve, hn.kind, hn.whole, hlist, Scope.type, ← hps, ← hrs, ← hfind]
      cases hresult : n.bare.find? (·.1 == some "result") with
      | none =>
          rw [child?_eq_none hresult]
          rfl
      | some c =>
          obtain ⟨hltr, hr⟩ := child?_eq_some "result" (m := c.2) hresult
          rw [hr]
          rfl
  | .other hkind hn =>
      rw [Scope.resolve, hn.kind, hn.text, hn.whole]
      simp only [keptKinds, List.mem_cons, List.not_mem_nil, or_false] at hkind
      rcases hkind with rfl | rfl | rfl | rfl | rfl | rfl <;> rfl

theorem parameters_of_showsList {n : RawNode} {ds : List ParamDecl} (h : ShowsList s n ds) :
    s.parameters n = s.params ds := by
  match h with
  | .intro hkind h => rw [parameters_eq, declared_of_showsDecls h]

theorem declared_of_showsDecls {cs : List (Option String × RawNode)} {ds : List ParamDecl}
    (h : ShowsDecls s cs ds) : (cs.flatMap fun c => s.declared c.2) = s.params ds := by
  match h with
  | .nil => rfl
  | .cons hd h =>
      rw [List.flatMap_cons, declared_of_showsDecl hd, declared_of_showsDecls h, Scope.params]

theorem declared_of_showsDecl {n : RawNode} {d : ParamDecl} (h : ShowsDecl s n d) :
    s.declared n = s.param d := by
  match h with
  | @ShowsDecl.intro _ _ m ids _ _ _ variadic hkind hcs rfl h =>
      have hnames : (ids.map fun i => (some "name", i)).find? (·.1 == some "type") = none := by
        simp
      have hfind : n.bare.find? (·.1 == some "type") = some (some "type", m) := by
        rw [hcs, List.find?_append, hnames]
        rfl
      have htexts : n.texts "name" = ids.map RawNode.text := by
        rw [texts_eq, hcs, List.filter_append, List.filter_eq_self.2 (by simp)]
        simp [Function.comp_def]
      obtain ⟨hlt, htype⟩ := child?_eq_some "type" hfind
      rw [Scope.declared, hkind, htype, htexts]
      simp only [resolve_of_shows h, Scope.param]
      cases variadic <;> cases ids <;> rfl

theorem results_of_showsResult {cs : List (Option String × RawNode)} {ds : List ParamDecl}
    (h : ShowsResult s cs ds) :
    ((cs.find? (·.1 == some "result")).elim [] fun c => s.results c.2) = s.params ds := by
  match h with
  | .none => rfl
  | .list h =>
      have hlist := parameters_of_showsList h
      obtain ⟨hkind, -⟩ := h
      rw [List.find?_singleton, if_pos (by rfl), Option.elim_some, Scope.results, hkind]
      exact hlist
  | .single h =>
      rw [List.find?_singleton, if_pos (by rfl), Option.elim_some, Scope.results,
        if_neg (by simpa using h.kind_ne.2), resolve_of_shows h]
      rfl

end

end Resolving

section Nodes

variable {s : Scope}

/-- A node that stands for a name. -/
def RawNode.word (kind text : String) : RawNode := .mk kind text false [] []

def RawNode.list (decls : List (Option String × RawNode)) : RawNode :=
  .mk "parameter_list" "" false ["(", ")"] decls

mutual

/-- A node of a type, with no comments in it. -/
def Scope.node (s : Scope) : TypeExpr → RawNode
  | .name _ id => .word "type_identifier" id
  | .qualified span package id =>
    .mk "qualified_type" (s.slice span) false ["."]
      [(some "package", .word "package_identifier" package),
        (some "name", .word "type_identifier" id)]
  | .pointer span elem => .mk "pointer_type" (s.slice span) false ["*"] [(none, s.node elem)]
  | .slice span elem =>
    .mk "slice_type" (s.slice span) false ["[", "]"] [(some "element", s.node elem)]
  | .array span length elem =>
    .mk "array_type" (s.slice span) false ["[", "]"]
      [(some "length", .word "identifier" (s.slice length)), (some "element", s.node elem)]
  | .map span key value =>
    .mk "map_type" (s.slice span) false ["map", "[", "]"]
      [(some "key", s.node key), (some "value", s.node value)]
  | .function span params results =>
    .mk "function_type" (s.slice span) false ["func"]
      [(some "parameters", .list (s.nodes params)), (some "result", .list (s.nodes results))]
  | .other span => .mk "struct_type" (s.slice span) false ["struct"] []

def Scope.declNode (s : Scope) : ParamDecl → RawNode
  | .mk _ names type variadic =>
    .mk (if variadic then "variadic_parameter_declaration" else "parameter_declaration") "" false []
      ((names.map (word "identifier")).map (fun i => (some "name", i)) ++
        [(some "type", s.node type)])

def Scope.nodes (s : Scope) : List ParamDecl → List (Option String × RawNode)
  | [] => []
  | d :: ds => (none, s.declNode d) :: s.nodes ds

end

theorem bare_of_fields {n : RawNode} (h : ∀ c ∈ n.children, c.1.isSome) : n.bare = n.children := by
  refine List.filter_eq_self.2 fun c hc => ?_
  obtain ⟨field, hfield⟩ := Option.isSome_iff_exists.1 (h c hc)
  simp [isComment, hfield]

theorem isSome_names {ids : List RawNode} {cs : List (Option String × RawNode)}
    (h : ∀ c ∈ cs, c.1.isSome) :
    ∀ c ∈ ids.map (fun i => (some "name", i)) ++ cs, c.1.isSome := by
  refine List.forall_mem_append.2 ⟨fun c hc => ?_, h⟩
  obtain ⟨i, -, rfl⟩ := List.mem_map.1 hc
  rfl

theorem bare_of_showsDecls {cs : List (Option String × RawNode)} {ds : List ParamDecl}
    (h : ShowsDecls s cs ds) : (RawNode.list cs).bare = cs := by
  refine List.filter_eq_self.2 fun c hc => ?_
  match h with
  | .nil => cases hc
  | .cons (.intro hkind _ _ _) h =>
      rcases List.mem_cons.1 hc with rfl | hc
      · simp only [isComment, hkind]
        split <;> rfl
      · exact List.filter_eq_self.1 (bare_of_showsDecls h) c hc

theorem shows_list {ds : List ParamDecl} (h : ShowsDecls s (s.nodes ds) ds) :
    ShowsList s (.list (s.nodes ds)) ds :=
  .intro rfl (by rwa [bare_of_showsDecls h])

mutual

/-- Each type has a node. -/
theorem shows_node (s : Scope) (e : TypeExpr) : Shows s (s.node e) e := by
  match e with
  | .name span id => exact .name (.inl rfl) ⟨rfl, rfl, rfl⟩
  | .qualified span package id => exact .qualified ⟨rfl, rfl, rfl⟩ rfl rfl rfl
  | .pointer span elem =>
      have helem := shows_node s elem
      refine .pointer ⟨rfl, rfl, rfl⟩ ?_ helem
      simp [Scope.node, bare, RawNode.children, isComment, helem.kind_ne.1]
  | .slice span elem => exact .slice ⟨rfl, rfl, rfl⟩ rfl (shows_node s elem)
  | .array span length elem => exact .array ⟨rfl, rfl, rfl⟩ rfl rfl (shows_node s elem)
  | .map span key value =>
      exact .map ⟨rfl, rfl, rfl⟩ rfl (shows_node s key) (shows_node s value)
  | .function span params results =>
      exact .function ⟨rfl, rfl, rfl⟩ rfl (shows_list (shows_nodes s params))
        (.list (shows_list (shows_nodes s results)))
  | .other span => exact .other (List.mem_cons_of_mem _ List.mem_cons_self) ⟨rfl, rfl, rfl⟩

theorem shows_declNode (s : Scope) (d : ParamDecl) : ShowsDecl s (s.declNode d) d := by
  match d with
  | .mk span names type variadic =>
      have hids : (names.map (word "identifier")).map RawNode.text = names := by
        simp [Function.comp_def, word, RawNode.text]
      refine .intro rfl ?_ hids (shows_node s type)
      exact bare_of_fields (isSome_names (by simp))

theorem shows_nodes (s : Scope) (ds : List ParamDecl) : ShowsDecls s (s.nodes ds) ds := by
  match ds with
  | [] => exact .nil
  | d :: ds => exact .cons (shows_declNode s d) (shows_nodes s ds)

end

end Nodes

end GoOutline
