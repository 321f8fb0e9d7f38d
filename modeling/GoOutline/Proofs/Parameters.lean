import GoOutline.Proofs.Parts

/-!
Parameters and the entries that they come from. Between two commas of a parameter list stands one
name or type, perhaps with a type behind the name, and there is one parameter for it, whatever the
names share.
-/

namespace GoOutline

open Text Syntax Syntax.Parser

namespace Syntax

/-- The name of each parameter that a declaration declares, if it has one, and whether the parameter
takes any number of arguments. -/
def ParamDecl.heads : ParamDecl → List (Option String × Bool)
  | .mk _ [] _ variadic => [(none, variadic)]
  | .mk _ names _ variadic => names.map fun n => (some n, variadic)

namespace Grammar

/-- The type that lone names in front of some entries share, if they are names of parameters. -/
def sharedType? : List ParamEntry → Option TypeExpr
  | .lone _ _ :: rest => sharedType? rest
  | .named _ _ type :: _ => some type
  | .complete _ :: _ => none
  | [] => none

end Grammar

end Syntax

open Syntax.Grammar

namespace Scope

variable {s : Scope}

/-- What a lone name declares: a parameter if entries behind it share a type with it, and the type of
one otherwise. -/
def loneParam (s : Scope) (name : String) : Option TypeExpr → Parameter
  | some type => .mk (some name) (s.type type) false
  | none => .mk none (.simple name) false

/-- The parameters that some entries declare, one for each. -/
def entryParams (s : Scope) : List ParamEntry → List Parameter
  | [] => []
  | .lone _ name :: rest => s.loneParam name (sharedType? rest) :: s.entryParams rest
  | .named _ name type :: rest => .mk (some name) (s.type type) false :: s.entryParams rest
  | .complete d :: rest => .mk d.names.head? (s.type d.type) d.variadic :: s.entryParams rest

theorem length_entryParams (es : List ParamEntry) : (s.entryParams es).length = es.length := by
  induction es with
  | nil => rfl
  | cons e es ih => cases e <;> simp [entryParams, ih]

theorem params_append (ds ds' : List ParamDecl) :
    s.params (ds ++ ds') = s.params ds ++ s.params ds' := by
  induction ds with
  | nil => rfl
  | cons d ds ih => simp only [List.cons_append, params, ih, List.append_assoc]

theorem params_unnamed (pending : List (Span × String)) :
    s.params (pending.map unnamedParam) = pending.map fun q => s.loneParam q.2 none := by
  induction pending with
  | nil => rfl
  | cons q pending ih => simp only [List.map_cons, params, ih]; rfl

theorem param_of_ne_nil {names : List String} (h : names ≠ []) (span : Span) (type : TypeExpr)
    (variadic : Bool) :
    s.param (.mk span names type variadic) =
      names.map fun n => .mk (some n) (s.type type) variadic := by
  cases names with
  | nil => exact absurd rfl h
  | cons n names => rfl

theorem param_of_single {d : ParamDecl} (h : d.names.length ≤ 1) :
    s.param d = [.mk d.names.head? (s.type d.type) d.variadic] := by
  obtain ⟨span, names, type, variadic⟩ := d
  match names, h with
  | [], _ => rfl
  | [n], _ => rfl

/-- Grouping the entries of a list loses none of them, repeats none and keeps their order. -/
theorem params_groupParams (pending : List (Span × String)) (es : List ParamEntry)
    (hes : ∀ e ∈ es, e.Single) :
    s.params (groupParams pending es) =
      pending.map (fun q => s.loneParam q.2 (sharedType? es)) ++ s.entryParams es := by
  fun_induction groupParams pending es with
  | case1 pending => simp [params_unnamed, sharedType?, entryParams]
  | case2 pending span name rest ih =>
      rw [ih fun e he => hes e (List.mem_cons_of_mem _ he)]
      simp [sharedType?, entryParams]
  | case3 pending span name type rest start ih =>
      rw [params, ih fun e he => hes e (List.mem_cons_of_mem _ he)]
      rw [param_of_ne_nil (by simp), List.map_append, List.map_map, List.append_assoc]
      rfl
  | case4 pending decl rest ih =>
      rw [params_append, params_unnamed, params, ih fun e he => hes e (List.mem_cons_of_mem _ he)]
      rw [param_of_single (hes _ List.mem_cons_self)]
      rfl

/-- Each parameter has its name and its kind from the declaration that it is declared by. -/
theorem heads_params (ds : List ParamDecl) :
    (s.params ds).map (fun p => (p.name, p.variadic)) = ds.flatMap ParamDecl.heads := by
  induction ds with
  | nil => rfl
  | cons d ds ih =>
      obtain ⟨span, names, type, variadic⟩ := d
      rw [params, List.map_append, ih, List.flatMap_cons]
      congr 1
      cases names with
      | nil => rfl
      | cons n names => simp [param, ParamDecl.heads, Parameter.name, Parameter.variadic]

end Scope

/-- One parameter for each name that is declared, or for each type alone, in the order of the source.
Between any two commas of the list stands one of them. -/
structure Scope.OneEach (s : Scope) (ts : List Token) (ds : List ParamDecl) (ps : List Parameter) :
    Prop where
  declared : ps.map (fun p => (p.name, p.variadic)) = ds.flatMap ParamDecl.heads
  entries : ∃ es, ReadEntries ts es ∧ ds = groupParams [] es ∧ ps = s.entryParams es ∧
    ps.length = es.length

theorem Syntax.Grammar.ReadParams.oneEach {ts : List Token} {ds : List ParamDecl}
    (h : ReadParams ts ds) (s : Scope) : s.OneEach ts ds (s.params ds) := by
  obtain ⟨es, hes, rfl⟩ := h
  have hps : s.params (groupParams [] es) = s.entryParams es :=
    Scope.params_groupParams [] es fun e he => (hes.isRead e he).single
  refine ⟨Scope.heads_params _, es, hes, rfl, hps, ?_⟩
  rw [hps, Scope.length_entryParams]

mutual

/-- A type and the types within it, each in front of those within itself. -/
def GoType.within : GoType → List GoType
  | .simple name => [.simple name]
  | .imported name origin => [.imported name origin]
  | .raw text => [.raw text]
  | .pointer elem => .pointer elem :: elem.within
  | .array length elem => .array length elem :: elem.within
  | .map key value => .map key value :: (key.within ++ value.within)
  | .function params results =>
    .function params results :: (withinParams params ++ withinParams results)

def withinParams : List Parameter → List GoType
  | [] => []
  | .mk _ type _ :: ps => type.within ++ withinParams ps

end

section Within

variable {s : Scope}

theorem withinParams_append (ps qs : List Parameter) :
    withinParams (ps ++ qs) = withinParams ps ++ withinParams qs := by
  induction ps with
  | nil => rfl
  | cons p ps ih =>
      obtain ⟨name, type, variadic⟩ := p
      rw [List.cons_append, withinParams, withinParams, ih, List.append_assoc]

theorem withinParams_names (names : List String) (t : GoType) (variadic : Bool) :
    withinParams (names.map fun n => .mk (some n) t variadic) =
      (List.replicate names.length t.within).flatten := by
  induction names with
  | nil => rfl
  | cons n names ih => rw [List.map_cons, withinParams, ih]; rfl

mutual

/-- The types within a type come from those within its expression, one from each. -/
theorem within_type (e : TypeExpr) : (s.type e).within = e.within.map s.type := by
  match e with
  | .name _ _ | .other _ => rfl
  | .qualified span package id =>
      rw [TypeExpr.within, List.map_singleton, Scope.type]
      cases s.import? package <;> rfl
  | .pointer _ elem => rw [Scope.type, GoType.within, within_type elem]; rfl
  | .slice _ elem => rw [Scope.type, GoType.within, within_type elem]; rfl
  | .array _ _ elem => rw [Scope.type, GoType.within, within_type elem]; rfl
  | .map _ key value =>
      rw [Scope.type, GoType.within, within_type key, within_type value, ← List.map_append]
      rfl
  | .function _ params results =>
      rw [Scope.type, GoType.within, within_params params, within_params results,
        ← List.map_append]
      rfl

theorem within_param (d : ParamDecl) : withinParams (s.param d) = d.within.map s.type := by
  match d with
  | .mk _ names type variadic =>
      rw [ParamDecl.within, List.map_flatten, List.map_replicate, ← within_type type]
      cases names with
      | nil => rw [Scope.param, withinParams]; rfl
      | cons n names =>
          have hone : 1 ≤ (n :: names).length := Nat.succ_pos _
          rw [Scope.param_of_ne_nil (by simp), withinParams_names, Nat.max_eq_left hone]

theorem within_params (ds : List ParamDecl) :
    withinParams (s.params ds) = (withinAll ds).map s.type := by
  match ds with
  | [] => rfl
  | d :: ds =>
      rw [Scope.params, withinParams_append, within_param d, within_params ds, withinAll,
        List.map_append]

end

/-- The parameters and the results of a function type are complete, and no other type is taken for
one. -/
def Scope.Matches (s : Scope) (ts : List Token) : TypeExpr → GoType → Prop
  | .function _ params results, t =>
    ∃ ps rs, t = .function ps rs ∧ s.OneEach ts params ps ∧ s.OneEach ts results rs
  | _, t => ∀ ps rs, t ≠ .function ps rs

theorem matches_type {ts : List Token} {e : TypeExpr} (h : e.IsRead ts) :
    s.Matches ts e (s.type e) := by
  have hparts := h.parts
  cases e with
  | function span params results =>
      exact ⟨_, _, rfl, hparts.1.oneEach s, hparts.2.oneEach s⟩
  | qualified span package id =>
      intro ps rs
      rw [Scope.type]
      cases s.import? package <;> simp
  | _ =>
      intro ps rs
      simp [Scope.type]

/-- However deep a function type stands in a type that is read, its parameters are complete. -/
theorem matches_within {ts : List Token} {e : TypeExpr} (h : e.IsRead ts) :
    List.Forall₂ (s.Matches ts) e.within (s.type e).within := by
  rw [within_type, List.forall₂_map_right_iff, List.forall₂_same]
  exact fun x hx => matches_type (isRead_within e h x hx)

end Within

end GoOutline
