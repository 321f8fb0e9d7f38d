import GoOutline.Proofs.Simulation

/-!
The rules of the grammar as one family. A rule reads what it starts with through rules of a lower
rank; whatever it reads behind a token that it has taken may be of any rank. So a bound of sixteen
for each token and the rank on top covers every derivation.
-/

namespace GoOutline.Syntax.Grammar

open Syntax.Parser

inductive Rule : Type → Type
  | typeExpr (place : Place) : Rule TypeExpr
  | typeForm (place : Place) : Rule (Span → TypeExpr)
  | arrayLength : Rule (Option Span)
  | namedType (place : Place) : Rule (Span → TypeExpr)
  | typeArgs : Rule Bool
  | unionType (place : Place) : Rule (TypeExpr × List TypeExpr)
  | paramList : Rule ParamList
  | paramEntries : Rule (List ParamEntry)
  | paramEntry : Rule ParamEntry
  | unnamedEntry : Rule ParamEntry
  | namedEntry : Rule ParamEntry
  | resultList (place : Place) : Rule (List ParamDecl)
  | structBody : Rule StructBody
  | fieldDecl : Rule FieldDecl
  | fieldHead : Rule (FieldHead × TypeExpr)
  | embeddedField : Rule (FieldHead × TypeExpr)
  | namedFields : Rule (FieldHead × TypeExpr)
  | interfaceBody : Rule InterfaceBody
  | interfaceElem : Rule InterfaceElem
  | typeParams : Rule Unit
  | typeParam : Rule Bool
  | typeBody : Rule TypeBody
  | typeRight : Rule (Option TypeBody)
  | typeEntry : Rule TypeEntry
  | typeBehind : Rule (Option TypeBody)
  | typeDecl : Rule TypeDecl
  | valueDecl : Rule Unit
  | valueSpecs (constant : Bool) : Rule Bool
  | valueSpec (constant : Bool) : Rule Unit
  | constSpec : Rule Unit
  | varSpec : Rule Unit
  | funcDecl : Rule FuncDecl
  | receiver : Rule (Option ParamList)
  | funcTypeParams (allowed : Bool) : Rule Unit
  | body : Rule (Option Delimiters)
  | block : Rule Delimiters
  | statements : Rule Unit
  | statement : Rule Unit
  | simple (mode right : Mode) : Rule Bool
  | others (lines : Bool) : Rule Bool
  | ifStatement : Rule Unit
  | ifHeader : Rule Unit
  | elseBranch : Rule Unit
  | forStatement : Rule Unit
  | forHeader : Rule Unit
  | rangeClause : Rule Unit
  | forClause : Rule Unit
  | forStart : Rule Bool
  | switchStatement : Rule Unit
  | switchHeader : Rule Cases
  | switchValue : Rule Cases
  | switchTag : Rule Cases
  | typeGuard (mode : Mode) : Rule Unit
  | guardNames (mode : Mode) : Rule Unit
  | clauses (cases : Cases) : Rule Unit
  | clauseHead (cases : Cases) : Rule Unit
  | communication : Rule Unit
  | expr (mode : Mode) : Rule Unit
  | unary (mode : Mode) : Rule Unit
  | operand (mode : Mode) : Rule Unit
  | parenthesized : Rule Shape
  | funcLiteral : Rule Unit
  | arrayLiteral (mode : Mode) : Rule Unit
  | typeOperand (mode : Mode) (literal : Bool) : Rule Unit
  | closedType (mode : Mode) (literal : Bool) : Rule Unit
  | behindType (mode : Mode) (literal : Bool) : Rule Unit
  | openType (mode : Mode) : Rule Unit
  | typedLiteral (mode : Mode) : Rule Unit
  | applied : Rule Unit
  | instantiation : Rule Unit
  | postfixes (mode : Mode) (shape : Shape) : Rule Unit
  | headerLiteral (mode : Mode) : Rule Unit
  | bracketed : Rule Bracketed
  | index : Rule Unit
  | upperBounds : Rule Unit
  | callOperands (allocates : Bool) : Rule Unit
  | allocation : Rule Unit
  | argument : Rule Unit
  | literalValue : Rule Unit
  | literalElements : Rule Unit
  | keyedElement : Rule Unit
  | literalElement : Rule Unit

namespace Rule

variable {α : Type}

def parser (n : Nat) : Rule α → Parser α
  | .typeExpr p => Grammar.typeExpr n p
  | .typeForm p => Grammar.typeForm n p
  | .arrayLength => Grammar.arrayLength n
  | .namedType p => Grammar.namedType n p
  | .typeArgs => Grammar.typeArgs n
  | .unionType p => Grammar.unionType n p
  | .paramList => Grammar.paramList n
  | .paramEntries => Grammar.paramEntries n
  | .paramEntry => Grammar.paramEntry n
  | .unnamedEntry => Grammar.unnamedEntry n
  | .namedEntry => Grammar.namedEntry n
  | .resultList p => Grammar.resultList n p
  | .structBody => Grammar.structBody n
  | .fieldDecl => Grammar.fieldDecl n
  | .fieldHead => Grammar.fieldHead n
  | .embeddedField => Grammar.embeddedField n
  | .namedFields => Grammar.namedFields n
  | .interfaceBody => Grammar.interfaceBody n
  | .interfaceElem => Grammar.interfaceElem n
  | .typeParams => Grammar.typeParams n
  | .typeParam => Grammar.typeParam n
  | .typeBody => Grammar.typeBody n
  | .typeRight => Grammar.typeRight n
  | .typeEntry => Grammar.typeEntry n
  | .typeBehind => Grammar.typeBehind n
  | .typeDecl => Grammar.typeDecl n
  | .valueDecl => Grammar.valueDecl n
  | .valueSpecs c => Grammar.valueSpecs c n
  | .valueSpec c => Grammar.valueSpec c n
  | .constSpec => Grammar.constSpec n
  | .varSpec => Grammar.varSpec n
  | .funcDecl => Grammar.funcDecl n
  | .receiver => Grammar.receiver n
  | .funcTypeParams a => Grammar.funcTypeParams n a
  | .body => Grammar.body n
  | .block => Grammar.block n
  | .statements => Grammar.statements n
  | .statement => Grammar.statement n
  | .simple m r => Grammar.simple n m r
  | .others l => Grammar.others n l
  | .ifStatement => Grammar.ifStatement n
  | .ifHeader => Grammar.ifHeader n
  | .elseBranch => Grammar.elseBranch n
  | .forStatement => Grammar.forStatement n
  | .forHeader => Grammar.forHeader n
  | .rangeClause => Grammar.rangeClause n
  | .forClause => Grammar.forClause n
  | .forStart => Grammar.forStart n
  | .switchStatement => Grammar.switchStatement n
  | .switchHeader => Grammar.switchHeader n
  | .switchValue => Grammar.switchValue n
  | .switchTag => Grammar.switchTag n
  | .typeGuard m => Grammar.typeGuard n m
  | .guardNames m => Grammar.guardNames n m
  | .clauses c => Grammar.clauses n c
  | .clauseHead c => Grammar.clauseHead n c
  | .communication => Grammar.communication n
  | .expr m => Grammar.expr n m
  | .unary m => Grammar.unary n m
  | .operand m => Grammar.operand n m
  | .parenthesized => Grammar.parenthesized n
  | .funcLiteral => Grammar.funcLiteral n
  | .arrayLiteral m => Grammar.arrayLiteral n m
  | .typeOperand m b => Grammar.typeOperand n m b
  | .closedType m b => Grammar.closedType n m b
  | .behindType m b => Grammar.behindType n m b
  | .openType m => Grammar.openType n m
  | .typedLiteral m => Grammar.typedLiteral n m
  | .applied => Grammar.applied n
  | .instantiation => Grammar.instantiation n
  | .postfixes m s => Grammar.postfixes n m s
  | .headerLiteral m => Grammar.headerLiteral n m
  | .bracketed => Grammar.bracketed n
  | .index => Grammar.index n
  | .upperBounds => Grammar.upperBounds n
  | .callOperands a => Grammar.callOperands n a
  | .allocation => Grammar.allocation n
  | .argument => Grammar.argument n
  | .literalValue => Grammar.literalValue n
  | .literalElements => Grammar.literalElements n
  | .keyedElement => Grammar.keyedElement n
  | .literalElement => Grammar.literalElement n

def rank : Rule α → Nat
    | .namedType _ | .typeArgs | .paramList | .namedEntry | .structBody | .namedFields |
  .interfaceBody | .typeParams | .typeParam | .typeEntry | .typeDecl | .valueDecl | .constSpec |
  .varSpec | .funcDecl | .block | .ifStatement | .elseBranch | .forStatement | .switchStatement |
  .funcLiteral | .arrayLiteral _ | .instantiation | .literalValue => 0
    | .typeForm _ | .embeddedField | .valueSpec _ | .receiver | .funcTypeParams _ | .body |
  .typedLiteral _ | .applied | .headerLiteral _ | .bracketed => 1
    | .typeExpr _ | .fieldHead | .valueSpecs _ | .postfixes _ _ => 2
    | .unionType _ | .unnamedEntry | .resultList _ | .fieldDecl | .typeBody | .behindType _ _ |
  .openType _ => 3
    | .paramEntry | .interfaceElem | .typeRight | .parenthesized | .closedType _ _ => 4
    | .paramEntries | .typeBehind | .typeOperand _ _ => 5
    | .operand _ => 6
    | .unary _ => 7
    | .expr _ => 8
    | .arrayLength | .others _ | .upperBounds | .allocation | .argument | .literalElement => 9
    | .simple _ _ | .rangeClause | .guardNames _ | .communication | .index | .callOperands _ |
  .keyedElement => 10
    | .statement | .ifHeader | .forStart | .typeGuard _ | .clauseHead _ | .literalElements => 11
    | .statements | .forClause | .switchTag | .clauses _ => 12
    | .forHeader | .switchValue => 13
    | .switchHeader => 14

end Rule

/-- Forms of types that build the same at any place. -/
def Builds (d : Motion) (f g : Span → TypeExpr) : Prop := ∀ s, g (d.span s) = d.type (f s)

namespace Rule

variable {α : Type}

/-- What a rule reads out of tokens that have moved. -/
def Moves (d : Motion) : Rule α → α → α → Prop
  | .typeExpr _ => Maps d.type
  | .typeForm _ | .namedType _ => Builds d
  | .arrayLength => Maps (Option.map d.span)
  | .unionType _ => Maps (Prod.map d.type (List.map d.type))
  | .paramList => Maps d.paramList
  | .paramEntries => Maps (List.map d.entry)
  | .paramEntry | .unnamedEntry | .namedEntry => Maps d.entry
  | .resultList _ => Maps (List.map d.param)
  | .structBody => Maps d.struct
  | .fieldDecl => Maps d.field
  | .fieldHead | .embeddedField | .namedFields => Maps (Prod.map id d.type)
  | .interfaceBody => Maps d.interface
  | .interfaceElem => Maps d.elem
  | .typeBody => Maps d.body
  | .typeRight | .typeBehind => Maps (Option.map d.body)
  | .typeEntry => Maps d.typeEntry
  | .typeDecl => Maps d.typeDecl
  | .funcDecl => Maps d.func
  | .receiver => Maps (Option.map d.paramList)
  | .body => Maps (Option.map d.delimiters)
  | .block => Maps d.delimiters
  | _ => Eq

theorem rank_lt (r : Rule α) : r.rank < 16 := by
  cases r <;> exact Nat.le_of_ble_eq_true rfl

end Rule

/-- Bounds at which all rules that are measured below agree. -/
structure Calls (d : Motion) (b n n' : Nat) : Prop where
  left : b ≤ n
  right : b ≤ n'
  call : ∀ {α : Type} (r : Rule α) (k : Nat), 16 * k + r.rank < b →
    Sim d k (r.Moves d) (r.parser n) (r.parser n')

namespace Calls

variable {d : Motion} {k b n n' : Nat} {α : Type}

/-- A rule of a lower rank on the same tokens. -/
theorem same (h : Calls d (16 * k + b) n n') (r : Rule α) (hr : decide (r.rank < b)) :
    Sim d k (r.Moves d) (r.parser n) (r.parser n') :=
  h.call r k (Nat.add_lt_add_left (of_decide_eq_true hr) _)

/-- Any rule behind a token. -/
theorem less (h : Calls d (16 * (k + 1) + b) n n') (r : Rule α) :
    Sim d k (r.Moves d) (r.parser n) (r.parser n') := by
  have := r.rank_lt
  exact h.call r k (by omega)

theorem lt_left (h : Calls d (16 * (k + 1) + b) n n') : k < n := by
  have := h.left
  omega

theorem lt_right (h : Calls d (16 * (k + 1) + b) n n') : k < n' := by
  have := h.right
  omega

end Calls

end GoOutline.Syntax.Grammar
