import FunCompiler.Code.Generate
import FunCompiler.Program.Walk
import FunCompiler.Text.Quoted

/-!
Trees that nobody has checked: any node may stand at any place, an operator may
be any text, and a node may be absent or of a kind that has no code.

Code is made for a draft by the rules by which it is made for a program, but
generation stops at the first node that no rule fits. The tables then show what
it has reached. A generator makes code for one draft after another. Every run
starts from empty tables, and those that it leaves can be read until the next
one, also if it stopped at a fault.
-/

namespace FunCompiler

open Asm Code

inductive Draft where
  | var (name : String)
  | lit (value : Int)
  | call (callee : String) (actuals : List Draft)
  | binary (op : String) (left right : Draft)
  | assign (target : String) (value : Draft)
  | print (value : Draft)
  | branch (cond yes no : Draft)
  | loop (cond body : Draft)
  | block (body : List Draft)
  | ret (value : Draft)
  /-- A node of a class that has no code. -/
  | unknown (className : String)
  | absent
  deriving Repr, BEq, Inhabited

structure DraftFunction where
  name : String
  formals : List String
  body : Draft
  deriving Repr, BEq, Inhabited

structure DraftProgram where
  functions : List DraftFunction
  deriving Repr, BEq, Inhabited

/-! ### Drafts of programs -/

mutual

def Expr.toDraft : Expr → Draft
  | .var name => .var name
  | .lit value => .lit value
  | .call callee actuals => .call callee (Expr.toDrafts actuals)
  | .binary op left right => .binary op.text left.toDraft right.toDraft

def Expr.toDrafts : List Expr → List Draft
  | [] => []
  | e :: es => e.toDraft :: Expr.toDrafts es

end

mutual

def Stmt.toDraft : Stmt → Draft
  | .assign target value => .assign target value.toDraft
  | .print value => .print value.toDraft
  | .ifThen cond yes => .branch cond.toDraft yes.toDraft .absent
  | .ifElse cond yes no => .branch cond.toDraft yes.toDraft no.toDraft
  | .loop cond body => .loop cond.toDraft body.toDraft
  | .block body => .block (Stmt.toDrafts body)
  | .ret value => .ret value.toDraft

def Stmt.toDrafts : List Stmt → List Draft
  | [] => []
  | s :: ss => s.toDraft :: Stmt.toDrafts ss

end

def Function.toDraft (f : Function) : DraftFunction := ⟨f.name, f.formals, f.body.toDraft⟩

def Program.toDraft (p : Program) : DraftProgram := ⟨p.functions.map Function.toDraft⟩

/-! ### Generation -/

/-- Why a draft is no program. -/
inductive Fault where
  | notStatement (className : String)
  | notExpression (className : String)
  | noOperator (text : String)
  deriving DecidableEq, Repr

def Fault.message : Fault → String
  | .notStatement c => s!"No code generation rule for statement node {c}"
  | .notExpression c => s!"No code generation rule for expression node {c}"
  | .noOperator op => s!"Unsupported binary operator: {Text.quoted op}"

/-- A computation on the tables that keeps them when it fails. -/
abbrev Attempt := ExceptT Fault Gen

namespace Draft

def className : Draft → String
  | .var _ => "Variable"
  | .lit _ => "IntLiteral"
  | .call .. => "Call"
  | .binary .. => "BinaryOp"
  | .assign .. => "Assignment"
  | .print _ => "Print"
  | .branch .. => "If"
  | .loop .. => "While"
  | .block _ => "Block"
  | .ret _ => "Return"
  | .unknown className => className
  | .absent => "NoneType"

/-- The code of an operator, if the text is one. -/
def emitOperator (op : String) : Attempt (List Item) :=
  match Operator.ofText? op with
  | some op => return operatorCode op
  | none => throw (.noOperator op)

mutual

def emitExpr (formals : List String) : Draft → Attempt (List Item)
  | .var name => emitVariable formals name
  | .lit value => emitLiteral value
  | .call callee actuals => emitCall callee actuals.length (emitActuals formals 0 actuals)
  | .binary op left right =>
    emitBinary (left.emitExpr formals) (right.emitExpr formals) (emitOperator op)
  | draft => throw (.notExpression draft.className)

def emitActuals (formals : List String) (index : Nat) : List Draft → Attempt (List Item)
  | [] => return []
  | actual :: more =>
    emitActual index (actual.emitExpr formals) (emitActuals formals (index + 1) more)

end

mutual

def emitStmt (target : Target) (formals : List String) : Draft → Attempt (List Item)
  | .assign name value => emitAssign formals name (value.emitExpr formals)
  | .print value => emitPrint target (value.emitExpr formals)
  | .branch cond yes .absent =>
    emitBranch (cond.emitExpr formals) (yes.emitStmt target formals) (return [])
  | .branch cond yes no =>
    emitBranch (cond.emitExpr formals) (yes.emitStmt target formals) (no.emitStmt target formals)
  | .loop cond body => emitLoop (cond.emitExpr formals) (body.emitStmt target formals)
  | .block body => emitStmts target formals body
  | .ret value => emitReturn (value.emitExpr formals)
  | draft => throw (.notStatement draft.className)

def emitStmts (target : Target) (formals : List String) : List Draft → Attempt (List Item)
  | [] => return []
  | d :: ds => emitBefore (d.emitStmt target formals) (emitStmts target formals ds)

end

end Draft

def DraftFunction.emit (target : Target) (f : DraftFunction) : Attempt (List Item) :=
  emitFunction f.name (f.body.emitStmt target f.formals)

def DraftFunction.emitAll (target : Target) : List DraftFunction → Attempt (List Item)
  | [] => return []
  | f :: fs => emitBefore (f.emit target) (emitAll target fs)

/-- The listing of a draft, or the first fault and the tables then. -/
def DraftProgram.generate (target : Target) (d : DraftProgram) : Except (Fault × Tables) Listing :=
  match (DraftFunction.emitAll target d.functions).run.run {} with
  | (.ok functions, tables) => .ok (.ofFunctions functions tables)
  | (.error fault, tables) => .error (fault, tables)

structure Generator where
  target : Target
  tables : Tables := {}
  deriving DecidableEq, Repr

def Generator.generate (g : Generator) (d : DraftProgram) : Except Fault Listing × Generator :=
  match d.generate g.target with
  | .ok listing => (.ok listing, { g with tables := listing.tables })
  | .error (fault, tables) => (.error fault, { g with tables })

end FunCompiler
