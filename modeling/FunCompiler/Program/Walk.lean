import FunCompiler.Program

/-!
Visiting every node of a program, each before the nodes inside it, and those in
the order in which they are written.
-/

namespace FunCompiler

inductive Node where
  | program (p : Program)
  | function (f : Function)
  | stmt (s : Stmt)
  | expr (e : Expr)
  deriving Repr, BEq

def Expr.className : Expr → String
  | .var _ => "Variable"
  | .lit _ => "IntLiteral"
  | .call .. => "Call"
  | .binary .. => "BinaryOp"

def Stmt.className : Stmt → String
  | .assign .. => "Assignment"
  | .print _ => "Print"
  | .ifThen .. => "If"
  | .ifElse .. => "If"
  | .loop .. => "While"
  | .block _ => "Block"
  | .ret _ => "Return"

namespace Node

def className : Node → String
  | .program _ => "Program"
  | .function _ => "Function"
  | .stmt s => s.className
  | .expr e => e.className

/-- What tells nodes of one class apart: an operator, a value or a name. -/
def tag : Node → String
  | .function f => f.name
  | .stmt (.assign target _) => target
  | .expr (.var name) => name
  | .expr (.lit value) => toString value
  | .expr (.call callee _) => callee
  | .expr (.binary op _ _) => op.text
  | _ => ""

end Node

mutual

def Expr.walk : Expr → List Node
  | .var name => [.expr (.var name)]
  | .lit value => [.expr (.lit value)]
  | .call callee actuals => .expr (.call callee actuals) :: Expr.walkAll actuals
  | .binary op left right => .expr (.binary op left right) :: left.walk ++ right.walk

def Expr.walkAll : List Expr → List Node
  | [] => []
  | e :: es => e.walk ++ Expr.walkAll es

end

mutual

def Stmt.walk : Stmt → List Node
  | .assign target value => .stmt (.assign target value) :: value.walk
  | .print value => .stmt (.print value) :: value.walk
  | .ifThen cond yes => .stmt (.ifThen cond yes) :: cond.walk ++ yes.walk
  | .ifElse cond yes no => .stmt (.ifElse cond yes no) :: cond.walk ++ yes.walk ++ no.walk
  | .loop cond body => .stmt (.loop cond body) :: cond.walk ++ body.walk
  | .block body => .stmt (.block body) :: Stmt.walkAll body
  | .ret value => .stmt (.ret value) :: value.walk

def Stmt.walkAll : List Stmt → List Node
  | [] => []
  | s :: ss => s.walk ++ Stmt.walkAll ss

end

def Function.walk (f : Function) : List Node := .function f :: f.body.walk

def Program.walk (p : Program) : List Node := .program p :: p.functions.flatMap Function.walk

end FunCompiler
