import FunCompiler.Program
import FunCompiler.Json.Writer

/-!
Programs as JSON. Every statement and expression is an object whose first member
`kind` tells which it is; its parts follow in a fixed order.
-/

namespace FunCompiler

def strings (ss : List String) : Json := .array (ss.map .string)

mutual

def Expr.toJson : Expr → Json
  | .var name => .object [("kind", .string "variable"), ("name", .string name)]
  | .lit value => .object [("kind", .string "literal"), ("value", .integer value)]
  | .call callee actuals =>
    .object [("kind", .string "call"), ("name", .string callee),
      ("actuals", .array (Expr.toJsons actuals))]
  | .binary op left right =>
    .object [("kind", .string "binary"), ("op", .string op.text),
      ("left", left.toJson), ("right", right.toJson)]

def Expr.toJsons : List Expr → List Json
  | [] => []
  | e :: es => e.toJson :: Expr.toJsons es

end

mutual

def Stmt.toJson : Stmt → Json
  | .assign target value =>
    .object [("kind", .string "assign"), ("name", .string target), ("value", value.toJson)]
  | .print value => .object [("kind", .string "print"), ("value", value.toJson)]
  | .ifThen cond yes =>
    .object [("kind", .string "if"), ("condition", cond.toJson), ("then_branch", yes.toJson),
      ("else_branch", .null)]
  | .ifElse cond yes no =>
    .object [("kind", .string "if"), ("condition", cond.toJson), ("then_branch", yes.toJson),
      ("else_branch", no.toJson)]
  | .loop cond body =>
    .object [("kind", .string "while"), ("condition", cond.toJson), ("body", body.toJson)]
  | .block body => .object [("kind", .string "block"), ("statements", .array (Stmt.toJsons body))]
  | .ret value => .object [("kind", .string "return"), ("value", value.toJson)]

def Stmt.toJsons : List Stmt → List Json
  | [] => []
  | s :: ss => s.toJson :: Stmt.toJsons ss

end

def Function.toJson (f : Function) : Json :=
  .object [("name", .string f.name), ("formals", strings f.formals), ("body", f.body.toJson)]

def Program.toJson (p : Program) : Json :=
  .object [("functions", .array (p.functions.map Function.toJson))]

/-- The program as JSON text. -/
def Program.dump (p : Program) : String := p.toJson.text

end FunCompiler
