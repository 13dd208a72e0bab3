import FunCompiler.Source.Token

/-!
A program part way through its text. What has been read is kept as the pieces
that still wait for a part: a function head waits for its body, statements wait
for statements inside them, and one statement may wait for an expression whose
own pieces wait for operands. `Reading.step` takes one token in; it is `none`
exactly where the token cannot stand.

A finished operand or block is not joined to what surrounds it before the next
token is known, because only that token tells how far it reaches: an operator
may bind it, an `else` belongs to the nearest open `if`, and a name before `(`
is a call.
-/

namespace FunCompiler.Source

/-- A function whose body is being read, behind the functions before it. -/
structure Head where
  before : List Function
  name : String
  formals : List String
  deriving Repr

/-- A statement that waits for a statement inside it. -/
inductive StmtFrame where
  | yes (cond : Expr)
  | no (cond : Expr) (yes : Stmt)
  | body (cond : Expr)
  | item (before : List Stmt)
  deriving Repr

/-- What surrounds a statement, innermost first. -/
structure StmtContext where
  frames : List StmtFrame
  head : Head
  deriving Repr

/-- What a whole expression is for. -/
inductive Purpose where
  | assign (target : String)
  | print
  | branch
  | loop
  | ret
  deriving Repr

/-- An expression that waits for an expression inside it. -/
inductive ExprFrame where
  | right (left : Expr) (op : Operator)
  | group
  | actual (callee : String) (before : List Expr)
  deriving Repr

/-- What surrounds an expression, innermost first. -/
structure ExprContext where
  frames : List ExprFrame
  purpose : Purpose
  outer : StmtContext
  deriving Repr

inductive Reading where
  | start
  | functionName (before : List Function)
  | formalsOpen (before : List Function) (name : String)
  | firstFormal (before : List Function) (name : String)
  | nextFormal (before : List Function) (name : String) (formals : List String)
  | afterFormal (before : List Function) (name : String) (formals : List String)
  | statement (ctx : StmtContext)
  | blockStart (ctx : StmtContext)
  | afterTarget (ctx : StmtContext) (target : String)
  | operand (ctx : ExprContext)
  | firstActual (ctx : ExprContext) (callee : String)
  | afterName (ctx : ExprContext) (name : String)
  | afterOperand (ctx : ExprContext) (operand : Expr)
  | afterBlock (ctx : StmtContext) (body : List Stmt)
  deriving Repr

/-- The functions read so far, the last with the finished body. -/
def Head.finish (head : Head) (body : Stmt) : List Function :=
  head.before ++ [⟨head.name, head.formals, body⟩]

namespace StmtContext

def push (ctx : StmtContext) (frame : StmtFrame) : StmtContext :=
  { ctx with frames := frame :: ctx.frames }

/-- Joins a finished statement to everything it ends: conditionals without an
`else`, alternatives and loops, up to a block or the function. -/
def close : List StmtFrame → Stmt → List StmtFrame × Stmt
  | .yes cond :: frames, s => close frames (.ifThen cond s)
  | .no cond yes :: frames, s => close frames (.ifElse cond yes s)
  | .body cond :: frames, s => close frames (.loop cond s)
  | frames, s => (frames, s)

/-- Finds the conditional that an `else` behind the statement belongs to. -/
def closeToBranch : List StmtFrame → Stmt → Option (List StmtFrame)
  | .yes cond :: frames, s => some (.no cond s :: frames)
  | .no cond yes :: frames, s => closeToBranch frames (.ifElse cond yes s)
  | .body cond :: frames, s => closeToBranch frames (.loop cond s)
  | _, _ => none

/-- An expression for the given purpose comes next. -/
def expect (ctx : StmtContext) (purpose : Purpose) : Reading :=
  .operand ⟨[], purpose, ctx⟩

/-- The first token of a statement. -/
def begin? (ctx : StmtContext) : Token → Option Reading
  | .keyword .print => some (ctx.expect .print)
  | .keyword .branch => some (ctx.expect .branch)
  | .keyword .loop => some (ctx.expect .loop)
  | .keyword .ret => some (ctx.expect .ret)
  | .mark .openBrace => some (.blockStart ctx)
  | .name target => some (.afterTarget ctx target)
  | _ => none

/-- The token behind a finished statement. -/
def follow? (ctx : StmtContext) (s : Stmt) : Token → Option Reading
  | .keyword .otherwise =>
    (closeToBranch ctx.frames s).map fun frames => .statement { ctx with frames }
  | token =>
    match close ctx.frames s with
    | (.item before :: frames, s) =>
      if token = .mark .closeBrace then some (.afterBlock { ctx with frames } (before ++ [s]))
      else begin? { ctx with frames := .item (before ++ [s]) :: frames } token
    | (_, s) =>
      if token = .keyword .function then some (.functionName (ctx.head.finish s)) else none

/-- The program that ends with the statement. -/
def finish? (ctx : StmtContext) (s : Stmt) : Option Program :=
  match close ctx.frames s with
  | ([], s) => some ⟨ctx.head.finish s⟩
  | _ => none

end StmtContext

namespace ExprContext

def push (ctx : ExprContext) (frame : ExprFrame) : ExprContext :=
  { ctx with frames := frame :: ctx.frames }

/-- Joins a finished operand to the operators on its left that bind at least as
tightly as `limit`. -/
def close (limit : Nat) : List ExprFrame → Expr → List ExprFrame × Expr
  | .right left op :: frames, e =>
    if limit ≤ op.precedence then close limit frames (.binary op left e)
    else (.right left op :: frames, e)
  | frames, e => (frames, e)

/-- The token behind an expression that is whole. -/
def endExpr? (ctx : ExprContext) (e : Expr) (token : Token) : Option Reading :=
  match ctx.purpose with
  | .assign target => ctx.outer.follow? (.assign target e) token
  | .print => ctx.outer.follow? (.print e) token
  | .ret => ctx.outer.follow? (.ret e) token
  | .branch => (ctx.outer.push (.yes e)).begin? token
  | .loop => (ctx.outer.push (.body e)).begin? token

/-- The token behind a finished operand. -/
def follow? (ctx : ExprContext) (e : Expr) : Token → Option Reading
  | .operator op =>
    let (frames, e) := close op.precedence ctx.frames e
    some (.operand { ctx with frames := .right e op :: frames })
  | .mark .closeParen =>
    match close 0 ctx.frames e with
    | (.group :: frames, e) => some (.afterOperand { ctx with frames } e)
    | (.actual callee before :: frames, e) =>
      some (.afterOperand { ctx with frames } (.call callee (before ++ [e])))
    | _ => none
  | .mark .comma =>
    match close 0 ctx.frames e with
    | (.actual callee before :: frames, e) =>
      some (.operand { ctx with frames := .actual callee (before ++ [e]) :: frames })
    | _ => none
  | token =>
    match close 0 ctx.frames e with
    | ([], e) => ctx.endExpr? e token
    | _ => none

/-- The first token of an operand. -/
def begin? (ctx : ExprContext) : Token → Option Reading
  | .number digits => some (.afterOperand ctx (.lit (Nat.ofDigitChars 10 digits.toList 0)))
  | .name name => some (.afterName ctx name)
  | .mark .openParen => some (.operand (ctx.push .group))
  | _ => none

/-- The program that ends with the operand. -/
def finish? (ctx : ExprContext) (e : Expr) : Option Program :=
  match close 0 ctx.frames e, ctx.purpose with
  | ([], e), .assign target => ctx.outer.finish? (.assign target e)
  | ([], e), .print => ctx.outer.finish? (.print e)
  | ([], e), .ret => ctx.outer.finish? (.ret e)
  | _, _ => none

end ExprContext

namespace Reading

def place : Reading → Place
  | .start => .start
  | .functionName .. => .functionName
  | .formalsOpen .. => .formalsOpen
  | .firstFormal .. => .firstFormal
  | .nextFormal .. => .nextFormal
  | .afterFormal .. => .afterFormal
  | .statement .. => .statement
  | .blockStart .. => .blockStart
  | .afterTarget .. => .afterTarget
  | .operand .. => .operand
  | .firstActual .. => .firstActual
  | .afterName .. => .afterName
  | .afterOperand .. => .afterOperand
  | .afterBlock .. => .afterBlock

/-- Takes one token in, if it can stand here. -/
def step : Reading → Token → Option Reading
  | .start, .keyword .function => some (.functionName [])
  | .functionName before, .name name => some (.formalsOpen before name)
  | .formalsOpen before name, .mark .openParen => some (.firstFormal before name)
  | .firstFormal before name, .name formal => some (.afterFormal before name [formal])
  | .firstFormal before name, .mark .closeParen => some (.statement ⟨[], ⟨before, name, []⟩⟩)
  | .nextFormal before name formals, .name formal =>
    some (.afterFormal before name (formals ++ [formal]))
  | .afterFormal before name formals, .mark .comma => some (.nextFormal before name formals)
  | .afterFormal before name formals, .mark .closeParen =>
    some (.statement ⟨[], ⟨before, name, formals⟩⟩)
  | .statement ctx, token => ctx.begin? token
  | .blockStart ctx, .mark .closeBrace => some (.afterBlock ctx [])
  | .blockStart ctx, token => (ctx.push (.item [])).begin? token
  | .afterTarget ctx target, .mark .becomes => some (ctx.expect (.assign target))
  | .operand ctx, token => ctx.begin? token
  | .firstActual ctx callee, .mark .closeParen => some (.afterOperand ctx (.call callee []))
  | .firstActual ctx callee, token => (ctx.push (.actual callee [])).begin? token
  | .afterName ctx name, .mark .openParen => some (.firstActual ctx name)
  | .afterName ctx name, token => ctx.follow? (.var name) token
  | .afterOperand ctx e, token => ctx.follow? e token
  | .afterBlock ctx body, token => ctx.follow? (.block body) token
  | _, _ => none

/-- The program, if the text may end here. -/
def finish? : Reading → Option Program
  | .start => some ⟨[]⟩
  | .afterName ctx name => ctx.finish? (.var name)
  | .afterOperand ctx e => ctx.finish? e
  | .afterBlock ctx body => ctx.finish? (.block body)
  | _ => none

end Reading

end FunCompiler.Source
