import FunCompiler.Program
import FunCompiler.Code.Tables

/-!
Code generation. An expression leaves its value in `%rax`; the left operand of
an operator waits on the stack while the right one is computed. A call reserves
slots for its actuals first, one word more than they need, and stores each
actual when it is ready. A function keeps its frame pointer in `%rbp` and
returns in `%rax`, zero if it ends without a `return`.

Code is made in one pass: labels are numbered and globals are entered in the
tables in the order in which the pass meets them.
-/

namespace FunCompiler

open Asm Code

namespace Code

/-- Applies an operator to `%rcx` on the left and `%rax` on the right. -/
def operatorCode : Operator → List Item
  | .add => [.instr (.add Register.rcx Register.rax)]
  | .mul => [.instr (.mul .rcx)]
  | .eq => compare .equal
  | .ne => compare .notEqual
  | .lt => compare .below
  | .gt => compare .above
where
  compare (c : Condition) : List Item :=
    [.instr (.cmp Register.rax Register.rcx), .instr (.set c), .instr .widen]

/-- The bytes reserved for a call with that many actuals. -/
def reservedBytes (actuals : Nat) : Int := 8 * actuals + 8

/-- Reserves the slots of a call around its code; a call without actuals has none. -/
def reserving (actuals : Nat) (code : List Item) : List Item :=
  if actuals = 0 then code
  else
    let bytes := Operand.immediate (reservedBytes actuals)
    .instr (.sub bytes Register.rsp) :: code ++ [.instr (.add bytes Register.rsp)]

/-- Stores the accumulator as the actual of that index. -/
def storeActual (index : Nat) : Item :=
  .instr (.mov Register.rax (.stack (8 * index) .rsp))

/-- Jumps to the label if the accumulator is zero. -/
def jumpIfZero (label : Symbol) : List Item :=
  [.instr (.cmp (.immediate 0) Register.rax), .instr (.je label)]

/-- Prints the accumulator. The stack is aligned for the C library's function and
put back from `%rbx` after it. -/
def printCode (target : Target) : List Item :=
  [.instr (.mov Register.rsp Register.rbx),
   .instr (.and (.immediate (-16)) Register.rsp),
   .instr (.lea .format .rdi),
   .instr (.mov Register.rax Register.rsi),
   .instr (.mov (.immediate 0) Register.rax),
   .instr (.call (.printf target)),
   .instr (.mov Register.rbx Register.rsp)]

def enterFrame : List Item := [.instr (.push .rbp), .instr (.mov Register.rsp Register.rbp)]

def leaveFrame : List Item := [.instr (.mov Register.rbp Register.rsp), .instr (.pop .rbp)]

/-- Calls the program's entry function. `%rbx` belongs to the caller, so it is
saved and restored here. -/
def entryCode : List Item :=
  [.directive (.global .entry), .directive (.global .entryAlias), .label .entry, .label .entryAlias] ++
  enterFrame ++
  [.instr (.push .rbx),
   .instr (.sub (.immediate 8) Register.rsp),
   .instr (.call (.function entryName)),
   .instr (.mov (.stack (-8) .rbp) Register.rbx)] ++
  leaveFrame ++
  [.instr .ret]

/-- How `print` writes a value. -/
def printFormat : String := "%lu\\n"

/-! ### Rules

Each rule makes the code of a construct from computations that make the code of
its parts. It says in which order they are carried out, when a label is drawn and
when a name is looked up. Whatever else a computation may do beside filling the
tables, such as stop, is left open.
-/

variable {m : Type → Type} [Monad m] [MonadLiftT Gen m]

def emitVariable (formals : List String) (name : String) : m (List Item) := do
  let place ← locate formals name
  return [.instr (.mov place Register.rax)]

def emitLiteral (value : Int) : m (List Item) :=
  return [.instr (.mov (.immediate value) Register.rax)]

def emitCall (callee : String) (actuals : Nat) (stores : m (List Item)) : m (List Item) := do
  let stores ← stores
  return reserving actuals (stores ++ [.instr (.call (.function callee))])

/-- Computes an actual and stores it in its slot, before those behind it. -/
def emitActual (index : Nat) (actual more : m (List Item)) : m (List Item) := do
  let first ← actual
  let rest ← more
  return first ++ storeActual index :: rest

def emitBinary (left right operator : m (List Item)) : m (List Item) := do
  let first ← left
  let second ← right
  let apply ← operator
  return first ++ .instr (.push .rax) :: second ++ .instr (.pop .rcx) :: apply

def emitAssign (formals : List String) (name : String) (value : m (List Item)) :
    m (List Item) := do
  let code ← value
  let place ← locate formals name
  return code ++ [.instr (.mov Register.rax place)]

def emitPrint (target : Target) (value : m (List Item)) : m (List Item) := do
  let code ← value
  return code ++ printCode target

/-- A conditional; without a second branch, the code of that is empty. -/
def emitBranch (cond yes no : m (List Item)) : m (List Item) := do
  let test ← cond
  let id ← freshLabel
  let first ← yes
  let second ← no
  return test ++ jumpIfZero (.control id .no) ++
    .label (.control id .yes) :: first ++
    ([.instr (.jmp (.control id .last)), .label (.control id .no)] ++
      (second ++ [.label (.control id .last)]))

def emitLoop (cond body : m (List Item)) : m (List Item) := do
  let id ← freshLabel
  let test ← cond
  let code ← body
  return .label (.control id .first) :: test ++ jumpIfZero (.control id .last) ++ code ++
    [.instr (.jmp (.control id .first)), .label (.control id .last)]

def emitReturn (value : m (List Item)) : m (List Item) := do
  let code ← value
  return code ++ leaveFrame ++ [.instr .ret]

/-- One piece of code and then another. -/
def emitBefore (first rest : m (List Item)) : m (List Item) := do
  let first ← first
  let rest ← rest
  return first ++ rest

def emitFunction (name : String) (body : m (List Item)) : m (List Item) := do
  let body ← body
  return [.directive (.global (.function name)), .directive (.global (.functionAlias name)),
      .label (.function name), .label (.functionAlias name)] ++
    enterFrame ++ body ++ leaveFrame ++
    [.instr (.mov (.immediate 0) Register.rax), .instr .ret]

end Code

/-! ### Programs -/

mutual

def Expr.emit (formals : List String) : Expr → Gen (List Item)
  | .var name => emitVariable formals name
  | .lit value => emitLiteral value
  | .call callee actuals =>
    emitCall callee actuals.length (Expr.emitActuals formals 0 actuals)
  | .binary op left right =>
    emitBinary (left.emit formals) (right.emit formals) (return operatorCode op)

/-- Computes actuals and stores them in their slots, from the given index on. -/
def Expr.emitActuals (formals : List String) (index : Nat) : List Expr → Gen (List Item)
  | [] => return []
  | actual :: more =>
    emitActual index (actual.emit formals) (Expr.emitActuals formals (index + 1) more)

end

mutual

def Stmt.emit (target : Target) (formals : List String) : Stmt → Gen (List Item)
  | .assign name value => emitAssign formals name (value.emit formals)
  | .print value => emitPrint target (value.emit formals)
  | .ifThen cond yes => emitBranch (cond.emit formals) (yes.emit target formals) (return [])
  | .ifElse cond yes no =>
    emitBranch (cond.emit formals) (yes.emit target formals) (no.emit target formals)
  | .loop cond body => emitLoop (cond.emit formals) (body.emit target formals)
  | .block body => Stmt.emitAll target formals body
  | .ret value => emitReturn (value.emit formals)

def Stmt.emitAll (target : Target) (formals : List String) : List Stmt → Gen (List Item)
  | [] => return []
  | s :: ss => emitBefore (s.emit target formals) (Stmt.emitAll target formals ss)

end

def Function.emit (target : Target) (f : Function) : Gen (List Item) :=
  emitFunction f.name (f.body.emit target f.formals)

def Function.emitAll (target : Target) : List Function → Gen (List Item)
  | [] => return []
  | f :: fs => emitBefore (f.emit target) (Function.emitAll target fs)

/-- The code of a program, and the tables as generation left them. -/
structure Listing where
  items : List Item
  tables : Tables
  deriving Repr, DecidableEq

namespace Listing

/-- The code of the functions with the entry point and the data behind it. -/
def ofFunctions (functions : List Item) (tables : Tables) : Listing where
  items := .directive .text :: functions ++ entryCode ++
    [.directive .data, .label .format, .directive (.string printFormat)] ++ tables.globals.data
  tables := tables

def lines (l : Listing) : List Line := l.items.map Item.line

def text (l : Listing) : String := render l.lines

end Listing

def Program.generate (target : Target) (p : Program) : Listing :=
  let (functions, tables) := (Function.emitAll target p.functions).run {}
  .ofFunctions functions tables

end FunCompiler
