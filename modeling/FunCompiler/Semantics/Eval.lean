import FunCompiler.Program

/-!
What a program means. Values are 64-bit words: `+` and `*` wrap, comparisons
are unsigned and give 0 or 1. Operands and actuals are evaluated from left to
right. A name denotes the first formal of that name in the running activation,
or else the global cell, which holds 0 at first.

Evaluation takes fuel, one unit for every step inwards and for every turn of a
loop. A run out of fuel still has the state it reached, so what it has printed
is known.
-/

namespace FunCompiler

def Word.ofBool (b : Bool) : Word := if b then 1 else 0

def Operator.apply : Operator → Word → Word → Word
  | .add, a, b => a + b
  | .mul, a, b => a * b
  | .eq, a, b => Word.ofBool (a == b)
  | .ne, a, b => Word.ofBool (a != b)
  | .lt, a, b => Word.ofBool (a.ult b)
  | .gt, a, b => Word.ofBool (b.ult a)

namespace Semantics

/-- The cells a running function can reach, and what has been printed. -/
structure Store where
  globals : String → Word
  locals : List Word
  output : List Word

namespace Store

def initial : Store := ⟨fun _ => 0, [], []⟩

def get (s : Store) (formals : List String) (name : String) : Word :=
  match formals.idxOf? name with
  | some index => s.locals.getD index 0
  | none => s.globals name

def set (s : Store) (formals : List String) (name : String) (value : Word) : Store :=
  match formals.idxOf? name with
  | some index => { s with locals := s.locals.set index value }
  | none => { s with globals := fun other => if other = name then value else s.globals other }

def print (s : Store) (value : Word) : Store := { s with output := s.output ++ [value] }

end Store

/-- Why evaluation stops before its end. -/
inductive Halt where
  | outOfFuel
  | undefined (function : String)
  deriving DecidableEq, Repr

abbrev Eval := ExceptT Halt (StateM Store)

/-- How a statement ends: it runs to its end, or returns from the function. -/
abbrev Completion := Option Word

mutual

def evalExpr (p : Program) (formals : List String) : Nat → Expr → Eval Word
  | 0, _ => throw .outOfFuel
  | _ + 1, .var name => return (← get).get formals name
  | _ + 1, .lit value => return BitVec.ofInt 64 value
  | fuel + 1, .call callee actuals => do
    let values ← evalActuals p formals fuel actuals
    evalCall p fuel callee values
  | fuel + 1, .binary op left right => do
    let a ← evalExpr p formals fuel left
    let b ← evalExpr p formals fuel right
    return op.apply a b

def evalActuals (p : Program) (formals : List String) : Nat → List Expr → Eval (List Word)
  | 0, _ => throw .outOfFuel
  | _ + 1, [] => return []
  | fuel + 1, e :: es => do
    let value ← evalExpr p formals fuel e
    let values ← evalActuals p formals fuel es
    return value :: values

/-- Runs a function on the values of its formals, in an activation of its own. -/
def evalCall (p : Program) : Nat → String → List Word → Eval Word
  | 0, _, _ => throw .outOfFuel
  | fuel + 1, callee, values => do
    match p.functions.find? (·.name == callee) with
    | none => throw (.undefined callee)
    | some f =>
      let outer := (← get).locals
      modify ({ · with locals := values })
      let completion ← execStmt p f.formals fuel f.body
      modify ({ · with locals := outer })
      return completion.getD 0

def execStmt (p : Program) (formals : List String) : Nat → Stmt → Eval Completion
  | 0, _ => throw .outOfFuel
  | fuel + 1, .assign target value => do
    let v ← evalExpr p formals fuel value
    modify (·.set formals target v)
    return none
  | fuel + 1, .print value => do
    let v ← evalExpr p formals fuel value
    modify (·.print v)
    return none
  | fuel + 1, .ifThen cond yes => do
    let v ← evalExpr p formals fuel cond
    if v = 0 then return none else execStmt p formals fuel yes
  | fuel + 1, .ifElse cond yes no => do
    let v ← evalExpr p formals fuel cond
    if v = 0 then execStmt p formals fuel no else execStmt p formals fuel yes
  | fuel + 1, .loop cond body => do
    let v ← evalExpr p formals fuel cond
    if v = 0 then return none
    else
      match ← execStmt p formals fuel body with
      | some result => return some result
      | none => execStmt p formals fuel (.loop cond body)
  | fuel + 1, .block body => execAll p formals fuel body
  | fuel + 1, .ret value => some <$> evalExpr p formals fuel value

def execAll (p : Program) (formals : List String) : Nat → List Stmt → Eval Completion
  | 0, _ => throw .outOfFuel
  | _ + 1, [] => return none
  | fuel + 1, s :: ss => do
    match ← execStmt p formals fuel s with
    | some result => return some result
    | none => execAll p formals fuel ss

end

/-- What a run of the whole program comes to with that much fuel: its result, if
it has one, and what it has printed. -/
def evaluate (p : Program) (fuel : Nat) : Except Halt Word × List Word :=
  let (result, store) := (evalCall p fuel entryName []).run.run .initial
  (result, store.output)

end Semantics

end FunCompiler
