/-!
Programs of the *fun* language. A program is a list of functions over one
store of global cells; a name that is not a formal of the enclosing function
denotes the global cell of that name. Every value is an unsigned 64-bit word.

Literals are held as integers. Reading a program from text or from JSON only
ever makes literals that fit in a word (`Program.InRange`), but a tree built
by hand may hold any integer.
-/

namespace FunCompiler

inductive Operator where
  | add
  | mul
  | eq
  | ne
  | lt
  | gt
  deriving DecidableEq, Repr

namespace Operator

def all : List Operator := [.add, .mul, .eq, .ne, .lt, .gt]

def text : Operator → String
  | .add => "+"
  | .mul => "*"
  | .eq => "=="
  | .ne => "<>"
  | .lt => "<"
  | .gt => ">"

def ofText? (s : String) : Option Operator := all.find? (·.text == s)

/-- How tightly an operator binds; equal numbers associate to the left. -/
def precedence : Operator → Nat
  | .eq => 1
  | .ne => 1
  | .lt => 2
  | .gt => 2
  | .add => 3
  | .mul => 4

end Operator

inductive Expr where
  | var (name : String)
  | lit (value : Int)
  | call (callee : String) (actuals : List Expr)
  | binary (op : Operator) (left right : Expr)
  deriving Repr, BEq, Inhabited

inductive Stmt where
  | assign (target : String) (value : Expr)
  | print (value : Expr)
  | ifThen (cond : Expr) (yes : Stmt)
  | ifElse (cond : Expr) (yes no : Stmt)
  | loop (cond : Expr) (body : Stmt)
  | block (body : List Stmt)
  | ret (value : Expr)
  deriving Repr, BEq, Inhabited

structure Function where
  name : String
  formals : List String
  body : Stmt
  deriving Repr, BEq, Inhabited

structure Program where
  functions : List Function
  deriving Repr, BEq, Inhabited

abbrev Word := BitVec 64

/-- The number of different words, one more than the largest literal. -/
def wordCount : Nat := Nat.pow 2 64

/-- The name of the function where a run starts. -/
def entryName : String := "main"

mutual

/-- Every literal of the expression fits in a word. -/
def Expr.InRange : Expr → Prop
  | .var _ => True
  | .lit v => 0 ≤ v ∧ v < wordCount
  | .call _ actuals => Expr.AllInRange actuals
  | .binary _ left right => left.InRange ∧ right.InRange

def Expr.AllInRange : List Expr → Prop
  | [] => True
  | e :: es => e.InRange ∧ Expr.AllInRange es

end

mutual

def Stmt.InRange : Stmt → Prop
  | .assign _ value => value.InRange
  | .print value => value.InRange
  | .ifThen cond yes => cond.InRange ∧ yes.InRange
  | .ifElse cond yes no => cond.InRange ∧ yes.InRange ∧ no.InRange
  | .loop cond body => cond.InRange ∧ body.InRange
  | .block body => Stmt.AllInRange body
  | .ret value => value.InRange

def Stmt.AllInRange : List Stmt → Prop
  | [] => True
  | s :: ss => s.InRange ∧ Stmt.AllInRange ss

end

def Program.InRange (p : Program) : Prop := ∀ f ∈ p.functions, f.body.InRange

end FunCompiler
