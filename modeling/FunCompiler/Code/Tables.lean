import FunCompiler.Asm.Item

/-!
What code generation keeps track of: how many labels it has issued, and which
global cells the program uses, in the order in which they are first met.
-/

namespace FunCompiler.Code

open Asm

/-- The global cells met so far, each once. -/
structure Globals where
  names : List String := []
  deriving DecidableEq, Repr, Inhabited

namespace Globals

def contains (g : Globals) (name : String) : Bool := g.names.contains name

def register (g : Globals) (name : String) : Globals :=
  if g.contains name then g else ⟨g.names ++ [name]⟩

def cell (name : String) : List Item :=
  [.directive (.global (.cell name)), .label (.cell name), .directive (.quad 0)]

def label (name : String) : List Item :=
  [.label (.cellName name), .directive (.string name)]

/-- A cell for every global, then a string with every global's name. -/
def data (g : Globals) : List Item := g.names.flatMap cell ++ g.names.flatMap label

end Globals

structure Tables where
  labels : Nat := 0
  globals : Globals := {}
  deriving DecidableEq, Repr, Inhabited

abbrev Gen := StateM Tables

def freshLabel : Gen Nat := fun t => (t.labels, { t with labels := t.labels + 1 })

/-- Where a function finds the formal of that index: its caller stored the actuals
above the return address and the saved frame pointer. -/
def formalOffset (index : Int) : Int := 8 * index + 16

/-- Where a variable lives: the first formal of that name, or else the global cell. -/
def locate (formals : List String) (name : String) : Gen Operand := fun t =>
  match formals.idxOf? name with
  | some index => (.stack (formalOffset index) .rbp, t)
  | none => (.cell (.cell name), { t with globals := t.globals.register name })

end FunCompiler.Code
