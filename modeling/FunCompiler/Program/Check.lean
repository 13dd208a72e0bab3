import FunCompiler.Program.Walk

/-!
Checks that a program can be linked and run: its functions have different
names, one of them is the entry function, and every call is to a function that
exists and takes that many actuals. Of several definitions of one name the
first counts.
-/

namespace FunCompiler

inductive Problem where
  | duplicate (function : String)
  | noEntry
  | undefined (callee : String)
  | arity (callee : String) (formals actuals : Nat)
  deriving DecidableEq, Repr

def Problem.message : Problem → String
  | .duplicate f => s!"duplicate definition of function '{f}'"
  | .noEntry => s!"no '{entryName}' function defined"
  | .undefined f => s!"call to undefined function '{f}'"
  | .arity f formals actuals => s!"'{f}' takes {formals} argument(s) but {actuals} given"

/-- A problem, and the function it was found in if it is one function's. -/
structure Diagnostic where
  problem : Problem
  within : Option String
  deriving DecidableEq, Repr

namespace Diagnostic

/-- The name of the function, empty for a problem of the whole program. -/
def functionName (d : Diagnostic) : String := d.within.getD ""

def text (d : Diagnostic) : String :=
  if d.functionName = "" then d.problem.message
  else s!"in function '{d.functionName}': {d.problem.message}"

end Diagnostic

/-- The functions named like one before them. -/
def duplicates (earlier : List String) : List Function → List Diagnostic
  | [] => []
  | f :: fs =>
    if f.name ∈ earlier then ⟨.duplicate f.name, none⟩ :: duplicates earlier fs
    else duplicates (f.name :: earlier) fs

namespace Program

def find? (p : Program) (name : String) : Option Function :=
  p.functions.find? (·.name == name)

/-- The problem of a call node, if it has one. -/
def callProblem? (p : Program) : Node → Option Problem
  | .expr (.call callee actuals) =>
    match p.find? callee with
    | none => some (.undefined callee)
    | some f =>
      if f.formals.length = actuals.length then none
      else some (.arity callee f.formals.length actuals.length)
  | _ => none

def functionDiagnostics (p : Program) (f : Function) : List Diagnostic :=
  (f.body.walk.filterMap p.callProblem?).map (⟨·, some f.name⟩)

def diagnostics (p : Program) : List Diagnostic :=
  duplicates [] p.functions ++
  (if (p.find? entryName).isNone then [⟨.noEntry, none⟩] else []) ++
  p.functions.flatMap p.functionDiagnostics

end Program

end FunCompiler
