import FunCompiler.Proofs.Simulation.Frame

/-!
What the code of each kind of syntax is asked to do. Code is asked for where it
lies in a program (`Process.Placed`), for a state of the machine that
represents the store, and for a given amount of fuel; the contracts of the
parts, for less fuel, are what the contract of a construct is proved from
(`Process.Meets`).
-/

namespace FunCompiler

open Asm Code

mutual

/-- The names that a statement assigns to. -/
def Stmt.targets : Stmt → List String
  | .assign target _ => [target]
  | .print _ => []
  | .ifThen _ yes => yes.targets
  | .ifElse _ yes no => yes.targets ++ no.targets
  | .loop _ body => body.targets
  | .block body => Stmt.targetsAll body
  | .ret _ => []

def Stmt.targetsAll : List Stmt → List String
  | [] => []
  | s :: ss => s.targets ++ Stmt.targetsAll ss

end

namespace Semantics.Process

variable {P : Process}

/-! ### Where code lies -/

variable (P) in
/-- Code lies at an index of the program: the globals it uses are declared, its calls
find their functions and are made at the given depths below the frame pointer, and the
frame was made by a call. -/
structure Placed (base : Int) (pc : Nat) (made : List Item × Tables) (nodes : List Node)
    (depths : List Int) : Prop where
  lies : Lies P.user pc made.1
  globals : made.2.globals.names ⊆ P.globals
  links : P.program.Links nodes
  depths : depths ⊆ P.callDepths
  frame : P.CalledWith (base + 16)

/-- Parts of code that is in place are in place. -/
theorem Placed.part {base : Int} {pc pc' : Nat} {made made' : List Item × Tables}
    {nodes nodes' : List Node} {depths depths' : List Int}
    (h : P.Placed base pc made nodes depths) (hlies : Lies P.user pc' made'.1)
    (hgrow : made'.2.Grows made.2) (hlinks : P.program.Links nodes → P.program.Links nodes')
    (hdepths : depths' ⊆ depths) : P.Placed base pc' made' nodes' depths' where
  lies := hlies
  globals := List.Subset.trans hgrow.globals h.globals
  links := hlinks h.links
  depths := List.Subset.trans hdepths h.depths
  frame := h.frame

variable (P) in
/-- The code of a function is entered at the index. -/
def Enters (f : Function) (pc : Nat) : Prop :=
  ∃ start t, pc = start + 2 ∧ Lies P.user start (f.emit P.library.target t).1 ∧
    (f.emit P.library.target t).2.globals.names ⊆ P.globals

/-- Calling a function enters its code. -/
theorem exists_enters {f : Function} (hf : f ∈ P.program.functions) :
    ∃ pc, P.Enters f pc ∧
      ∀ s : State, s.jump? P.items (.function f.name) = some { s with pc } := by
  obtain ⟨start, t, hlies, hglobals⟩ := Program.lies_function P.library.target hf
  refine ⟨start + 2, ⟨start, t, rfl, hlies, hglobals⟩, fun s => ?_⟩
  rw [Function.emit_eq] at hlies
  exact jump?_eq hlies.tail.tail

/-! ### Contracts -/

variable (P) in
/-- The code of an expression has left its value in the accumulator. -/
structure Evaluated (frame : Frame) (depth : Int) (pc : Nat) (value : Word) (σ : Store)
    (s : State) : Prop extends P.Represents frame depth σ s where
  pc : s.pc = pc
  rax : word (s.registers .rax) = value

variable (P) in
/-- The code of actuals has left their values in their slots. -/
structure Passed (frame : Frame) (depth : Int) (pc index : Nat) (values : List Word) (σ : Store)
    (s : State) : Prop extends P.Represents frame depth σ s where
  pc : s.pc = pc
  slots : HoldsWords (frame.base - depth + 8 * index) values s

variable (P) in
/-- The code of a statement has run to its end, or has returned from the function. -/
def Completed (frame : Frame) (pc : Nat) : Completion → Store → State → Prop
  | none, σ, s => s.pc = pc ∧ P.Represents frame 0 σ s
  | some value, σ, s => P.Returned frame value σ s

variable (P) (fuel : Nat)

def ExprMeets (e : Expr) : Prop :=
  ∀ (frame : Frame) (depth : Int) (t : Tables) (σ : Store) (s : State),
    P.Placed frame.base s.pc (e.emit frame.formals t) e.walk (e.callDepths depth) →
    P.Represents frame depth σ s →
    P.Simulates (fuel - sizeOf e) (Below (frame.base - depth))
      (evalExpr P.program frame.formals fuel e) σ s
      (P.Evaluated frame depth (s.pc + (e.emit frame.formals t).1.length))

/-- The slots of the actuals have been reserved below the frame. -/
def ActualsMeet (es : List Expr) : Prop :=
  ∀ (frame : Frame) (depth : Int) (t : Tables) (σ : Store) (s : State) (index : Nat),
    P.Placed frame.base s.pc (Expr.emitActuals frame.formals index es t) (Expr.walkAll es)
      (Expr.callDepthsAll depth es) →
    P.Represents frame depth σ s → 8 * (index + es.length : Nat) ≤ depth →
    P.Simulates (fuel - sizeOf es) (Slots (frame.base - depth) index (index + es.length))
      (evalActuals P.program frame.formals fuel es) σ s
      fun values σ' s' => values.length = es.length ∧
        P.Passed frame depth (s.pc + (Expr.emitActuals frame.formals index es t).1.length) index
          values σ' s'

/-- A function is entered with the return address on top of the stack and the actuals
behind it. -/
def CallMeets : Prop :=
  ∀ (callee : String) (f : Function) (values : List Word) (σ : Store) (s : State),
    P.program.find? callee = some f → P.Enters f s.pc → values.length = f.formals.length →
    P.Agrees σ s → HoldsWords (s.registers .rsp + 8) values s →
    P.CalledWith (s.registers .rsp + 8) →
    P.Simulates fuel ((Frame.entered f s).Own P.items f.body.targets)
      (evalCall P.program fuel callee values) σ s
      fun value σ' s' => σ'.locals = σ.locals ∧ P.Returned (Frame.entered f s) value σ' s'

def StmtMeets (st : Stmt) : Prop :=
  ∀ (frame : Frame) (t : Tables) (σ : Store) (s : State),
    P.Placed frame.base s.pc (st.emit P.library.target frame.formals t) st.walk st.callDepths →
    P.Represents frame 0 σ s →
    P.Simulates (fuel - sizeOf st) (frame.Own P.items st.targets)
      (execStmt P.program frame.formals fuel st) σ s
      (P.Completed frame (s.pc + (st.emit P.library.target frame.formals t).1.length))

def AllMeet (sts : List Stmt) : Prop :=
  ∀ (frame : Frame) (t : Tables) (σ : Store) (s : State),
    P.Placed frame.base s.pc (Stmt.emitAll P.library.target frame.formals sts t)
      (Stmt.walkAll sts) (Stmt.callDepthsAll sts) →
    P.Represents frame 0 σ s →
    P.Simulates (fuel - sizeOf sts) (frame.Own P.items (Stmt.targetsAll sts))
      (execAll P.program frame.formals fuel sts) σ s
      (P.Completed frame (s.pc + (Stmt.emitAll P.library.target frame.formals sts t).1.length))

/-- All code does what it is asked to, as far as the fuel goes. -/
structure Meets : Prop where
  expr : ∀ e, P.ExprMeets fuel e
  actuals : ∀ es, P.ActualsMeet fuel es
  call : P.CallMeets fuel
  stmt : ∀ st, P.StmtMeets fuel st
  all : ∀ sts, P.AllMeet fuel sts

end Semantics.Process

end FunCompiler
