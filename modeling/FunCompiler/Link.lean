import FunCompiler.Path
import FunCompiler.Target

/-!
Assembling and linking with the system's C compiler. The assembly is handed
over in a file of its own; what the compiler answers is an argument here.
-/

namespace FunCompiler

/-- How a run of the C compiler ends. -/
inductive CompilerAnswer where
  | exited (status : Int) (stderr : String)
  | notStarted (reason : String)
  deriving DecidableEq, Repr

/-- A run of the C compiler on a file that holds the assembly. -/
structure LinkRun where
  command : List String
  assembly : String
  deriving DecidableEq, Repr

inductive LinkError where
  | failed (cc : String) (status : Int) (stderr : String)
  | notStarted (cc : String) (reason : String)
  deriving DecidableEq, Repr

def LinkError.message : LinkError → String
  | .failed cc status stderr => s!"{cc} exited with status {status}:\n{stderr}"
  | .notStarted cc reason => s!"cannot run {cc}: {reason}"

/-- The run that links the assembly in the file `input` into `output`. -/
def linkRun (target : Target) (cc : String) (output : Path) (input assembly : String) : LinkRun where
  command := cc :: target.linkOptions ++ ["-o", output.text, input]
  assembly := assembly

/-- What the compiler's answer means for the link. -/
def CompilerAnswer.result (cc : String) : CompilerAnswer → Except LinkError Unit
  | .exited 0 _ => .ok ()
  | .exited status stderr => .error (.failed cc status stderr)
  | .notStarted reason => .error (.notStarted cc reason)

end FunCompiler
