import FunCompiler.Cli.Options
import FunCompiler.Cli.World
import FunCompiler.Compile
import FunCompiler.Program.Encode

/-!
A run of the command line. Everything it does to the world is collected: what
it prints, the file it writes, its runs of the C compiler, and its log.
-/

namespace FunCompiler.Cli

/-- Why a run fails. -/
inductive Failure where
  | compile (e : CompileError)
  | decode (e : Text.Utf8.DecodeError)
  | os (e : OsError)
  | link (e : LinkError)
  | outputRequired
  deriving DecidableEq, Repr

structure Effects where
  stdout : String := ""
  written : Option (Path × String) := none
  runs : List LinkRun := []
  log : Log := []
  deriving DecidableEq, Repr

abbrev Action := ExceptT Failure (StateM Effects)

/-- Carries out a stage of compilation and keeps its notes. -/
def stage {α : Type} (p : Pipeline α) : Action α := do
  let effects ← get
  let (result, log) := p.run.run effects.log
  set { effects with log }
  match result with
  | .ok a => return a
  | .error e => throw (.compile e)

def readSource (w : World) (file : String) : Action String := do
  let bytes ←
    if file = "-" then pure w.stdin
    else
      match w.read (Path.ofString file) with
      | .ok bytes => pure bytes
      | .error e => throw (.os e)
  match sourceOfBytes bytes with
  | .ok source => return source
  | .error e => throw (.decode e)

/-- Writes to the output file, or prints if there is none. -/
def deliver (w : World) (output : Option String) (text : String) : Action Unit := do
  match output with
  | none | some "" => modify fun effects => { effects with stdout := effects.stdout ++ text }
  | some output =>
    let path := Path.ofString output
    match w.writeFault? path with
    | some e => throw (.os e)
    | none => modify fun effects => { effects with written := some (path, text) }

def link (w : World) (o : Options) (target : Target) (assembly : String) : Action Unit := do
  match o.output with
  | none | some "" => throw .outputRequired
  | some output =>
    match w.assemblyFault? with
    | some e => throw (.os e)
    | none =>
      let run := linkRun target o.cc (Path.ofString output) w.assemblyFile assembly
      modify fun effects =>
        { effects with
          runs := effects.runs ++ [run]
          log := effects.log ++ [⟨.toolchain, false, "Linking: " ++ " ".intercalate run.command⟩] }
      match w.compiler.result o.cc with
      | .ok () => return
      | .error e => throw (.link e)

/-- Mnemonics with their counts, as a JSON object. -/
def tallyJson (t : Asm.Tally) : Json := .object (t.map fun (name, n) => (name, .integer n))

def act (w : World) (o : Options) : Action Unit := do
  let target := o.target.getD w.host
  let source ← readSource w o.file
  if o.astOnly then
    let p ← stage (Pipeline.parse source)
    deliver w o.output (p.dump ++ "\n")
  else if o.stats then
    let stats ← stage (Pipeline.stats target source)
    deliver w o.output ((tallyJson stats).text ++ "\n")
  else
    let assembly ← stage (Pipeline.compile target o.validate source)
    if o.link then link w o target assembly else deliver w o.output assembly

/-- How a run ends. -/
inductive Status where
  | exit (code : Nat)
  /-- A failure that the command line does not report itself. -/
  | escaped (e : FileError)
  deriving DecidableEq, Repr

structure Outcome where
  status : Status
  stdout : String
  stderr : String
  written : Option (Path × String)
  runs : List LinkRun
  deriving DecidableEq, Repr

/-- The errors that a failure is reported with, or the failure itself if it escapes. -/
def Failure.report (file : String) : Failure → Except FileError (List String)
  | .compile (.parse (.literalTooLong n)) => .error (.compile (.parse (.literalTooLong n)))
  | .compile (.parse e) => .ok [s!"{file}: {e.message}"]
  | .compile (.rejected diagnostics) => .ok (diagnostics.map fun d => s!"{file}: {d.text}")
  | .decode e => .error (.decode e)
  | .os e => .ok [s!"{file}: {e.message}"]
  | .link e => .ok [e.message]
  | .outputRequired => .ok ["--link requires --output"]

def compile (w : World) (o : Options) : Outcome :=
  let (result, effects) := (act w o).run.run {}
  let (status, errors) : Status × List String :=
    match result with
    | .ok () => (.exit 0, [])
    | .error failure =>
      match failure.report o.file with
      | .ok errors => (.exit 1, errors)
      | .error e => (.escaped e, [])
  let log := effects.log ++ errors.map (⟨.cli, true, ·⟩)
  { status
    stdout := effects.stdout
    stderr := log.render o.verbose
    written := effects.written
    runs := effects.runs }

def run (w : World) (args : List String) : Outcome :=
  match parseArgs args with
  | .error e => ⟨.exit 2, "", e.text, none, []⟩
  | .ok .help => ⟨.exit 0, helpText, "", none, []⟩
  | .ok (.compile o) => compile w o

end FunCompiler.Cli
