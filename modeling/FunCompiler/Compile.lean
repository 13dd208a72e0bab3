import FunCompiler.Code.Generate
import FunCompiler.Log
import FunCompiler.Program.Check
import FunCompiler.Source.Parser
import FunCompiler.Text.Utf8

/-!
From source text to assembly: parse, check unless told otherwise, generate.
Each stage leaves its notes in the log, also when a later stage fails.
-/

namespace FunCompiler

open Code

inductive CompileError where
  | parse (e : Source.ParseError)
  | rejected (diagnostics : List Diagnostic)
  deriving DecidableEq, Repr

/-- All diagnostics of a rejected program in one text. -/
def rejection (diagnostics : List Diagnostic) : String :=
  "; ".intercalate (diagnostics.map Diagnostic.text)

def CompileError.message : CompileError → String
  | .parse e => e.message
  | .rejected diagnostics => rejection diagnostics

/-- A stage of compilation. The log survives a failure. -/
abbrev Pipeline := ExceptT CompileError (StateM Log)

namespace Pipeline

def note (stage : Stage) (text : String) : Pipeline Unit :=
  modify (· ++ [⟨stage, false, text⟩])

def parse (source : String) : Pipeline Program :=
  match Source.parse source with
  | .ok p => do
    note .parser s!"Parsed {p.functions.length} function(s)"
    return p
  | .error e => throw (.parse e)

def check (p : Program) : Pipeline Unit := do
  let diagnostics := p.diagnostics
  note .validate s!"Validation found {diagnostics.length} problem(s)"
  unless diagnostics.isEmpty do throw (.rejected diagnostics)

/-- Notes each function, and behind it the globals that it is the first to use. -/
def noteFunctions (target : Target) : Tables → List Function → Pipeline Unit
  | _, [] => return
  | tables, f :: fs => do
    note .codegen (s!"Function {f.name}(" ++ ", ".intercalate f.formals ++ ")")
    let (_, after) := (f.emit target).run tables
    for name in after.globals.names.drop tables.globals.names.length do
      note .symbols s!"Registering global {name}"
    noteFunctions target after fs

def generate (target : Target) (p : Program) : Pipeline Listing := do
  note .codegen s!"Generating {p.functions.length} function(s) for target {target.name}"
  noteFunctions target {} p.functions
  let listing := p.generate target
  note .codegen (s!"Emitted {listing.items.length} lines, {listing.tables.labels} label group(s), " ++
    s!"{listing.tables.globals.names.length} global(s)")
  return listing

def compile (target : Target) (validate : Bool) (source : String) : Pipeline String := do
  let p ← parse source
  if validate then check p
  let listing ← generate target p
  return listing.text

/-- Counts the mnemonics of the code for a source text that is not checked. -/
def stats (target : Target) (source : String) : Pipeline Asm.Tally := do
  let p ← parse source
  let listing ← generate target p
  return Asm.tally listing.lines

end Pipeline

/-- The assembly for a source text. -/
def compileSource (target : Target) (validate : Bool) (source : String) :
    Except CompileError String :=
  ((Pipeline.compile target validate source).run.run []).1

/-- How often each mnemonic occurs in the assembly for a source text. -/
def sourceStats (target : Target) (source : String) : Except CompileError Asm.Tally :=
  ((Pipeline.stats target source).run.run []).1

inductive FileError where
  | decode (e : Text.Utf8.DecodeError)
  | compile (e : CompileError)
  deriving DecidableEq, Repr

def FileError.message : FileError → String
  | .decode e => e.message
  | .compile e => e.message

/-- The source text that the bytes of a file hold. -/
def sourceOfBytes (bytes : List UInt8) : Except Text.Utf8.DecodeError String :=
  (Text.Utf8.decode bytes).map fun cs => String.ofList (Text.unifyNewlines cs)

/-- The assembly for the bytes of a source file. -/
def compileBytes (target : Target) (validate : Bool) (bytes : List UInt8) :
    Except FileError String :=
  match sourceOfBytes bytes with
  | .error e => .error (.decode e)
  | .ok source => (compileSource target validate source).mapError .compile

end FunCompiler
