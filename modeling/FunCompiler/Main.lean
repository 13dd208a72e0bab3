import FunCompiler.Cli.Run

/-!
The program: one run of the command line in the real world. It can run no other
program, so a link ends with the news that the C compiler was not started.
-/

namespace FunCompiler.Cli

/-- The bytes of a file, or why there are none. -/
def fileBytes (path : Path) : IO (Except OsError (List UInt8)) := do
  try
    return .ok (← IO.FS.readBinFile path.text).toList
  catch
    | .inappropriateType .. => return .error (.isDirectory path)
    | _ => return .error (.notFound path)

def stdinBytes : IO (List UInt8) := do
  return (← (← IO.getStdin).readToEnd).toUTF8.toList

/-- The source that the arguments ask for, as the answer to reading it and as standard
input; nothing is read for a line that asks for no compilation. -/
def source (args : List String) : IO (Except OsError (List UInt8) × List UInt8) := do
  match parseArgs args with
  | .ok (.compile o) =>
    if o.file = "-" then return (.ok [], ← stdinBytes)
    else return (← fileBytes (Path.ofString o.file), [])
  | _ => return (.ok [], [])

/-- Carries out what a run has decided, and gives its exit status. -/
def Outcome.perform (outcome : Outcome) : IO UInt32 := do
  IO.print outcome.stdout
  IO.eprint outcome.stderr
  if let some (path, text) := outcome.written then IO.FS.writeFile path.text text
  match outcome.status with
  | .exit code => return code.toUInt32
  | .escaped e =>
    IO.eprintln e.message
    return 1

end FunCompiler.Cli

open FunCompiler.Cli in
def main (args : List String) : IO UInt32 := do
  let (bytes, stdin) ← source args
  let world : World :=
    { host := .elf
      read := fun _ => bytes
      writeFault? := fun _ => none
      stdin
      compiler := .notStarted "running other programs is not supported"
      assemblyFile := "program.s" }
  (run world args).perform
