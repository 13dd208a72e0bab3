/-!
What the compiler tells about its work. Notes are for those who ask for them;
errors are always shown.
-/

namespace FunCompiler

inductive Stage where
  | parser
  | validate
  | codegen
  | symbols
  | toolchain
  | cli
  deriving DecidableEq, Repr

def Stage.name : Stage → String
  | .parser => "funcc.parser"
  | .validate => "funcc.validate"
  | .codegen => "funcc.codegen"
  | .symbols => "funcc.symbols"
  | .toolchain => "funcc.toolchain"
  | .cli => "funcc.cli"

structure LogEntry where
  stage : Stage
  isError : Bool
  text : String
  deriving DecidableEq, Repr

abbrev Log := List LogEntry

def LogEntry.line (e : LogEntry) : String := s!"{e.stage.name}: {e.text}\n"

/-- The lines of a log, notes only if they were asked for. -/
def Log.render (verbose : Bool) (log : Log) : String :=
  String.join ((log.filter fun e => verbose || e.isError).map LogEntry.line)

end FunCompiler
