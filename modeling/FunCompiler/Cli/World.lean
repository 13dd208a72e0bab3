import FunCompiler.Link
import FunCompiler.Text.Quoted

/-!
What surrounds a run of the command line: the machine it runs on, files to read
and write, standard input, and the system's C compiler.
-/

namespace FunCompiler.Cli

inductive OsError where
  | notFound (path : Path)
  | notDirectory (path : Path)
  | isDirectory (path : Path)
  /-- Anything else that the system may answer, such as a lack of rights or of room. -/
  | other (text : String)
  deriving DecidableEq, Repr

def OsError.message : OsError → String
  | .notFound path => s!"[Errno 2] No such file or directory: {Text.quoted path.text}"
  | .notDirectory path => s!"[Errno 20] Not a directory: {Text.quoted path.text}"
  | .isDirectory path => s!"[Errno 21] Is a directory: {Text.quoted path.text}"
  | .other text => text

structure World where
  /-- The convention of the machine that the compiler runs on. -/
  host : Target
  read : Path → Except OsError (List UInt8)
  /-- Why a file cannot be written, if it cannot. -/
  writeFault? : Path → Option OsError
  stdin : List UInt8
  compiler : CompilerAnswer
  /-- Where the assembly is put for the C compiler. -/
  assemblyFile : String
  /-- Why the assembly cannot be put there, if it cannot. -/
  assemblyFault? : Option OsError := none

/-- A directory that holds files, themselves possibly in directories inside it. -/
structure Directory where
  files : List (Path × List UInt8)

namespace Directory

def contents? (d : Directory) (path : Path) : Option (List UInt8) := d.files.lookup path

/-- The path is the directory, one that contains it, or one inside it that holds a file. -/
def isDirectory (d : Directory) (path : Path) : Bool :=
  path.parts.all (· == "..") ||
  d.files.any fun (file, _) =>
    file.root == path.root && path.parts.isPrefixOf file.parts && file.parts.length > path.parts.length

/-- What stands in the way to a path that names neither a file nor a directory. -/
def missing (d : Directory) (path : Path) : OsError :=
  if d.files.any fun (file, _) => file.root == path.root && file.parts.isPrefixOf path.parts then
    .notDirectory path
  else .notFound path

def read (d : Directory) (path : Path) : Except OsError (List UInt8) :=
  if d.isDirectory path then .error (.isDirectory path)
  else
    match d.contents? path with
    | some bytes => .ok bytes
    | none => .error (d.missing path)

def writeFault? (d : Directory) (path : Path) : Option OsError :=
  if d.isDirectory path then some (.isDirectory path)
  else if d.isDirectory { path with parts := path.parts.dropLast } then none
  else some (d.missing path)

end Directory

end FunCompiler.Cli
