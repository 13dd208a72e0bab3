/-!
Object-file conventions. They differ in the spelling of the C library's
symbols and in how an executable is linked.
-/

namespace FunCompiler

inductive Target where
  | elf
  | macho
  deriving DecidableEq, Repr, Inhabited

namespace Target

def all : List Target := [.elf, .macho]

def name : Target → String
  | .elf => "elf"
  | .macho => "macho"

/-- The target of that name, in any mixture of cases. No letter outside ASCII has
a small form that occurs in a target's name, so folding ASCII letters is enough. -/
def ofName? (s : String) : Option Target := all.find? (·.name == s.toLower)

/-- What the C library's `printf` is called. -/
def printfName : Target → String
  | .elf => "printf"
  | .macho => "_printf"

/-- The linker options for an executable. Cells are addressed relative to the
instruction pointer but `printf` is called directly, so ELF executables are
linked at a fixed address. -/
def linkOptions : Target → List String
  | .elf => ["-no-pie"]
  | .macho => []

end Target

/-- The message for a name that is no target's. -/
def unknownTarget (name : String) : String := s!"Unknown target: {name}"

end FunCompiler
