/-!
Lines of assembly text. A label stands at the margin; directives and
instructions are indented, their operands divided by commas.
-/

namespace FunCompiler.Asm

inductive LineKind where
  | directive
  | label
  | instruction
  deriving DecidableEq, Repr

namespace LineKind

def all : List LineKind := [.directive, .label, .instruction]

def name : LineKind → String
  | .directive => "DIRECTIVE"
  | .label => "LABEL"
  | .instruction => "INSTRUCTION"

end LineKind

/-- The mnemonic of a label line is the label itself; its operands are not written. -/
structure Line where
  kind : LineKind
  mnemonic : String
  operands : List String
  deriving DecidableEq, Repr

def Line.text (l : Line) : String :=
  match l.kind, l.operands with
  | .label, _ => l.mnemonic ++ ":"
  | _, [] => "    " ++ l.mnemonic
  | _, operands => "    " ++ l.mnemonic ++ " " ++ ", ".intercalate operands

def render (lines : List Line) : String := String.join (lines.map fun l => l.text ++ "\n")

/-- How often each name occurs, in the order of first occurrence. -/
abbrev Tally := List (String × Nat)

namespace Tally

def count : Tally → String → Tally
  | [], name => [(name, 1)]
  | (other, n) :: rest, name =>
    if other = name then (other, n + 1) :: rest else (other, n) :: count rest name

end Tally

/-- Counts the mnemonics of the instructions. -/
def tally (lines : List Line) : Tally :=
  ((lines.filter (·.kind = .instruction)).map (·.mnemonic)).foldl Tally.count []

end FunCompiler.Asm
