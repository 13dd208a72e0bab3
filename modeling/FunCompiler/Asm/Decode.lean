import FunCompiler.Asm.Line
import FunCompiler.Json.Checked

/-!
Reading lines of assembly back, from text and from JSON. In a text, a line at
the margin is a label up to its colon; an indented line is a directive if its
first word begins with a period and an instruction otherwise, and commas with a
blank behind them divide its operands.
-/

namespace FunCompiler.Asm

/-- The lines of a text in which every line is ended by a line feed. -/
def splitLines : List Char → List (List Char)
  | [] => []
  | c :: cs =>
    if c = '\n' then [] :: splitLines cs
    else
      match splitLines cs with
      | [] => [[c]]
      | line :: lines => (c :: line) :: lines

/-- Cuts at every comma that has a blank behind it. -/
def splitOperands : List Char → List (List Char)
  | [] => [[]]
  | ',' :: ' ' :: cs => [] :: splitOperands cs
  | c :: cs =>
    match splitOperands cs with
    | [] => [[c]]
    | operand :: operands => (c :: operand) :: operands

/-- The kind of an indented line by its first word. -/
def kindOf : List Char → LineKind
  | '.' :: _ => .directive
  | _ => .instruction

def decodeIndented (cs : List Char) : Line :=
  let word := cs.takeWhile (· ≠ ' ')
  let operands :=
    match cs.dropWhile (· ≠ ' ') with
    | [] => []
    | _ :: rest => (splitOperands rest).map String.ofList
  ⟨kindOf word, String.ofList word, operands⟩

def decodeLine : List Char → Line
  | ' ' :: ' ' :: ' ' :: ' ' :: cs => decodeIndented cs
  | cs => ⟨.label, String.ofList cs.dropLast, []⟩

def decode (text : String) : List Line := (splitLines text.toList).map decodeLine

/-! ### JSON -/

open Checked

def LineKind.ofJson : Json → Checked LineKind := oneOf (LineKind.all.map fun k => (k.name, k))

def Line.ofJson : Json → Checked Line
  | .object members =>
    both (fun kind (mnemonic, operands) => ⟨kind, mnemonic, operands⟩)
      (required members "kind" fun v _ => LineKind.ofJson v)
      (both Prod.mk (stringMember members "mnemonic")
        (optional members "operands" [] fun v _ => listOf v fun item _ => string item))
  | _ => refuse (.notRecord "AsmLine")

end FunCompiler.Asm
