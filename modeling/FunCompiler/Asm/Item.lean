import FunCompiler.Target
import FunCompiler.Asm.Line

/-!
Assembly as data: registers, operands, instructions, directives and labels,
each with its line of text. Operands stand in AT&T order, the source before the
destination.
-/

namespace FunCompiler.Asm

/-- A part of a conditional or a loop that a jump can lead to. -/
inductive Part where
  | yes
  | no
  | first
  | last
  deriving DecidableEq, Repr

def Part.name : Part → String
  | .yes => "THEN"
  | .no => "ELSE"
  | .first => "BEGIN"
  | .last => "END"

/-- The label of one part of the construct with the given number. -/
def controlName (id : Int) (part : String) : String := s!"L{id}_{part}"

inductive Symbol where
  | function (name : String)
  | functionAlias (name : String)
  | control (id : Nat) (part : Part)
  | cell (name : String)
  | cellName (name : String)
  | entry
  | entryAlias
  | format
  | printf (target : Target)
  deriving DecidableEq, Repr

def Symbol.name : Symbol → String
  | .function f => "fun_" ++ f
  | .functionAlias f => "_fun_" ++ f
  | .control id part => controlName id part.name
  | .cell v => "var_" ++ v
  | .cellName v => "name_" ++ v
  | .entry => "main"
  | .entryAlias => "_main"
  | .format => "format_str"
  | .printf target => target.printfName

inductive Register where
  | rax
  | rbx
  | rcx
  | rsp
  | rbp
  | rdi
  | rsi
  deriving DecidableEq, Repr

def Register.name : Register → String
  | .rax => "%rax"
  | .rbx => "%rbx"
  | .rcx => "%rcx"
  | .rsp => "%rsp"
  | .rbp => "%rbp"
  | .rdi => "%rdi"
  | .rsi => "%rsi"

inductive Operand where
  | immediate (value : Int)
  | register (r : Register)
  | stack (offset : Int) (base : Register)
  | cell (symbol : Symbol)
  deriving DecidableEq, Repr

def Operand.text : Operand → String
  | .immediate v => s!"${v}"
  | .register r => r.name
  | .stack offset base => s!"{offset}({base.name})"
  | .cell symbol => s!"{symbol.name}(%rip)"

instance : Coe Register Operand := ⟨.register⟩

/-- An outcome of an unsigned comparison. -/
inductive Condition where
  | equal
  | notEqual
  | below
  | above
  deriving DecidableEq, Repr

def Condition.suffix : Condition → String
  | .equal => "e"
  | .notEqual => "ne"
  | .below => "b"
  | .above => "a"

inductive Instr where
  | mov (source destination : Operand)
  | push (r : Register)
  | pop (r : Register)
  | add (source destination : Operand)
  | sub (source destination : Operand)
  | and (source destination : Operand)
  | mul (r : Register)
  | cmp (right left : Operand)
  /-- Sets the low byte of the accumulator to whether the condition holds. -/
  | set (condition : Condition)
  /-- Widens the low byte of the accumulator to the whole of it. -/
  | widen
  | lea (symbol : Symbol) (r : Register)
  | jmp (label : Symbol)
  | je (label : Symbol)
  | call (function : Symbol)
  | ret
  deriving DecidableEq, Repr

namespace Instr

def mnemonic : Instr → String
  | .mov .. => "mov"
  | .push _ => "push"
  | .pop _ => "pop"
  | .add .. => "add"
  | .sub .. => "sub"
  | .and .. => "and"
  | .mul _ => "mul"
  | .cmp .. => "cmp"
  | .set c => "set" ++ c.suffix
  | .widen => "movzbq"
  | .lea .. => "lea"
  | .jmp _ => "jmp"
  | .je _ => "je"
  | .call _ => "call"
  | .ret => "ret"

def operands : Instr → List String
  | .mov s d => [s.text, d.text]
  | .push r => [r.name]
  | .pop r => [r.name]
  | .add s d => [s.text, d.text]
  | .sub s d => [s.text, d.text]
  | .and s d => [s.text, d.text]
  | .mul r => [r.name]
  | .cmp r l => [r.text, l.text]
  | .set _ => ["%al"]
  | .widen => ["%al", "%rax"]
  | .lea s r => [(Operand.cell s).text, r.name]
  | .jmp l => [l.name]
  | .je l => [l.name]
  | .call f => [f.name]
  | .ret => []

end Instr

inductive Directive where
  | text
  | data
  | global (symbol : Symbol)
  | quad (value : Int)
  | string (content : String)
  deriving DecidableEq, Repr

namespace Directive

def mnemonic : Directive → String
  | .text => ".text"
  | .data => ".data"
  | .global _ => ".global"
  | .quad _ => ".quad"
  | .string _ => ".string"

def operands : Directive → List String
  | .text => []
  | .data => []
  | .global s => [s.name]
  | .quad v => [toString v]
  | .string s => [s!"\"{s}\""]

end Directive

inductive Item where
  | directive (d : Directive)
  | label (s : Symbol)
  | instr (i : Instr)
  deriving DecidableEq, Repr

def Item.line : Item → Line
  | .directive d => ⟨.directive, d.mnemonic, d.operands⟩
  | .label s => ⟨.label, s.name, []⟩
  | .instr i => ⟨.instruction, i.mnemonic, i.operands⟩

end FunCompiler.Asm
