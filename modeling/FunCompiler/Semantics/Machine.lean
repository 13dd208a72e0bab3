import FunCompiler.Code.Generate

/-!
A machine that runs assembly items. Registers and memory hold integers, each of
which stands for the word it is congruent to. Arithmetic on data goes through
words; arithmetic on the stack pointer does not, so the stack never runs out.
Cells lie apart from the stack. Code addresses are indices into the list of
items, and labels and cells are found by name, as a linker finds them. Only the
registers that the code names are there: `mul` also sets `%rdx`, which nothing
reads.

Of the C library only `printf` is called. It prints `%rsi`, needs the format
`%lu\n` in `%rdi`, no vector registers in `%al` and an aligned stack, keeps
`%rbx`, `%rbp`, `%rsp` and the stack from `%rsp` on, and may leave anything in
the other registers, the flags and below the stack pointer (`Library`).
-/

namespace FunCompiler.Semantics

open Asm Code

structure State where
  pc : Nat
  registers : Register → Int
  stack : Int → Int
  /-- The cells of the data section, by the names of their labels. -/
  cells : String → Int
  /-- The words last compared, left before right, while the flags still tell. -/
  flags : Option (Word × Word)
  output : List Word

/-- What the machine finds around the program: the convention for the names of the
C library, where the linker puts symbols, and what `printf` leaves behind. -/
structure Library where
  target : Target
  address : String → Int
  registers : State → Register → Int
  stack : State → Int → Int

/-- The word a number stands for. -/
def word (value : Int) : Word := BitVec.ofInt 64 value

/-- The item is the label of that name. -/
def isLabel (name : String) : Item → Bool
  | .label symbol => symbol.name == name
  | _ => false

/-- The place of the label of that name. -/
def labelIndex? (items : List Item) (name : String) : Option Nat := items.findIdx? (isLabel name)

/-- The string that the data section holds behind a label. -/
def string? (items : List Item) (name : String) : Option String := do
  let index ← labelIndex? items name
  match items[index + 1]? with
  | some (.directive (.string content)) => some content
  | _ => none

namespace State

def setRegister (s : State) (r : Register) (value : Int) : State :=
  { s with registers := fun other => if other = r then value else s.registers other }

/-- Sets a register by arithmetic, after which the flags tell of no comparison. -/
def compute (s : State) (r : Register) (value : Int) : State :=
  { s.setRegister r value with flags := none }

def store (s : State) (address value : Int) : State :=
  { s with stack := fun other => if other = address then value else s.stack other }

def setCell (s : State) (cell : String) (value : Int) : State :=
  { s with cells := fun other => if other = cell then value else s.cells other }

def next (s : State) : State := { s with pc := s.pc + 1 }

def read (s : State) : Operand → Int
  | .immediate value => value
  | .register r => s.registers r
  | .stack offset base => s.stack (s.registers base + offset)
  | .cell symbol => s.cells symbol.name

/-- Writes to a place; there is none in an immediate operand. -/
def write? (s : State) (value : Int) : Operand → Option State
  | .immediate _ => none
  | .register r => some (s.setRegister r value)
  | .stack offset base => some (s.store (s.registers base + offset) value)
  | .cell symbol => some (s.setCell symbol.name value)

def push (s : State) (value : Int) : State :=
  let top := s.registers .rsp - 8
  (s.setRegister .rsp top).store top value

/-- The word on top of the stack, and the state without it. -/
def pop (s : State) : Int × State :=
  (s.stack (s.registers .rsp), s.setRegister .rsp (s.registers .rsp + 8))

/-- Moves the stack pointer by an amount that need not be a word. -/
def shift (s : State) (bytes : Int) : State :=
  s.compute .rsp (s.registers .rsp + bytes)

/-- Whether a condition holds; `none` if the flags tell of no comparison. -/
def holds? (s : State) (condition : Condition) : Option Bool :=
  s.flags.map fun (left, right) =>
    match condition with
    | .equal => left == right
    | .notEqual => left != right
    | .below => left.ult right
    | .above => right.ult left

/-- Goes to the item that defines a label. -/
def jump? (items : List Item) (s : State) (label : Symbol) : Option State :=
  (labelIndex? items label.name).map fun index => { s with pc := index }

/-- `printf` is called as its conventions ask, with a format that prints one unsigned word and
ends the line. -/
def CallsPrintf (library : Library) (items : List Item) (s : State) : Prop :=
  s.registers .rdi = library.address Symbol.format.name ∧
  string? items Symbol.format.name = some "%lu\\n" ∧
  s.registers .rax % 256 = 0 ∧
  s.registers .rsp % 16 = 0

instance (library : Library) (items : List Item) (s : State) :
    Decidable (s.CallsPrintf library items) := inferInstanceAs (Decidable (_ ∧ _))

/-- What a call of `printf` does. -/
def printf? (library : Library) (items : List Item) (s : State) : Option State :=
  if s.CallsPrintf library items then
    some
      { s with
        registers := fun r =>
          match r with
          | .rbx => s.registers .rbx
          | .rbp => s.registers .rbp
          | .rsp => s.registers .rsp
          | _ => library.registers s r
        stack := fun address =>
          if address < s.registers .rsp then library.stack s address else s.stack address
        flags := none
        output := s.output ++ [word (s.registers .rsi)] }
  else none

/-- Runs one instruction; `none` if the machine is stuck. -/
def run? (library : Library) (items : List Item) (s : State) : Instr → Option State
  | .mov source destination => (s.write? (s.read source) destination).map next
  | .push r => some (s.push (s.registers r)).next
  | .pop r =>
    let (value, s) := s.pop
    some (s.setRegister r value).next
  | .add (.immediate bytes) (.register .rsp) => some (s.shift bytes).next
  | .sub (.immediate bytes) (.register .rsp) => some (s.shift (-bytes)).next
  | .and (.immediate mask) (.register .rsp) =>
    some (s.compute .rsp (s.registers .rsp / -mask * -mask)).next
  | .add source (.register r) =>
    some (s.compute r (word (s.registers r) + word (s.read source)).toNat).next
  | .sub source (.register r) =>
    some (s.compute r (word (s.registers r) - word (s.read source)).toNat).next
  | .add .. => none
  | .sub .. => none
  | .and .. => none
  | .mul r =>
    some (s.compute .rax (word (s.registers .rax) * word (s.registers r)).toNat).next
  | .cmp right left =>
    some { s with flags := some (word (s.read left), word (s.read right)) }.next
  | .set condition =>
    (s.holds? condition).map fun holds =>
      (s.setRegister .rax (s.registers .rax / 256 * 256 + if holds then 1 else 0)).next
  | .widen => some (s.setRegister .rax (s.registers .rax % 256)).next
  | .lea symbol r => some (s.setRegister r (library.address symbol.name)).next
  | .jmp label => s.jump? items label
  | .je label =>
    (s.holds? .equal).bind fun equal => if equal then s.jump? items label else some s.next
  | .call (.printf target) =>
    if target = library.target then (s.printf? library items).map next else none
  | .call function => (s.push (s.pc + 1)).jump? items function
  | .ret =>
    let (address, s) := s.pop
    some { s with pc := address.toNat }

/-- The bytes of the stack that an instruction may write. -/
def WritesBy (s : State) : Instr → Int → Prop
  | .mov _ (.stack offset base), byte =>
    s.registers base + offset ≤ byte ∧ byte < s.registers base + offset + 8
  | .push _, byte => s.registers .rsp - 8 ≤ byte ∧ byte < s.registers .rsp
  | .call (.printf _), byte => byte < s.registers .rsp
  | .call _, byte => s.registers .rsp - 8 ≤ byte ∧ byte < s.registers .rsp
  | _, _ => False

/-- The bytes of the stack that the next step may write. -/
def Writes (items : List Item) (s : State) (byte : Int) : Prop :=
  ∃ i, items[s.pc]? = some (.instr i) ∧ s.WritesBy i byte

end State

/-- One step: a label is passed, an instruction is run, data is not executed. -/
def step? (library : Library) (items : List Item) (s : State) : Option State :=
  match items[s.pc]? with
  | some (.label _) => some s.next
  | some (.instr i) => s.run? library items i
  | _ => none

def steps? (library : Library) (items : List Item) : Nat → State → Option State
  | 0, s => some s
  | n + 1, s => (step? library items s).bind (steps? library items n)

/-- The machine as the C runtime hands it over: the data section is loaded, nothing is
printed, and the next item is the entry label. Registers, stack and flags may hold
anything. -/
structure Started (items : List Item) (s : State) : Prop where
  pc : labelIndex? items Symbol.entry.name = some s.pc
  cells : ∀ index symbol value, items[index]? = some (.label symbol) →
    items[index + 1]? = some (.directive (.quad value)) → s.cells symbol.name = value
  output : s.output = []

/-- The machine is about to return to the C runtime: its next item is a `ret` behind
the entry label. -/
def AtExit (items : List Item) (s : State) : Prop :=
  items[s.pc]? = some (.instr .ret) ∧
    ∃ entry, labelIndex? items Symbol.entry.name = some entry ∧ entry < s.pc

end FunCompiler.Semantics
