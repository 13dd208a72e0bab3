import FunCompiler.Proofs.Simulation.Judgment

/-!
The stack frame of a running function, and what it is for a store and a machine
state to agree. The formals lie above the frame pointer, behind the caller's
frame pointer and the return address; everything that the function computes
lies below. What code may write is therefore said by a bound: an expression
writes below the stack pointer it is started with, a statement below the frame
pointer and, by its assignments, into the slots of its own formals.
-/

namespace FunCompiler.Semantics

open Asm Code

/-- The frame of a running function: the names of its formals, what `%rbp` holds, and
the frame pointer and the return address that its caller left. -/
structure Frame where
  formals : List String
  base : Int
  caller : Int
  back : Int

/-- The frame that a function makes for itself when it is entered. -/
def Frame.entered (f : Function) (s : State) : Frame where
  formals := f.formals
  base := s.registers .rsp - 8
  caller := s.registers .rbp
  back := s.stack (s.registers .rsp)

/-- Bytes below a bound may be written. -/
def Below (bound : Int) : State → Int → Prop := fun _ byte => byte < bound

/-- Bytes below a bound may be written, and the words above it from one index up to
another. -/
def Slots (bound : Int) (first last : Nat) : State → Int → Prop := fun _ byte =>
  byte < bound ∨ bound + 8 * first ≤ byte ∧ byte < bound + 8 * last

/-- The machine is about to store the accumulator in the slot of a formal, and the byte
is one of the slot's. -/
def AssignsFormal (items : List Item) (base : Int) (index : Nat) (s : State) (byte : Int) : Prop :=
  s.registers .rbp = base ∧
  items[s.pc]? = some (.instr (.mov Register.rax (.stack (formalOffset index) .rbp))) ∧
  base + formalOffset index ≤ byte ∧ byte < base + formalOffset index + 8

/-- Bytes below the return address may be written, and the slots of the formals among
`names` by assignments to them. -/
def Frame.Own (items : List Item) (frame : Frame) (names : List String) (s : State)
    (byte : Int) : Prop :=
  byte < frame.base + 8 ∨
    ∃ name ∈ names, ∃ index, frame.formals.idxOf? name = some index ∧
      AssignsFormal items frame.base index s byte

theorem Frame.Own.mono {items : List Item} {frame : Frame} {names more : List String}
    (hsub : names ⊆ more) (s : State) (byte : Int) (h : frame.Own items names s byte) :
    frame.Own items more s byte := by
  rcases h with hlt | ⟨name, hname, hassigns⟩
  · exact .inl hlt
  · exact .inr ⟨name, hsub hname, hassigns⟩

/-- What a function owns lies below the end of its actuals. -/
theorem Frame.Own.below {items : List Item} {f : Function} {s u : State} {names : List String}
    {byte : Int} (h : (Frame.entered f s).Own items names u byte) :
    byte < s.registers .rsp + 8 + 8 * f.formals.length := by
  have hbase : (Frame.entered f s).base = s.registers .rsp - 8 := rfl
  rcases h with hlt | ⟨name, -, index, hindex, -, -, -, hlt⟩
  · omega
  · have hindex : index < f.formals.length := (List.idxOf?_eq_some_iff.1 hindex).1
    simp only [formalOffset] at hlt
    omega

/-- The words from an address on are the given ones. -/
def HoldsWords (address : Int) (values : List Word) (s : State) : Prop :=
  ∀ (index : Nat) value, values[index]? = some value → word (s.stack (address + 8 * index)) = value

theorem HoldsWords.transfer {address : Int} {values : List Word} {s t : State}
    (h : HoldsWords address values s) (hstack : ∀ a, address ≤ a → t.stack a = s.stack a) :
    HoldsWords address values t := by
  intro index value hvalue
  rw [hstack _ (by omega)]
  exact h index value hvalue

/-- The stack, the cells, the output and the two stack registers are the same. -/
structure SameMemory (s t : State) : Prop where
  rsp : t.registers .rsp = s.registers .rsp
  rbp : t.registers .rbp = s.registers .rbp
  stack : t.stack = s.stack
  cells : t.cells = s.cells
  output : t.output = s.output

namespace Process

variable {P : Process}

variable (P) in
/-- The globals and the output of a store are those of the machine. -/
structure Agrees (σ : Store) (s : State) : Prop where
  cells : ∀ v ∈ P.globals, word (s.cells (Symbol.cell v).name) = σ.globals v
  output : s.output = σ.output

theorem Agrees.transfer {σ : Store} {s t : State} (h : P.Agrees σ s) (hcells : t.cells = s.cells)
    (hout : t.output = s.output) : P.Agrees σ t where
  cells v hv := by rw [hcells]; exact h.cells v hv
  output := hout.trans h.output

variable (P) in
/-- The machine runs a function in the given frame, `depth` bytes below the frame
pointer are in use, and the store is the one the function sees. -/
structure Represents (frame : Frame) (depth : Int) (σ : Store) (s : State) : Prop
    extends P.Agrees σ s where
  depth_nonneg : 0 ≤ depth
  rsp : s.registers .rsp = frame.base - depth
  rbp : s.registers .rbp = frame.base
  arity : σ.locals.length = frame.formals.length
  locals : HoldsWords (frame.base + 16) σ.locals s
  caller : s.stack frame.base = frame.caller
  back : s.stack (frame.base + 8) = frame.back

variable (P) in
/-- The function of the frame has returned the value to its caller. -/
structure Returned (frame : Frame) (value : Word) (σ : Store) (s : State) : Prop
    extends P.Agrees σ s where
  pc : s.pc = frame.back.toNat
  rsp : s.registers .rsp = frame.base + 16
  rbp : s.registers .rbp = frame.caller
  rax : word (s.registers .rax) = value

namespace Represents

variable {frame : Frame} {depth depth' : Int} {σ : Store} {s t : State}

/-- What happens below the frame does not concern it. -/
theorem transfer (h : P.Represents frame depth σ s) (hcells : t.cells = s.cells)
    (hout : t.output = s.output) (hdepth : 0 ≤ depth')
    (hrsp : t.registers .rsp = frame.base - depth') (hrbp : t.registers .rbp = s.registers .rbp)
    (hstack : ∀ a, frame.base ≤ a → t.stack a = s.stack a) :
    P.Represents frame depth' σ t where
  toAgrees := h.toAgrees.transfer hcells hout
  depth_nonneg := hdepth
  rsp := hrsp
  rbp := hrbp.trans h.rbp
  arity := h.arity
  locals := h.locals.transfer fun a ha => hstack a (by omega)
  caller := by rw [hstack _ (Int.le_refl _)]; exact h.caller
  back := by rw [hstack _ (by omega)]; exact h.back

theorem same (h : P.Represents frame depth σ s) (hst : SameMemory s t) :
    P.Represents frame depth σ t :=
  h.transfer hst.cells hst.output h.depth_nonneg (hst.rsp.trans h.rsp) hst.rbp
    fun a _ => by rw [hst.stack]

/-- It does not matter which item comes next. -/
theorem goto (h : P.Represents frame depth σ s) (pc : Nat) :
    P.Represents frame depth σ { s with pc } :=
  h.same ⟨rfl, rfl, rfl, rfl, rfl⟩

theorem lt_length_of_idxOf? (h : P.Represents frame depth σ s) {name : String} {index : Nat}
    (hindex : frame.formals.idxOf? name = some index) : index < σ.locals.length := by
  rw [h.arity]
  exact (List.idxOf?_eq_some_iff.1 hindex).1

/-- The slot of a formal holds what the store says. -/
theorem get_formal (h : P.Represents frame depth σ s) {name : String} {index : Nat}
    (hindex : frame.formals.idxOf? name = some index) :
    word (s.stack (frame.base + formalOffset index)) = σ.get frame.formals name := by
  have hget := List.getElem?_eq_getElem (h.lt_length_of_idxOf? hindex)
  have haddr : frame.base + formalOffset index = frame.base + 16 + 8 * index := by
    simp only [formalOffset]
    omega
  rw [haddr, h.locals index _ hget]
  simp [Store.get, hindex, hget]

/-- The cell of a global holds what the store says. -/
theorem get_global (h : P.Represents frame depth σ s) {name : String}
    (hindex : frame.formals.idxOf? name = none) (hname : name ∈ P.globals) :
    word (s.cells (Symbol.cell name).name) = σ.get frame.formals name := by
  rw [h.cells name hname, Store.get, hindex]

/-- Storing in the slot of a formal assigns to it. -/
theorem set_formal (h : P.Represents frame depth σ s) {name : String} {index : Nat} {x : Int}
    (hindex : frame.formals.idxOf? name = some index) :
    P.Represents frame depth (σ.set frame.formals name (word x))
      (s.store (frame.base + formalOffset index) x) := by
  have hset : σ.set frame.formals name (word x) =
      { σ with locals := σ.locals.set index (word x) } := by
    simp [Store.set, hindex]
  rw [hset]
  refine ⟨⟨h.cells, h.output⟩, h.depth_nonneg, h.rsp, h.rbp, ?_, ?_, ?_, ?_⟩
  · rw [List.length_set]
    exact h.arity
  · intro other value hvalue
    rw [State.stack_store]
    rcases Nat.decEq other index with hne | rfl
    · rw [List.getElem?_set_ne (Ne.symm hne)] at hvalue
      rw [if_neg (by simp only [formalOffset]; omega)]
      exact h.locals other value hvalue
    · rw [List.getElem?_set_self (h.lt_length_of_idxOf? hindex)] at hvalue
      rw [if_pos (by simp only [formalOffset]; omega)]
      exact Option.some.inj hvalue
  · rw [State.stack_store, if_neg (by simp only [formalOffset]; omega)]
    exact h.caller
  · rw [State.stack_store, if_neg (by simp only [formalOffset]; omega)]
    exact h.back

/-- Storing in the cell of a global assigns to it. -/
theorem set_global (h : P.Represents frame depth σ s) {name : String} {x : Int}
    (hindex : frame.formals.idxOf? name = none) :
    P.Represents frame depth (σ.set frame.formals name (word x))
      (s.setCell (Symbol.cell name).name x) := by
  have hset : σ.set frame.formals name (word x) =
      { σ with globals := fun other => if other = name then word x else σ.globals other } := by
    simp [Store.set, hindex]
  rw [hset]
  refine ⟨⟨?_, h.output⟩, h.depth_nonneg, h.rsp, h.rbp, h.arity, h.locals, h.caller, h.back⟩
  intro v hv
  rw [State.cells_setCell]
  by_cases hv' : v = name
  · subst hv'
    simp
  · have hne : (Symbol.cell v).name ≠ (Symbol.cell name).name :=
      fun heq => hv' (Symbol.cell.inj (Symbol.name_injective heq))
    simp only [if_neg hne, if_neg hv']
    exact h.cells v hv

end Represents

end Process

end FunCompiler.Semantics
