import FunCompiler.Proofs.Constructs
import FunCompiler.Proofs.Globals

/-!
Generation of code for appended lists of functions. The tables that the first
list leaves reach the code of the second through the numbers of its labels only:
where a variable lives is settled by the formals, and the globals met before
decide which names are new but not what is emitted. So the second list has the
code that it has alone, with every label of a construct shifted by the number of
labels that the first list drew.
-/

namespace FunCompiler

open Asm Code

/-! ### Shifted labels -/

namespace Asm

def Symbol.shift (n : Nat) : Symbol → Symbol
  | .control id part => .control (id + n) part
  | symbol => symbol

def Item.shift (n : Nat) : Item → Item
  | .label symbol => .label (symbol.shift n)
  | .instr (.jmp l) => .instr (.jmp (l.shift n))
  | .instr (.je l) => .instr (.je (l.shift n))
  | item => item

/-- The name `L<k>_<part>` with `k + n` in place of `k`. Any other name stays as it is. -/
def shiftName (n : Nat) (name : String) : String :=
  match name.toList with
  | 'L' :: cs =>
    match cs.takeWhile Char.isDigit, cs.dropWhile Char.isDigit with
    | d :: digits, '_' :: part =>
      controlName (Nat.ofDigitChars 10 (d :: digits) 0 + n : Nat) (String.ofList part)
    | _, _ => name
  | _ => name

/-- The line with the label that it defines, or that it jumps to, shifted. -/
def Line.shift (n : Nat) (l : Line) : Line :=
  match l.kind with
  | .label => { l with mnemonic := shiftName n l.mnemonic }
  | .instruction =>
    if l.mnemonic = "je" ∨ l.mnemonic = "jmp" then
      { l with operands := l.operands.map (shiftName n) }
    else l
  | .directive => l

theorem shiftName_controlName (n id : Nat) (part : String) :
    shiftName n (controlName id part) = controlName (id + n : Nat) part := by
  have hstops : Stops Char.isDigit ('_' :: part.toList) := stops_cons rfl _
  have htake := takeWhile_append_stops (isDigit_toDigits id) hstops
  have hdrop := dropWhile_append_stops (isDigit_toDigits id) hstops
  obtain ⟨d, digits, hdigits⟩ := List.exists_cons_of_ne_nil (Nat.toDigits_ne_nil (b := 10) (n := id))
  have hvalue : Nat.ofDigitChars 10 (d :: digits) 0 = id := by
    rw [← hdigits, Nat.ofDigitChars_ten_toDigits]
  rw [hdigits] at htake hdrop
  rw [shiftName, toList_controlName, hdigits]
  simp only [htake, hdrop, hvalue, String.ofList_toList]

/-- The name of a symbol that is no label of a construct does not begin as one. -/
theorem Symbol.name_shift (n : Nat) (symbol : Symbol) :
    (symbol.shift n).name = shiftName n symbol.name := by
  cases symbol with
  | control id part => exact (shiftName_controlName n id part.name).symm
  | printf target => cases target <;> simp [Symbol.shift, Symbol.name, shiftName, Target.printfName]
  | _ => simp [Symbol.shift, Symbol.name, shiftName]

theorem Item.line_shift (n : Nat) (item : Item) : (item.shift n).line = item.line.shift n := by
  cases item with
  | directive d => rfl
  | label symbol => simp [Item.shift, Item.line, Line.shift, Symbol.name_shift]
  | instr i =>
      cases i with
      | jmp l => simp [Item.shift, Item.line, Line.shift, Instr.mnemonic, Instr.operands,
          Symbol.name_shift]
      | je l => simp [Item.shift, Item.line, Line.shift, Instr.mnemonic, Instr.operands,
          Symbol.name_shift]
      | set c => cases c <;> simp [Item.shift, Item.line, Line.shift, Instr.mnemonic,
          Condition.suffix]
      | _ => simp [Item.shift, Item.line, Line.shift, Instr.mnemonic]

/-- Code that neither defines a label nor jumps is not changed. -/
theorem map_shift_eq_self {code : List Item} (hlabels : labels code = [])
    (hjumps : jumps code = []) (n : Nat) : code.map (Item.shift n) = code := by
  rw [labels, List.filterMap_eq_nil_iff] at hlabels
  rw [jumps, List.filterMap_eq_nil_iff] at hjumps
  conv_rhs => rw [← List.map_id code]
  apply List.map_congr_left
  intro item hitem
  have hlabel := hlabels item hitem
  have hjump := hjumps item hitem
  cases item with
  | directive d => rfl
  | label symbol => cases hlabel
  | instr i =>
      cases i with
      | jmp l => cases hjump
      | je l => cases hjump
      | _ => rfl

end Asm

/-! ### Expressions -/

/-- Where a variable lives does not depend on the tables. -/
theorem locate_fst (formals : List String) (name : String) (t t' : Tables) :
    (locate formals name t').1 = (locate formals name t).1 := by
  unfold locate
  cases formals.idxOf? name <;> rfl

mutual

/-- The code of an expression does not depend on the tables. -/
theorem Expr.code_eq (formals : List String) (t t' : Tables) (e : Expr) :
    (e.emit formals t').1 = (e.emit formals t).1 := by
  cases e with
  | var name => rw [Expr.emit_var, Expr.emit_var, locate_fst formals name t t']
  | lit value => rfl
  | call callee actuals =>
      rw [Expr.emit_call, Expr.emit_call, Expr.code_eq_actuals formals t t' 0 actuals]
  | binary op left right =>
      rw [Expr.emit_binary, Expr.emit_binary, Expr.code_eq formals t t' left,
        Expr.code_eq formals (left.emit formals t).2 (left.emit formals t').2 right]

theorem Expr.code_eq_actuals (formals : List String) (t t' : Tables) (index : Nat)
    (es : List Expr) :
    (Expr.emitActuals formals index es t').1 = (Expr.emitActuals formals index es t).1 := by
  cases es with
  | nil => rfl
  | cons e es =>
      rw [Expr.emitActuals_cons, Expr.emitActuals_cons, Expr.code_eq formals t t' e,
        Expr.code_eq_actuals formals (e.emit formals t).2 (e.emit formals t').2 (index + 1) es]

end

theorem Expr.map_shift (formals : List String) (t : Tables) (n : Nat) (e : Expr) :
    (e.emit formals t).1.map (Item.shift n) = (e.emit formals t).1 :=
  map_shift_eq_self (Expr.labels_code formals t e) (Expr.jumps_code formals t e) n

/-! ### Statements and functions -/

section

variable {n : Nat} {t t' : Tables}

theorem labels_freshLabel_shifted (h : t'.labels = t.labels + n) :
    (freshLabel t').2.labels = (freshLabel t).2.labels + n := by
  rw [labels_freshLabel, labels_freshLabel, h]
  omega

theorem Expr.labels_shifted (formals : List String) (h : t'.labels = t.labels + n) (e : Expr) :
    (e.emit formals t').2.labels = (e.emit formals t).2.labels + n := by
  rw [Expr.labels_emit, Expr.labels_emit, h]

end

/-- Two results of generation, the second with all labels shifted. -/
structure Shifted (n : Nat) (made made' : List Item × Tables) : Prop where
  code : made'.1 = made.1.map (Item.shift n)
  labels : made'.2.labels = made.2.labels + n

mutual

theorem Stmt.shifted (target : Target) (formals : List String) {n : Nat} {t t' : Tables}
    (h : t'.labels = t.labels + n) (s : Stmt) :
    Shifted n (s.emit target formals t) (s.emit target formals t') := by
  have hexpr := Expr.labels_shifted formals h
  cases s with
  | assign name value =>
      refine ⟨?_, ?_⟩
      · have hplace := locate_fst formals name (value.emit formals t).2 (value.emit formals t').2
        simp [Stmt.emit_assign, hplace, Expr.code_eq formals t t' value, Expr.map_shift, Item.shift]
      · rw [Stmt.emit_assign, Stmt.emit_assign, labels_locate, labels_locate, hexpr value]
  | print value =>
      refine ⟨?_, hexpr value⟩
      simp [Stmt.emit_print, printCode, Expr.code_eq formals t t' value, Expr.map_shift, Item.shift]
  | ret value =>
      refine ⟨?_, hexpr value⟩
      simp [Stmt.emit_ret, leaveFrame, Expr.code_eq formals t t' value, Expr.map_shift, Item.shift]
  | block body => exact Stmt.shifted_all target formals h body
  | ifThen cond yes =>
      have hyes := Stmt.shifted target formals (labels_freshLabel_shifted (hexpr cond)) yes
      refine ⟨?_, hyes.labels⟩
      simp [Stmt.emit_ifThen, jumpIfZero, hexpr cond, hyes.code, Expr.code_eq formals t t' cond,
        Expr.map_shift, Item.shift, Symbol.shift]
  | ifElse cond yes no =>
      have hyes := Stmt.shifted target formals (labels_freshLabel_shifted (hexpr cond)) yes
      have hno := Stmt.shifted target formals hyes.labels no
      refine ⟨?_, hno.labels⟩
      simp [Stmt.emit_ifElse, jumpIfZero, hexpr cond, hyes.code, hno.code,
        Expr.code_eq formals t t' cond, Expr.map_shift, Item.shift, Symbol.shift]
  | loop cond body =>
      have hcond := Expr.labels_shifted formals (labels_freshLabel_shifted h) cond
      have hbody := Stmt.shifted target formals hcond body
      refine ⟨?_, hbody.labels⟩
      simp [Stmt.emit_loop, jumpIfZero, h, hbody.code,
        Expr.code_eq formals (freshLabel t).2 (freshLabel t').2 cond, Expr.map_shift, Item.shift,
        Symbol.shift]

theorem Stmt.shifted_all (target : Target) (formals : List String) {n : Nat} {t t' : Tables}
    (h : t'.labels = t.labels + n) (ss : List Stmt) :
    Shifted n (Stmt.emitAll target formals ss t) (Stmt.emitAll target formals ss t') := by
  cases ss with
  | nil => exact ⟨rfl, h⟩
  | cons s ss =>
      have hfirst := Stmt.shifted target formals h s
      have hrest := Stmt.shifted_all target formals hfirst.labels ss
      refine ⟨?_, hrest.labels⟩
      rw [Stmt.emitAll_cons, Stmt.emitAll_cons, hfirst.code, hrest.code, List.map_append]

end

namespace Function

theorem shifted (target : Target) {n : Nat} {t t' : Tables} (h : t'.labels = t.labels + n)
    (f : Function) : Shifted n (f.emit target t) (f.emit target t') := by
  have hbody := Stmt.shifted target f.formals h f.body
  refine ⟨?_, hbody.labels⟩
  simp [emit_eq, enterFrame, leaveFrame, hbody.code, Item.shift, Symbol.shift]

theorem shifted_all (target : Target) {n : Nat} {t t' : Tables} (h : t'.labels = t.labels + n)
    (fs : List Function) : Shifted n (emitAll target fs t) (emitAll target fs t') := by
  induction fs generalizing t t' with
  | nil => exact ⟨rfl, h⟩
  | cons f fs ih =>
      have hfirst := f.shifted target h
      have hrest := ih hfirst.labels
      refine ⟨?_, hrest.labels⟩
      rw [emitAll_cons, emitAll_cons, hfirst.code, hrest.code, List.map_append]

end Function

/-! ### Globals -/

theorem eraseDups_filter (p : String → Bool) (names : List String) :
    (names.filter p).eraseDups = names.eraseDups.filter p := by
  -- the recursion of `eraseDups` is on a filtered tail, so the induction is on the length
  induction hlength : names.length using Nat.strongRecOn generalizing names with
  | ind k ih =>
      cases names with
      | nil => rfl
      | cons name names =>
          have hshorter : (names.filter (!· == name)).length < k := by
            have hle := List.length_filter_le (!· == name) names
            rw [List.length_cons] at hlength
            omega
          have htail := ih _ hshorter (names.filter (!· == name)) rfl
          rw [List.eraseDups_cons]
          by_cases hp : p name = true
          · rw [List.filter_cons_of_pos hp, List.filter_cons_of_pos hp, List.eraseDups_cons, ← htail,
              List.filter_filter, List.filter_filter]
            simp only [Bool.and_comm]
          · rw [List.filter_cons_of_neg hp, List.filter_cons_of_neg hp, ← htail, List.filter_filter]
            congr 1
            apply List.filter_congr
            intro other _
            by_cases hother : other = name <;> simp_all

/-- The first occurrences in two lists together are those in the first and then those in the
second that the first does not have. -/
theorem eraseDups_append_filter (names more : List String) :
    (names ++ more).eraseDups =
      names.eraseDups ++ more.eraseDups.filter (· ∉ names.eraseDups) := by
  rw [List.eraseDups_append, List.removeAll, ← eraseDups_filter]
  simp

/-! ### Listings -/

namespace Program

/-- The lines that are emitted for the functions. -/
def functionLines (target : Target) (p : Program) : List Line :=
  (Function.emitAll target p.functions {}).1.map Item.line

end Program

/-- The lines of the entry point, which are those of every program. -/
def entryLines : List Line := entryCode.map Item.line

/-- The code of appended lists of functions is that of the first followed by that of the second
with every label of a construct shifted by the number of labels of the first; the globals are those
of the first followed by those of the second that the first does not have. What else a listing holds
is the same for all programs, and the globals are declared in their order. -/
theorem generate_append (target : Target) (fs gs : List Function) :
    let first := (Program.mk fs).generate target
    let second := (Program.mk gs).generate target
    let whole := (Program.mk (fs ++ gs)).generate target
    (Program.mk (fs ++ gs)).functionLines target =
      (Program.mk fs).functionLines target ++
        ((Program.mk gs).functionLines target).map (Line.shift first.tables.labels) ∧
    whole.tables.labels = first.tables.labels + second.tables.labels ∧
    whole.tables.globals.names =
      first.tables.globals.names ++
        second.tables.globals.names.filter (· ∉ first.tables.globals.names) ∧
    ∀ p : Program, (p.generate target).lines =
      ⟨.directive, ".text", []⟩ :: p.functionLines target ++ entryLines ++
        dataSection (p.generate target).tables.globals.names := by
  have hshifted : Shifted (Function.emitAll target fs {}).2.labels (Function.emitAll target gs {})
      (Function.emitAll target gs (Function.emitAll target fs {}).2) :=
    Function.shifted_all target (Nat.zero_add _).symm gs
  refine ⟨?_, ?_, ?_, fun p => ?_⟩
  · have hlines : Item.line ∘ Item.shift (Function.emitAll target fs {}).2.labels =
        Line.shift (Function.emitAll target fs {}).2.labels ∘ Item.line := by
      ext item
      exact Item.line_shift _ item
    rw [Program.functionLines, Function.emitAll_append, hshifted.code, List.map_append,
      List.map_map, hlines, ← List.map_map]
    rfl
  · calc (Function.emitAll target (fs ++ gs) {}).2.labels
      _ = (Function.emitAll target gs (Function.emitAll target fs {}).2).2.labels := by
        rw [Function.emitAll_append]
      _ = (Function.emitAll target fs {}).2.labels + (Function.emitAll target gs {}).2.labels := by
        rw [hshifted.labels, Nat.add_comm]
  · have hnames := eraseDups_append_filter (Program.mk fs).globalNames (Program.mk gs).globalNames
    have happend : (Program.mk (fs ++ gs)).globalNames =
        (Program.mk fs).globalNames ++ (Program.mk gs).globalNames := List.flatMap_append
    rw [← happend, ← Program.names_globals target, ← Program.names_globals target,
      ← Program.names_globals target] at hnames
    exact hnames
  · rw [Program.lines_generate, List.map_append]
    rfl

end FunCompiler
