import FunCompiler.Proofs.Drafts

/-!
What the object-file convention changes in generated code: the name by which
`print` calls the C library, and nothing else. The events of a draft do not
depend on the convention, so both conventions stop at the same fault with the
same tables, and the two listings of a draft without faults agree item by item
up to those calls.
-/

namespace FunCompiler

open Asm Code

namespace Asm

/-- The item of a Mach-O listing in the place of an item of an ELF listing. -/
def Item.toMacho : Item → Item
  | .instr (.call (.printf .elf)) => .instr (.call (.printf .macho))
  | item => item

/-- The line with `call _printf` in the place of `call printf`. Any other line stays as it is. -/
def Line.toMacho (l : Line) : Line :=
  if l = ⟨.instruction, "call", ["printf"]⟩ then ⟨.instruction, "call", ["_printf"]⟩ else l

/-- No other symbol is called like the C library's function. -/
theorem Symbol.eq_printf_of_name {symbol : Symbol} (h : symbol.name = "printf") :
    symbol = .printf .elf :=
  Symbol.name_injective (b := .printf .elf) h

theorem Item.line_toMacho (item : Item) : item.toMacho.line = item.line.toMacho := by
  cases item with
  | directive d => simp [Item.toMacho, Item.line, Line.toMacho]
  | label symbol => simp [Item.toMacho, Item.line, Line.toMacho]
  | instr i =>
      cases i with
      | call f =>
          by_cases hf : f = .printf .elf
          · subst hf
            rfl
          · have hname : f.name ≠ "printf" := mt Symbol.eq_printf_of_name hf
            have hitem : (Item.instr (.call f)).toMacho = .instr (.call f) := by
              unfold Item.toMacho
              split
              · rename_i heq
                cases heq
                exact absurd rfl hf
              · rfl
            simp [hitem, Item.line, Line.toMacho, Instr.mnemonic, Instr.operands, hname]
      | set c => cases c <;> simp [Item.toMacho, Item.line, Line.toMacho, Instr.mnemonic,
          Condition.suffix]
      | _ => simp [Item.toMacho, Item.line, Line.toMacho, Instr.mnemonic]

end Asm

/-! ### Code -/

theorem map_toMacho_operatorCode (op : Operator) :
    (operatorCode op).map Item.toMacho = operatorCode op := by
  cases op <;> rfl

mutual

/-- Expressions do not call the C library. -/
theorem Expr.map_toMacho (formals : List String) (t : Tables) (e : Expr) :
    (e.emit formals t).1.map Item.toMacho = (e.emit formals t).1 := by
  cases e with
  | var name => rfl
  | lit value => rfl
  | call callee actuals =>
      rw [Expr.emit_call]
      unfold reserving
      split <;> simp [Item.toMacho, Expr.map_toMacho_actuals formals t 0 actuals]
  | binary op left right =>
      simp [Expr.emit_binary, Item.toMacho, map_toMacho_operatorCode,
        Expr.map_toMacho formals t left, Expr.map_toMacho formals _ right]

theorem Expr.map_toMacho_actuals (formals : List String) (t : Tables) (index : Nat)
    (es : List Expr) :
    (Expr.emitActuals formals index es t).1.map Item.toMacho =
      (Expr.emitActuals formals index es t).1 := by
  cases es with
  | nil => rfl
  | cons e es =>
      simp [Expr.emitActuals_cons, storeActual, Item.toMacho, Expr.map_toMacho formals t e,
        Expr.map_toMacho_actuals formals _ (index + 1) es]

end

/-- The result of generation for Mach-O from that for ELF. -/
def toMacho (made : List Item × Tables) : List Item × Tables := (made.1.map Item.toMacho, made.2)

mutual

theorem Stmt.emit_macho (formals : List String) (t : Tables) (s : Stmt) :
    s.emit .macho formals t = toMacho (s.emit .elf formals t) := by
  cases s with
  | assign name value =>
      simp [Stmt.emit_assign, toMacho, Item.toMacho, Expr.map_toMacho]
  | print value =>
      simp [Stmt.emit_print, printCode, toMacho, Item.toMacho, Expr.map_toMacho]
  | ifThen cond yes =>
      simp [Stmt.emit_ifThen, jumpIfZero, Stmt.emit_macho formals _ yes, toMacho, Item.toMacho,
        Expr.map_toMacho]
  | ifElse cond yes no =>
      simp [Stmt.emit_ifElse, jumpIfZero, Stmt.emit_macho formals _ yes,
        Stmt.emit_macho formals _ no, toMacho, Item.toMacho, Expr.map_toMacho]
  | loop cond body =>
      simp [Stmt.emit_loop, jumpIfZero, Stmt.emit_macho formals _ body, toMacho, Item.toMacho,
        Expr.map_toMacho]
  | block body => exact Stmt.emitAll_macho formals t body
  | ret value =>
      simp [Stmt.emit_ret, leaveFrame, toMacho, Item.toMacho, Expr.map_toMacho]

theorem Stmt.emitAll_macho (formals : List String) (t : Tables) (ss : List Stmt) :
    Stmt.emitAll .macho formals ss t = toMacho (Stmt.emitAll .elf formals ss t) := by
  cases ss with
  | nil => rfl
  | cons s ss =>
      simp [Stmt.emitAll_cons, Stmt.emit_macho formals t s, Stmt.emitAll_macho formals _ ss,
        toMacho]

end

namespace Function

theorem emit_macho (t : Tables) (f : Function) : f.emit .macho t = toMacho (f.emit .elf t) := by
  simp [emit_eq, Stmt.emit_macho, enterFrame, leaveFrame, toMacho, Item.toMacho]

theorem emitAll_macho (t : Tables) (fs : List Function) :
    emitAll .macho fs t = toMacho (emitAll .elf fs t) := by
  induction fs generalizing t with
  | nil => rfl
  | cons f fs ih => simp [emitAll_cons, emit_macho, ih, toMacho]

end Function

theorem map_toMacho_data (g : Globals) : g.data.map Item.toMacho = g.data := by
  have hcell (name : String) : (Globals.cell name).map Item.toMacho = Globals.cell name := rfl
  have hlabel (name : String) : (Globals.label name).map Item.toMacho = Globals.label name := rfl
  simp [Globals.data, List.map_flatMap, hcell, hlabel]

namespace Program

variable (p : Program)

theorem globals_macho : p.globals .macho = p.globals .elf := by
  rw [globals, Function.emitAll_macho]
  rfl

theorem items_macho :
    (p.generate .macho).items = (p.generate .elf).items.map Item.toMacho := by
  have hentry : entryCode.map Item.toMacho = entryCode := rfl
  simp [generate_items, userCode, globals_macho, Function.emitAll_macho, toMacho, hentry,
    map_toMacho_data, Item.toMacho]

theorem tables_macho : (p.generate .macho).tables = (p.generate .elf).tables := by
  show (Function.emitAll .macho p.functions {}).2 = (Function.emitAll .elf p.functions {}).2
  rw [Function.emitAll_macho]
  rfl

theorem lines_macho : (p.generate .macho).lines = (p.generate .elf).lines.map Line.toMacho := by
  rw [Listing.lines, items_macho, Listing.lines, List.map_map, List.map_map]
  exact List.map_congr_left fun item _ => item.line_toMacho

end Program

/-! ### Listings -/

theorem Asm.Item.label?_toMacho (item : Item) : item.toMacho.label? = item.label? := by
  unfold Item.toMacho
  split <;> rfl

theorem Program.definedLabels_macho (p : Program) :
    definedLabels (p.generate .macho).lines = definedLabels (p.generate .elf).lines := by
  rw [Listing.definedLabels_lines, Listing.definedLabels_lines, items_macho, labels, labels,
    List.filterMap_map]
  congr 2
  funext item
  exact item.label?_toMacho

theorem Asm.Line.eq_printf_of_mentions {l : Line} (h : l.toMacho ≠ l) {symbol : Symbol}
    (hmentions : l.Mentions symbol.name) : symbol = .printf .elf := by
  unfold Line.toMacho at h
  split at h
  · rename_i hl
    rw [hl] at hmentions
    exact Symbol.eq_printf_of_name (by simpa [Line.Mentions, transfersControl] using hmentions)
  · exact absurd rfl h

/-- Whatever two generators were used for before, one for ELF and one for Mach-O, they stop at the
same fault of a draft or both make a listing, and in either case the tables they leave are the
same. The Mach-O listing has `call _printf` where the ELF listing has `call printf` and is the same
line by line apart from that; it defines the same labels, and a line that differs mentions no
symbol but the C library's. -/
theorem targets_differ_in_printf (t t' : Tables) (d : DraftProgram) :
    let elf := Generator.generate ⟨.elf, t⟩ d
    let macho := Generator.generate ⟨.macho, t'⟩ d
    macho.2.tables = elf.2.tables ∧
    ((∃ fault, elf.1 = .error fault ∧ macho.1 = .error fault) ∨
      ∃ listing listing', elf.1 = .ok listing ∧ macho.1 = .ok listing' ∧
        listing'.lines.length = listing.lines.length ∧
        listing'.lines = listing.lines.map Line.toMacho ∧
        definedLabels listing'.lines = definedLabels listing.lines ∧
        ∀ l ∈ listing.lines, l.toMacho ≠ l →
          ∀ symbol : Symbol, l.Mentions symbol.name → symbol = .printf .elf) := by
  intro elf macho
  unfold elf macho Generator.generate
  obtain ⟨fault, -, heq⟩ | ⟨-, p, -, hlisting⟩ := d.generate_cases
  · rw [heq, heq]
    exact ⟨rfl, .inl ⟨fault, rfl, rfl⟩⟩
  · rw [(hlisting .elf).1, (hlisting .macho).1]
    refine ⟨p.tables_macho, .inr ⟨_, _, rfl, rfl, ?_, p.lines_macho, p.definedLabels_macho, ?_⟩⟩
    · rw [p.lines_macho, List.length_map]
    · intro l _ hchanged symbol hmentions
      exact Line.eq_printf_of_mentions hchanged hmentions

end FunCompiler
