import FunCompiler.Proofs.Linkage

/-!
The global cells of a program. The pass that makes the code enters a global in
the tables when it first meets its name, so the table is read off the names of
the program in the order in which the pass meets them: of a name that occurs
more than once the first occurrence counts. The data section declares those
cells and no others, and every one of them is an operand of some instruction.
-/

namespace FunCompiler

open Asm Code

/-! ### Names in the order of generation -/

mutual

/-- The variables of an expression, from left to right. -/
def Expr.names : Expr → List String
  | .var name => [name]
  | .lit _ => []
  | .call _ actuals => Expr.namesAll actuals
  | .binary _ left right => left.names ++ right.names

def Expr.namesAll : List Expr → List String
  | [] => []
  | e :: es => e.names ++ Expr.namesAll es

end

mutual

/-- The variables and targets of a statement. The target of an assignment comes behind
its value, a condition before what depends on it. -/
def Stmt.names : Stmt → List String
  | .assign target value => value.names ++ [target]
  | .print value => value.names
  | .ifThen cond yes => cond.names ++ yes.names
  | .ifElse cond yes no => cond.names ++ yes.names ++ no.names
  | .loop cond body => cond.names ++ body.names
  | .block body => Stmt.namesAll body
  | .ret value => value.names

def Stmt.namesAll : List Stmt → List String
  | [] => []
  | s :: ss => s.names ++ Stmt.namesAll ss

end

/-- The names that are no formals. -/
def globalsAmong (formals names : List String) : List String := names.filter (· ∉ formals)

/-- The occurrences of global names in a function. -/
def Function.globalNames (f : Function) : List String := globalsAmong f.formals f.body.names

/-- The occurrences of global names in a program, function by function. -/
def Program.globalNames (p : Program) : List String := p.functions.flatMap Function.globalNames

theorem globalsAmong_append (formals names more : List String) :
    globalsAmong formals (names ++ more) =
      globalsAmong formals names ++ globalsAmong formals more := List.filter_append ..

/-! ### The table -/

namespace Code.Globals

/-- Enters names in the table one after another. -/
def registerAll (g : Globals) (names : List String) : Globals := names.foldl register g

theorem registerAll_append (g : Globals) (names more : List String) :
    g.registerAll (names ++ more) = (g.registerAll names).registerAll more :=
  List.foldl_append

/-- A table that holds the first occurrences of some names holds those of one name more
after it has been entered. -/
theorem names_register {g : Globals} {names : List String} (h : g.names = names.eraseDups)
    (name : String) : (g.register name).names = (names ++ [name]).eraseDups := by
  have hknown : g.contains name = true ↔ name ∈ names := by
    rw [contains, List.contains_iff_mem, h, List.mem_eraseDups]
  rw [List.eraseDups_append]
  unfold register
  split
  · rename_i hmem
    rw [hknown] at hmem
    simp [List.removeAll, hmem, h]
  · rename_i hnew
    rw [hknown] at hnew
    simp [List.removeAll, hnew, h, List.eraseDups_cons]

theorem names_registerAll {g : Globals} {names : List String} (h : g.names = names.eraseDups)
    (more : List String) : (g.registerAll more).names = (names ++ more).eraseDups := by
  induction more generalizing g names with
  | nil => simpa [registerAll] using h
  | cons name more ih =>
      have hmore := ih (names_register h name)
      rwa [List.append_assoc] at hmore

/-- A new table takes in the first occurrences. -/
theorem names_registerAll_empty (names : List String) :
    (({} : Globals).registerAll names).names = names.eraseDups :=
  names_registerAll (show ({} : Globals).names = [].eraseDups from rfl) names

end Code.Globals

/-- A name that is a formal is found on the stack and leaves the tables alone; any other name
is entered in them. -/
theorem locate_of_formals (formals : List String) (t : Tables) (name : String) :
    (name ∈ formals ∧ (locate formals name t).1.mentions = [] ∧ (locate formals name t).2 = t) ∨
    (name ∉ formals ∧ locate formals name t =
      (.cell (.cell name), { t with globals := t.globals.register name })) := by
  obtain ⟨i, hi, heq⟩ | ⟨hnone, heq⟩ := locate_cases formals t name
  · refine .inl ⟨?_, by rw [heq]; rfl, by rw [heq]⟩
    by_contra hnot
    rw [List.idxOf?_eq_none_iff.2 hnot] at hi
    cases hi
  · exact .inr ⟨List.idxOf?_eq_none_iff.1 hnone, heq⟩

theorem globals_locate (formals : List String) (t : Tables) (name : String) :
    (locate formals name t).2.globals = t.globals.registerAll (globalsAmong formals [name]) := by
  obtain ⟨hmem, -, heq⟩ | ⟨hnot, heq⟩ := locate_of_formals formals t name
  · simp [heq, globalsAmong, hmem, Globals.registerAll]
  · simp [heq, globalsAmong, hnot, Globals.registerAll]

mutual

theorem Expr.globals_emit (formals : List String) (t : Tables) (e : Expr) :
    (e.emit formals t).2.globals = t.globals.registerAll (globalsAmong formals e.names) := by
  cases e with
  | var name => exact globals_locate formals t name
  | lit value => rfl
  | call callee actuals => exact Expr.globals_emitActuals formals t 0 actuals
  | binary op left right =>
      rw [Expr.emit_binary, Expr.globals_emit formals _ right, Expr.globals_emit formals t left,
        Expr.names, globalsAmong_append, Globals.registerAll_append]

theorem Expr.globals_emitActuals (formals : List String) (t : Tables) (index : Nat)
    (es : List Expr) :
    (Expr.emitActuals formals index es t).2.globals =
      t.globals.registerAll (globalsAmong formals (Expr.namesAll es)) := by
  cases es with
  | nil => rfl
  | cons e es =>
      rw [Expr.emitActuals_cons, Expr.globals_emitActuals formals _ _ es,
        Expr.globals_emit formals t e, Expr.namesAll, globalsAmong_append,
        Globals.registerAll_append]

end

mutual

theorem Stmt.globals_emit (target : Target) (formals : List String) (t : Tables) (s : Stmt) :
    (s.emit target formals t).2.globals =
      t.globals.registerAll (globalsAmong formals s.names) := by
  cases s with
  | assign name value =>
      rw [Stmt.emit_assign, globals_locate, Expr.globals_emit, Stmt.names, globalsAmong_append,
        Globals.registerAll_append]
  | print value => exact Expr.globals_emit formals t value
  | ifThen cond yes =>
      rw [Stmt.emit_ifThen, Stmt.globals_emit target formals _ yes, Stmt.names,
        globalsAmong_append, Globals.registerAll_append, ← Expr.globals_emit formals t cond]
      rfl
  | ifElse cond yes no =>
      rw [Stmt.emit_ifElse, Stmt.globals_emit target formals _ no,
        Stmt.globals_emit target formals _ yes, Stmt.names, globalsAmong_append,
        globalsAmong_append, Globals.registerAll_append, Globals.registerAll_append,
        ← Expr.globals_emit formals t cond]
      rfl
  | loop cond body =>
      rw [Stmt.emit_loop, Stmt.globals_emit target formals _ body, Expr.globals_emit, Stmt.names,
        globalsAmong_append, Globals.registerAll_append]
      rfl
  | block body => exact Stmt.globals_emitAll target formals t body
  | ret value => exact Expr.globals_emit formals t value

theorem Stmt.globals_emitAll (target : Target) (formals : List String) (t : Tables)
    (ss : List Stmt) :
    (Stmt.emitAll target formals ss t).2.globals =
      t.globals.registerAll (globalsAmong formals (Stmt.namesAll ss)) := by
  cases ss with
  | nil => rfl
  | cons s ss =>
      rw [Stmt.emitAll_cons, Stmt.globals_emitAll target formals _ ss,
        Stmt.globals_emit target formals t s, Stmt.namesAll, globalsAmong_append,
        Globals.registerAll_append]

end

theorem Function.globals_emitAll (target : Target) (t : Tables) (fs : List Function) :
    (emitAll target fs t).2.globals =
      t.globals.registerAll (fs.flatMap globalNames) := by
  induction fs generalizing t with
  | nil => rfl
  | cons f fs ih =>
      rw [emitAll_cons, ih, emit_eq, Stmt.globals_emit, List.flatMap_cons,
        Globals.registerAll_append]
      rfl

theorem Program.names_globals (target : Target) (p : Program) :
    (p.globals target).names = p.globalNames.eraseDups := by
  rw [globals, Function.globals_emitAll]
  exact Globals.names_registerAll_empty p.globalNames

/-! ### The operands -/

theorem cell_mem_locate_iff {formals : List String} {t : Tables} {name v : String} :
    .cell v ∈ (locate formals name t).1.mentions ↔ v ∈ globalsAmong formals [name] := by
  obtain ⟨hmem, hmentions, -⟩ | ⟨hnot, heq⟩ := locate_of_formals formals t name
  · simp [hmentions, globalsAmong, hmem]
  · simp [heq, globalsAmong, hnot, Operand.mentions]

theorem mentions_register (r : Register) : (Operand.register r).mentions = [] := rfl

mutual

/-- The cells that the code of an expression addresses are those of its global names. -/
theorem Expr.cell_mem_iff (formals : List String) (t : Tables) (v : String) (e : Expr) :
    .cell v ∈ mentions (e.emit formals t).1 ↔ v ∈ globalsAmong formals e.names := by
  cases e with
  | var name =>
      simp [Expr.emit_var, Expr.names, Item.mentions, Instr.mentions, mentions_register,
        cell_mem_locate_iff]
  | lit value => simp [Expr.emit_lit, Item.mentions, Instr.mentions, Operand.mentions, Expr.names,
      globalsAmong]
  | call callee actuals =>
      rw [Expr.emit_call, mentions_reserving, mentions_append, Expr.names, List.mem_append,
        Expr.cell_mem_actuals_iff formals t v 0 actuals]
      simp [Item.mentions, Instr.mentions]
  | binary op left right =>
      simp [Expr.emit_binary, Expr.names, globalsAmong_append, mentions_operatorCode,
        Item.mentions, Instr.mentions, Expr.cell_mem_iff formals t v left,
        Expr.cell_mem_iff formals _ v right]

theorem Expr.cell_mem_actuals_iff (formals : List String) (t : Tables) (v : String)
    (index : Nat) (es : List Expr) :
    .cell v ∈ mentions (Expr.emitActuals formals index es t).1 ↔
      v ∈ globalsAmong formals (Expr.namesAll es) := by
  cases es with
  | nil => simp [Expr.emitActuals_nil, Expr.namesAll, globalsAmong]
  | cons e es =>
      simp [Expr.emitActuals_cons, Expr.namesAll, globalsAmong_append, storeActual, Item.mentions,
        Instr.mentions, Operand.mentions, Expr.cell_mem_iff formals t v e,
        Expr.cell_mem_actuals_iff formals _ v (index + 1) es]

end

mutual

theorem Stmt.cell_mem_iff (target : Target) (formals : List String) (t : Tables) (v : String)
    (s : Stmt) :
    .cell v ∈ mentions (s.emit target formals t).1 ↔ v ∈ globalsAmong formals s.names := by
  cases s with
  | assign name value =>
      simp [Stmt.emit_assign, Stmt.names, globalsAmong_append, Item.mentions, Instr.mentions,
        mentions_register, Expr.cell_mem_iff, cell_mem_locate_iff]
  | print value =>
      have hprint : mentions (printCode target) = [.format, .printf target] := rfl
      simp [Stmt.emit_print, Stmt.names, hprint, Expr.cell_mem_iff]
  | ifThen cond yes =>
      simp [Stmt.emit_ifThen, Stmt.names, globalsAmong_append, mentions_jumpIfZero, Item.mentions,
        Instr.mentions, Expr.cell_mem_iff, Stmt.cell_mem_iff target formals _ v yes]
  | ifElse cond yes no =>
      simp [Stmt.emit_ifElse, Stmt.names, globalsAmong_append, mentions_jumpIfZero, Item.mentions,
        Instr.mentions, Expr.cell_mem_iff, Stmt.cell_mem_iff target formals _ v yes,
        Stmt.cell_mem_iff target formals _ v no]
  | loop cond body =>
      simp [Stmt.emit_loop, Stmt.names, globalsAmong_append, mentions_jumpIfZero, Item.mentions,
        Instr.mentions, Expr.cell_mem_iff, Stmt.cell_mem_iff target formals _ v body]
  | block body => exact Stmt.cell_mem_all_iff target formals t v body
  | ret value =>
      simp [Stmt.emit_ret, Stmt.names, mentions_leaveFrame, Item.mentions, Instr.mentions,
        Expr.cell_mem_iff]

theorem Stmt.cell_mem_all_iff (target : Target) (formals : List String) (t : Tables) (v : String)
    (ss : List Stmt) :
    .cell v ∈ mentions (Stmt.emitAll target formals ss t).1 ↔
      v ∈ globalsAmong formals (Stmt.namesAll ss) := by
  cases ss with
  | nil => simp [Stmt.emitAll_nil, Stmt.namesAll, globalsAmong]
  | cons s ss =>
      simp [Stmt.emitAll_cons, Stmt.namesAll, globalsAmong_append,
        Stmt.cell_mem_iff target formals t v s, Stmt.cell_mem_all_iff target formals _ v ss]

end

theorem Function.cell_mem_all_iff (target : Target) (t : Tables) (v : String)
    (fs : List Function) :
    .cell v ∈ mentions (emitAll target fs t).1 ↔ v ∈ fs.flatMap globalNames := by
  induction fs generalizing t with
  | nil => simp [emitAll_nil]
  | cons f fs ih =>
      simp [emitAll_cons, mentions_emit, Stmt.cell_mem_iff, ih, globalNames]

/-! ### Plain code -/

namespace Asm

/-- Where an instruction may lead other than to the next one. -/
def Instr.destination? : Instr → Option Symbol
  | .jmp l => some l
  | .je l => some l
  | .call f => some f
  | _ => none

/-- No directive, and no jump or call to a cell. -/
def Item.IsPlain : Item → Prop
  | .directive _ => False
  | .label _ => True
  | .instr i => ∀ v, i.destination? ≠ some (.cell v)

/-- The operand of a cell belongs to the instructions that address it, as long as nobody
jumps to a cell. -/
theorem Instr.operand_cell_iff {i : Instr} (h : (Item.instr i).IsPlain) (v : String) :
    "var_" ++ v ++ "(%rip)" ∈ i.operands ↔ .cell v ∈ i.mentions := by
  have hmentions := @Item.line_mentions_iff (.instr i) (Symbol.cell v).name
  have hname : (Symbol.cell v).name = "var_" ++ v := rfl
  rw [← List.mem_map (f := Symbol.name), Listing.name_mem_iff, hname] at hmentions
  have hgoal (l : Symbol) (hl : ∀ w, some l ≠ some (.cell w)) :
      "var_" ++ v ++ "(%rip)" ∈ [l.name] ↔ .cell v ∈ [l] := by
    have hlong : "var_" ++ v ++ "(%rip)" = (Symbol.cell (v ++ "(%rip)")).name :=
      String.append_assoc ..
    rw [List.mem_singleton, List.mem_singleton, hlong]
    exact ⟨fun heq => absurd (by rw [Symbol.name_injective heq]) (hl (v ++ "(%rip)")),
      fun heq => absurd (by rw [heq]) (hl v)⟩
  cases i with
  | jmp l => exact hgoal l h
  | je l => exact hgoal l h
  | call f => exact hgoal f h
  | set c =>
      cases c <;> simpa [Item.line, Line.Mentions, Item.mentions, Instr.mnemonic, transfersControl,
        Condition.suffix] using hmentions
  | _ =>
      simpa [Item.line, Line.Mentions, Item.mentions, Instr.mnemonic, transfersControl]
        using hmentions

def IsPlain (items : List Item) : Prop := ∀ item ∈ items, item.IsPlain

@[simp] theorem isPlain_nil : IsPlain [] := List.forall_mem_nil _

@[simp] theorem isPlain_cons {item : Item} {items : List Item} :
    IsPlain (item :: items) ↔ item.IsPlain ∧ IsPlain items := List.forall_mem_cons

@[simp] theorem isPlain_append {items more : List Item} :
    IsPlain (items ++ more) ↔ IsPlain items ∧ IsPlain more := List.forall_mem_append

end Asm

theorem isPlain_operatorCode (op : Operator) : IsPlain (operatorCode op) := by
  cases op <;> simp [operatorCode, operatorCode.compare, Item.IsPlain, Instr.destination?]

mutual

theorem Expr.isPlain (formals : List String) (t : Tables) (e : Expr) :
    IsPlain (e.emit formals t).1 := by
  cases e with
  | var name => simp [Expr.emit_var, Item.IsPlain, Instr.destination?]
  | lit value => simp [Expr.emit_lit, Item.IsPlain, Instr.destination?]
  | call callee actuals =>
      rw [Expr.emit_call]
      unfold reserving
      split <;> simp [Expr.isPlain_actuals formals t 0 actuals, Item.IsPlain, Instr.destination?]
  | binary op left right =>
      simp [Expr.emit_binary, isPlain_operatorCode, Item.IsPlain, Instr.destination?,
        Expr.isPlain formals t left, Expr.isPlain formals _ right]

theorem Expr.isPlain_actuals (formals : List String) (t : Tables) (index : Nat)
    (es : List Expr) : IsPlain (Expr.emitActuals formals index es t).1 := by
  cases es with
  | nil => exact isPlain_nil
  | cons e es =>
      simp [Expr.emitActuals_cons, storeActual, Item.IsPlain, Instr.destination?,
        Expr.isPlain formals t e, Expr.isPlain_actuals formals _ (index + 1) es]

end

mutual

theorem Stmt.isPlain (target : Target) (formals : List String) (t : Tables) (s : Stmt) :
    IsPlain (s.emit target formals t).1 := by
  cases s with
  | assign name value =>
      simp [Stmt.emit_assign, Item.IsPlain, Instr.destination?, Expr.isPlain]
  | print value =>
      simp [Stmt.emit_print, printCode, Item.IsPlain, Instr.destination?, Expr.isPlain]
  | ifThen cond yes =>
      simp [Stmt.emit_ifThen, jumpIfZero, Item.IsPlain, Instr.destination?, Expr.isPlain,
        Stmt.isPlain target formals _ yes]
  | ifElse cond yes no =>
      simp [Stmt.emit_ifElse, jumpIfZero, Item.IsPlain, Instr.destination?, Expr.isPlain,
        Stmt.isPlain target formals _ yes, Stmt.isPlain target formals _ no]
  | loop cond body =>
      simp [Stmt.emit_loop, jumpIfZero, Item.IsPlain, Instr.destination?, Expr.isPlain,
        Stmt.isPlain target formals _ body]
  | block body => exact Stmt.isPlain_all target formals t body
  | ret value =>
      simp [Stmt.emit_ret, leaveFrame, Item.IsPlain, Instr.destination?, Expr.isPlain]

theorem Stmt.isPlain_all (target : Target) (formals : List String) (t : Tables)
    (ss : List Stmt) : IsPlain (Stmt.emitAll target formals ss t).1 := by
  cases ss with
  | nil => exact isPlain_nil
  | cons s ss =>
      simp [Stmt.emitAll_cons, Stmt.isPlain target formals t s,
        Stmt.isPlain_all target formals _ ss]

end

/-- The only directives in the code of functions are those that export their names. -/
theorem Function.isPlain_or_exports {target : Target} {t : Tables} {fs : List Function}
    {item : Item} (h : item ∈ (emitAll target fs t).1) :
    item.IsPlain ∨ ∃ f ∈ fs, item = .directive (.global (.function f.name)) ∨
      item = .directive (.global (.functionAlias f.name)) := by
  induction fs generalizing t with
  | nil => cases h
  | cons f fs ih =>
      rw [emitAll_cons, List.mem_append, emit_eq] at h
      rcases h with h | h
      · have hbody : IsPlain ([.label (.function f.name), .label (.functionAlias f.name)] ++
            enterFrame ++ (f.body.emit target f.formals t).1 ++ leaveFrame ++
            [.instr (.mov (.immediate 0) Register.rax), .instr .ret]) := by
          simp [enterFrame, leaveFrame, Item.IsPlain, Instr.destination?, Stmt.isPlain]
        rcases List.mem_cons.1 h with rfl | h
        · exact .inr ⟨f, List.mem_cons_self .., .inl rfl⟩
        · rcases List.mem_cons.1 h with rfl | h
          · exact .inr ⟨f, List.mem_cons_self .., .inr rfl⟩
          · exact .inl (hbody item h)
      · refine (ih h).imp_right ?_
        rintro ⟨g, hg, heq⟩
        exact ⟨g, List.mem_cons_of_mem _ hg, heq⟩

/-! ### The listing -/

/-- The lines of a data section: the format of `print`, a cell for each name, and a string
with each name. -/
def dataSection (names : List String) : List Line :=
  [⟨.directive, ".data", []⟩, ⟨.label, "format_str", []⟩,
    ⟨.directive, ".string", ["\"%lu\\n\""]⟩] ++
  names.flatMap (fun v => [⟨.directive, ".global", ["var_" ++ v]⟩, ⟨.label, "var_" ++ v, []⟩,
    ⟨.directive, ".quad", ["0"]⟩]) ++
  names.flatMap (fun v => [⟨.label, "name_" ++ v, []⟩,
    ⟨.directive, ".string", ["\"" ++ v ++ "\""]⟩])

namespace Program

variable {target : Target} {p : Program}

theorem lines_generate (target : Target) (p : Program) :
    (p.generate target).lines =
      (p.userCode target ++ entryCode).map Item.line ++ dataSection (p.globals target).names := by
  have hcells : ((p.globals target).names.flatMap Globals.cell).map Item.line =
      (p.globals target).names.flatMap fun v => [⟨.directive, ".global", ["var_" ++ v]⟩,
        ⟨.label, "var_" ++ v, []⟩, ⟨.directive, ".quad", ["0"]⟩] := List.map_flatMap ..
  have hnames : ((p.globals target).names.flatMap Globals.label).map Item.line =
      (p.globals target).names.flatMap fun v => [⟨.label, "name_" ++ v, []⟩,
        ⟨.directive, ".string", ["\"" ++ v ++ "\""]⟩] := List.map_flatMap ..
  rw [Listing.lines, generate_items, List.map_append, List.map_append, List.map_append,
    Globals.data, List.map_append, hcells, hnames, List.map_append, dataSection]
  simp only [List.append_assoc]
  rfl

/-- The directives before the data section open the text section or export a name that is
no cell's. -/
theorem isPlain_or_directive {item : Item} (h : item ∈ p.userCode target ++ entryCode) :
    item.IsPlain ∨ item = .directive .text ∨
      ∃ symbol, item = .directive (.global symbol) ∧ ∀ v, symbol ≠ .cell v := by
  rcases List.mem_append.1 h with huser | hentry
  · rcases List.mem_cons.1 huser with rfl | hfunctions
    · exact .inr (.inl rfl)
    · rcases Function.isPlain_or_exports hfunctions with hplain | ⟨f, -, rfl | rfl⟩
      · exact .inl hplain
      · exact .inr (.inr ⟨_, rfl, by simp⟩)
      · exact .inr (.inr ⟨_, rfl, by simp⟩)
  · have hrest : IsPlain (entryCode.drop 2) := by
      simp [entryCode, enterFrame, leaveFrame, Item.IsPlain, Instr.destination?]
    rcases List.mem_cons.1 hentry with rfl | hentry
    · exact .inr (.inr ⟨_, rfl, by simp⟩)
    · rcases List.mem_cons.1 hentry with rfl | hentry
      · exact .inr (.inr ⟨_, rfl, by simp⟩)
      · exact .inl (hrest item hentry)

theorem data_not_mem :
    ⟨.directive, ".data", []⟩ ∉ (p.userCode target ++ entryCode).map Item.line := by
  rw [List.mem_map]
  rintro ⟨item, hitem, hline⟩
  rcases isPlain_or_directive hitem with hplain | rfl | ⟨symbol, rfl, -⟩
  · cases item with
    | directive d => exact hplain
    | label symbol => cases hline
    | instr i => cases hline
  · simp [Item.line, Directive.mnemonic] at hline
  · simp [Item.line, Directive.mnemonic] at hline

/-- A cell is exported if it is in the tables. -/
theorem export_mem_iff {v : String} :
    ⟨.directive, ".global", ["var_" ++ v]⟩ ∈ (p.generate target).lines ↔
      v ∈ (p.globals target).names := by
  rw [lines_generate, List.mem_append]
  constructor
  · rintro (hcode | hdata)
    · obtain ⟨item, hitem, hline⟩ := List.mem_map.1 hcode
      rcases isPlain_or_directive hitem with hplain | rfl | ⟨symbol, rfl, hsymbol⟩
      · cases item with
        | directive d => exact hplain.elim
        | label symbol => cases hline
        | instr i => cases hline
      · simp [Item.line, Directive.mnemonic] at hline
      · have hname : symbol.name = "var_" ++ v := by
          simpa [Item.line, Directive.mnemonic, Directive.operands] using hline
        exact absurd (Symbol.name_injective (b := .cell v) hname) (hsymbol v)
    · have hlist : "var_" ++ v ∈ (p.globals target).names.map ("var_" ++ ·) := by
        simpa [dataSection, eq_comm] using hdata
      obtain ⟨w, hw, heq⟩ := List.mem_map.1 hlist
      exact Symbol.cell.inj (Symbol.name_injective (a := .cell w) (b := .cell v) heq) ▸ hw
  · intro hv
    refine .inr (List.mem_append_left _ (List.mem_append_right _ ?_))
    exact List.mem_flatMap.2 ⟨v, hv, List.mem_cons_self ..⟩

/-- A cell is addressed by some instruction if its name occurs in a function of which it is
no formal. -/
theorem operand_mem_iff {v : String} :
    (∃ l ∈ (p.generate target).lines, l.kind = .instruction ∧
        "var_" ++ v ++ "(%rip)" ∈ l.operands) ↔ v ∈ p.globalNames := by
  rw [globalNames, ← Function.cell_mem_all_iff target {} v p.functions]
  constructor
  · rintro ⟨l, hl, hkind, hoperand⟩
    rw [lines_generate, List.mem_append] at hl
    rcases hl with hcode | hdata
    · obtain ⟨item, hitem, rfl⟩ := List.mem_map.1 hcode
      cases item with
      | directive d => cases hkind
      | label symbol => cases hkind
      | instr i =>
          rcases isPlain_or_directive hitem with hplain | hdirective | ⟨symbol, hdirective, -⟩
          · have hcell := (Instr.operand_cell_iff hplain v).1 hoperand
            have hmentions : .cell v ∈ mentions (p.userCode target ++ entryCode) :=
              List.mem_flatMap.2 ⟨_, hitem, hcell⟩
            simpa [userCode, entryCode, enterFrame, leaveFrame, Item.mentions, Instr.mentions,
              Operand.mentions] using hmentions
          · cases hdirective
          · cases hdirective
    · have hnot : ∀ l ∈ dataSection (p.globals target).names, l.kind ≠ .instruction := by
        simp only [dataSection, List.forall_mem_append, List.forall_mem_flatMap]
        simp
      exact absurd hkind (hnot l hdata)
  · intro hmentions
    obtain ⟨item, hitem, hcell⟩ := List.mem_flatMap.1 hmentions
    have hcode : item ∈ p.userCode target ++ entryCode :=
      List.mem_append_left _ (List.mem_cons_of_mem _ hitem)
    rcases isPlain_or_directive hcode with hplain | rfl | ⟨symbol, rfl, hsymbol⟩
    · cases item with
      | directive d => exact hplain.elim
      | label symbol => cases hcell
      | instr i =>
          refine ⟨(Item.instr i).line, ?_, rfl, (Instr.operand_cell_iff hplain v).2 hcell⟩
          rw [lines_generate]
          exact List.mem_append_left _ (List.mem_map_of_mem hcode)
    · cases hcell
    · exact absurd (List.mem_singleton.1 hcell).symm (hsymbol v)

/-- What a data section declares is declared nowhere else. -/
theorem count_data {symbol : Symbol} {v : String}
    (hsymbol : symbol = .cell v ∨ symbol = .cellName v) :
    (definedLabels (p.generate target).lines).count symbol.name =
      if v ∈ (p.globals target).names then 1 else 0 := by
  have hfunctions : (labels (Function.emitAll target p.functions {}).1).count symbol = 0 := by
    refine List.count_eq_zero.2 fun hmem => ?_
    rcases Function.of_mem_labels hmem with ⟨id, part, rfl, -⟩ | ⟨f, -, rfl | rfl⟩ <;>
      rcases hsymbol with heq | heq <;> cases heq
  have hcell : ((p.globals target).names.map Symbol.cell).count (.cell v) =
      (p.globals target).names.count v :=
    List.count_map_of_injective _ _ (fun _ _ => Symbol.cell.inj) v
  have hcellName : ((p.globals target).names.map Symbol.cellName).count (.cellName v) =
      (p.globals target).names.count v :=
    List.count_map_of_injective _ _ (fun _ _ => Symbol.cellName.inj) v
  have hother : ((p.globals target).names.map Symbol.cellName).count (.cell v) = 0 ∧
      ((p.globals target).names.map Symbol.cell).count (.cellName v) = 0 := by
    constructor <;> exact List.count_eq_zero.2 (by simp)
  rw [Listing.definedLabels_lines,
    List.count_map_of_injective _ _ fun _ _ => Symbol.name_injective, labels_generate,
    List.count_append, hfunctions, ← nodup_globals.count]
  rcases hsymbol with rfl | rfl <;> simp [List.count_append, hcell, hcellName, hother]

end Program

/-- The globals of a program are the first occurrences of its global names in the order of
generation. The data section, and nothing before it, declares each of them by one cell and one
string in that order; and a cell is exported if and only if some instruction addresses it. -/
theorem globals_first_occurrences (target : Target) (p : Program) :
    let lines := (p.generate target).lines
    let globals := (p.generate target).tables.globals.names
    globals = p.globalNames.eraseDups ∧
    (∃ code, lines = code ++ dataSection globals ∧ ⟨.directive, ".data", []⟩ ∉ code) ∧
    (∀ v, (definedLabels lines).count ("var_" ++ v) = (if v ∈ globals then 1 else 0) ∧
      (definedLabels lines).count ("name_" ++ v) = if v ∈ globals then 1 else 0) ∧
    ∀ v, (⟨.directive, ".global", ["var_" ++ v]⟩ ∈ lines ↔
      ∃ l ∈ lines, l.kind = .instruction ∧ "var_" ++ v ++ "(%rip)" ∈ l.operands) := by
  have hnames := p.names_globals target
  refine ⟨hnames, ⟨_, p.lines_generate target, Program.data_not_mem⟩, fun v => ?_, fun v => ?_⟩
  · exact ⟨Program.count_data (.inl rfl), Program.count_data (.inr rfl)⟩
  · rw [Program.operand_mem_iff, Program.export_mem_iff, hnames, List.mem_eraseDups]

end FunCompiler
