import FunCompiler.Program.Walk
import FunCompiler.Proofs.Labels
import FunCompiler.Proofs.Runs

/-!
The symbols that generated code mentions. In the lines of text they are what a
jump, a call or a `.global` names, and what is addressed relative to the
instruction pointer; in the code they stem from the constructs of the program
(`Cites`): every call mentions the function it calls and every `print` mentions
the C library, and whatever else is mentioned is defined in the same listing.
-/

namespace FunCompiler

open Asm Code

/-! ### Lines -/

namespace Asm

/-- An instruction of that mnemonic jumps or calls. -/
def transfersControl (mnemonic : String) : Bool :=
  mnemonic == "call" || mnemonic.toList.head? == some 'j'

/-- The line names the symbol: as the operand of a jump, a call or `.global`, or as what is
addressed relative to the instruction pointer. -/
def Line.Mentions (l : Line) (symbol : String) : Prop :=
  match l.kind with
  | .directive => l.mnemonic = ".global" ∧ symbol ∈ l.operands
  | .label => False
  | .instruction =>
    if transfersControl l.mnemonic then symbol ∈ l.operands
    else symbol ++ "(%rip)" ∈ l.operands

/-- The labels of the lines, in order. -/
def definedLabels (lines : List Line) : List String :=
  (lines.filter (·.kind = .label)).map (·.mnemonic)

def Operand.mentions : Operand → List Symbol
  | .cell symbol => [symbol]
  | _ => []

def Instr.mentions : Instr → List Symbol
  | .mov s d => s.mentions ++ d.mentions
  | .add s d => s.mentions ++ d.mentions
  | .sub s d => s.mentions ++ d.mentions
  | .and s d => s.mentions ++ d.mentions
  | .cmp r l => r.mentions ++ l.mentions
  | .lea s _ => [s]
  | .jmp l => [l]
  | .je l => [l]
  | .call f => [f]
  | _ => []

/-- The symbols that an item mentions. -/
def Item.mentions : Item → List Symbol
  | .directive (.global symbol) => [symbol]
  | .instr i => i.mentions
  | _ => []

theorem not_mem_toString {c : Char} (hdigit : c.isDigit = false) (hminus : c ≠ '-') (v : Int) :
    c ∉ (toString v).toList := by
  have hnat : ∀ n : Nat, c ∉ Nat.toDigits 10 n := by
    intro n hmem
    rw [isDigit_toDigits n c hmem] at hdigit
    cases hdigit
  rw [toList_toString]
  split <;> simp [hnat, hminus]

theorem Register.length_name (r : Register) : r.name.toList.length = 4 := by
  cases r <;> simp [Register.name]

theorem Operand.toList_text_immediate (v : Int) :
    (immediate v).text.toList = '$' :: (toString v).toList :=
  String.toList_append

theorem Operand.toList_text_stack (offset : Int) (base : Register) :
    (stack offset base).text.toList =
      (toString offset).toList ++ ("(" ++ base.name ++ ")").toList := by
  show (toString offset ++ "(" ++ base.name ++ ")").toList = _
  simp only [String.toList_append, List.append_assoc]

/-- No other operand is written like one that is addressed relative to the instruction
pointer. -/
theorem Operand.text_eq_iff {o : Operand} {name : String} :
    o.text = name ++ "(%rip)" ↔ ∃ symbol ∈ o.mentions, symbol.name = name := by
  have htoList : o.text = name ++ "(%rip)" ↔ o.text.toList = name.toList ++ "(%rip)".toList := by
    rw [← String.toList_append, String.toList_inj]
  rw [htoList]
  cases o with
  | immediate v =>
      refine ⟨fun h => ?_, nofun⟩
      have hmem : '(' ∈ '$' :: (toString v).toList := by
        rw [← toList_text_immediate, h]
        simp
      rcases List.mem_cons.1 hmem with hdollar | hmem
      · cases hdollar
      · exact absurd hmem (not_mem_toString rfl (by decide) v)
  | register r =>
      refine ⟨fun h => ?_, nofun⟩
      have hlength := congrArg List.length h
      simp [Operand.text, r.length_name] at hlength
  | stack offset base =>
      refine ⟨fun h => ?_, nofun⟩
      rw [toList_text_stack] at h
      have hlength : ("(" ++ base.name ++ ")").toList.length = "(%rip)".toList.length := by
        simp [base.length_name]
      have hbase := (List.append_inj' h hlength).2
      cases base <;> simp [Register.name] at hbase
  | cell symbol =>
      have htext : (cell symbol).text.toList = symbol.name.toList ++ "(%rip)".toList :=
        String.toList_append
      rw [htext, List.append_cancel_right_eq, String.toList_inj]
      simp [Operand.mentions]

theorem mentions_operands (operands : List Operand) (name : String) :
    name ++ "(%rip)" ∈ operands.map Operand.text ↔
      ∃ symbol ∈ operands.flatMap Operand.mentions, symbol.name = name := by
  simp only [List.mem_map, List.mem_flatMap, Operand.text_eq_iff]
  grind

theorem ne_relative_of_length {s : String} (h : s.toList.length < 6) (name : String) :
    name ++ "(%rip)" ≠ s := by
  rintro rfl
  have hlength : (name ++ "(%rip)").toList.length = name.toList.length + 6 := by simp
  omega

theorem ne_relative_register (r : Register) (name : String) : name ++ "(%rip)" ≠ r.name :=
  ne_relative_of_length (by rw [r.length_name]; decide) name

theorem Item.line_mentions_iff {item : Item} {name : String} :
    item.line.Mentions name ↔ ∃ symbol ∈ item.mentions, symbol.name = name := by
  cases item with
  | directive d =>
      cases d <;> simp [Item.line, Line.Mentions, Directive.mnemonic, Directive.operands,
        Item.mentions, eq_comm]
  | label symbol => simp [Item.line, Line.Mentions, Item.mentions]
  | instr i =>
      simp only [Item.line, Line.Mentions, Item.mentions]
      cases i with simp only [Instr.mnemonic, Instr.operands, Instr.mentions]
      | jmp l => simp [transfersControl, eq_comm]
      | je l => simp [transfersControl, eq_comm]
      | call f => simp [transfersControl, eq_comm]
      | mov s d => simpa [transfersControl] using mentions_operands [s, d] name
      | add s d => simpa [transfersControl] using mentions_operands [s, d] name
      | sub s d => simpa [transfersControl] using mentions_operands [s, d] name
      | and s d => simpa [transfersControl] using mentions_operands [s, d] name
      | cmp r l => simpa [transfersControl] using mentions_operands [r, l] name
      | lea symbol r =>
          have hcell := @Operand.text_eq_iff (.cell symbol) name
          simpa [transfersControl, ne_relative_register, Operand.mentions, eq_comm] using hcell
      | push r => simp [transfersControl, ne_relative_register]
      | pop r => simp [transfersControl, ne_relative_register]
      | mul r => simp [transfersControl, ne_relative_register]
      | set c =>
          have hbyte := ne_relative_of_length (by decide : "%al".toList.length < 6) name
          cases c <;> simp [transfersControl, Condition.suffix, hbyte]
      | widen =>
          have hbyte := ne_relative_of_length (by decide : "%al".toList.length < 6) name
          have hword := ne_relative_of_length (by decide : "%rax".toList.length < 6) name
          simp [transfersControl, hbyte, hword]
      | ret => simp [transfersControl]

/-- The symbols that a piece of code mentions, in order. -/
def mentions (items : List Item) : List Symbol := items.flatMap Item.mentions

@[simp] theorem mentions_nil : mentions [] = [] := rfl

@[simp] theorem mentions_cons (item : Item) (items : List Item) :
    mentions (item :: items) = item.mentions ++ mentions items := List.flatMap_cons

@[simp] theorem mentions_append (items more : List Item) :
    mentions (items ++ more) = mentions items ++ mentions more := List.flatMap_append

end Asm

theorem Listing.exists_mentions_iff {listing : Listing} {name : String} :
    (∃ l ∈ listing.lines, l.Mentions name) ↔
      ∃ symbol ∈ mentions listing.items, symbol.name = name := by
  simp only [Listing.lines, List.mem_map, mentions, List.mem_flatMap]
  constructor
  · rintro ⟨_, ⟨item, hitem, rfl⟩, hmentions⟩
    obtain ⟨symbol, hsymbol, hname⟩ := Item.line_mentions_iff.1 hmentions
    exact ⟨symbol, ⟨item, hitem, hsymbol⟩, hname⟩
  · rintro ⟨symbol, ⟨item, hitem, hsymbol⟩, hname⟩
    exact ⟨item.line, ⟨item, hitem, rfl⟩, Item.line_mentions_iff.2 ⟨symbol, hsymbol, hname⟩⟩

theorem Listing.definedLabels_lines (listing : Listing) :
    definedLabels listing.lines = (labels listing.items).map Symbol.name := by
  unfold Listing.lines
  induction listing.items with
  | nil => rfl
  | cons item items ih =>
      cases item <;> simpa [definedLabels, Item.line] using ih

/-! ### Code -/

/-- The symbols that a node needs from outside its own code: a call the function, and a
`print` the C library. -/
def Node.needs (target : Target) : Node → List Symbol
  | .expr (.call callee _) => [.function callee]
  | .stmt (.print _) => [.printf target]
  | _ => []

/-- Where a symbol comes from that code mentions: a node that needs it, a cell that is in the
tables, the format of `print`, or a label of the code itself. -/
inductive Cites (target : Target) (nodes : List Node) (cells : List String)
    (labels : List Symbol) : Symbol → Prop
  | node {n : Node} {symbol : Symbol} (visited : n ∈ nodes) (needed : symbol ∈ n.needs target) :
      Cites target nodes cells labels symbol
  | cell {v : String} (known : v ∈ cells) : Cites target nodes cells labels (.cell v)
  | format : Cites target nodes cells labels .format
  | label {symbol : Symbol} (own : symbol ∈ labels) : Cites target nodes cells labels symbol

section

variable {target : Target} {nodes nodes' : List Node} {cells cells' : List String}
  {labels labels' symbols : List Symbol}

theorem Cites.mono (h : ∀ symbol ∈ symbols, Cites target nodes cells labels symbol)
    (hnodes : nodes ⊆ nodes') (hcells : cells ⊆ cells') (hlabels : labels ⊆ labels') :
    ∀ symbol ∈ symbols, Cites target nodes' cells' labels' symbol := by
  intro symbol hsymbol
  cases h symbol hsymbol with
  | node visited needed => exact .node (hnodes visited) needed
  | cell known => exact .cell (hcells known)
  | format => exact .format
  | label own => exact .label (hlabels own)

theorem cites_locate (formals : List String) (t : Tables) (name : String) :
    ∀ symbol ∈ (locate formals name t).1.mentions,
      Cites target nodes (locate formals name t).2.globals.names labels symbol := by
  obtain ⟨i, -, heq⟩ | ⟨-, heq⟩ := locate_cases formals t name
  · rw [heq]
    nofun
  · rw [heq]
    exact List.forall_mem_singleton.2 (.cell (Globals.mem_register ..))

end

theorem mentions_reserving (n : Nat) (code : List Item) :
    mentions (reserving n code) = mentions code := by
  unfold reserving
  split
  · rfl
  · simp [Item.mentions, Instr.mentions, Operand.mentions]

theorem mentions_operatorCode (op : Operator) : mentions (operatorCode op) = [] := by
  cases op <;> rfl

theorem mentions_jumpIfZero (label : Symbol) : mentions (jumpIfZero label) = [label] := rfl

theorem mentions_enterFrame : mentions enterFrame = [] := rfl

theorem mentions_leaveFrame : mentions leaveFrame = [] := rfl

mutual

theorem Expr.cites (target : Target) (formals : List String) (t : Tables) (e : Expr) :
    ∀ symbol ∈ mentions (e.emit formals t).1,
      Cites target e.walk (e.emit formals t).2.globals.names [] symbol := by
  cases e with
  | var name =>
      simp only [Expr.emit_var, mentions_cons, Item.mentions, Instr.mentions, Operand.mentions,
        mentions_nil, List.append_nil]
      exact cites_locate formals t name
  | lit value => nofun
  | call callee actuals =>
      simp only [Expr.emit_call, mentions_reserving, mentions_append, List.forall_mem_append]
      refine ⟨?_, fun symbol hsymbol => .node (List.mem_cons_self ..) hsymbol⟩
      exact Cites.mono (Expr.cites_actuals target formals t 0 actuals)
        (List.subset_cons_self ..) (List.Subset.refl _) (List.Subset.refl _)
  | binary op left right =>
      have hgrow := (Expr.grows_emit formals (left.emit formals t).2 right).globals
      simp only [Expr.emit_binary, mentions_append, mentions_cons, mentions_operatorCode,
        Item.mentions, Instr.mentions, List.nil_append, List.append_nil, List.forall_mem_append]
      refine ⟨?_, ?_⟩
      · exact Cites.mono (Expr.cites target formals t left) (by simp [Expr.walk]) hgrow
          (List.Subset.refl _)
      · exact Cites.mono (Expr.cites target formals _ right) (by simp [Expr.walk])
          (List.Subset.refl _) (List.Subset.refl _)

theorem Expr.cites_actuals (target : Target) (formals : List String) (t : Tables) (index : Nat)
    (es : List Expr) :
    ∀ symbol ∈ mentions (Expr.emitActuals formals index es t).1,
      Cites target (Expr.walkAll es) (Expr.emitActuals formals index es t).2.globals.names []
        symbol := by
  cases es with
  | nil => nofun
  | cons e es =>
      have hgrow := (Expr.grows_emitActuals formals (e.emit formals t).2 (index + 1) es).globals
      simp only [Expr.emitActuals_cons, mentions_append, mentions_cons, storeActual,
        Item.mentions, Instr.mentions, Operand.mentions, List.nil_append, List.append_nil,
        List.forall_mem_append]
      refine ⟨?_, ?_⟩
      · exact Cites.mono (Expr.cites target formals t e) (by simp [Expr.walkAll]) hgrow
          (List.Subset.refl _)
      · exact Cites.mono (Expr.cites_actuals target formals _ (index + 1) es)
          (by simp [Expr.walkAll]) (List.Subset.refl _) (List.Subset.refl _)

end

mutual

theorem Stmt.cites (target : Target) (formals : List String) (t : Tables) (s : Stmt) :
    ∀ symbol ∈ mentions (s.emit target formals t).1,
      Cites target s.walk (s.emit target formals t).2.globals.names
        (labels (s.emit target formals t).1) symbol := by
  cases s with
  | assign name value =>
      have hgrow := (grows_locate formals (value.emit formals t).2 name).globals
      simp only [Stmt.emit_assign, mentions_append, mentions_cons, mentions_nil, Item.mentions,
        Instr.mentions, Operand.mentions, List.nil_append, List.append_nil, List.forall_mem_append]
      refine ⟨?_, cites_locate formals _ name⟩
      exact Cites.mono (Expr.cites target formals t value) (by simp [Stmt.walk]) hgrow (by simp)
  | print value =>
      simp only [Stmt.emit_print, mentions_append, List.forall_mem_append]
      refine ⟨?_, ?_⟩
      · exact Cites.mono (Expr.cites target formals t value) (by simp [Stmt.walk])
          (List.Subset.refl _) (by simp)
      · have hprint : mentions (printCode target) = [.format, .printf target] := rfl
        rw [hprint, List.forall_mem_cons, List.forall_mem_singleton]
        exact ⟨.format, .node (List.mem_cons_self ..) (List.mem_singleton_self _)⟩
  | ret value =>
      simp only [Stmt.emit_ret, mentions_append, mentions_leaveFrame, mentions_cons, Item.mentions,
        Instr.mentions, mentions_nil, List.append_nil]
      exact Cites.mono (Expr.cites target formals t value) (by simp [Stmt.walk])
        (List.Subset.refl _) (by simp)
  | block body =>
      exact Cites.mono (Stmt.cites_all target formals t body) (by simp [Stmt.walk])
        (List.Subset.refl _) (List.Subset.refl _)
  | ifThen cond yes =>
      have hyes := Stmt.cites target formals (freshLabel (cond.emit formals t).2).2 yes
      have hgrow :=
        (Stmt.grows_emit target formals (freshLabel (cond.emit formals t).2).2 yes).globals
      simp only [Stmt.emit_ifThen, mentions_append, mentions_jumpIfZero, mentions_cons,
        mentions_nil, Item.mentions, Instr.mentions, List.nil_append, List.append_nil,
        List.forall_mem_append, List.forall_mem_singleton]
      refine ⟨⟨⟨?_, .label (by simp)⟩, ?_⟩, .label (by simp)⟩
      · exact Cites.mono (Expr.cites target formals t cond) (by simp [Stmt.walk]) hgrow (by simp)
      · exact Cites.mono hyes (by simp [Stmt.walk]) (List.Subset.refl _) fun _ h => by simp [h]
  | ifElse cond yes no =>
      have hyes := Stmt.cites target formals (freshLabel (cond.emit formals t).2).2 yes
      have hgrow :=
        (Stmt.grows_emit target formals (freshLabel (cond.emit formals t).2).2 yes).globals
      have hno := Stmt.cites target formals
        (yes.emit target formals (freshLabel (cond.emit formals t).2).2).2 no
      have hgrow' := (Stmt.grows_emit target formals
        (yes.emit target formals (freshLabel (cond.emit formals t).2).2).2 no).globals
      simp only [Stmt.emit_ifElse, mentions_append, mentions_jumpIfZero, mentions_cons,
        mentions_nil, Item.mentions, Instr.mentions, List.nil_append, List.append_nil,
        List.forall_mem_append, List.forall_mem_singleton]
      refine ⟨⟨⟨⟨?_, .label (by simp)⟩, ?_⟩, .label (by simp)⟩, ?_⟩
      · exact Cites.mono (Expr.cites target formals t cond) (by simp [Stmt.walk])
          (List.Subset.trans hgrow hgrow') (by simp)
      · exact Cites.mono hyes (fun _ h => by simp [Stmt.walk, h]) hgrow' fun _ h => by simp [h]
      · exact Cites.mono hno (fun _ h => by simp [Stmt.walk, h]) (List.Subset.refl _)
          fun _ h => by simp [h]
  | loop cond body =>
      have hcond := Expr.cites target formals (freshLabel t).2 cond
      have hbody := Stmt.cites target formals (cond.emit formals (freshLabel t).2).2 body
      have hgrow :=
        (Stmt.grows_emit target formals (cond.emit formals (freshLabel t).2).2 body).globals
      simp only [Stmt.emit_loop, mentions_append, mentions_jumpIfZero, mentions_cons, mentions_nil,
        Item.mentions, Instr.mentions, List.nil_append, List.append_nil, List.forall_mem_append,
        List.forall_mem_singleton]
      refine ⟨⟨⟨?_, .label (by simp)⟩, ?_⟩, .label (by simp)⟩
      · exact Cites.mono hcond (by simp [Stmt.walk]) hgrow (by simp)
      · exact Cites.mono hbody (by simp [Stmt.walk]) (List.Subset.refl _) fun _ h => by simp [h]

theorem Stmt.cites_all (target : Target) (formals : List String) (t : Tables) (ss : List Stmt) :
    ∀ symbol ∈ mentions (Stmt.emitAll target formals ss t).1,
      Cites target (Stmt.walkAll ss) (Stmt.emitAll target formals ss t).2.globals.names
        (labels (Stmt.emitAll target formals ss t).1) symbol := by
  cases ss with
  | nil => nofun
  | cons s ss =>
      have hgrow := (Stmt.grows_emitAll target formals (s.emit target formals t).2 ss).globals
      simp only [Stmt.emitAll_cons, mentions_append, List.forall_mem_append]
      refine ⟨?_, ?_⟩
      · exact Cites.mono (Stmt.cites target formals t s) (by simp [Stmt.walkAll]) hgrow (by simp)
      · exact Cites.mono (Stmt.cites_all target formals _ ss) (by simp [Stmt.walkAll])
          (List.Subset.refl _) (by simp)

end

/-! ### What is needed is mentioned -/

mutual

theorem Expr.needs_subset (target : Target) (formals : List String) (t : Tables) (e : Expr) :
    e.walk.flatMap (Node.needs target) ⊆ mentions (e.emit formals t).1 := by
  cases e with
  | var name => simp [Expr.walk, Node.needs]
  | lit value => simp [Expr.walk, Node.needs]
  | call callee actuals =>
      have hactuals := Expr.needs_subset_actuals target formals t 0 actuals
      simp only [Expr.walk, Expr.emit_call, mentions_reserving, mentions_append,
        List.flatMap_cons, Node.needs]
      grind [Item.mentions, Instr.mentions, mentions_cons]
  | binary op left right =>
      have hleft := Expr.needs_subset target formals t left
      have hright := Expr.needs_subset target formals (left.emit formals t).2 right
      simp only [Expr.walk, Expr.emit_binary, mentions_append, mentions_cons, List.flatMap_append,
        List.flatMap_cons, Node.needs, List.nil_append]
      grind

theorem Expr.needs_subset_actuals (target : Target) (formals : List String) (t : Tables)
    (index : Nat) (es : List Expr) :
    (Expr.walkAll es).flatMap (Node.needs target) ⊆
      mentions (Expr.emitActuals formals index es t).1 := by
  cases es with
  | nil => simp [Expr.walkAll]
  | cons e es =>
      have hfirst := Expr.needs_subset target formals t e
      have hrest := Expr.needs_subset_actuals target formals (e.emit formals t).2 (index + 1) es
      simp only [Expr.walkAll, Expr.emitActuals_cons, mentions_append, mentions_cons,
        List.flatMap_append]
      grind

end

mutual

theorem Stmt.needs_subset (target : Target) (formals : List String) (t : Tables) (s : Stmt) :
    s.walk.flatMap (Node.needs target) ⊆ mentions (s.emit target formals t).1 := by
  cases s with
  | assign name value =>
      have hvalue := Expr.needs_subset target formals t value
      simp only [Stmt.walk, Stmt.emit_assign, mentions_append, List.flatMap_cons, Node.needs]
      grind
  | print value =>
      have hvalue := Expr.needs_subset target formals t value
      have hprint : mentions (printCode target) = [.format, .printf target] := rfl
      simp only [Stmt.walk, Stmt.emit_print, mentions_append, hprint, List.flatMap_cons, Node.needs]
      grind
  | ret value =>
      have hvalue := Expr.needs_subset target formals t value
      simp only [Stmt.walk, Stmt.emit_ret, mentions_append, List.flatMap_cons, Node.needs]
      grind
  | block body =>
      rw [Stmt.walk, Stmt.emit_block, List.flatMap_cons, Node.needs, List.nil_append]
      · exact Stmt.needs_subset_all target formals t body
      all_goals nofun
  | ifThen cond yes =>
      have hcond := Expr.needs_subset target formals t cond
      have hyes := Stmt.needs_subset target formals (freshLabel (cond.emit formals t).2).2 yes
      simp only [Stmt.walk, Stmt.emit_ifThen, mentions_append, mentions_cons, List.flatMap_append,
        List.flatMap_cons, Node.needs]
      grind
  | ifElse cond yes no =>
      have hcond := Expr.needs_subset target formals t cond
      have hyes := Stmt.needs_subset target formals (freshLabel (cond.emit formals t).2).2 yes
      have hno := Stmt.needs_subset target formals
        (yes.emit target formals (freshLabel (cond.emit formals t).2).2).2 no
      simp only [Stmt.walk, Stmt.emit_ifElse, mentions_append, mentions_cons, List.flatMap_append,
        List.flatMap_cons, Node.needs]
      grind
  | loop cond body =>
      have hcond := Expr.needs_subset target formals (freshLabel t).2 cond
      have hbody := Stmt.needs_subset target formals (cond.emit formals (freshLabel t).2).2 body
      simp only [Stmt.walk, Stmt.emit_loop, mentions_append, mentions_cons, List.flatMap_append,
        List.flatMap_cons, Node.needs]
      grind

theorem Stmt.needs_subset_all (target : Target) (formals : List String) (t : Tables)
    (ss : List Stmt) :
    (Stmt.walkAll ss).flatMap (Node.needs target) ⊆
      mentions (Stmt.emitAll target formals ss t).1 := by
  cases ss with
  | nil => simp [Stmt.walkAll]
  | cons s ss =>
      have hfirst := Stmt.needs_subset target formals t s
      have hrest := Stmt.needs_subset_all target formals (s.emit target formals t).2 ss
      simp only [Stmt.walkAll, Stmt.emitAll_cons, mentions_append, List.flatMap_append]
      grind

end

/-! ### Functions -/

namespace Function

theorem mentions_emit (target : Target) (t : Tables) (f : Function) :
    mentions (f.emit target t).1 =
      .function f.name :: .functionAlias f.name :: mentions (f.body.emit target f.formals t).1 := by
  simp [emit_eq, mentions_enterFrame, mentions_leaveFrame, Item.mentions, Instr.mentions,
    Operand.mentions]

theorem cites (target : Target) (t : Tables) (f : Function) :
    ∀ symbol ∈ mentions (f.emit target t).1,
      Cites target f.walk (f.emit target t).2.globals.names (labels (f.emit target t).1)
        symbol := by
  simp only [mentions_emit, List.forall_mem_cons]
  refine ⟨.label (by simp [labels_code]), .label (by simp [labels_code]), ?_⟩
  exact Cites.mono (Stmt.cites target f.formals t f.body) (by simp [Function.walk])
    (List.Subset.refl _) fun _ h => by simp [labels_code, h]

theorem cites_all (target : Target) (t : Tables) (fs : List Function) :
    ∀ symbol ∈ mentions (emitAll target fs t).1,
      Cites target (fs.flatMap walk) (emitAll target fs t).2.globals.names
        (labels (emitAll target fs t).1) symbol := by
  induction fs generalizing t with
  | nil => nofun
  | cons f fs ih =>
      have hgrow := (grows_emitAll target (f.emit target t).2 fs).globals
      simp only [emitAll_cons, mentions_append, List.forall_mem_append]
      refine ⟨?_, ?_⟩
      · exact Cites.mono (f.cites target t) (by simp) hgrow (by simp)
      · exact Cites.mono (ih _) (by simp) (List.Subset.refl _) (by simp)

theorem needs_subset_all (target : Target) (t : Tables) (fs : List Function) :
    (fs.flatMap walk).flatMap (Node.needs target) ⊆ mentions (emitAll target fs t).1 := by
  induction fs generalizing t with
  | nil => simp
  | cons f fs ih =>
      have hbody := Stmt.needs_subset target f.formals t f.body
      have hrest := ih (f.emit target t).2
      simp only [emitAll_cons, mentions_append, mentions_emit, List.flatMap_append, Function.walk,
        List.flatMap_cons, Node.needs]
      grind

end Function

end FunCompiler
