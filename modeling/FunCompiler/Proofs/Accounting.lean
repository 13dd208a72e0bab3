import Mathlib.Algebra.BigOperators.Ring.List
import Mathlib.Algebra.Ring.Nat
import Mathlib.Data.List.Nodup
import Mathlib.Data.List.Perm.Basic
import FunCompiler.Program.Walk
import FunCompiler.Proofs.Emission

/-!
How many instructions of each sort a program has. Every node of a program has a
few instructions of its own (`Node.mnemonics`), and the code of a program has
the instructions of its nodes and no others, though in another order than a walk
meets the nodes. So the count of a mnemonic is a sum over the walk, with a
coefficient for each sort of node (`shares`).
-/

namespace FunCompiler

open Asm Code

/-! ### Tallies -/

namespace Asm

/-- Counting a name once more, in a tally that has each name once. -/
theorem Tally.count_map {names : List String} (hnodup : names.Nodup) (number : String → Nat)
    (name : String) :
    Tally.count (names.map fun s => (s, number s)) name =
      if name ∈ names then names.map fun s => (s, number s + if name = s then 1 else 0)
      else (names.map fun s => (s, number s)) ++ [(name, 1)] := by
  induction names with
  | nil => rfl
  | cons other names ih =>
      obtain ⟨hother, hnodup⟩ := List.nodup_cons.1 hnodup
      rw [List.map_cons, Tally.count]
      by_cases heq : other = name
      · subst heq
        have hrest : ∀ s ∈ names, (s, number s) = (s, number s + if other = s then 1 else 0) := by
          intro s hs
          rw [if_neg (by rintro rfl; exact hother hs), Nat.add_zero]
        simp [List.map_congr_left hrest]
      · rw [if_neg heq, ih hnodup]
        by_cases hmem : name ∈ names <;> simp [hmem, Ne.symm heq]

theorem nodup_eraseDups (names : List String) : names.eraseDups.Nodup := by
  induction hlength : names.length using Nat.strongRecOn generalizing names with
  | ind k ih =>
      cases names with
      | nil => exact List.nodup_nil
      | cons name names =>
          have hle := List.length_filter_le (!· == name) names
          rw [List.length_cons] at hlength
          rw [List.eraseDups_cons, List.nodup_cons, List.mem_eraseDups]
          exact ⟨by simp, ih _ (by omega) _ rfl⟩

/-- The names in the order of their first occurrence, each with its number of occurrences. -/
def Tally.ofNames (names : List String) : Tally := names.eraseDups.map fun s => (s, names.count s)

theorem Tally.count_ofNames (names : List String) (name : String) :
    (ofNames names).count name = ofNames (names ++ [name]) := by
  rw [ofNames, Tally.count_map (nodup_eraseDups names), ofNames, List.eraseDups_append]
  by_cases hmem : name ∈ names
  · simp [hmem, List.removeAll, List.count_append, List.count_singleton]
  · have hother : ∀ s ∈ names.eraseDups, (s, names.count s) = (s, (names ++ [name]).count s) := by
      intro s hs
      have hne : name ≠ s := fun h => hmem (h ▸ List.mem_eraseDups.1 hs)
      rw [List.count_append, List.count_singleton, if_neg (by simpa using hne), Nat.add_zero]
    simp [hmem, List.removeAll, List.map_congr_left hother, List.eraseDups_cons,
      List.count_eq_zero_of_not_mem hmem]

theorem Tally.foldl_count (names more : List String) :
    more.foldl Tally.count (ofNames names) = ofNames (names ++ more) := by
  induction more generalizing names with
  | nil => simp
  | cons name more ih =>
      rw [List.foldl_cons, Tally.count_ofNames, ih, List.append_assoc, List.singleton_append]

theorem tally_eq_ofNames (lines : List Line) :
    tally lines = Tally.ofNames ((lines.filter (·.kind = .instruction)).map (·.mnemonic)) :=
  Tally.foldl_count [] _

theorem Tally.mem_ofNames_iff {names : List String} {entry : String × Nat} :
    entry ∈ ofNames names ↔ entry.2 = names.count entry.1 ∧ entry.2 ≠ 0 := by
  obtain ⟨s, n⟩ := entry
  simp only [ofNames, List.mem_map, List.mem_eraseDups, Prod.mk.injEq]
  constructor
  · rintro ⟨_, hs, rfl, rfl⟩
    exact ⟨rfl, Nat.ne_of_gt (List.count_pos_iff.2 hs)⟩
  · rintro ⟨rfl, hne⟩
    exact ⟨s, List.count_pos_iff.1 (Nat.pos_of_ne_zero hne), rfl, rfl⟩

theorem nodup_tally (lines : List Line) : ((tally lines).map Prod.fst).Nodup := by
  rw [tally_eq_ofNames, Tally.ofNames, List.map_map]
  exact (List.map_id' _).symm ▸ nodup_eraseDups _

/-- A tally has the mnemonics that occur, each with the number of its instructions. -/
theorem mem_tally_iff {lines : List Line} {mnemonic : String} {count : Nat} :
    (mnemonic, count) ∈ tally lines ↔
      count = lines.countP (fun l => l.kind = .instruction ∧ l.mnemonic = mnemonic) ∧
        count ≠ 0 := by
  have hcount : ((lines.filter (·.kind = .instruction)).map (·.mnemonic)).count mnemonic =
      lines.countP (fun l => l.kind = .instruction ∧ l.mnemonic = mnemonic) := by
    rw [List.count, List.countP_map, List.countP_filter]
    refine List.countP_congr fun l _ => ?_
    simp [and_comm]
  rw [tally_eq_ofNames, Tally.mem_ofNames_iff, hcount]

def Item.mnemonic? : Item → Option String
  | .instr i => some i.mnemonic
  | _ => none

/-- The mnemonics of a piece of code, in order. -/
def mnemonics (items : List Item) : List String := items.filterMap Item.mnemonic?

@[simp] theorem mnemonics_nil : mnemonics [] = [] := rfl

@[simp] theorem mnemonics_instr (i : Instr) (items : List Item) :
    mnemonics (.instr i :: items) = i.mnemonic :: mnemonics items := rfl

@[simp] theorem mnemonics_label (symbol : Symbol) (items : List Item) :
    mnemonics (.label symbol :: items) = mnemonics items := rfl

@[simp] theorem mnemonics_directive (d : Directive) (items : List Item) :
    mnemonics (.directive d :: items) = mnemonics items := rfl

@[simp] theorem mnemonics_append (items more : List Item) :
    mnemonics (items ++ more) = mnemonics items ++ mnemonics more := List.filterMap_append

end Asm

theorem Listing.tally_lines (listing : Listing) :
    tally listing.lines = Tally.ofNames (mnemonics listing.items) := by
  have hnames : (listing.lines.filter (·.kind = .instruction)).map (·.mnemonic) =
      mnemonics listing.items := by
    unfold Listing.lines
    induction listing.items with
    | nil => rfl
    | cons item items ih => cases item <;> simpa [Item.line] using ih
  rw [tally_eq_ofNames, hnames]

/-! ### Instructions of nodes -/

def Operator.mnemonics : Operator → List String
  | .add => ["add"]
  | .mul => ["mul"]
  | .eq => ["cmp", "sete", "movzbq"]
  | .ne => ["cmp", "setne", "movzbq"]
  | .lt => ["cmp", "setb", "movzbq"]
  | .gt => ["cmp", "seta", "movzbq"]

/-- The mnemonics of the instructions that a node adds to those of the nodes below it. The
entry point counts as the program's own. -/
def Node.mnemonics : Node → List String
  | .program _ => ["push", "mov", "push", "sub", "call", "mov", "mov", "pop", "ret"]
  | .function _ => ["push", "mov", "mov", "pop", "mov", "ret"]
  | .stmt (.assign ..) => ["mov"]
  | .stmt (.print _) => ["mov", "and", "lea", "mov", "mov", "call", "mov"]
  | .stmt (.ifThen ..) => ["cmp", "je", "jmp"]
  | .stmt (.ifElse ..) => ["cmp", "je", "jmp"]
  | .stmt (.loop ..) => ["cmp", "je", "jmp"]
  | .stmt (.block _) => []
  | .stmt (.ret _) => ["mov", "pop", "ret"]
  | .expr (.var _) => ["mov"]
  | .expr (.lit _) => ["mov"]
  | .expr (.call _ []) => ["call"]
  | .expr (.call _ (_ :: more)) =>
    ["sub", "mov"] ++ List.replicate more.length "mov" ++ ["call", "add"]
  | .expr (.binary op _ _) => ["push", "pop"] ++ op.mnemonics

theorem mnemonics_operatorCode (op : Operator) :
    mnemonics (operatorCode op) = op.mnemonics := by
  cases op <;> rfl

section

variable (m : String) (target : Target) (formals : List String)

mutual

theorem Expr.count_mnemonics (t : Tables) (e : Expr) :
    (mnemonics (e.emit formals t).1).count m = (e.walk.flatMap Node.mnemonics).count m := by
  cases e with
  | var name => rfl
  | lit value => rfl
  | call callee actuals =>
      have hactuals := Expr.count_actualMnemonics t 0 actuals
      cases actuals with
      | nil => rfl
      | cons e es =>
          simp [Expr.emit_call, reserving, Expr.walk, Node.mnemonics, List.count_cons,
            Instr.mnemonic, hactuals, List.replicate_succ]
          omega
  | binary op left right =>
      simp [Expr.emit_binary, Expr.walk, Node.mnemonics, List.count_cons, Instr.mnemonic,
        mnemonics_operatorCode, Expr.count_mnemonics t left, Expr.count_mnemonics _ right]
      omega

theorem Expr.count_actualMnemonics (t : Tables) (index : Nat) (es : List Expr) :
    (mnemonics (Expr.emitActuals formals index es t).1).count m =
      ((Expr.walkAll es).flatMap Node.mnemonics).count m +
        (List.replicate es.length "mov").count m := by
  cases es with
  | nil => rfl
  | cons e es =>
      simp [Expr.emitActuals_cons, storeActual, Expr.walkAll, List.count_cons, Instr.mnemonic,
        List.replicate_succ, Expr.count_mnemonics t e, Expr.count_actualMnemonics _ (index + 1) es]
      omega

end

mutual

theorem Stmt.count_mnemonics (t : Tables) (s : Stmt) :
    (mnemonics (s.emit target formals t).1).count m = (s.walk.flatMap Node.mnemonics).count m := by
  cases s with
  | assign name value =>
      simp [Stmt.emit_assign, Stmt.walk, Node.mnemonics, List.count_cons, Instr.mnemonic,
        Expr.count_mnemonics]
  | print value =>
      simp [Stmt.emit_print, printCode, Stmt.walk, Node.mnemonics, List.count_cons, Instr.mnemonic,
        Expr.count_mnemonics]
      omega
  | ifThen cond yes =>
      simp [Stmt.emit_ifThen, jumpIfZero, Stmt.walk, Node.mnemonics, List.count_cons,
        Instr.mnemonic, Expr.count_mnemonics, Stmt.count_mnemonics _ yes]
      omega
  | ifElse cond yes no =>
      simp [Stmt.emit_ifElse, jumpIfZero, Stmt.walk, Node.mnemonics, List.count_cons,
        Instr.mnemonic, Expr.count_mnemonics, Stmt.count_mnemonics _ yes, Stmt.count_mnemonics _ no]
      omega
  | loop cond body =>
      simp [Stmt.emit_loop, jumpIfZero, Stmt.walk, Node.mnemonics, List.count_cons,
        Instr.mnemonic, Expr.count_mnemonics, Stmt.count_mnemonics _ body]
      omega
  | block body => exact Stmt.count_allMnemonics t body
  | ret value =>
      simp [Stmt.emit_ret, leaveFrame, Stmt.walk, Node.mnemonics, List.count_cons, Instr.mnemonic,
        Expr.count_mnemonics]
      omega

theorem Stmt.count_allMnemonics (t : Tables) (ss : List Stmt) :
    (mnemonics (Stmt.emitAll target formals ss t).1).count m =
      ((Stmt.walkAll ss).flatMap Node.mnemonics).count m := by
  cases ss with
  | nil => rfl
  | cons s ss =>
      simp [Stmt.emitAll_cons, Stmt.walkAll, Stmt.count_mnemonics t s, Stmt.count_allMnemonics _ ss]

end

theorem Function.count_mnemonics (t : Tables) (f : Function) :
    (mnemonics (f.emit target t).1).count m = (f.walk.flatMap Node.mnemonics).count m := by
  simp [Function.emit_eq, enterFrame, leaveFrame, Function.walk, Node.mnemonics, List.count_cons,
    Instr.mnemonic, Stmt.count_mnemonics]
  omega

theorem Function.count_allMnemonics (t : Tables) (fs : List Function) :
    (mnemonics (emitAll target fs t).1).count m =
      ((fs.flatMap walk).flatMap Node.mnemonics).count m := by
  induction fs generalizing t with
  | nil => rfl
  | cons f fs ih =>
      rw [emitAll_cons, mnemonics_append, List.count_append, f.count_mnemonics, ih,
        List.flatMap_cons, List.flatMap_append, List.count_append]

theorem mnemonics_data (g : Globals) : mnemonics g.data = [] := by
  have hcell (name : String) : (Globals.cell name).filterMap Item.mnemonic? = [] := rfl
  have hlabel (name : String) : (Globals.label name).filterMap Item.mnemonic? = [] := rfl
  simp [Globals.data, mnemonics, List.filterMap_flatMap, hcell, hlabel]

/-- The code of a program has the instructions of the nodes that a walk meets. -/
theorem Program.count_mnemonics (p : Program) :
    (mnemonics (p.generate target).items).count m = (p.walk.flatMap Node.mnemonics).count m := by
  have hentry : mnemonics entryCode = Node.mnemonics (.program p) := rfl
  simp [Program.generate_items, userCode, Function.count_allMnemonics, mnemonics_data, hentry,
    Program.walk, List.flatMap_cons]
  omega

end

/-! ### The account of a program -/

namespace Node

def operator? : Node → Option Operator
  | .expr (.binary op _ _) => some op
  | _ => none

def actuals : Node → List Expr
  | .expr (.call _ actuals) => actuals
  | _ => []

end Node

namespace Program

variable (p : Program)

/-- The number of nodes of a class. -/
def number (className : String) : Nat := p.walk.countP (·.className = className)

def operations (op : Operator) : Nat := p.walk.countP (·.operator? = some op)

def comparisons : Nat := p.operations .eq + p.operations .ne + p.operations .lt + p.operations .gt

/-- The number of calls that pass something. -/
def passingCalls : Nat := p.walk.countP (!·.actuals.isEmpty)

/-- The number of actuals of all calls together. -/
def actualCount : Nat := (p.walk.map (·.actuals.length)).sum

/-- The number of instructions with each mnemonic. -/
def account : Tally :=
  let functions := p.functions.length
  let constructs := p.number "If" + p.number "While"
  [("push", functions + 2 + p.number "BinaryOp"),
   ("pop", functions + 1 + p.number "Return" + p.number "BinaryOp"),
   ("ret", functions + 1 + p.number "Return"),
   ("call", 1 + p.number "Print" + p.number "Call"),
   ("sub", 1 + p.passingCalls),
   ("add", p.passingCalls + p.operations .add),
   ("mul", p.operations .mul),
   ("cmp", constructs + p.comparisons),
   ("je", constructs),
   ("jmp", constructs),
   ("and", p.number "Print"),
   ("lea", p.number "Print"),
   ("sete", p.operations .eq),
   ("setne", p.operations .ne),
   ("setb", p.operations .lt),
   ("seta", p.operations .gt),
   ("movzbq", p.comparisons),
   ("mov", 3 * functions + 3 + p.number "Assignment" + 4 * p.number "Print" + p.number "Return" +
     p.number "Variable" + p.number "IntLiteral" + p.actualCount)]

end Program

/-- What one node adds to the number of instructions with each mnemonic. -/
def shares : List (String × (Node → Nat)) :=
  let of (className : String) (node : Node) : Nat := (decide (node.className = className)).toNat
  let applies (op : Operator) (node : Node) : Nat := (decide (node.operator? = some op)).toNat
  let passes (node : Node) : Nat := (!node.actuals.isEmpty).toNat
  let construct (node : Node) : Nat := of "If" node + of "While" node
  let comparison (node : Node) : Nat :=
    applies .eq node + applies .ne node + applies .lt node + applies .gt node
  [("push", fun node => of "Function" node + 2 * of "Program" node + of "BinaryOp" node),
   ("pop", fun node =>
     of "Function" node + of "Program" node + of "Return" node + of "BinaryOp" node),
   ("ret", fun node => of "Function" node + of "Program" node + of "Return" node),
   ("call", fun node => of "Program" node + of "Print" node + of "Call" node),
   ("sub", fun node => of "Program" node + passes node),
   ("add", fun node => passes node + applies .add node),
   ("mul", applies .mul),
   ("cmp", fun node => construct node + comparison node),
   ("je", construct),
   ("jmp", construct),
   ("and", of "Print"),
   ("lea", of "Print"),
   ("sete", applies .eq),
   ("setne", applies .ne),
   ("setb", applies .lt),
   ("seta", applies .gt),
   ("movzbq", comparison),
   ("mov", fun node =>
     3 * of "Function" node + 3 * of "Program" node + of "Assignment" node + 4 * of "Print" node +
       of "Return" node + of "Variable" node + of "IntLiteral" node + node.actuals.length)]

theorem Node.map_shares (node : Node) :
    shares.map (fun entry => entry.2 node) =
      shares.map fun entry => node.mnemonics.count entry.1 := by
  cases node with
  | program p => rfl
  | function f => rfl
  | stmt s => cases s <;> rfl
  | expr e =>
      cases e with
      | call callee actuals =>
          cases actuals with
          | nil => rfl
          | cons e es =>
              simp [shares, Node.mnemonics, Node.className, Expr.className, Node.operator?,
                Node.actuals, List.count_replicate]
      | binary op left right => cases op <;> rfl
      | _ => rfl

theorem Node.mnemonics_subset (node : Node) : node.mnemonics ⊆ shares.map Prod.fst := by
  have hall : node.mnemonics.all ((shares.map Prod.fst).contains ·) = true := by
    cases node with
    | program p => rfl
    | function f => rfl
    | stmt s => cases s <;> rfl
    | expr e =>
        cases e with
        | call callee actuals => cases actuals <;> simp [Node.mnemonics, shares]
        | binary op left right => cases op <;> rfl
        | _ => rfl
  intro m hm
  exact List.contains_iff_mem.1 (List.all_eq_true.1 hall m hm)

theorem count_of_mem_shares {entry : String × (Node → Nat)} (h : entry ∈ shares)
    (nodes : List Node) :
    (nodes.flatMap Node.mnemonics).count entry.1 = (nodes.map entry.2).sum := by
  have hnode (node : Node) : node.mnemonics.count entry.1 = entry.2 node :=
    (List.map_inj_left.1 node.map_shares entry h).symm
  rw [List.count_flatMap]
  exact congrArg List.sum (List.map_congr_left fun node _ => hnode node)

/-! ### Functions in a walk -/

section

variable {q : Node → Bool}

mutual

theorem Expr.countP_walk (h : ∀ e, q (.expr e) = false) (e : Expr) : e.walk.countP q = 0 := by
  cases e with
  | call callee actuals => simp [Expr.walk, h, Expr.countP_walkAll h actuals]
  | binary op left right =>
      simp [Expr.walk, h, Expr.countP_walk h left, Expr.countP_walk h right]
  | _ => simp [Expr.walk, h]

theorem Expr.countP_walkAll (h : ∀ e, q (.expr e) = false) (es : List Expr) :
    (Expr.walkAll es).countP q = 0 := by
  cases es with
  | nil => rfl
  | cons e es => simp [Expr.walkAll, Expr.countP_walk h e, Expr.countP_walkAll h es]

end

mutual

theorem Stmt.countP_walk (h : ∀ s, q (.stmt s) = false) (h' : ∀ e, q (.expr e) = false)
    (s : Stmt) : s.walk.countP q = 0 := by
  cases s with
  | ifThen cond yes =>
      simp [Stmt.walk, h, Expr.countP_walk h', Stmt.countP_walk h h' yes]
  | ifElse cond yes no =>
      simp [Stmt.walk, h, Expr.countP_walk h', Stmt.countP_walk h h' yes, Stmt.countP_walk h h' no]
  | loop cond body =>
      simp [Stmt.walk, h, Expr.countP_walk h', Stmt.countP_walk h h' body]
  | block body => simp [Stmt.walk, h, Stmt.countP_walkAll h h' body]
  | _ => simp [Stmt.walk, h, Expr.countP_walk h']

theorem Stmt.countP_walkAll (h : ∀ s, q (.stmt s) = false) (h' : ∀ e, q (.expr e) = false)
    (ss : List Stmt) : (Stmt.walkAll ss).countP q = 0 := by
  cases ss with
  | nil => rfl
  | cons s ss => simp [Stmt.walkAll, Stmt.countP_walk h h' s, Stmt.countP_walkAll h h' ss]

end

/-- Programs and functions stand at the top of a walk only. -/
theorem Program.countP_walk (h : ∀ s, q (.stmt s) = false) (h' : ∀ e, q (.expr e) = false)
    (p : Program) :
    p.walk.countP q = p.functions.countP (fun f => q (.function f)) + (q (.program p)).toNat := by
  have hfunctions (fs : List Function) :
      (fs.flatMap Function.walk).countP q = fs.countP fun f => q (.function f) := by
    induction fs with
    | nil => rfl
    | cons f fs ih =>
        rw [List.flatMap_cons, List.countP_append, ih, Function.walk, List.countP_cons,
          Stmt.countP_walk h h', List.countP_cons]
        omega
  rw [Program.walk, List.countP_cons, hfunctions]
  cases q (.program p) <;> rfl

end

namespace Program

variable (p : Program)

theorem number_of_ne {className : String} (h : ∀ s : Stmt, s.className ≠ className)
    (h' : ∀ e : Expr, e.className ≠ className) :
    p.number className = p.functions.countP (fun _ => "Function" = className) +
      (decide ("Program" = className)).toNat :=
  p.countP_walk (fun s => decide_eq_false (h s)) (fun e => decide_eq_false (h' e))

theorem number_function : p.number "Function" = p.functions.length := by
  rw [p.number_of_ne (fun s => by cases s <;> simp [Stmt.className])
    (fun e => by cases e <;> simp [Expr.className])]
  simp

theorem number_program : p.number "Program" = 1 := by
  rw [p.number_of_ne (fun s => by cases s <;> simp [Stmt.className])
    (fun e => by cases e <;> simp [Expr.className])]
  simp

theorem account_eq :
    p.account = shares.map fun entry => (entry.1, (p.walk.map entry.2).sum) := by
  have hsum (q : Node → Bool) : (p.walk.map fun node => (q node).toNat).sum = p.walk.countP q := by
    induction p.walk with
    | nil => rfl
    | cons node nodes ih => cases h : q node <;> simp [h, ih, Nat.add_comm]
  have hscale (k : Nat) (q : Node → Bool) :
      (p.walk.map fun node => k * (q node).toNat).sum = k * p.walk.countP q := by
    rw [List.sum_map_mul_left, hsum]
  have hnumber (className : String) :
      p.walk.countP (·.className = className) = p.number className := rfl
  simp only [shares, List.map_cons, List.map_nil, List.sum_map_add, hscale, hsum, hnumber,
    number_function, number_program]
  rfl

end Program

theorem Program.mem_account_iff {p : Program} {entry : String × Nat} :
    entry ∈ p.account ↔ entry.1 ∈ shares.map Prod.fst ∧
      entry.2 = (p.walk.flatMap Node.mnemonics).count entry.1 := by
  rw [account_eq, List.mem_map]
  constructor
  · rintro ⟨share, hshare, rfl⟩
    exact ⟨List.mem_map_of_mem hshare, (count_of_mem_shares hshare p.walk).symm⟩
  · rintro ⟨hname, hnumber⟩
    obtain ⟨share, hshare, hfst⟩ := List.mem_map.1 hname
    refine ⟨share, hshare, Prod.ext hfst ?_⟩
    rw [hnumber, ← hfst, count_of_mem_shares hshare]

/-- The tally of the code of a program is its account, without the mnemonics that do not
occur. What the code counts is thus known from the nodes of the program alone. -/
theorem tally_perm_account (target : Target) (p : Program) :
    (tally (p.generate target).lines).Perm (p.account.filter (·.2 ≠ 0)) := by
  have hkeys : (p.account.map Prod.fst).Nodup :=
    (by decide : (shares.map Prod.fst).Nodup)
  have htally : (Tally.ofNames (mnemonics (p.generate target).items)).Nodup :=
    (nodup_eraseDups _).map fun _ _ h => congrArg Prod.fst h
  rw [Listing.tally_lines, List.perm_ext_iff_of_nodup htally (hkeys.of_map.filter _)]
  intro entry
  rw [Tally.mem_ofNames_iff, List.mem_filter, Program.mem_account_iff, Program.count_mnemonics]
  constructor
  · rintro ⟨hcount, hne⟩
    have hmem : entry.1 ∈ p.walk.flatMap Node.mnemonics :=
      List.count_pos_iff.1 (by omega)
    obtain ⟨node, -, hnode⟩ := List.mem_flatMap.1 hmem
    exact ⟨⟨node.mnemonics_subset hnode, hcount⟩, decide_eq_true hne⟩
  · rintro ⟨⟨-, hcount⟩, hne⟩
    exact ⟨hcount, of_decide_eq_true hne⟩

end FunCompiler
