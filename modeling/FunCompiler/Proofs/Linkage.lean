import Mathlib.Data.List.Count
import FunCompiler.Program.Check
import FunCompiler.Proofs.Mentions

/-!
The checks of a program and the symbols of its listing. A listing leaves a symbol
undefined exactly where the checks report a function that is called and not
defined, or no entry function; the only other symbol that is left to the linker
is the C library's, if the program prints. It defines a label twice exactly where
the checks report a duplicate definition.

Both sides are brought to the names of the functions: the checks by what they
collect, and the listing by counting its labels.
-/

namespace FunCompiler

open Asm Code

/-! ### Reported problems -/

/-- The checks report the problem, in some function or of the whole program. -/
def Program.Reports (p : Program) (problem : Problem) : Prop :=
  ∃ d ∈ p.diagnostics, d.problem = problem

theorem of_mem_duplicates {earlier : List String} {fs : List Function} {d : Diagnostic}
    (h : d ∈ duplicates earlier fs) : ∃ g, d.problem = .duplicate g := by
  induction fs generalizing earlier with
  | nil => cases h
  | cons f fs ih =>
      unfold duplicates at h
      split at h
      · rcases List.mem_cons.1 h with rfl | h
        · exact ⟨f.name, rfl⟩
        · exact ih h
      · exact ih h

theorem mem_duplicates_iff {earlier : List String} {fs : List Function} {g : String} :
    (∃ d ∈ duplicates earlier fs, d.problem = .duplicate g) ↔
      g ∈ fs.map (·.name) ∧ (g ∈ earlier ∨ 2 ≤ (fs.map (·.name)).count g) := by
  induction fs generalizing earlier with
  | nil => simp [duplicates]
  | cons f fs ih =>
      unfold duplicates
      by_cases hg : f.name = g
      · subst hg
        have hcount : 0 < (fs.map (·.name)).count f.name ↔ f.name ∈ fs.map (·.name) :=
          List.count_pos_iff
        split
        · rename_i hearlier
          simp [hearlier]
        · rename_i hnew
          rw [ih, List.map_cons, List.count_cons_self]
          simp only [List.mem_cons, true_or, and_true, true_and, hnew, false_or, ← hcount]
          omega
      · split
        · simp [hg, ih, Ne.symm hg]
        · simp [ih, hg, Ne.symm hg]

namespace Program

variable {p : Program} {g : String}

theorem find?_eq_none_iff : p.find? g = none ↔ g ∉ p.functions.map (·.name) := by
  simp [Program.find?]

theorem callProblem?_cases {node : Node} {problem : Problem}
    (h : p.callProblem? node = some problem) :
    ∃ callee actuals, node = .expr (.call callee actuals) ∧
      ((p.find? callee = none ∧ problem = .undefined callee) ∨
        ∃ formals, problem = .arity callee formals actuals.length) := by
  unfold callProblem? at h
  split at h
  · rename_i callee actuals
    refine ⟨callee, actuals, rfl, ?_⟩
    split at h
    · rename_i hfind
      exact .inl ⟨hfind, (Option.some.inj h).symm⟩
    · split at h
      · cases h
      · exact .inr ⟨_, (Option.some.inj h).symm⟩
  · cases h

theorem mem_diagnostics_iff {d : Diagnostic} :
    d ∈ p.diagnostics ↔ d ∈ duplicates [] p.functions ∨
      (p.find? entryName = none ∧ d = ⟨.noEntry, none⟩) ∨
      ∃ f ∈ p.functions, ∃ node ∈ f.body.walk, ∃ problem,
        p.callProblem? node = some problem ∧ d = ⟨problem, some f.name⟩ := by
  simp only [diagnostics, functionDiagnostics, List.mem_append, List.mem_flatMap, List.mem_map,
    List.mem_filterMap, or_assoc]
  refine or_congr Iff.rfl (or_congr ?_ ?_)
  · cases p.find? entryName <;> simp
  · grind

theorem reports_duplicate_iff :
    p.Reports (.duplicate g) ↔ 2 ≤ (p.functions.map (·.name)).count g := by
  have hsome : (∃ d ∈ duplicates [] p.functions, d.problem = .duplicate g) ↔
      2 ≤ (p.functions.map (·.name)).count g := by
    rw [mem_duplicates_iff, ← List.count_pos_iff]
    simp only [List.not_mem_nil, false_or]
    omega
  rw [← hsome]
  refine ⟨?_, fun ⟨d, hd, hproblem⟩ => ⟨d, mem_diagnostics_iff.2 (.inl hd), hproblem⟩⟩
  rintro ⟨d, hd, hproblem⟩
  rcases mem_diagnostics_iff.1 hd with hd | ⟨-, rfl⟩ | ⟨f, -, node, -, problem, hcall, rfl⟩
  · exact ⟨d, hd, hproblem⟩
  · cases hproblem
  · obtain ⟨callee, actuals, -, ⟨-, rfl⟩ | ⟨formals, rfl⟩⟩ := callProblem?_cases hcall <;>
      cases hproblem

theorem reports_noEntry_iff : p.Reports .noEntry ↔ entryName ∉ p.functions.map (·.name) := by
  rw [← find?_eq_none_iff]
  refine ⟨?_, fun h => ⟨_, mem_diagnostics_iff.2 (.inr (.inl ⟨h, rfl⟩)), rfl⟩⟩
  rintro ⟨d, hd, hproblem⟩
  rcases mem_diagnostics_iff.1 hd with hd | ⟨hfind, -⟩ | ⟨f, -, node, -, problem, hcall, rfl⟩
  · obtain ⟨g, hduplicate⟩ := of_mem_duplicates hd
    rw [hduplicate] at hproblem
    cases hproblem
  · exact hfind
  · obtain ⟨callee, actuals, -, ⟨-, rfl⟩ | ⟨formals, rfl⟩⟩ := callProblem?_cases hcall <;>
      cases hproblem

theorem mem_walk_expr {e : Expr} :
    .expr e ∈ p.walk ↔ ∃ f ∈ p.functions, .expr e ∈ f.body.walk := by
  simp [Program.walk, Function.walk]

/-- A call to an undefined function is reported wherever it stands. -/
theorem reports_undefined_iff :
    p.Reports (.undefined g) ↔
      g ∉ p.functions.map (·.name) ∧ ∃ actuals, .expr (.call g actuals) ∈ p.walk := by
  rw [← find?_eq_none_iff]
  constructor
  · rintro ⟨d, hd, hproblem⟩
    rcases mem_diagnostics_iff.1 hd with hd | ⟨-, rfl⟩ | ⟨f, hf, node, hnode, problem, hcall, rfl⟩
    · obtain ⟨g, hduplicate⟩ := of_mem_duplicates hd
      rw [hduplicate] at hproblem
      cases hproblem
    · cases hproblem
    · obtain ⟨callee, actuals, rfl, ⟨hfind, rfl⟩ | ⟨formals, rfl⟩⟩ := callProblem?_cases hcall
      · cases hproblem
        exact ⟨hfind, actuals, mem_walk_expr.2 ⟨f, hf, hnode⟩⟩
      · cases hproblem
  · rintro ⟨hfind, actuals, hnode⟩
    obtain ⟨f, hf, hnode⟩ := mem_walk_expr.1 hnode
    have hcall : p.callProblem? (.expr (.call g actuals)) = some (.undefined g) := by
      simp [callProblem?, hfind]
    exact ⟨_, mem_diagnostics_iff.2 (.inr (.inr ⟨f, hf, _, hnode, _, hcall, rfl⟩)), rfl⟩

end Program

/-! ### The symbols of a listing -/

theorem mentions_data (g : Globals) : mentions g.data = g.names.map .cell := by
  have hcells : mentions (g.names.flatMap Globals.cell) =
      g.names.flatMap fun name => [.cell name] := List.flatMap_assoc
  have hnames : mentions (g.names.flatMap Globals.label) = g.names.flatMap fun _ => [] :=
    List.flatMap_assoc
  have hnil : (g.names.flatMap fun _ => ([] : List Symbol)) = [] := by
    simp [List.flatMap_eq_nil_iff]
  rw [Globals.data, mentions_append, hcells, hnames, hnil, List.append_nil, List.map_eq_flatMap]

theorem labels_data (g : Globals) :
    labels g.data = g.names.map .cell ++ g.names.map .cellName := by
  have hcells : labels (g.names.flatMap Globals.cell) =
      g.names.flatMap fun name => [.cell name] := List.filterMap_flatMap
  have hnames : labels (g.names.flatMap Globals.label) =
      g.names.flatMap fun name => [.cellName name] := List.filterMap_flatMap
  rw [Globals.data, labels_append, hcells, hnames, List.map_eq_flatMap, List.map_eq_flatMap]

namespace Program

variable (target : Target) (p : Program)

theorem mentions_generate :
    mentions (p.generate target).items =
      mentions (Function.emitAll target p.functions {}).1 ++
        ([.entry, .entryAlias, .function entryName] ++ (p.globals target).names.map .cell) := by
  rw [generate_items, mentions_append, mentions_append, mentions_append, mentions_data]
  rfl

theorem labels_generate :
    labels (p.generate target).items =
      labels (Function.emitAll target p.functions {}).1 ++
        ([.entry, .entryAlias, .format] ++
          ((p.globals target).names.map .cell ++ (p.globals target).names.map .cellName)) := by
  rw [generate_items, labels_append, labels_append, labels_append, labels_data]
  rfl

end Program

theorem OwnLabels.count_eq_zero {first last : Nat} {symbols : List Symbol}
    (h : OwnLabels first last symbols) (symbol : Symbol)
    (hsymbol : ∀ id part, symbol ≠ .control id part) : symbols.count symbol = 0 := by
  refine List.count_eq_zero.2 fun hmem => ?_
  obtain ⟨id, part, heq, -⟩ := h.range symbol hmem
  exact hsymbol id part heq

namespace Function

variable (target : Target)

/-- The two labels of a function are defined as often as the function. -/
theorem count_name {symbol : Symbol} {g : String}
    (hsymbol : symbol = .function g ∨ symbol = .functionAlias g) (t : Tables)
    (fs : List Function) :
    (labels (emitAll target fs t).1).count symbol = (fs.map (·.name)).count g := by
  induction fs generalizing t with
  | nil => rfl
  | cons f fs ih =>
      have hbody : (labels (f.body.emit target f.formals t).1).count symbol = 0 := by
        refine (Stmt.ownLabels target f.formals t f.body).count_eq_zero symbol fun id part => ?_
        rcases hsymbol with rfl | rfl <;> nofun
      have hrest := ih (f.emit target t).2
      rcases hsymbol with rfl | rfl <;>
        simp [emitAll_cons, labels_code, List.count_cons, hbody, hrest, Nat.add_comm]

/-- Numbers are issued once, so the labels of two constructs never meet. -/
theorem count_control_le (t : Tables) (fs : List Function) (id : Nat) (part : Part) :
    (labels (emitAll target fs t).1).count (.control id part) ≤ 1 := by
  induction fs generalizing t with
  | nil => exact Nat.zero_le _
  | cons f fs ih =>
      have hbody := Stmt.ownLabels target f.formals t f.body
      have hfirst := List.nodup_iff_count_le_one.1 hbody.nodup (.control id part)
      have hrest := ih (f.emit target t).2
      -- the number was issued either in this body or behind it
      have hdisjoint : (labels (f.body.emit target f.formals t).1).count (.control id part) = 0 ∨
          (labels (emitAll target fs (f.emit target t).2).1).count (.control id part) = 0 := by
        by_cases hid : id < (f.emit target t).2.labels
        · refine .inr (List.count_eq_zero.2 fun hmem => ?_)
          rcases of_mem_labels hmem with ⟨id', part', heq, hle, -⟩ | ⟨g, -, heq | heq⟩
          · cases heq
            omega
          · cases heq
          · cases heq
        · refine .inl (List.count_eq_zero.2 fun hmem => ?_)
          obtain ⟨id', part', heq, -, hlt⟩ := hbody.range _ hmem
          cases heq
          exact hid hlt
      simp only [emitAll_cons, labels_append, labels_code, List.count_append, List.count_cons,
        beq_iff_eq, reduceCtorEq, if_false]
      omega

end Function

namespace Program

variable {target : Target} {p : Program}

theorem function_mem_labels_iff {g : String} :
    .function g ∈ labels (p.generate target).items ↔ g ∈ p.functions.map (·.name) := by
  rw [labels_generate, List.mem_append, ← List.count_pos_iff,
    Function.count_name target (.inl rfl), List.count_pos_iff]
  simp

theorem printf_not_mem_labels : .printf target ∉ labels (p.generate target).items := by
  rw [labels_generate, List.mem_append]
  rintro (hmem | hmem)
  · obtain ⟨id, part, heq, -⟩ | ⟨f, -, heq | heq⟩ := Function.of_mem_labels hmem <;> cases heq
  · simp at hmem

theorem mentions_of_needs {node : Node} {symbol : Symbol} (hnode : node ∈ p.walk)
    (hneeds : symbol ∈ node.needs target) : symbol ∈ mentions (p.generate target).items := by
  rw [mentions_generate]
  refine List.mem_append_left _ (Function.needs_subset_all target {} p.functions ?_)
  rcases List.mem_cons.1 hnode with rfl | hnode
  · cases hneeds
  · exact List.mem_flatMap.2 ⟨node, hnode, hneeds⟩

/-- Whatever a listing mentions it defines itself, up to the functions that are called and
what a node of the program needs. -/
theorem defined_or_needed {symbol : Symbol} (h : symbol ∈ mentions (p.generate target).items) :
    symbol ∈ labels (p.generate target).items ∨ symbol = .function entryName ∨
      ∃ node ∈ p.walk, symbol ∈ node.needs target := by
  rw [mentions_generate] at h
  rw [labels_generate]
  rcases List.mem_append.1 h with huser | hentry
  · cases Function.cites_all target {} p.functions symbol huser with
    | node visited needed => exact .inr (.inr ⟨_, List.mem_cons_of_mem _ visited, needed⟩)
    | cell known => exact .inl (by simp [globals, known])
    | format => exact .inl (by simp)
    | label own => exact .inl (List.mem_append_left _ own)
  · simp only [List.mem_append, List.mem_cons, List.not_mem_nil, or_false] at hentry
    rcases hentry with (rfl | rfl | hmain) | hcell
    · exact .inl (by simp)
    · exact .inl (by simp)
    · exact .inr (.inl hmain)
    · exact .inl (by simp [hcell])

/-- A symbol that is mentioned and not defined is that of a function that is reported, or the
C library's. -/
theorem undefined_iff {symbol : Symbol} :
    symbol ∈ mentions (p.generate target).items ∧ symbol ∉ labels (p.generate target).items ↔
      (∃ g, p.Reports (.undefined g) ∧ symbol = .function g) ∨
      (p.Reports .noEntry ∧ symbol = .function entryName) ∨
      ((∃ value, .stmt (.print value) ∈ p.walk) ∧ symbol = .printf target) := by
  constructor
  · rintro ⟨hmentions, hlabels⟩
    rcases defined_or_needed hmentions with hdefined | rfl | ⟨node, hnode, hneeds⟩
    · exact absurd hdefined hlabels
    · rw [function_mem_labels_iff] at hlabels
      exact .inr (.inl ⟨reports_noEntry_iff.2 hlabels, rfl⟩)
    · unfold Node.needs at hneeds
      split at hneeds
      · rename_i g actuals
        obtain rfl := List.mem_singleton.1 hneeds
        rw [function_mem_labels_iff] at hlabels
        exact .inl ⟨g, reports_undefined_iff.2 ⟨hlabels, actuals, hnode⟩, rfl⟩
      · obtain rfl := List.mem_singleton.1 hneeds
        exact .inr (.inr ⟨⟨_, hnode⟩, rfl⟩)
      · cases hneeds
  · rintro (⟨g, hreports, rfl⟩ | ⟨hreports, rfl⟩ | ⟨⟨value, hprint⟩, rfl⟩)
    · obtain ⟨hnew, actuals, hcall⟩ := reports_undefined_iff.1 hreports
      exact ⟨mentions_of_needs hcall (List.mem_singleton_self _),
        fun hmem => hnew (function_mem_labels_iff.1 hmem)⟩
    · refine ⟨?_, fun hmem => reports_noEntry_iff.1 hreports (function_mem_labels_iff.1 hmem)⟩
      rw [mentions_generate]
      simp
    · exact ⟨mentions_of_needs hprint (List.mem_singleton_self _), printf_not_mem_labels⟩

theorem nodup_globals : (p.globals target).names.Nodup :=
  (Function.grows_emitAll target {} p.functions).nodup List.nodup_nil

/-- The labels behind the functions: those of the entry point and of the data. -/
def fixedLabels (target : Target) (p : Program) : List Symbol :=
  [.entry, .entryAlias, .format] ++
    ((p.globals target).names.map .cell ++ (p.globals target).names.map .cellName)

theorem nodup_fixedLabels (target : Target) (p : Program) : (p.fixedLabels target).Nodup := by
  have hcells : ((p.globals target).names.map Symbol.cell).Nodup :=
    nodup_globals.map fun _ _ heq => Symbol.cell.inj heq
  have hnames : ((p.globals target).names.map Symbol.cellName).Nodup :=
    nodup_globals.map fun _ _ heq => Symbol.cellName.inj heq
  unfold fixedLabels
  rw [List.nodup_append, List.nodup_append]
  refine ⟨by decide, ⟨hcells, hnames, by simp⟩, ?_⟩
  rintro symbol hsymbol _ hdata rfl
  rcases List.mem_append.1 hdata with hdata | hdata <;>
    obtain ⟨name, -, rfl⟩ := List.mem_map.1 hdata <;> simp at hsymbol

theorem not_mem_fixedLabels {symbol : Symbol}
    (h : symbol ∈ labels (Function.emitAll target p.functions {}).1) :
    symbol ∉ p.fixedLabels target := by
  obtain ⟨id, part, rfl, -⟩ | ⟨f, -, rfl | rfl⟩ := Function.of_mem_labels h <;>
    simp [fixedLabels]

/-- A symbol that is defined twice is one of the two of a function that is reported. -/
theorem duplicated_iff {symbol : Symbol} :
    2 ≤ (labels (p.generate target).items).count symbol ↔
      ∃ g, p.Reports (.duplicate g) ∧ (symbol = .function g ∨ symbol = .functionAlias g) := by
  have hcount : (labels (p.generate target).items).count symbol =
      (labels (Function.emitAll target p.functions {}).1).count symbol +
        (p.fixedLabels target).count symbol := by
    rw [labels_generate, List.count_append]
    rfl
  have hfixed := List.nodup_iff_count_le_one.1 (nodup_fixedLabels target p) symbol
  rw [hcount]
  simp only [reports_duplicate_iff]
  constructor
  · intro htwice
    -- the labels behind the functions are all different, so one of the two is a function's
    have huser : symbol ∈ labels (Function.emitAll target p.functions {}).1 :=
      List.count_pos_iff.1 (by omega)
    rw [List.count_eq_zero.2 (not_mem_fixedLabels huser), Nat.add_zero] at htwice
    obtain ⟨id, part, rfl, -⟩ | ⟨f, -, hsymbol⟩ := Function.of_mem_labels huser
    · have honce := Function.count_control_le target {} p.functions id part
      omega
    · rw [Function.count_name target hsymbol] at htwice
      exact ⟨f.name, htwice, hsymbol⟩
  · rintro ⟨g, htwice, hsymbol⟩
    rw [Function.count_name target hsymbol]
    omega

end Program

/-! ### The listing as text -/

namespace Listing

variable {listing : Listing} {s : String}

theorem name_mem_iff {symbol : Symbol} {symbols : List Symbol} :
    symbol.name ∈ symbols.map Symbol.name ↔ symbol ∈ symbols :=
  List.mem_map_of_injective fun _ _ => Symbol.name_injective

theorem undefined_name_iff :
    (∃ l ∈ listing.lines, l.Mentions s) ∧ s ∉ definedLabels listing.lines ↔
      ∃ symbol, (symbol ∈ mentions listing.items ∧ symbol ∉ labels listing.items) ∧
        symbol.name = s := by
  rw [exists_mentions_iff, definedLabels_lines]
  constructor
  · rintro ⟨⟨symbol, hmentions, rfl⟩, hlabels⟩
    exact ⟨symbol, ⟨hmentions, fun hmem => hlabels (name_mem_iff.2 hmem)⟩, rfl⟩
  · rintro ⟨symbol, ⟨hmentions, hlabels⟩, rfl⟩
    exact ⟨⟨symbol, hmentions, rfl⟩, fun hmem => hlabels (name_mem_iff.1 hmem)⟩

theorem duplicated_name_iff :
    2 ≤ (definedLabels listing.lines).count s ↔
      ∃ symbol, 2 ≤ (labels listing.items).count symbol ∧ symbol.name = s := by
  have hcount : ∀ symbol : Symbol, ((labels listing.items).map Symbol.name).count symbol.name =
      (labels listing.items).count symbol :=
    List.count_map_of_injective _ _ fun _ _ => Symbol.name_injective
  rw [definedLabels_lines]
  constructor
  · intro htwice
    have hmem : s ∈ (labels listing.items).map Symbol.name := List.count_pos_iff.1 (by omega)
    obtain ⟨symbol, -, rfl⟩ := List.mem_map.1 hmem
    exact ⟨symbol, hcount symbol ▸ htwice, rfl⟩
  · rintro ⟨symbol, htwice, rfl⟩
    rwa [hcount]

end Listing

/-- The symbols that a listing leaves to the linker are those of the functions that the
checks report as undefined or missing, and the C library's if the program prints. The labels
that it defines more than once are those of the functions reported as duplicates. -/
theorem checks_decide_linkage (target : Target) (p : Program) :
    (∀ s, (∃ l ∈ (p.generate target).lines, l.Mentions s) ∧
        s ∉ definedLabels (p.generate target).lines ↔
      (∃ g, p.Reports (.undefined g) ∧ s = "fun_" ++ g) ∨
      (p.Reports .noEntry ∧ s = "fun_main") ∨
      ((∃ value, .stmt (.print value) ∈ p.walk) ∧ s = target.printfName)) ∧
    ∀ s, 2 ≤ (definedLabels (p.generate target).lines).count s ↔
      ∃ g, p.Reports (.duplicate g) ∧ (s = "fun_" ++ g ∨ s = "_fun_" ++ g) := by
  refine ⟨fun s => ?_, fun s => ?_⟩
  · simp only [Listing.undefined_name_iff, Program.undefined_iff]
    constructor
    · rintro ⟨symbol, ⟨g, hreports, rfl⟩ | ⟨hreports, rfl⟩ | ⟨hprint, rfl⟩, rfl⟩
      · exact .inl ⟨g, hreports, rfl⟩
      · exact .inr (.inl ⟨hreports, rfl⟩)
      · exact .inr (.inr ⟨hprint, rfl⟩)
    · rintro (⟨g, hreports, rfl⟩ | ⟨hreports, rfl⟩ | ⟨hprint, rfl⟩)
      · exact ⟨.function g, .inl ⟨g, hreports, rfl⟩, rfl⟩
      · exact ⟨.function entryName, .inr (.inl ⟨hreports, rfl⟩), rfl⟩
      · exact ⟨.printf target, .inr (.inr ⟨hprint, rfl⟩), rfl⟩
  · simp only [Listing.duplicated_name_iff, Program.duplicated_iff]
    constructor
    · rintro ⟨symbol, ⟨g, hreports, rfl | rfl⟩, rfl⟩
      · exact ⟨g, hreports, .inl rfl⟩
      · exact ⟨g, hreports, .inr rfl⟩
    · rintro ⟨g, hreports, rfl | rfl⟩
      · exact ⟨.function g, ⟨g, hreports, .inl rfl⟩, rfl⟩
      · exact ⟨.functionAlias g, ⟨g, hreports, .inr rfl⟩, rfl⟩

end FunCompiler
