import FunCompiler.Proofs.Labels

/-!
Where the parts of a generated program lie. `Lies` places a piece of code at an
index of the text section; the code of every function lies somewhere in it, and
the labels inside are found there. The entry point lies behind the functions,
the format string and a cell for every global behind that.
-/

namespace FunCompiler

open Asm Code Semantics

/-- A piece of code lies in a longer one from an index on. -/
def Lies (user : List Item) (pc : Nat) (code : List Item) : Prop := code <+: user.drop pc

namespace Lies

variable {user rest code more : List Item} {pc : Nat} {item : Item}

theorem left (h : Lies user pc (code ++ more)) : Lies user pc code :=
  (List.prefix_append code more).trans h

theorem right (h : Lies user pc (code ++ more)) : Lies user (pc + code.length) more := by
  obtain ⟨after, hafter⟩ := h
  refine ⟨after, ?_⟩
  rw [← List.drop_drop, ← hafter, List.append_assoc, List.drop_left]

theorem tail (h : Lies user pc (item :: code)) : Lies user (pc + 1) code :=
  (show Lies user pc ([item] ++ code) from h).right

theorem getElem? (h : Lies user pc (item :: code)) (rest : List Item) :
    (user ++ rest)[pc]? = some item := by
  obtain ⟨after, hafter⟩ := h
  have hlt : pc < user.length := by
    rw [← Nat.not_le]
    intro hle
    rw [List.drop_eq_nil_of_le hle] at hafter
    cases hafter
  rw [List.getElem?_append_left hlt]
  have := congrArg (·[0]?) hafter
  simpa using this.symm

theorem lt_length (h : Lies user pc (item :: code)) : pc < user.length := by
  have hget := h.getElem? []
  rw [List.append_nil] at hget
  exact (List.getElem?_eq_some_iff.1 hget).1

/-- A label that is defined once is found where it lies. -/
theorem labelIndex? {symbol : Symbol} (h : Lies user pc (.label symbol :: code))
    (hnodup : (labels user).Nodup) (rest : List Item) :
    Semantics.labelIndex? (user ++ rest) symbol.name = some pc := by
  obtain ⟨after, hafter⟩ := h
  have hsplit : user = user.take pc ++ .label symbol :: (code ++ after) := by
    rw [← List.cons_append, hafter, List.take_append_drop]
  have hlen : (user.take pc).length = pc := by
    rw [List.length_take, Nat.min_eq_left (Nat.le_of_lt (lt_length ⟨after, hafter⟩))]
  have hnot : symbol ∉ labels (user.take pc) := by
    rw [hsplit, labels_append, labels_label, List.nodup_append] at hnodup
    exact fun hmem => hnodup.2.2 symbol hmem symbol (List.mem_cons_self ..) rfl
  rw [hsplit, List.append_assoc, List.cons_append, labelIndex?_append hnot, hlen]

end Lies

/-! ### Functions -/

theorem Function.lies_emitAll (target : Target) (t : Tables) {fs : List Function} {f : Function}
    (hf : f ∈ fs) :
    ∃ pc t', Lies (emitAll target fs t).1 pc (f.emit target t').1 ∧
      (f.emit target t').2.Grows (emitAll target fs t).2 := by
  induction fs generalizing t with
  | nil => cases hf
  | cons g gs ih =>
      rw [emitAll_cons]
      rcases List.mem_cons.1 hf with rfl | hf
      · exact ⟨0, t, List.prefix_append .., grows_emitAll ..⟩
      · obtain ⟨pc, t', hlies, hgrow⟩ := ih (g.emit target t).2 hf
        refine ⟨(g.emit target t).1.length + pc, t', ?_, hgrow⟩
        unfold Lies
        rwa [← List.drop_drop, List.drop_left]

namespace Program

variable (target : Target) (p : Program)

/-- The code of every function lies in the text section, and the globals it uses are
declared. -/
theorem lies_function {p : Program} {f : Function} (hf : f ∈ p.functions) :
    ∃ pc t, Lies (p.userCode target) pc (f.emit target t).1 ∧
      (f.emit target t).2.globals.names ⊆ (p.globals target).names := by
  obtain ⟨pc, t, hlies, hgrow⟩ := Function.lies_emitAll target {} hf
  exact ⟨pc + 1, t, hlies, hgrow.globals⟩

theorem nodup_labels_userCode {p : Program} (h : (p.functions.map (·.name)).Nodup) :
    (labels (p.userCode target)).Nodup := Function.nodup_labels h

/-- No label of a function is one of the entry point or the data section. -/
theorem not_mem_labels_userCode {symbol : Symbol}
    (hcontrol : ∀ id part, symbol ≠ .control id part) (hfunction : ∀ f, symbol ≠ .function f)
    (halias : ∀ f, symbol ≠ .functionAlias f) : symbol ∉ labels (p.userCode target) := by
  intro hmem
  rcases Function.of_mem_labels hmem with ⟨id, part, heq, -⟩ | ⟨f, -, heq | heq⟩
  · exact hcontrol _ _ heq
  · exact hfunction _ heq
  · exact halias _ heq

/-! ### The entry point and the data section -/

theorem getElem?_behind (before after : List Item) (first second : Item) :
    (before ++ first :: second :: after)[before.length + 1]? = some second := by
  rw [List.getElem?_append_right (Nat.le_add_right _ _), Nat.add_sub_cancel_left]
  rfl

/-- The entry label stands behind two directives of the entry point. -/
theorem labelIndex?_entry :
    labelIndex? (p.generate target).items Symbol.entry.name =
      some ((p.userCode target).length + 2) := by
  have hnot : Symbol.entry ∉ labels (p.userCode target ++
      [.directive (.global .entry), .directive (.global .entryAlias)]) := by
    simpa using p.not_mem_labels_userCode target (by simp) (by simp) (by simp)
  obtain ⟨after, hsplit⟩ : ∃ after, (p.generate target).items =
      (p.userCode target ++ [.directive (.global .entry), .directive (.global .entryAlias)]) ++
        .label .entry :: after := by
    simp only [generate_items, List.append_assoc]
    exact ⟨_, rfl⟩
  rw [hsplit, labelIndex?_append hnot, List.length_append]
  rfl

/-- The format of `print` is in the data section. -/
theorem string?_format :
    string? (p.generate target).items Symbol.format.name = some printFormat := by
  have hnot : Symbol.format ∉ labels (p.userCode target ++ (entryCode ++ [.directive .data])) := by
    simpa [entryCode, enterFrame, leaveFrame] using
      p.not_mem_labels_userCode target (by simp) (by simp) (by simp)
  have hsplit : (p.generate target).items =
      (p.userCode target ++ (entryCode ++ [.directive .data])) ++
        .label .format :: .directive (.string printFormat) :: (p.globals target).data := by
    simp only [generate_items, List.append_assoc]
    rfl
  rw [string?, hsplit, labelIndex?_append hnot, Option.bind_eq_bind, Option.bind_some,
    getElem?_behind]

/-- Every global has a cell in the data section, and the cell holds zero. -/
theorem exists_cell {v : String} (hv : v ∈ (p.globals target).names) :
    ∃ index, (p.generate target).items[index]? = some (.label (.cell v)) ∧
      (p.generate target).items[index + 1]? = some (.directive (.quad 0)) := by
  obtain ⟨names, more, hnames⟩ := List.append_of_mem hv
  have hcells : (p.globals target).names.flatMap Globals.cell =
      (names.flatMap Globals.cell ++ [.directive (.global (.cell v))]) ++
        .label (.cell v) :: .directive (.quad 0) :: more.flatMap Globals.cell := by
    rw [hnames, List.flatMap_append, List.flatMap_cons, List.append_assoc]
    rfl
  have hsplit : (p.generate target).items =
      (p.userCode target ++ (entryCode ++
        ([.directive .data, .label .format, .directive (.string printFormat)] ++
          (names.flatMap Globals.cell ++ [.directive (.global (.cell v))])))) ++
        .label (.cell v) :: .directive (.quad 0) ::
          (more.flatMap Globals.cell ++ (p.globals target).names.flatMap Globals.label) := by
    simp only [generate_items, Globals.data, hcells, List.append_assoc, List.cons_append]
  rw [hsplit]
  exact ⟨_, by simp, getElem?_behind ..⟩

end Program

end FunCompiler
