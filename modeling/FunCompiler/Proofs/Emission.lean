import FunCompiler.Code.Generate

/-!
Code generation, one equation for each construct, and what it does to the
tables: expressions issue no label, labels are only ever added, and a global
that has been met stays.
-/

namespace FunCompiler

open Asm Code

variable (target : Target) (formals : List String) (t : Tables)

/-! ### Equations -/

theorem Expr.emit_var (name : String) :
    (Expr.var name).emit formals t =
      ([.instr (.mov (locate formals name t).1 Register.rax)], (locate formals name t).2) := rfl

theorem Expr.emit_lit (value : Int) :
    (Expr.lit value).emit formals t =
      ([.instr (.mov (.immediate value) Register.rax)], t) := rfl

theorem Expr.emit_call (callee : String) (actuals : List Expr) :
    (Expr.call callee actuals).emit formals t =
      (reserving actuals.length
        ((Expr.emitActuals formals 0 actuals t).1 ++ [.instr (.call (.function callee))]),
        (Expr.emitActuals formals 0 actuals t).2) := rfl

theorem Expr.emit_binary (op : Operator) (left right : Expr) :
    (Expr.binary op left right).emit formals t =
      ((left.emit formals t).1 ++ .instr (.push .rax) ::
          (right.emit formals (left.emit formals t).2).1 ++ .instr (.pop .rcx) :: operatorCode op,
        (right.emit formals (left.emit formals t).2).2) := rfl

theorem Expr.emitActuals_nil (index : Nat) : Expr.emitActuals formals index [] t = ([], t) := rfl

theorem Expr.emitActuals_cons (index : Nat) (e : Expr) (es : List Expr) :
    Expr.emitActuals formals index (e :: es) t =
      ((e.emit formals t).1 ++ storeActual index ::
          (Expr.emitActuals formals (index + 1) es (e.emit formals t).2).1,
        (Expr.emitActuals formals (index + 1) es (e.emit formals t).2).2) := rfl

theorem Stmt.emit_assign (name : String) (value : Expr) :
    (Stmt.assign name value).emit target formals t =
      ((value.emit formals t).1 ++
          [.instr (.mov Register.rax (locate formals name (value.emit formals t).2).1)],
        (locate formals name (value.emit formals t).2).2) := rfl

theorem Stmt.emit_print (value : Expr) :
    (Stmt.print value).emit target formals t =
      ((value.emit formals t).1 ++ printCode target, (value.emit formals t).2) := rfl

theorem Stmt.emit_ifThen (cond : Expr) (yes : Stmt) :
    (Stmt.ifThen cond yes).emit target formals t =
      let id := (cond.emit formals t).2.labels
      let first := yes.emit target formals (freshLabel (cond.emit formals t).2).2
      ((cond.emit formals t).1 ++ jumpIfZero (.control id .no) ++
          .label (.control id .yes) :: first.1 ++
          [.instr (.jmp (.control id .last)), .label (.control id .no),
            .label (.control id .last)],
        first.2) := rfl

theorem Stmt.emit_ifElse (cond : Expr) (yes no : Stmt) :
    (Stmt.ifElse cond yes no).emit target formals t =
      let id := (cond.emit formals t).2.labels
      let first := yes.emit target formals (freshLabel (cond.emit formals t).2).2
      let second := no.emit target formals first.2
      ((cond.emit formals t).1 ++ jumpIfZero (.control id .no) ++
          .label (.control id .yes) :: first.1 ++
          [.instr (.jmp (.control id .last)), .label (.control id .no)] ++ second.1 ++
          [.label (.control id .last)],
        second.2) := by
  dsimp only
  rw [List.append_assoc _ (no.emit ..).1, List.append_assoc _ [_, _]]
  rfl

theorem Stmt.emit_loop (cond : Expr) (body : Stmt) :
    (Stmt.loop cond body).emit target formals t =
      let test := cond.emit formals (freshLabel t).2
      let code := body.emit target formals test.2
      (.label (.control t.labels .first) :: test.1 ++ jumpIfZero (.control t.labels .last) ++
          code.1 ++ [.instr (.jmp (.control t.labels .first)), .label (.control t.labels .last)],
        code.2) := rfl

theorem Stmt.emit_block (body : List Stmt) :
    (Stmt.block body).emit target formals t = Stmt.emitAll target formals body t := rfl

theorem Stmt.emit_ret (value : Expr) :
    (Stmt.ret value).emit target formals t =
      ((value.emit formals t).1 ++ leaveFrame ++ [.instr .ret], (value.emit formals t).2) := rfl

theorem Stmt.emitAll_nil : Stmt.emitAll target formals [] t = ([], t) := rfl

theorem Stmt.emitAll_cons (s : Stmt) (ss : List Stmt) :
    Stmt.emitAll target formals (s :: ss) t =
      ((s.emit target formals t).1 ++ (Stmt.emitAll target formals ss (s.emit target formals t).2).1,
        (Stmt.emitAll target formals ss (s.emit target formals t).2).2) := rfl

theorem Function.emit_eq (f : Function) :
    f.emit target t =
      ([.directive (.global (.function f.name)), .directive (.global (.functionAlias f.name)),
          .label (.function f.name), .label (.functionAlias f.name)] ++
        enterFrame ++ (f.body.emit target f.formals t).1 ++ leaveFrame ++
        [.instr (.mov (.immediate 0) Register.rax), .instr .ret],
        (f.body.emit target f.formals t).2) := rfl

theorem Function.emitAll_nil : Function.emitAll target [] t = ([], t) := rfl

theorem Function.emitAll_cons (f : Function) (fs : List Function) :
    Function.emitAll target (f :: fs) t =
      ((f.emit target t).1 ++ (Function.emitAll target fs (f.emit target t).2).1,
        (Function.emitAll target fs (f.emit target t).2).2) := rfl

namespace Program

/-- The text section up to the entry point: the code of the functions. -/
def userCode (target : Target) (p : Program) : List Item :=
  .directive .text :: (Function.emitAll target p.functions {}).1

/-- The global cells of the program, in the order of their declaration. -/
def globals (target : Target) (p : Program) : Globals :=
  (Function.emitAll target p.functions {}).2.globals

theorem generate_items (p : Program) :
    (p.generate target).items =
      p.userCode target ++ (entryCode ++
        ([.directive .data, .label .format, .directive (.string printFormat)] ++
          (p.globals target).data)) := by
  have h : (p.generate target).items =
      p.userCode target ++ entryCode ++
        [.directive .data, .label .format, .directive (.string printFormat)] ++
        (p.globals target).data := rfl
  rw [h, List.append_assoc, List.append_assoc]

end Program

/-! ### The tables -/

/-- One pair of tables comes after another: labels have only been added, and no global
has been lost or entered twice. -/
structure Code.Tables.Grows (t t' : Tables) : Prop where
  labels : t.labels ≤ t'.labels
  globals : t.globals.names ⊆ t'.globals.names
  nodup : t.globals.names.Nodup → t'.globals.names.Nodup

theorem Code.Tables.Grows.refl (t : Tables) : t.Grows t :=
  ⟨Nat.le_refl _, List.Subset.refl _, id⟩

theorem Code.Tables.Grows.trans {t t' t'' : Tables} (h : t.Grows t') (h' : t'.Grows t'') :
    t.Grows t'' :=
  ⟨Nat.le_trans h.labels h'.labels, List.Subset.trans h.globals h'.globals, h'.nodup ∘ h.nodup⟩

theorem Code.Globals.subset_register (g : Globals) (name : String) :
    g.names ⊆ (g.register name).names := by
  unfold Globals.register
  split
  · exact List.Subset.refl _
  · exact List.subset_append_left ..

theorem Code.Globals.mem_register (g : Globals) (name : String) :
    name ∈ (g.register name).names := by
  unfold Globals.register Globals.contains
  split
  · rename_i h
    simpa using h
  · simp

theorem Code.Globals.nodup_register {g : Globals} (h : g.names.Nodup) (name : String) :
    (g.register name).names.Nodup := by
  unfold Globals.register
  split
  · exact h
  · rename_i hnew
    rw [List.nodup_append]
    refine ⟨h, by simp, ?_⟩
    rintro other hother _ hname rfl
    rw [List.mem_singleton.1 hname] at hother
    exact hnew (List.contains_iff_mem.2 hother)

/-- A variable is the first formal of its name, or else a global cell that is now in
the tables. -/
theorem locate_cases (name : String) :
    (∃ i, formals.idxOf? name = some i ∧
      locate formals name t = (.stack (formalOffset i) .rbp, t)) ∨
    (formals.idxOf? name = none ∧
      locate formals name t =
        (.cell (.cell name), { t with globals := t.globals.register name })) := by
  unfold locate
  cases h : formals.idxOf? name with
  | some i => exact .inl ⟨i, rfl, rfl⟩
  | none => exact .inr ⟨rfl, rfl⟩

@[simp] theorem labels_locate (name : String) :
    (locate formals name t).2.labels = t.labels := by
  obtain ⟨i, -, h⟩ | ⟨-, h⟩ := locate_cases formals t name <;> rw [h]

theorem grows_locate (name : String) : t.Grows (locate formals name t).2 := by
  obtain ⟨i, -, h⟩ | ⟨-, h⟩ := locate_cases formals t name
  · rw [h]
    exact .refl t
  · rw [h]
    exact ⟨Nat.le_refl _, Globals.subset_register .., fun hnodup => Globals.nodup_register hnodup _⟩

theorem grows_freshLabel : t.Grows (freshLabel t).2 :=
  ⟨Nat.le_succ _, List.Subset.refl _, id⟩

mutual

theorem Expr.labels_emit (t : Tables) (e : Expr) : (e.emit formals t).2.labels = t.labels := by
  cases e with
  | var name => exact labels_locate formals t name
  | lit value => rfl
  | call callee actuals =>
      rw [Expr.emit_call]
      exact Expr.labels_emitActuals t 0 actuals
  | binary op left right =>
      rw [Expr.emit_binary, Expr.labels_emit _ right, Expr.labels_emit t left]

theorem Expr.labels_emitActuals (t : Tables) (index : Nat) (es : List Expr) :
    (Expr.emitActuals formals index es t).2.labels = t.labels := by
  cases es with
  | nil => rfl
  | cons e es =>
      rw [Expr.emitActuals_cons, Expr.labels_emitActuals _ _ es, Expr.labels_emit t e]

end

mutual

theorem Expr.grows_emit (t : Tables) (e : Expr) : t.Grows (e.emit formals t).2 := by
  cases e with
  | var name => exact grows_locate formals t name
  | lit value => exact .refl t
  | call callee actuals =>
      rw [Expr.emit_call]
      exact Expr.grows_emitActuals t 0 actuals
  | binary op left right =>
      rw [Expr.emit_binary]
      exact (Expr.grows_emit t left).trans (Expr.grows_emit _ right)

theorem Expr.grows_emitActuals (t : Tables) (index : Nat) (es : List Expr) :
    t.Grows (Expr.emitActuals formals index es t).2 := by
  cases es with
  | nil => exact .refl t
  | cons e es =>
      rw [Expr.emitActuals_cons]
      exact (Expr.grows_emit t e).trans (Expr.grows_emitActuals _ _ es)

end

mutual

theorem Stmt.grows_emit (t : Tables) (s : Stmt) : t.Grows (s.emit target formals t).2 := by
  cases s with
  | assign name value =>
      exact (Expr.grows_emit formals t value).trans (grows_locate ..)
  | print value => exact Expr.grows_emit formals t value
  | ifThen cond yes =>
      exact (Expr.grows_emit formals t cond).trans
        ((grows_freshLabel _).trans (Stmt.grows_emit _ yes))
  | ifElse cond yes no =>
      exact (Expr.grows_emit formals t cond).trans
        ((grows_freshLabel _).trans ((Stmt.grows_emit _ yes).trans (Stmt.grows_emit _ no)))
  | loop cond body =>
      exact (grows_freshLabel t).trans
        ((Expr.grows_emit formals _ cond).trans (Stmt.grows_emit _ body))
  | block body => exact Stmt.grows_emitAll t body
  | ret value => exact Expr.grows_emit formals t value

theorem Stmt.grows_emitAll (t : Tables) (ss : List Stmt) :
    t.Grows (Stmt.emitAll target formals ss t).2 := by
  cases ss with
  | nil => exact .refl t
  | cons s ss => exact (Stmt.grows_emit t s).trans (Stmt.grows_emitAll _ ss)

end

theorem Function.grows_emit (f : Function) : t.Grows (f.emit target t).2 :=
  Stmt.grows_emit target f.formals t f.body

theorem Function.grows_emitAll (fs : List Function) :
    t.Grows (Function.emitAll target fs t).2 := by
  induction fs generalizing t with
  | nil => exact .refl t
  | cons f fs ih => exact (f.grows_emit target t).trans (ih _)

end FunCompiler
