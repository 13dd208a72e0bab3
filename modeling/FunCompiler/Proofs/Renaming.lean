import FunCompiler.Proofs.Globals

/-!
Renaming the formals of a function. Code is made from names only through the
places where they live (`locate`), so two bodies that differ in their names alone
have the same code if each name is found where its counterpart is. Renamed formals
are found at the same index, the first of equal ones; any other name is a global
cell before and after, unless one of the new names captures it.
-/

namespace FunCompiler

open Asm Code

/-! ### Renamed trees -/

mutual

/-- The expression with its variables renamed. Callees keep their names. -/
def Expr.rename (σ : String → String) : Expr → Expr
  | .var name => .var (σ name)
  | .lit value => .lit value
  | .call callee actuals => .call callee (Expr.renameAll σ actuals)
  | .binary op left right => .binary op (left.rename σ) (right.rename σ)

def Expr.renameAll (σ : String → String) : List Expr → List Expr
  | [] => []
  | e :: es => e.rename σ :: Expr.renameAll σ es

end

mutual

/-- The statement with its variables and the targets of its assignments renamed. -/
def Stmt.rename (σ : String → String) : Stmt → Stmt
  | .assign target value => .assign (σ target) (value.rename σ)
  | .print value => .print (value.rename σ)
  | .ifThen cond yes => .ifThen (cond.rename σ) (yes.rename σ)
  | .ifElse cond yes no => .ifElse (cond.rename σ) (yes.rename σ) (no.rename σ)
  | .loop cond body => .loop (cond.rename σ) (body.rename σ)
  | .block body => .block (Stmt.renameAll σ body)
  | .ret value => .ret (value.rename σ)

def Stmt.renameAll (σ : String → String) : List Stmt → List Stmt
  | [] => []
  | s :: ss => s.rename σ :: Stmt.renameAll σ ss

end

/-- A renaming of formals, for any name in the scope of the formals. -/
def renameFormal (formals : List String) (ρ : String → String) (name : String) : String :=
  if name ∈ formals then ρ name else name

/-- The function with its formals renamed, wherever they occur in it. -/
def Function.rename (ρ : String → String) (f : Function) : Function :=
  { f with formals := f.formals.map ρ, body := f.body.rename (renameFormal f.formals ρ) }

/-- Different formals get different names, and none gets the name of a global that the
function uses. -/
structure Function.Renames (f : Function) (ρ : String → String) : Prop where
  injective : ∀ a ∈ f.formals, ∀ b ∈ f.formals, ρ a = ρ b → a = b
  fresh : ∀ a ∈ f.formals, ∀ name ∈ f.body.names, name ∉ f.formals → ρ a ≠ name

/-! ### Code of renamed trees -/

theorem Expr.length_renameAll (σ : String → String) (es : List Expr) :
    (Expr.renameAll σ es).length = es.length := by
  induction es with
  | nil => rfl
  | cons e es ih => rw [Expr.renameAll, List.length_cons, List.length_cons, ih]

section

variable {formals formals' : List String} {σ : String → String}

mutual

/-- Names that live where their counterparts live make no difference to the code. -/
theorem Expr.emit_rename (e : Expr)
    (h : ∀ name ∈ e.names, locate formals' (σ name) = locate formals name) :
    (e.rename σ).emit formals' = e.emit formals := by
  cases e with
  | var name =>
      rw [Expr.rename, Expr.emit, Expr.emit, emitVariable, emitVariable,
        h name (List.mem_singleton_self name)]
  | lit value => rfl
  | call callee actuals =>
      rw [Expr.rename, Expr.emit, Expr.emit, Expr.length_renameAll,
        Expr.emitActuals_rename 0 actuals h]
  | binary op left right =>
      rw [Expr.names, List.forall_mem_append] at h
      rw [Expr.rename, Expr.emit, Expr.emit, Expr.emit_rename left h.1, Expr.emit_rename right h.2]

theorem Expr.emitActuals_rename (index : Nat) (es : List Expr)
    (h : ∀ name ∈ Expr.namesAll es, locate formals' (σ name) = locate formals name) :
    Expr.emitActuals formals' index (Expr.renameAll σ es) = Expr.emitActuals formals index es := by
  cases es with
  | nil => rfl
  | cons e es =>
      rw [Expr.namesAll, List.forall_mem_append] at h
      rw [Expr.renameAll, Expr.emitActuals, Expr.emitActuals, Expr.emit_rename e h.1,
        Expr.emitActuals_rename (index + 1) es h.2]

end

mutual

theorem Stmt.emit_rename (target : Target) (s : Stmt)
    (h : ∀ name ∈ s.names, locate formals' (σ name) = locate formals name) :
    (s.rename σ).emit target formals' = s.emit target formals := by
  cases s with
  | assign name value =>
      rw [Stmt.names, List.forall_mem_append, List.forall_mem_singleton] at h
      rw [Stmt.rename, Stmt.emit, Stmt.emit, Expr.emit_rename value h.1, emitAssign, emitAssign,
        h.2]
  | print value => rw [Stmt.rename, Stmt.emit, Stmt.emit, Expr.emit_rename value h]
  | ifThen cond yes =>
      rw [Stmt.names, List.forall_mem_append] at h
      rw [Stmt.rename, Stmt.emit, Stmt.emit, Expr.emit_rename cond h.1,
        Stmt.emit_rename target yes h.2]
  | ifElse cond yes no =>
      rw [Stmt.names, List.forall_mem_append, List.forall_mem_append] at h
      rw [Stmt.rename, Stmt.emit, Stmt.emit, Expr.emit_rename cond h.1.1,
        Stmt.emit_rename target yes h.1.2, Stmt.emit_rename target no h.2]
  | loop cond body =>
      rw [Stmt.names, List.forall_mem_append] at h
      rw [Stmt.rename, Stmt.emit, Stmt.emit, Expr.emit_rename cond h.1,
        Stmt.emit_rename target body h.2]
  | block body => exact Stmt.emitAll_rename target body h
  | ret value => rw [Stmt.rename, Stmt.emit, Stmt.emit, Expr.emit_rename value h]

theorem Stmt.emitAll_rename (target : Target) (ss : List Stmt)
    (h : ∀ name ∈ Stmt.namesAll ss, locate formals' (σ name) = locate formals name) :
    Stmt.emitAll target formals' (Stmt.renameAll σ ss) = Stmt.emitAll target formals ss := by
  cases ss with
  | nil => rfl
  | cons s ss =>
      rw [Stmt.namesAll, List.forall_mem_append] at h
      rw [Stmt.renameAll, Stmt.emitAll, Stmt.emitAll, Stmt.emit_rename target s h.1,
        Stmt.emitAll_rename target ss h.2]

end

end

/-! ### Renamed formals -/

/-- The first formal of a name keeps its index if no other name becomes equal to it. -/
theorem idxOf?_map {formals : List String} {ρ : String → String} {name : String}
    (h : ∀ a ∈ formals, ρ a = ρ name → a = name) :
    (formals.map ρ).idxOf? (ρ name) = formals.idxOf? name := by
  induction formals with
  | nil => rfl
  | cons a formals ih =>
      rw [List.forall_mem_cons] at h
      rw [List.map_cons, List.idxOf?_cons, List.idxOf?_cons, ih h.2]
      by_cases ha : a = name
      · simp [ha]
      · simp [ha, mt h.1 ha]

namespace Function

variable {f : Function} {ρ : String → String}

theorem Renames.locate_eq (h : f.Renames ρ) {name : String} (hname : name ∈ f.body.names) :
    locate (f.formals.map ρ) (renameFormal f.formals ρ name) = locate f.formals name := by
  by_cases hformal : name ∈ f.formals
  · have hindex : (f.formals.map ρ).idxOf? (ρ name) = f.formals.idxOf? name :=
      idxOf?_map fun a ha heq => h.injective a ha name hformal heq
    obtain ⟨i, hi⟩ := Option.isSome_iff_exists.1 (List.isSome_idxOf?.2 hformal)
    rw [renameFormal, if_pos hformal]
    unfold locate
    rw [hindex, hi]
  · -- a global is looked up by its own name, which no formal has taken
    have hfree : name ∉ f.formals.map ρ := by
      intro hmem
      obtain ⟨a, ha, heq⟩ := List.mem_map.1 hmem
      exact h.fresh a ha name hname hformal heq
    rw [renameFormal, if_neg hformal]
    unfold locate
    rw [List.idxOf?_eq_none_iff.2 hfree, List.idxOf?_eq_none_iff.2 hformal]

theorem Renames.emit_eq (h : f.Renames ρ) (target : Target) :
    (f.rename ρ).emit target = f.emit target := by
  have hbody : (f.rename ρ).body.emit target (f.rename ρ).formals = f.body.emit target f.formals :=
    Stmt.emit_rename target f.body fun _ hname => h.locate_eq hname
  rw [Function.emit, Function.emit, hbody]
  rfl

theorem Renames.emitAll_eq (h : f.Renames ρ) (target : Target) (before behind : List Function) :
    emitAll target (before ++ f.rename ρ :: behind) = emitAll target (before ++ f :: behind) := by
  induction before with
  | nil => rw [List.nil_append, List.nil_append, emitAll, emitAll, h.emit_eq]
  | cons g before ih => rw [List.cons_append, List.cons_append, emitAll, emitAll, ih]

end Function

/-- A function whose formals are renamed, so that none captures a global of its body, has the same
code: the listing of the program is the same line by line, and so are the tables. -/
theorem generate_rename (target : Target) {p : Program} {before behind : List Function}
    {f : Function} {ρ : String → String} (hp : p.functions = before ++ f :: behind)
    (h : f.Renames ρ) :
    let renamed : Program := ⟨before ++ f.rename ρ :: behind⟩
    (renamed.generate target).lines = (p.generate target).lines ∧
      (renamed.generate target).tables = (p.generate target).tables := by
  have hlisting : (Program.mk (before ++ f.rename ρ :: behind)).generate target =
      p.generate target := by
    unfold Program.generate
    rw [hp, h.emitAll_eq]
  intro renamed
  rw [hlisting]
  exact ⟨rfl, rfl⟩

/-- Two formals of one name, a callee and a global that have the names of formals elsewhere. -/
def twist : Function where
  name := "twist"
  formals := ["a", "b", "a"]
  body := .block [.assign "a" (.binary .add (.var "b") (.var "main")),
    .ifThen (.var "a") (.ret (.call "b" [.var "a"]))]

def callsTwist : Function where
  name := "main"
  formals := []
  body := .assign "b" (.call "twist" [.var "a"])

/-- The formal `a` becomes `b`, and `b` becomes the name of the function. -/
theorem twist_renamed :
    let ρ := fun name => if name = "a" then "b" else "twist"
    twist.Renames ρ ∧ (twist.rename ρ).formals = ["b", "twist", "b"] ∧
      (twist.rename ρ).body.names = ["twist", "main", "b", "b", "b"] ∧
      ((Program.mk [callsTwist, twist.rename ρ]).generate .elf).lines =
        ((Program.mk [callsTwist, twist]).generate .elf).lines := by
  intro ρ
  have h : twist.Renames ρ := by
    constructor <;> decide
  have hp : (Program.mk [callsTwist, twist]).functions = [callsTwist] ++ twist :: [] := rfl
  exact ⟨h, rfl, rfl, (generate_rename .elf hp h).1⟩

end FunCompiler
