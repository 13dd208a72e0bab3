import FunCompiler.Proofs.Accepted
import FunCompiler.Proofs.Layout
import FunCompiler.Proofs.Machine
import FunCompiler.Semantics.Eval

/-!
How an evaluation and a run of the machine are compared. `Process.Simulates`
says that a computation of the reference semantics, started in a store, is
matched by the machine, started in a state: if the computation ends, the
machine gets to a state that the postcondition relates to its result; if the
computation runs out of fuel, the machine gets to a state in which it has
printed the same.

Running out of fuel must mean that the machine has run for long, or nothing
could be said of runs without end. Fuel is spent on the way into the syntax,
where the machine may stand still, but the syntax is finite: between two steps
of the machine at most `Process.pace` units are spent. The number `need` of a
judgment is the fuel that steps must account for.

A run also has to stay in the code of the program and away from the stack of the
callers (`Stays`). Where a function calls another, its frame was made by a call
that the same run has made, and lies above the stack pointer by as much as the
syntax says (`Process.Nested`); for this a judgment is about a state of a given
run (`Process.visited`).
-/

namespace FunCompiler

open Asm Code

/-! ### Stack depths of calls -/

/-- The bytes by which a call lowers the stack pointer for its actuals. -/
def Code.areaBytes (actuals : Nat) : Int := if actuals = 0 then 0 else reservedBytes actuals

mutual

/-- How far below the frame pointer the calls of an expression find the stack pointer,
where the expression itself finds it `depth` below. -/
def Expr.callDepths (depth : Int) : Expr → List Int
  | .var _ => []
  | .lit _ => []
  | .call _ actuals =>
    Expr.callDepthsAll (depth + areaBytes actuals.length) actuals ++
      [depth + areaBytes actuals.length]
  | .binary _ left right => left.callDepths depth ++ right.callDepths (depth + 8)

def Expr.callDepthsAll (depth : Int) : List Expr → List Int
  | [] => []
  | e :: es => e.callDepths depth ++ Expr.callDepthsAll depth es

end

mutual

/-- How far below the frame pointer the calls of a statement find the stack pointer. -/
def Stmt.callDepths : Stmt → List Int
  | .assign _ value => value.callDepths 0
  | .print value => value.callDepths 0
  | .ifThen cond yes => cond.callDepths 0 ++ yes.callDepths
  | .ifElse cond yes no => cond.callDepths 0 ++ yes.callDepths ++ no.callDepths
  | .loop cond body => cond.callDepths 0 ++ body.callDepths
  | .block body => Stmt.callDepthsAll body
  | .ret value => value.callDepths 0

def Stmt.callDepthsAll : List Stmt → List Int
  | [] => []
  | s :: ss => s.callDepths ++ Stmt.callDepthsAll ss

end

/-- The function that an instruction calls. -/
def Asm.Instr.callee? : Instr → Option String
  | .call (.function name) => some name
  | _ => none

namespace Semantics

/-! ### Running a computation -/

/-- The result of a computation and the store it leaves. -/
def runEval {α : Type} (m : Eval α) (σ : Store) : Except Halt α × Store := m.run.run σ

theorem runEval_bind {α β : Type} (m : Eval α) (f : α → Eval β) (σ : Store) :
    runEval (m >>= f) σ =
      match runEval m σ with
      | (.ok a, σ') => runEval (f a) σ'
      | (.error e, σ') => (.error e, σ') := by
  unfold runEval
  rw [ExceptT.run_bind, StateT.run_bind]
  rcases StateT.run (ExceptT.run m) σ with ⟨_ | _, _⟩ <;> rfl

/-! ### Processes -/

/-- An accepted program in its surroundings, and a set of states that a run does not
leave before its end. -/
structure Process where
  program : Program
  library : Library
  accepted : program.diagnostics = []
  visited : State → Prop
  onward : ∀ s t, visited s → ¬ AtExit (program.generate library.target).items s →
    step? library (program.generate library.target).items s = some t → visited t

namespace Process

variable (P : Process)

def items : List Item := (P.program.generate P.library.target).items

/-- The code of the program's functions. -/
def user : List Item := P.program.userCode P.library.target

/-- What follows the functions: the entry point and the data section. -/
def rest : List Item :=
  entryCode ++ ([.directive .data, .label .format, .directive (.string printFormat)] ++
    (P.program.globals P.library.target).data)

def globals : List String := (P.program.globals P.library.target).names

/-- More than the fuel that can be spent inside one function body before the machine
makes a step. -/
noncomputable def pace : Nat := sizeOf P.program + 1

theorem items_eq : P.items = P.user ++ P.rest := P.program.generate_items P.library.target

theorem nodup_labels : (labels P.user).Nodup :=
  Program.nodup_labels_userCode _ (Program.nodup_names P.accepted)

/-- How far below their frame pointers functions call other functions. -/
def callDepths : List Int := P.program.functions.flatMap (·.body.callDepths)

/-- A function has been called with that stack pointer. -/
def CalledWith (pointer : Int) : Prop :=
  ∃ s, P.visited s ∧ s.CallsFunction P.items ∧ s.registers .rsp = pointer

/-- What is asked of a function that calls another: the frame pointer is below the return
address of a call that has been made, and the stack pointer is where the syntax says. -/
structure Nested (s : State) : Prop where
  frame : P.CalledWith (s.registers .rbp + 16)
  below : s.registers .rsp ≤ s.registers .rbp
  depth : s.registers .rbp - s.registers .rsp ∈ P.callDepths

/-- A run in the code of the program's functions. -/
abbrev Path (writable : State → Int → Prop) : Nat → State → State → Prop :=
  Semantics.Path P.library P.items (Stays P.items P.user.length P.Nested writable)

variable {P}

theorem labelIndex?_entry :
    labelIndex? P.items Symbol.entry.name = some (P.user.length + 2) :=
  P.program.labelIndex?_entry P.library.target

/-- The end of a run is behind the functions. -/
theorem not_atExit {s : State} (h : s.pc < P.user.length) : ¬ AtExit P.items s := by
  rintro ⟨-, entry, hentry, hlt⟩
  rw [labelIndex?_entry, Option.some.injEq] at hentry
  omega

/-- A run in the code of the functions stays among the states that are visited. -/
theorem visited_of_path {writable : State → Int → Prop} {n : Nat} {s t : State}
    (h : P.Path writable n s t) (hs : P.visited s) : P.visited t := by
  induction h with
  | refl s => exact hs
  | step hok hstep _ ih => exact ih (P.onward _ _ hs (not_atExit hok.inside) hstep)

/-- An instruction inside a function is one step of a run. -/
theorem path_instr {writable : State → Int → Prop} {s t : State} {i : Instr} {code : List Item}
    (hlies : Lies P.user s.pc (.instr i :: code)) (hrun : s.run? P.library P.items i = some t)
    (hwrites : ∀ byte, s.WritesBy i byte → writable s byte)
    (hcalls : i.callee? = none ∨ P.Nested s) : P.Path writable 1 s t := by
  have hget : P.items[s.pc]? = some (.instr i) := by
    rw [items_eq]
    exact hlies.getElem? _
  refine .single ⟨hlies.lt_length, ?_, ?_, ?_⟩ ?_
  · rintro byte ⟨j, hj, hby⟩
    rw [hget] at hj
    cases hj
    exact hwrites byte hby
  · rintro ⟨name, hname⟩
    rw [hget] at hname
    cases hname
    exact hcalls.resolve_left (Option.some_ne_none name)
  · rintro ⟨target, htarget⟩
    rw [hget] at htarget
    cases htarget
    exact aligned_of_run? hrun
  · rw [step?, hget]
    exact hrun

/-- A label is passed in one step. -/
theorem path_label {writable : State → Int → Prop} {s : State} {symbol : Symbol}
    {code : List Item} (hlies : Lies P.user s.pc (.label symbol :: code)) :
    P.Path writable 1 s s.next := by
  have hget : P.items[s.pc]? = some (.label symbol) := by
    rw [items_eq]
    exact hlies.getElem? _
  refine .single ⟨hlies.lt_length, ?_, ?_, ?_⟩ ?_
  · rintro byte ⟨j, hj, -⟩
    rw [hget] at hj
    cases hj
  · rintro ⟨name, hname⟩
    rw [hget] at hname
    cases hname
  · rintro ⟨target, htarget⟩
    rw [hget] at htarget
    cases htarget
  · rw [step?, hget]

/-- A jump goes to where its label lies. -/
theorem jump?_eq {s : State} {pc : Nat} {symbol : Symbol} {code : List Item}
    (hlies : Lies P.user pc (.label symbol :: code)) :
    s.jump? P.items symbol = some { s with pc } := by
  rw [State.jump?, items_eq, hlies.labelIndex? P.nodup_labels, Option.map_some]

/-! ### The judgment -/

variable (P) in
/-- The machine matches a computation, as the head of this file describes. -/
def Matches {α : Type} (need : Nat) (writable : State → Int → Prop) (m : Eval α) (σ : Store)
    (s : State) (post : α → Store → State → Prop) : Prop :=
  match runEval m σ with
  | (.ok a, σ') => ∃ n t, P.Path writable n s t ∧ post a σ' t
  | (.error .outOfFuel, σ') =>
    ∃ n t, P.Path writable n s t ∧ need ≤ n * P.pace ∧ t.output = σ'.output
  | (.error (.undefined _), _) => False

variable (P) in
/-- The machine matches a computation if the run comes to the state. -/
def Simulates {α : Type} (need : Nat) (writable : State → Int → Prop) (m : Eval α) (σ : Store)
    (s : State) (post : α → Store → State → Prop) : Prop :=
  P.visited s → P.Matches need writable m σ s post

section Judgments

variable {α β : Type} {need need' : Nat} {writable inner : State → Int → Prop} {m : Eval α}
  {f : α → Eval β} {σ σ' : Store} {s t : State} {post mid : α → Store → State → Prop}
  {post' : β → Store → State → Prop}

namespace Matches

theorem ok {a : α} (h : P.Matches need writable m σ s post) (hm : runEval m σ = (.ok a, σ')) :
    ∃ n t, P.Path writable n s t ∧ post a σ' t := by
  rwa [Matches, hm] at h

theorem error {e : Halt} (h : P.Matches need writable m σ s post)
    (hm : runEval m σ = (.error e, σ')) :
    ∃ n t, P.Path writable n s t ∧ need ≤ n * P.pace ∧ t.output = σ'.output := by
  cases e with
  | outOfFuel => rwa [Matches, hm] at h
  | undefined function =>
      rw [Matches, hm] at h
      exact h.elim

end Matches

namespace Simulates

theorem of_ok {a : α} {n : Nat} (hm : runEval m σ = (.ok a, σ')) (hpath : P.Path writable n s t)
    (hpost : post a σ' t) : P.Simulates need writable m σ s post := by
  intro _
  rw [Matches, hm]
  exact ⟨n, t, hpath, hpost⟩

/-- With no fuel at all nothing is asked. -/
theorem of_outOfFuel (hm : runEval m σ = (.error .outOfFuel, σ)) (hout : s.output = σ.output) :
    P.Simulates 0 writable m σ s post := by
  intro _
  rw [Matches, hm]
  exact ⟨0, s, .refl s, Nat.zero_le _, hout⟩

/-- That the run comes to the state may be used. -/
theorem of_visited (h : P.visited s → P.Simulates need writable m σ s post) :
    P.Simulates need writable m σ s post := fun hs => h hs hs

/-- Computations that come to the same are matched alike. -/
theorem congr {m' : Eval α} (h : P.Simulates need writable m σ s post)
    (hm : runEval m' σ' = runEval m σ) : P.Simulates need writable m' σ' s post := by
  unfold Simulates Matches at h ⊢
  rwa [hm]

theorem mono (h : P.Simulates need inner m σ s mid) (hneed : need' ≤ need)
    (hinner : ∀ u byte, inner u byte → writable u byte)
    (hpost : ∀ a σ' t, mid a σ' t → post a σ' t) :
    P.Simulates need' writable m σ s post := by
  have hpath : ∀ {n t}, P.Path inner n s t → P.Path writable n s t := fun hp =>
    hp.mono fun u hu => hu.mono (hinner u)
  intro hs
  replace h := h hs
  unfold Matches at h ⊢
  split at h
  · obtain ⟨n, t, hp, hq⟩ := h
    exact ⟨n, t, hpath hp, hpost _ _ _ hq⟩
  · obtain ⟨n, t, hp, hn, hout⟩ := h
    exact ⟨n, t, hpath hp, Nat.le_trans hneed hn, hout⟩
  · exact h

/-- Less fuel is asked for. -/
theorem weaken (h : P.Simulates need writable m σ s post) (hneed : need' ≤ need) :
    P.Simulates need' writable m σ s post :=
  h.mono hneed (fun _ _ => id) fun _ _ _ => id

/-- Steps before the computation starts pay for their share of the fuel. -/
theorem after {n : Nat} (hpath : P.Path writable n s t)
    (h : P.Simulates need' writable m σ t post) (hneed : need ≤ need' + n * P.pace) :
    P.Simulates need writable m σ s post := by
  intro hs
  replace h := h (visited_of_path hpath hs)
  unfold Matches at h ⊢
  split at h
  · obtain ⟨k, u, hp, hq⟩ := h
    exact ⟨n + k, u, hpath.trans hp, hq⟩
  · obtain ⟨k, u, hp, hk, hout⟩ := h
    refine ⟨n + k, u, hpath.trans hp, ?_, hout⟩
    rw [Nat.add_mul]
    omega
  · exact h

/-- One computation after another. The second may use that the first wrote only what
it was allowed to. -/
theorem bind (h : P.Simulates need inner m σ s mid)
    (hinner : ∀ u byte, inner u byte → writable u byte)
    (hf : ∀ a σ' t n, P.Path inner n s t → mid a σ' t →
      P.Simulates need writable (f a) σ' t post') :
    P.Simulates need writable (m >>= f) σ s post' := by
  have hpath : ∀ {n t}, P.Path inner n s t → P.Path writable n s t := fun hp =>
    hp.mono fun u hu => hu.mono (hinner u)
  intro hs
  replace h := h hs
  unfold Matches at h ⊢
  rw [runEval_bind]
  split at h
  · rename_i a σ' hm
    obtain ⟨n, t, hp, hq⟩ := h
    have hnext := (hf a σ' t n hp hq).after (hpath hp) (Nat.le_add_right _ _) hs
    rw [Matches] at hnext
    rw [hm]
    exact hnext
  · rename_i σ' hm
    obtain ⟨n, t, hp, hn, hout⟩ := h
    rw [hm]
    exact ⟨n, t, hpath hp, hn, hout⟩
  · exact h.elim

/-- Steps after the computation. -/
theorem finish (h : P.Simulates need inner m σ s mid)
    (hinner : ∀ u byte, inner u byte → writable u byte)
    (hafter : ∀ a σ' t n, P.Path inner n s t → mid a σ' t →
      ∃ k u, P.Path writable k t u ∧ post a σ' u) :
    P.Simulates need writable m σ s post := by
  rw [← bind_pure m]
  refine h.bind hinner fun a σ' t n hpath hmid => ?_
  obtain ⟨k, u, hmore, hpost⟩ := hafter a σ' t n hpath hmid
  exact .of_ok rfl hmore hpost

end Simulates

end Judgments

end Process

end Semantics

end FunCompiler
