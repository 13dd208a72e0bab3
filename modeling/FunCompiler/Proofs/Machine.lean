import FunCompiler.Semantics.Machine

/-!
How the machine runs. `Path ok n s t` says that `n` steps lead from `s` to `t`
and that every state a step was taken from satisfies `ok`. With `Stays` for
`ok` a path records what later arguments ask of a run: the machine was in the
code of user functions, wrote only bytes it was allowed to write, called
functions only from states it was allowed to, and `printf` only with an aligned
stack. A word of the stack that a path may not write is the same at its end.
-/

namespace FunCompiler.Semantics

open Asm

/-! ### Reading an updated state -/

namespace State

@[simp] theorem pc_next (s : State) : s.next.pc = s.pc + 1 := rfl
@[simp] theorem stack_next (s : State) : s.next.stack = s.stack := rfl
@[simp] theorem output_next (s : State) : s.next.output = s.output := rfl

@[simp] theorem stack_setRegister (s : State) (r : Register) (v : Int) :
    (s.setRegister r v).stack = s.stack := rfl

@[simp] theorem stack_store (s : State) (a v a' : Int) :
    (s.store a v).stack a' = if a' = a then v else s.stack a' := rfl

@[simp] theorem stack_setCell (s : State) (c : String) (v : Int) :
    (s.setCell c v).stack = s.stack := rfl
@[simp] theorem cells_setCell (s : State) (c : String) (v : Int) (c' : String) :
    (s.setCell c v).cells c' = if c' = c then v else s.cells c' := rfl

@[simp] theorem stack_push (s : State) (v a : Int) :
    (s.push v).stack a = if a = s.registers .rsp - 8 then v else s.stack a := rfl

end State

/-- The number a word is held as stands for it. -/
@[simp] theorem word_toNat (w : Word) : word w.toNat = w := by
  simp [word]

/-! ### What one step leaves alone -/

theorem stack_of_write? {s t : State} {v a : Int} {d : Operand} (h : s.write? v d = some t)
    (hd : ∀ offset base, d = .stack offset base → a ≠ s.registers base + offset) :
    t.stack a = s.stack a := by
  cases d with
  | immediate _ => simp [State.write?] at h
  | register r =>
      simp only [State.write?, Option.some.injEq] at h
      rw [← h, State.stack_setRegister]
  | stack offset base =>
      simp only [State.write?, Option.some.injEq] at h
      rw [← h, State.stack_store, if_neg (hd offset base rfl)]
  | cell symbol =>
      simp only [State.write?, Option.some.injEq] at h
      rw [← h, State.stack_setCell]

theorem output_of_write? {s t : State} {v : Int} {d : Operand} (h : s.write? v d = some t) :
    t.output = s.output := by
  cases d <;> simp only [State.write?, Option.some.injEq, reduceCtorEq] at h <;> rw [← h] <;> rfl

/-- One state follows another by a call of `printf`. -/
structure Printed (s t : State) : Prop where
  pc : t.pc = s.pc
  rbx : t.registers .rbx = s.registers .rbx
  rbp : t.registers .rbp = s.registers .rbp
  rsp : t.registers .rsp = s.registers .rsp
  stack : ∀ a, s.registers .rsp ≤ a → t.stack a = s.stack a
  cells : t.cells = s.cells
  output : t.output = s.output ++ [word (s.registers .rsi)]

theorem printed_of_printf? {library : Library} {items : List Item} {s t : State}
    (h : s.printf? library items = some t) : Printed s t := by
  unfold State.printf? at h
  split at h
  · simp only [Option.some.injEq] at h
    subst h
    refine ⟨rfl, rfl, rfl, rfl, fun a ha => ?_, rfl, rfl⟩
    show (if a < s.registers .rsp then library.stack s a else s.stack a) = s.stack a
    rw [if_neg (by omega)]
  · simp at h

/-- A misaligned call of `printf` is stuck. -/
theorem aligned_of_run? {library : Library} {items : List Item} {s t : State} {target : Target}
    (h : s.run? library items (.call (.printf target)) = some t) : s.registers .rsp % 16 = 0 := by
  simp only [State.run?] at h
  split at h
  · obtain ⟨u, hu, -⟩ := Option.map_eq_some_iff.1 h
    unfold State.printf? at hu
    split at hu
    · exact ‹s.CallsPrintf library items›.2.2.2
    · cases hu
  · cases h

theorem stack_of_jump? {items : List Item} {s t : State} {label : Symbol}
    (h : s.jump? items label = some t) : t.stack = s.stack ∧ t.output = s.output := by
  obtain ⟨index, -, rfl⟩ := Option.map_eq_some_iff.1 h
  exact ⟨rfl, rfl⟩

/-- An instruction other than a call of `printf` prints nothing, and changes no word of
the stack whose bytes it does not write. -/
theorem memory_of_run? {library : Library} {items : List Item} {s t : State} {i : Instr}
    (h : s.run? library items i = some t) :
    (∃ target u, i = .call (.printf target) ∧ s.printf? library items = some u ∧ t = u.next) ∨
    (t.output = s.output ∧
      ∀ a, (∀ byte, a ≤ byte → byte < a + 8 → ¬ s.WritesBy i byte) → t.stack a = s.stack a) := by
  have hpush : ∀ {a}, (∀ byte, a ≤ byte → byte < a + 8 →
      ¬ (s.registers .rsp - 8 ≤ byte ∧ byte < s.registers .rsp)) → a ≠ s.registers .rsp - 8 := by
    rintro a hbyte rfl
    exact hbyte _ (Int.le_refl _) (by omega) ⟨Int.le_refl _, by omega⟩
  cases i with
  | mov source destination =>
      obtain ⟨u, hu, rfl⟩ := Option.map_eq_some_iff.1 h
      have houtput : u.next.output = s.output := by rw [State.output_next, output_of_write? hu]
      refine .inr ⟨houtput, fun a hw => ?_⟩
      rw [State.stack_next]
      refine stack_of_write? hu fun offset base hd => ?_
      subst hd
      rintro rfl
      exact hw _ (Int.le_refl _) (by omega) ⟨Int.le_refl _, by omega⟩
  | push r =>
      cases h
      exact .inr ⟨rfl, fun a hw => if_neg (hpush hw)⟩
  | call function =>
      cases function
      case printf target =>
        simp only [State.run?] at h
        split at h
        · obtain ⟨u, hu, rfl⟩ := Option.map_eq_some_iff.1 h
          exact .inl ⟨target, u, rfl, hu, rfl⟩
        · cases h
      all_goals
        refine .inr ⟨(stack_of_jump? h).2, fun a hw => ?_⟩
        rw [(stack_of_jump? h).1]
        exact if_neg (hpush hw)
  | je label =>
      obtain ⟨equal, -, hj⟩ := Option.bind_eq_some_iff.1 h
      split at hj
      · exact .inr ⟨(stack_of_jump? hj).2, fun a _ => congrFun (stack_of_jump? hj).1 a⟩
      · cases hj
        exact .inr ⟨rfl, fun _ _ => rfl⟩
  | jmp label => exact .inr ⟨(stack_of_jump? h).2, fun a _ => congrFun (stack_of_jump? h).1 a⟩
  | set condition =>
      obtain ⟨holds, -, rfl⟩ := Option.map_eq_some_iff.1 h
      exact .inr ⟨rfl, fun _ _ => rfl⟩
  | add source destination | sub source destination | and source destination =>
      cases destination with
      | register r => cases source <;> cases r <;> cases h <;> exact .inr ⟨rfl, fun _ _ => rfl⟩
      | immediate | stack | cell => cases source <;> cases h
  | pop r | mul r | cmp right left | widen | lea symbol r | ret =>
      cases h
      exact .inr ⟨rfl, fun _ _ => rfl⟩

/-- An instruction changes no word of the stack whose bytes it does not write. -/
theorem stack_of_run? {library : Library} {items : List Item} {s t : State} {i : Instr} {a : Int}
    (h : s.run? library items i = some t)
    (hw : ∀ byte, a ≤ byte → byte < a + 8 → ¬ s.WritesBy i byte) : t.stack a = s.stack a := by
  obtain ⟨target, u, rfl, hu, rfl⟩ | ⟨-, hstack⟩ := memory_of_run? h
  · refine (printed_of_printf? hu).stack a ?_
    have hlow : ¬ a < s.registers .rsp := hw a (Int.le_refl a) (by omega)
    omega
  · exact hstack a hw

/-- An instruction keeps what has been printed, and may print more. -/
theorem output_of_run? {library : Library} {items : List Item} {s t : State} {i : Instr}
    (h : s.run? library items i = some t) : s.output <+: t.output := by
  obtain ⟨target, u, rfl, hu, rfl⟩ | ⟨houtput, -⟩ := memory_of_run? h
  · exact ⟨_, (printed_of_printf? hu).output.symm⟩
  · exact houtput ▸ List.prefix_rfl

theorem stack_of_step? {library : Library} {items : List Item} {s t : State} {a : Int}
    (h : step? library items s = some t)
    (hw : ∀ byte, a ≤ byte → byte < a + 8 → ¬ s.Writes items byte) : t.stack a = s.stack a := by
  unfold step? at h
  split at h
  · simp only [Option.some.injEq] at h
    rw [← h, State.stack_next]
  · rename_i i hi
    exact stack_of_run? h fun byte hle hlt hby => hw byte hle hlt ⟨i, hi, hby⟩
  · simp at h

theorem output_of_step? {library : Library} {items : List Item} {s t : State}
    (h : step? library items s = some t) : s.output <+: t.output := by
  unfold step? at h
  split at h
  · cases h
    exact List.prefix_rfl
  · exact output_of_run? h
  · simp at h

/-! ### Paths -/

/-- The machine takes `n` steps from one state to another, each from a state that
satisfies `ok`. -/
inductive Path (library : Library) (items : List Item) (ok : State → Prop) :
    Nat → State → State → Prop
  | refl (s : State) : Path library items ok 0 s s
  | step {n : Nat} {s u t : State} (hok : ok s) (hstep : step? library items s = some u)
      (rest : Path library items ok n u t) : Path library items ok (n + 1) s t

namespace Path

variable {library : Library} {items : List Item} {ok ok' : State → Prop} {m n : Nat} {s t u : State}

theorem single (hok : ok s) (hstep : step? library items s = some t) :
    Path library items ok 1 s t := .step hok hstep (.refl t)

theorem trans (h : Path library items ok m s t) (h' : Path library items ok n t u) :
    Path library items ok (m + n) s u := by
  induction h with
  | refl s => rwa [Nat.zero_add]
  | step hok hstep _ ih =>
      rw [Nat.add_right_comm]
      exact .step hok hstep (ih h')

theorem mono (h : Path library items ok n s t) (hok : ∀ s, ok s → ok' s) :
    Path library items ok' n s t := by
  induction h with
  | refl s => exact .refl s
  | step hs hstep _ ih => exact .step (hok _ hs) hstep ih

theorem steps?_eq (h : Path library items ok n s t) : steps? library items n s = some t := by
  induction h with
  | refl s => rfl
  | step _ hstep _ ih => rw [steps?, hstep, Option.bind_some, ih]

/-- The states passed on the way, each with what it satisfies. -/
theorem ok_of_lt (h : Path library items ok n s t) (hm : m < n) :
    ∃ u, steps? library items m s = some u ∧ ok u := by
  induction h generalizing m with
  | refl s => omega
  | @step n s v t hok hstep _ ih =>
      cases m with
      | zero => exact ⟨s, rfl, hok⟩
      | succ m =>
          obtain ⟨u, hu, hoku⟩ := ih (Nat.lt_of_succ_lt_succ hm)
          exact ⟨u, by rw [steps?, hstep, Option.bind_some, hu], hoku⟩

/-- A word that no state on the way writes is the same at the end. -/
theorem stack_eq_of_steps? (h : Path library items ok n s t) {a : Int}
    (hw : ∀ m < n, ∀ u, steps? library items m s = some u → ok u →
      ∀ byte, a ≤ byte → byte < a + 8 → ¬ u.Writes items byte) :
    t.stack a = s.stack a := by
  induction h with
  | refl s => rfl
  | step hok hstep _ ih =>
      rw [ih fun m hm v hv => hw (m + 1) (Nat.succ_lt_succ hm) v (by
          rw [steps?, hstep, Option.bind_some, hv]),
        stack_of_step? hstep (hw 0 (Nat.succ_pos _) _ rfl hok)]

theorem stack_eq (h : Path library items ok n s t) {a : Int}
    (hw : ∀ u, ok u → ∀ byte, a ≤ byte → byte < a + 8 → ¬ u.Writes items byte) :
    t.stack a = s.stack a :=
  h.stack_eq_of_steps? fun _ _ u _ => hw u

end Path

theorem steps?_add (library : Library) (items : List Item) (m n : Nat) (s : State) :
    steps? library items (m + n) s =
      (steps? library items m s).bind (steps? library items n) := by
  induction m generalizing s with
  | zero => rw [Nat.zero_add, steps?, Option.bind_some]
  | succ m ih =>
      rw [Nat.succ_add, steps?, steps?, Option.bind_assoc]
      exact congrArg _ (funext ih)

/-- What a run has printed is the beginning of what it prints when it goes on. -/
theorem output_grows {library : Library} {items : List Item} {m n : Nat}
    {s t u : State} (hmn : m ≤ n) (ht : steps? library items m s = some t)
    (hu : steps? library items n s = some u) : t.output <+: u.output := by
  obtain ⟨k, rfl⟩ := Nat.exists_eq_add_of_le hmn
  rw [steps?_add, ht, Option.bind_some] at hu
  clear ht hmn
  induction k generalizing t with
  | zero =>
      cases hu
      exact List.prefix_rfl
  | succ k ih =>
      rw [steps?] at hu
      obtain ⟨v, hv, hu⟩ := Option.bind_eq_some_iff.1 hu
      exact (output_of_step? hv).trans (ih hu)

/-- The machine is about to call a function of the program. -/
def State.CallsFunction (items : List Item) (s : State) : Prop :=
  ∃ name, items[s.pc]? = some (.instr (.call (.function name)))

/-- The machine is about to call the C library. -/
def State.CallsLibrary (items : List Item) (s : State) : Prop :=
  ∃ target, items[s.pc]? = some (.instr (.call (.printf target)))

/-- What is asked of a state in the code of user functions: the code ends at
`limit`, the next step writes only bytes that `writable` allows it, a function
is called only from a state that satisfies `calls`, and `printf` only with an aligned
stack. -/
structure Stays (items : List Item) (limit : Nat) (calls : State → Prop)
    (writable : State → Int → Prop) (s : State) : Prop where
  inside : s.pc < limit
  writes : ∀ byte, s.Writes items byte → writable s byte
  calls : s.CallsFunction items → calls s
  prints : s.CallsLibrary items → s.registers .rsp % 16 = 0

theorem Stays.mono {items : List Item} {limit : Nat} {calls : State → Prop}
    {writable writable' : State → Int → Prop} {s : State}
    (h : Stays items limit calls writable s)
    (hw : ∀ byte, writable s byte → writable' s byte) :
    Stays items limit calls writable' s :=
  ⟨h.inside, fun byte hb => hw byte (h.writes byte hb), h.calls, h.prints⟩

end FunCompiler.Semantics
