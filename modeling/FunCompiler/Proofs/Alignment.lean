import FunCompiler.Proofs.EntryFrame

/-!
The alignment of the stack at calls. If the C runtime enters the program with
an aligned stack, `printf` is always called with an aligned one, because a print
rounds the stack pointer down, and so is the entry function. A function is
called as far below the frame pointer of its caller as operands wait and areas
are reserved there, and this need not be a multiple of 16: an area for two
actuals takes 24 bytes, a waiting operand takes 8. Main statement: this is all
that can go wrong. Every frame was made by a call, so by going from call to call
towards the entry function, all calls are aligned if and only if all of them
are made at a multiple of 16 bytes below a frame pointer.
-/

namespace FunCompiler.Semantics

open Asm Code

variable {p : Program} {library : Library} {items : List Item} {n : Nat} {s t u v : State}

theorem Reaches.next (h : Reaches library items n s t) (hnot : ¬ AtExit items t)
    (hstep : step? library items t = some u) : Reaches library items (n + 1) s u := by
  refine ⟨?_, fun m hm v hv => ?_⟩
  · rw [steps?_add, h.1, Option.bind_some, steps?, hstep]
    rfl
  · rcases Nat.lt_or_eq_of_le (Nat.le_of_lt_succ hm) with hlt | rfl
    · exact h.2 m hlt v hv
    · rw [h.1, Option.some.injEq] at hv
      rwa [← hv]

/-- The run that starts in `s` calls a function in `t`. -/
def Calls (library : Library) (items : List Item) (s t : State) : Prop :=
  (∃ n, Reaches library items n s t) ∧ t.CallsFunction items

/-- An accepted program in its surroundings, with the states of the run that starts in
`s`. -/
def Process.ofRun (p : Program) (library : Library) (h : p.diagnostics = []) (s : State) :
    Process where
  program := p
  library := library
  accepted := h
  visited t := ∃ n, Reaches library (p.generate library.target).items n s t
  onward _ _ := fun ⟨n, hreaches⟩ hnot hstep => ⟨n + 1, hreaches.next hnot hstep⟩

/-- How the run that starts in `s` comes to call a function in `t`. -/
inductive CallSite (p : Program) (library : Library) (s t : State) : Prop
  /-- The entry point calls the entry function. -/
  | entry (hpc : (p.userCode library.target).length ≤ t.pc)
      (hrsp : t.registers .rsp = s.registers .rsp - 24)
  /-- A function calls, at a depth that its syntax tells, in a frame that a call has made. -/
  | nested (hpc : t.pc < (p.userCode library.target).length)
      (hframe : ∃ v, Calls library (p.generate library.target).items s v ∧
        v.registers .rsp = t.registers .rbp + 16)
      (hbelow : t.registers .rsp ≤ t.registers .rbp)
      (hrsp : t.registers .rsp < s.registers .rsp - 24)
      (hdepth : ∃ f ∈ p.functions, t.registers .rbp - t.registers .rsp ∈ f.body.callDepths)

section Runs

variable (haccepted : p.diagnostics = []) (hs : Started (p.generate library.target).items s)

include haccepted hs

/-- A state of a run that is not about to return is on the way. -/
theorem Reaches.running (h : Reaches library (p.generate library.target).items n s t)
    (hret : (p.generate library.target).items[t.pc]? ≠ some (.instr .ret)) :
    ∃ f u, (Process.ofRun p library haccepted s).Called f s u ∧
      (Process.ofRun p library haccepted s).Running (Frame.entered f u) f.body.targets t := by
  let P := Process.ofRun p library haccepted s
  obtain ⟨f, hfind⟩ := Program.exists_entry haccepted
  have hvisited : P.visited s := ⟨0, rfl, fun m hm => absurd hm (Nat.not_lt_zero m)⟩
  obtain ⟨u, hcalled, hstates⟩ := Process.running_or_ends (P := P) hs hfind hvisited
  refine ⟨f, u, hcalled, ?_⟩
  rcases hstates n t h with hrunning | hends
  · exact hrunning
  · obtain ⟨-, k, w, -, -, -, hleft⟩ := hends
    exact absurd hleft.exit.1 hret

/-- A call is the entry point's, or is made in a frame that a call has made. -/
theorem Calls.site (h : Calls library (p.generate library.target).items s t) :
    CallSite p library s t := by
  obtain ⟨⟨n, hreaches⟩, hcalls⟩ := h
  obtain ⟨name, hname⟩ := hcalls
  have hret : (p.generate library.target).items[t.pc]? ≠ some (.instr .ret) := by
    rw [hname]
    simp
  obtain ⟨f, u, hcalled, hrunning⟩ := hreaches.running haccepted hs hret
  have hbase : (Frame.entered f u).base = s.registers .rsp - 40 := hcalled.base_entered
  rcases hrunning.calls ⟨name, hname⟩ with ⟨hpc, hnested⟩ | ⟨hpc, hrsp⟩
  · obtain ⟨v, hvisited, hv, hframe⟩ := hnested.frame
    obtain ⟨g, hg, hdepth⟩ := List.mem_flatMap.1 hnested.depth
    refine .nested hpc ⟨v, ⟨hvisited, hv⟩, hframe⟩ hnested.below ?_ ⟨g, hg, hdepth⟩
    -- a call writes its return address, which belongs to the entry function
    have hown := hrunning.writes hpc (t.registers .rsp - 8)
      ⟨_, hname, Int.le_refl _, by omega⟩
    rcases hown with hlt | ⟨_, -, _, -, -, hmov, -⟩
    · omega
    · cases hname.symm.trans hmov
  · exact .entry hpc (by omega)

/-- What holds of the entry point's call, and passes from the call that made a frame to
those that are made in it, holds of every call. -/
theorem Calls.induction {motive : State → Prop}
    (hentry : ∀ t, Calls library (p.generate library.target).items s t →
      t.registers .rsp = s.registers .rsp - 24 → motive t)
    (hnested : ∀ t v, Calls library (p.generate library.target).items s t →
      t.pc < (p.userCode library.target).length →
      v.registers .rsp = t.registers .rbp + 16 → motive v → motive t)
    (h : Calls library (p.generate library.target).items s t) : motive t := by
  -- a call is made below the one that made its frame, and none is above the entry point's
  have hbounded : ∀ (k : Nat) t, Calls library (p.generate library.target).items s t →
      s.registers .rsp - 24 - t.registers .rsp < k → motive t := by
    intro k
    induction k with
    | zero =>
        intro t ht hlt
        cases ht.site haccepted hs with
        | entry _ hrsp => exact hentry t ht hrsp
        | nested _ _ _ hrsp _ => omega
    | succ k ih =>
        intro t ht hlt
        cases ht.site haccepted hs with
        | entry _ hrsp => exact hentry t ht hrsp
        | nested hpc hframe hbelow hrsp _ =>
            obtain ⟨v, hv, hframe⟩ := hframe
            exact hnested t v ht hpc hframe (ih v hv (by omega))
  exact hbounded (s.registers .rsp - 24 - t.registers .rsp + 1).toNat t h (by omega)

end Runs

/-- In a run that starts with an aligned stack, `printf` is called with an aligned stack,
and so is the entry function by the entry point. Inside a function a call is made in a
frame that a call has made, at a depth below the frame pointer that the syntax tells. All
functions are called with an aligned stack if and only if all of these depths are
multiples of 16, which they are if the syntax has no other depth. -/
theorem calls_aligned_iff (library : Library) (haccepted : p.diagnostics = [])
    (hs : Started (p.generate library.target).items s) (hrsp : s.registers .rsp % 16 = 8) :
    (∀ n t, Reaches library (p.generate library.target).items n s t →
      t.CallsLibrary (p.generate library.target).items → t.registers .rsp % 16 = 0) ∧
    (∀ t, Calls library (p.generate library.target).items s t →
      (p.userCode library.target).length ≤ t.pc → t.registers .rsp % 16 = 0) ∧
    (∀ t, Calls library (p.generate library.target).items s t →
      t.pc < (p.userCode library.target).length →
      (∃ v, Calls library (p.generate library.target).items s v ∧
        v.registers .rsp = t.registers .rbp + 16) ∧
      ∃ f ∈ p.functions, t.registers .rbp - t.registers .rsp ∈ f.body.callDepths) ∧
    ((∀ t, Calls library (p.generate library.target).items s t → t.registers .rsp % 16 = 0) ↔
      ∀ t, Calls library (p.generate library.target).items s t →
        t.pc < (p.userCode library.target).length →
        (t.registers .rbp - t.registers .rsp) % 16 = 0) ∧
    ((∀ f ∈ p.functions, ∀ depth ∈ f.body.callDepths, depth % 16 = 0) →
      ∀ t, Calls library (p.generate library.target).items s t → t.registers .rsp % 16 = 0) := by
  have haligned : (∀ t, Calls library (p.generate library.target).items s t →
        t.pc < (p.userCode library.target).length →
        (t.registers .rbp - t.registers .rsp) % 16 = 0) →
      ∀ t, Calls library (p.generate library.target).items s t → t.registers .rsp % 16 = 0 := by
    intro hdepths t ht
    refine ht.induction haccepted hs (motive := fun t => t.registers .rsp % 16 = 0)
      (fun t _ hentry => ?_) fun t v ht hpc hframe hv => ?_
    · omega
    · have hdepth := hdepths t ht hpc
      omega
  refine ⟨fun n t hreaches hprints => ?_, fun t ht hpc => ?_, fun t ht hpc => ?_,
    ⟨fun hall t ht hpc => ?_, haligned⟩, fun hsyntax => haligned fun t ht hpc => ?_⟩
  · obtain ⟨target, htarget⟩ := hprints
    have hret : (p.generate library.target).items[t.pc]? ≠ some (.instr .ret) := by
      rw [htarget]
      simp
    obtain ⟨f, u, -, hrunning⟩ := hreaches.running haccepted hs hret
    exact hrunning.prints ⟨target, htarget⟩
  · cases ht.site haccepted hs with
    | entry _ hentry => omega
    | nested hlt => omega
  · cases ht.site haccepted hs with
    | entry hle => omega
    | nested _ hframe _ _ hdepth => exact ⟨hframe, hdepth⟩
  · cases ht.site haccepted hs with
    | entry hle => omega
    | nested _ hframe =>
        obtain ⟨v, hv, hframe⟩ := hframe
        have hthere := hall v hv
        have hhere := hall t ht
        omega
  · cases ht.site haccepted hs with
    | entry hle => omega
    | nested _ _ _ _ hdepth =>
        obtain ⟨f, hf, hdepth⟩ := hdepth
        exact hsyntax f hf _ hdepth

/-- A machine as `State.blank`, with a stack as the C runtime leaves it. -/
def State.fresh (pc : Nat) : State := (State.blank pc).setRegister .rsp 8

theorem started_fresh (p : Program) (target : Target)
    (hzero : (p.generate target).items.all declaresZero = true) :
    Started (p.generate target).items (.fresh ((p.userCode target).length + 2)) :=
  have h := started_blank p target hzero
  ⟨h.pc, h.cells, h.output⟩

/-- Calls with one actual, one inside another. -/
def nestedUnaryCalls : Program :=
  ⟨[⟨"id", ["n"], .block [.print (.var "n"), .ret (.var "n")]⟩,
    ⟨"main", [], .block [.assign "x" (.call "id" [.call "id" [.lit 3]])]⟩]⟩

theorem nestedUnaryCalls_aligned :
    nestedUnaryCalls.diagnostics = [] ∧
    (∀ f ∈ nestedUnaryCalls.functions, ∀ depth ∈ f.body.callDepths, depth % 16 = 0) ∧
    ∀ t, Calls (.blank .elf) (nestedUnaryCalls.generate .elf).items
        (.fresh ((nestedUnaryCalls.userCode .elf).length + 2)) t →
      t.registers .rsp % 16 = 0 := by
  have hs := started_fresh nestedUnaryCalls .elf (by decide)
  have hdepths : ∀ f ∈ nestedUnaryCalls.functions, ∀ depth ∈ f.body.callDepths,
      depth % 16 = 0 := by
    decide
  obtain ⟨-, -, -, -, haligned⟩ := calls_aligned_iff (.blank .elf) (by decide) hs rfl
  exact ⟨by decide, hdepths, haligned hdepths⟩

theorem reaches_of_steps? (h : steps? library items n s = some t)
    (hret : ∀ m < n, (steps? library items m s).all
      (fun u => items[u.pc]? != some (.instr .ret)) = true) :
    Reaches library items n s t := by
  refine ⟨h, fun m hm u hu hexit => ?_⟩
  have hitem := hret m hm
  rw [hu, Option.all_some, hexit.1] at hitem
  cases hitem

/-- A call with two actuals, for which 24 bytes are reserved. -/
def binaryCall : Program :=
  ⟨[⟨"f", ["a", "b"], .block []⟩,
    ⟨"main", [], .block [.assign "x" (.call "f" [.lit 1, .lit 2])]⟩]⟩

/-- A program without a diagnostic can call a function with a misaligned stack. -/
theorem binaryCall_misaligned :
    binaryCall.diagnostics = [] ∧
    Started (binaryCall.generate .elf).items (.fresh ((binaryCall.userCode .elf).length + 2)) ∧
    (State.fresh ((binaryCall.userCode .elf).length + 2)).registers .rsp % 16 = 8 ∧
    ∃ t, Calls (.blank .elf) (binaryCall.generate .elf).items
        (.fresh ((binaryCall.userCode .elf).length + 2)) t ∧
      t.registers .rsp % 16 = 8 := by
  refine ⟨by decide, started_fresh binaryCall .elf (by decide), rfl, _,
    ⟨⟨16, reaches_of_steps? rfl ?_⟩, "f", rfl⟩, rfl⟩
  decide +kernel

end FunCompiler.Semantics
