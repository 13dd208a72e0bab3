import FunCompiler.Proofs.Simulation.Stmt

/-!
Runs of a whole program. The entry point saves what belongs to the C runtime,
calls the entry function and gives back what it saved. It passes no actuals:
where the entry function looks for its formals, it finds a word of padding, the
saved `%rbx`, the saved `%rbp`, the return address and whatever lies above
(`Process.found`). With these for its formals the entry function runs as any
other.
-/

namespace FunCompiler.Semantics.Process

open Asm Code

variable {P : Process} {f : Function} {frame : Frame} {names : List String} {s t u : State}
  {σ : Store} {a : Word}

variable (P) in
/-- What is asked of every state of a run before its end: functions write only what
the entry function owns, a call is made inside a function or is the one that made the
entry function's frame, and `printf` is called with an aligned stack. -/
structure Running (frame : Frame) (names : List String) (s : State) : Prop where
  notExit : ¬ AtExit P.items s
  writes : s.pc < P.user.length → ∀ byte, s.Writes P.items byte → frame.Own P.items names s byte
  calls : s.CallsFunction P.items →
    s.pc < P.user.length ∧ P.Nested s ∨
      P.user.length ≤ s.pc ∧ s.registers .rsp = frame.base + 16
  prints : s.CallsLibrary P.items → s.registers .rsp % 16 = 0

variable (P) in
/-- A run that has not ended. -/
abbrev Whole (frame : Frame) (names : List String) : Nat → State → State → Prop :=
  Semantics.Path P.library P.items (P.Running frame names)

theorem Running.of_stays
    (h : Stays P.items P.user.length P.Nested (frame.Own P.items names) s) :
    P.Running frame names s where
  notExit := not_atExit h.inside
  writes _ := h.writes
  calls hcalls := .inl ⟨h.inside, h.calls hcalls⟩
  prints := h.prints

/-- A run that has not ended stays among the states that are visited. -/
theorem visited_of_whole {n : Nat} (h : P.Whole frame names n s t) (hs : P.visited s) :
    P.visited t := by
  induction h with
  | refl s => exact hs
  | step hok hstep _ ih => exact ih (P.onward _ _ hs hok.notExit hstep)

/-! ### The entry point -/

theorem lies_entryCode : Lies P.items P.user.length entryCode := by
  rw [Lies, items_eq, List.drop_left, rest]
  exact List.prefix_append ..

/-- A step of the entry point. -/
theorem whole_entry {i : Instr} {code : List Item}
    (hlies : Lies P.items s.pc (.instr i :: code)) (hpc : P.user.length ≤ s.pc)
    (hrun : s.run? P.library P.items i = some t) (hret : i ≠ .ret)
    (hcalls : i.callee? = none ∨ s.registers .rsp = frame.base + 16) :
    P.Whole frame names 1 s t := by
  have hget := hlies.getElem? []
  rw [List.append_nil] at hget
  refine .single ⟨?_, fun hlt => absurd hpc (Nat.not_le.2 hlt), ?_, ?_⟩ ?_
  · rintro ⟨hexit, -⟩
    rw [hget] at hexit
    exact hret (Item.instr.inj (Option.some.inj hexit))
  · rintro ⟨name, hname⟩
    rw [hget] at hname
    cases hname
    exact .inr ⟨hpc, hcalls.resolve_left (Option.some_ne_none name)⟩
  · rintro ⟨target, htarget⟩
    rw [hget] at htarget
    cases htarget
    exact aligned_of_run? hrun
  · rw [step?, hget]
    exact hrun

/-- A label of the entry point is passed. -/
theorem whole_label {symbol : Symbol} {code : List Item}
    (hlies : Lies P.items s.pc (.label symbol :: code)) (hpc : P.user.length ≤ s.pc) :
    P.Whole frame names 1 s s.next := by
  have hget := hlies.getElem? []
  rw [List.append_nil] at hget
  refine .single ⟨?_, fun hlt => absurd hpc (Nat.not_le.2 hlt), ?_, ?_⟩ ?_
  · rintro ⟨hexit, -⟩
    rw [hget] at hexit
    cases hexit
  · rintro ⟨name, hname⟩
    rw [hget] at hname
    cases hname
  · rintro ⟨target, htarget⟩
    rw [hget] at htarget
    cases htarget
  · rw [step?, hget]

variable (P) in
/-- The entry point has saved the registers of the C runtime and called the function. -/
structure Called (f : Function) (s u : State) : Prop where
  enters : P.Enters f u.pc
  made : P.CalledWith (u.registers .rsp + 8)
  rsp : u.registers .rsp = s.registers .rsp - 32
  rbp : u.registers .rbp = s.registers .rsp - 8
  back : u.stack (s.registers .rsp - 32) = P.user.length + 9
  savedRbx : u.stack (s.registers .rsp - 16) = s.registers .rbx
  savedRbp : u.stack (s.registers .rsp - 8) = s.registers .rbp
  above : ∀ x, s.registers .rsp ≤ x → u.stack x = s.stack x
  cells : u.cells = s.cells
  output : u.output = s.output

theorem exists_called (hpc : s.pc = P.user.length + 2)
    (hfind : P.program.find? entryName = some f) (hvisited : P.visited s) :
    ∃ u, P.Whole (Frame.entered f u) f.body.targets 7 s u ∧ P.Called f s u := by
  obtain ⟨hf, hname⟩ := Program.find?_name hfind
  obtain ⟨entry, henters, hjump⟩ := exists_enters hf
  rw [hname] at hjump
  have hlies : Lies P.items s.pc (entryCode.drop 2) := by
    rw [hpc]
    exact lies_entryCode.tail.tail
  let s₂ : State := s.next.next
  let s₃ : State := (s₂.push (s₂.registers .rbp)).next
  let s₄ : State := (s₃.setRegister .rbp (s₃.registers .rsp)).next
  let s₅ : State := (s₄.push (s₄.registers .rbx)).next
  let s₆ : State := (s₅.shift (-8)).next
  let s₇ : State := { s₆.push (s₆.pc + 1) with pc := entry }
  have hrsp : s₆.registers .rsp = s.registers .rsp - 24 := by
    show s.registers .rsp - 8 - 8 + -8 = _
    omega
  have hle : ∀ k, P.user.length ≤ s.pc + k := fun k => by omega
  have hsaved : P.Whole (Frame.entered f s₇) f.body.targets 6 s s₆ := by
    have h₁ : P.Whole (Frame.entered f s₇) f.body.targets 1 s s.next := whole_label hlies (hle 0)
    have h₂ : P.Whole (Frame.entered f s₇) f.body.targets 1 s.next s₂ :=
      whole_label hlies.tail (hle 1)
    have h₃ : P.Whole (Frame.entered f s₇) f.body.targets 1 s₂ s₃ :=
      whole_entry hlies.tail.tail (hle 2) rfl nofun (.inl rfl)
    have h₄ : P.Whole (Frame.entered f s₇) f.body.targets 1 s₃ s₄ :=
      whole_entry hlies.tail.tail.tail (hle 3) rfl nofun (.inl rfl)
    have h₅ : P.Whole (Frame.entered f s₇) f.body.targets 1 s₄ s₅ :=
      whole_entry hlies.tail.tail.tail.tail (hle 4) rfl nofun (.inl rfl)
    have h₆ : P.Whole (Frame.entered f s₇) f.body.targets 1 s₅ s₆ :=
      whole_entry hlies.tail.tail.tail.tail.tail (hle 5) rfl nofun (.inl rfl)
    exact ((((h₁.trans h₂).trans h₃).trans h₄).trans h₅).trans h₆
  have hlies₆ : Lies P.items s₆.pc (entryCode.drop 8) := hlies.tail.tail.tail.tail.tail.tail
  have hcall : P.Whole (Frame.entered f s₇) f.body.targets 1 s₆ s₇ := by
    refine whole_entry hlies₆ (hle 6) (hjump _) nofun (.inr ?_)
    show s₆.registers .rsp = s₆.registers .rsp - 8 - 8 + 16
    omega
  have hmade : P.CalledWith (s₇.registers .rsp + 8) := by
    refine ⟨s₆, visited_of_whole hsaved hvisited, ⟨entryName, by simpa using hlies₆.getElem? []⟩, ?_⟩
    show s₆.registers .rsp = s₆.registers .rsp - 8 + 8
    omega
  have hstack : ∀ x, s₇.stack x =
      if x = s.registers .rsp - 32 then (P.user.length + 9 : Int)
      else if x = s.registers .rsp - 16 then s.registers .rbx
      else if x = s.registers .rsp - 8 then s.registers .rbp else s.stack x := by
    intro x
    show (if x = s₆.registers .rsp - 8 then ((s.pc + 1 + 1 + 1 + 1 + 1 + 1 : Nat) + 1 : Int)
      else if x = s.registers .rsp - 8 - 8 then s.registers .rbx
      else if x = s.registers .rsp - 8 then s.registers .rbp else s.stack x) = _
    rw [hrsp, hpc, Int.sub_sub, Int.sub_sub]
    rfl
  refine ⟨s₇, hsaved.trans hcall, henters, hmade, ?_, rfl, ?_, ?_, ?_, fun x hx => ?_, rfl, rfl⟩
  · show s₆.registers .rsp - 8 = _
    rw [hrsp, Int.sub_sub]
    rfl
  · rw [hstack, if_pos rfl]
  · rw [hstack, if_neg (by omega), if_pos rfl]
  · rw [hstack, if_neg (by omega), if_neg (by omega), if_pos rfl]
  · rw [hstack, if_neg (by omega), if_neg (by omega), if_neg (by omega)]

variable (P) in
/-- The entry point gives the registers back and is about to return. -/
structure Left (s u : State) : Prop where
  exit : AtExit P.items u
  rsp : u.registers .rsp = s.registers .rbp + 8
  rbx : u.registers .rbx = s.stack (s.registers .rbp - 8)
  rbp : u.registers .rbp = s.stack (s.registers .rbp)
  rax : u.registers .rax = s.registers .rax
  stack : u.stack = s.stack
  output : u.output = s.output

theorem exists_left (hpc : s.pc = P.user.length + 9) :
    ∃ u, P.Whole frame names 3 s u ∧ P.Left s u := by
  have hlies : Lies P.items s.pc (entryCode.drop 9) := by
    rw [hpc]
    exact lies_entryCode.tail.tail.tail.tail.tail.tail.tail.tail.tail
  let s₁ : State := (s.setRegister .rbx (s.stack (s.registers .rbp + -8))).next
  let s₂ : State := (s₁.setRegister .rsp (s₁.registers .rbp)).next
  let s₃ : State :=
    ((s₂.setRegister .rsp (s₂.registers .rsp + 8)).setRegister .rbp
      (s₂.stack (s₂.registers .rsp))).next
  have hle : ∀ k, P.user.length ≤ s.pc + k := fun k => by omega
  have h₁ : P.Whole frame names 1 s s₁ := whole_entry hlies (hle 0) rfl nofun (.inl rfl)
  have h₂ : P.Whole frame names 1 s₁ s₂ := whole_entry hlies.tail (hle 1) rfl nofun (.inl rfl)
  have h₃ : P.Whole frame names 1 s₂ s₃ := whole_entry hlies.tail.tail (hle 2) rfl nofun (.inl rfl)
  have hret := hlies.tail.tail.tail.getElem? []
  rw [List.append_nil] at hret
  refine ⟨s₃, (h₁.trans h₂).trans h₃, ⟨hret, _, labelIndex?_entry, ?_⟩, rfl, rfl, rfl, rfl, rfl,
    rfl⟩
  show _ < s.pc + 3
  omega

/-! ### Whole runs -/

/-- What a function finds for its formals when it is entered. -/
def found (f : Function) (s : State) : List Word :=
  (List.range f.formals.length).map fun index : Nat =>
    word (s.stack (s.registers .rsp + 8 + 8 * index))

theorem length_found (f : Function) (s : State) : (found f s).length = f.formals.length := by
  rw [found, List.length_map, List.length_range]

theorem holdsWords_found (f : Function) (s : State) :
    HoldsWords (s.registers .rsp + 8) (found f s) s := by
  intro index value hvalue
  rw [found, List.getElem?_map, Option.map_eq_some_iff] at hvalue
  obtain ⟨other, hother, rfl⟩ := hvalue
  rw [List.getElem?_range (by
    rw [← List.length_range (n := f.formals.length)]
    exact (List.getElem?_eq_some_iff.1 hother).1), Option.some.injEq] at hother
  rw [hother]

/-- The data section holds zero for every global at first. -/
theorem agrees_initial (hs : Started P.items s) (hcells : u.cells = s.cells)
    (hout : u.output = s.output) : P.Agrees .initial u where
  cells v hv := by
    obtain ⟨index, hlabel, hquad⟩ := P.program.exists_cell P.library.target hv
    rw [hcells, hs.cells index _ 0 hlabel hquad]
    rfl
  output := hout.trans hs.output

/-- From the entry point the machine gets to the entry function, and matches its
evaluation on what it finds for its formals, with any fuel. -/
theorem exists_run (hs : Started P.items s) (hfind : P.program.find? entryName = some f)
    (hvisited : P.visited s) :
    ∃ u, P.Whole (Frame.entered f u) f.body.targets 7 s u ∧ P.Called f s u ∧
      ∀ fuel, P.Matches fuel ((Frame.entered f u).Own P.items f.body.targets)
        (evalCall P.program fuel entryName (found f u)) .initial u
        fun value σ t => P.Returned (Frame.entered f u) value σ t := by
  have hpc : s.pc = P.user.length + 2 := by
    have hentry := hs.pc
    rw [labelIndex?_entry, Option.some.injEq] at hentry
    exact hentry.symm
  obtain ⟨u, hpath, hcalled⟩ := exists_called hpc hfind hvisited
  refine ⟨u, hpath, hcalled, fun fuel => ?_⟩
  have hsim := (meets P fuel).call entryName f (found f u) .initial u hfind hcalled.enters
    (length_found f u) (agrees_initial hs hcalled.cells hcalled.output) (holdsWords_found f u)
    hcalled.made
  exact hsim.mono (Nat.le_refl _) (fun _ _ => id) (fun _ _ _ h => h.2)
    (visited_of_whole hpath hvisited)

/-- A run inside the entry function is part of a whole run. -/
theorem Path.whole {n : Nat} (h : P.Path (frame.Own P.items names) n s t) :
    P.Whole frame names n s t := h.mono fun _ => .of_stays

/-- When the entry function has returned, the entry point returns. -/
theorem Returned.exists_left (h : P.Returned (Frame.entered f u) a σ t)
    (hcalled : P.Called f s u) : ∃ v, P.Whole frame names 3 t v ∧ P.Left t v := by
  refine Process.exists_left ?_
  rw [h.pc, show (Frame.entered f u).back = u.stack (u.registers .rsp) from rfl, hcalled.rsp,
    hcalled.back]
  rfl

end FunCompiler.Semantics.Process
