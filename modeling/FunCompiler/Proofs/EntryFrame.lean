import FunCompiler.Proofs.Preservation

/-!
What becomes of the entry point's frame. The entry point saves `%rbx` and
`%rbp` for the C runtime and then calls the entry function without actuals,
whatever formals that function has. Its first formal is then the padding of the
frame, the second the saved `%rbx`, the third the saved `%rbp` and the fourth
the return address, and the entry function can assign to them. Main statement:
nothing else ever writes to these words, so each of them is given back to the C
runtime as it was unless the entry function assigns to the formal that lies on it.
-/

namespace FunCompiler.Semantics

open Asm Code

/-- The machine gets to a state in that many steps, and has not been at its end before. -/
def Reaches (library : Library) (items : List Item) (n : Nat) (s t : State) : Prop :=
  steps? library items n s = some t ∧
    ∀ m < n, ∀ u, steps? library items m s = some u → ¬ AtExit items u

/-- Where the entry function has its frame pointer, if the machine is started in `s`. -/
def entryBase (s : State) : Int := s.registers .rsp - 40

/-- In the first `n` steps the entry function, as the entry point called it, assigns to
the formal of that index. -/
def AssignsWithin (library : Library) (items : List Item) (n : Nat) (s : State)
    (index : Nat) : Prop :=
  ∃ m < n, ∃ t, steps? library items m s = some t ∧
    ∃ byte, AssignsFormal items (entryBase s) index t byte

namespace Process

variable {P : Process} {f : Function} {n : Nat} {s t u : State}

/-- Only functions assign to formals. -/
theorem lt_length_of_assignsFormal {base byte : Int} {index : Nat}
    (h : AssignsFormal P.items base index t byte) : t.pc < P.user.length := by
  rw [← Nat.not_le]
  intro hle
  have hget := h.2.1
  rw [items_eq, List.getElem?_append_right hle] at hget
  have hmem := List.mem_of_getElem? hget
  simp [rest, entryCode, enterFrame, leaveFrame, Globals.data, Globals.cell, Globals.label] at hmem

theorem writes_of_assignsFormal {items : List Item} {base byte : Int} {index : Nat}
    (h : AssignsFormal items base index t byte) : t.Writes items byte := by
  obtain ⟨hrbp, hget, hbytes⟩ := h
  refine ⟨_, hget, ?_⟩
  rw [← hrbp] at hbytes
  exact hbytes

theorem Called.base_entered (h : P.Called f s u) : (Frame.entered f u).base = entryBase s := by
  show u.registers .rsp - 8 = s.registers .rsp - 40
  rw [h.rsp]
  omega

/-- What the entry function owns above the return address is its formals. -/
theorem Called.assigns_of_own (h : P.Called f s u) {names : List String} {byte : Int}
    (hown : (Frame.entered f u).Own P.items names t byte) (hbyte : entryBase s + 8 ≤ byte) :
    ∃ name ∈ names, ∃ index, f.formals.idxOf? name = some index ∧
      AssignsFormal P.items (entryBase s) index t byte := by
  unfold Frame.Own at hown
  rw [h.base_entered] at hown
  rcases hown with hlt | hassigns
  · omega
  · exact hassigns

variable (P) in
/-- The run comes to its end in `t`, from where the entry function was entered in `u`. -/
structure Ends (f : Function) (n : Nat) (s u t : State) : Prop where
  entered : steps? P.library P.items 7 s = some u
  returned : ∃ k v, n = 7 + k + 3 ∧
    P.Path ((Frame.entered f u).Own P.items f.body.targets) k u v ∧
    v.registers .rbp = s.registers .rsp - 8 ∧ P.Left v t

/-- Every state of a run is on the way, or is its end. -/
theorem running_or_ends (hs : Started P.items s) (hfind : P.program.find? entryName = some f)
    (hvisited : P.visited s) :
    ∃ u, P.Called f s u ∧ ∀ n t, Reaches P.library P.items n s t →
      P.Running (Frame.entered f u) f.body.targets t ∨ P.Ends f n s u t := by
  obtain ⟨u, hcall, hcalled, hsim⟩ := exists_run hs hfind hvisited
  refine ⟨u, hcalled, fun n t hreaches => ?_⟩
  have hrunning : ∀ {k v}, P.Whole (Frame.entered f u) f.body.targets k s v → n < k →
      P.Running (Frame.entered f u) f.body.targets t := by
    intro k v hwhole hlt
    obtain ⟨t', ht', hrun⟩ := hwhole.ok_of_lt hlt
    rw [hreaches.1, Option.some.injEq] at ht'
    rwa [ht']
  by_cases hends : ∃ fuel value σ,
      runEval (evalCall P.program fuel entryName (found f u)) .initial = (.ok value, σ)
  · obtain ⟨fuel, value, σ, heval⟩ := hends
    obtain ⟨k, v, hpath, hreturned⟩ := (hsim fuel).ok heval
    obtain ⟨e, hleave, hleft⟩ := hreturned.exists_left hcalled
    have hwhole := (hcall.trans hpath.whole).trans hleave
    rcases Nat.lt_trichotomy n (7 + k + 3) with hlt | rfl | hgt
    · exact .inl (hrunning hwhole hlt)
    · have hsteps := hreaches.1
      rw [hwhole.steps?_eq, Option.some.injEq] at hsteps
      subst hsteps
      exact .inr ⟨hcall.steps?_eq, k, v, rfl, hpath, hreturned.rbp.trans hcalled.rbp, hleft⟩
    · exact absurd hleft.exit (hreaches.2 _ hgt e hwhole.steps?_eq)
  · -- the evaluation spends any amount of fuel, so the run is longer than `n` steps
    left
    rcases heval : runEval (evalCall P.program ((n + 1) * P.pace) entryName (found f u)) .initial
      with ⟨e | value, σ⟩
    · obtain ⟨k, v, hpath, hneed, -⟩ := (hsim _).error heval
      have hlt : n + 1 ≤ k := Nat.le_of_mul_le_mul_right hneed (Nat.succ_pos _)
      exact hrunning (hcall.trans hpath.whole) (by omega)
    · exact absurd ⟨_, value, σ, heval⟩ hends

/-- A word of the entry point's frame is kept if the entry function does not assign to
the formal that lies on it. -/
theorem Called.stack_eq (h : P.Called f s u) {k : Nat} {v : State} {index : Nat}
    (hpath : P.Path ((Frame.entered f u).Own P.items f.body.targets) k u v)
    (hnot : ∀ m < k, ∀ t, steps? P.library P.items m u = some t →
      ∀ byte, ¬ AssignsFormal P.items (entryBase s) index t byte) :
    v.stack (entryBase s + formalOffset index) = u.stack (entryBase s + formalOffset index) := by
  refine hpath.stack_eq_of_steps? fun m hm t ht hstays byte hle hlt hwrites => ?_
  have hle' := hle
  simp only [formalOffset] at hle hlt
  obtain ⟨name, -, other, -, hassigns⟩ :=
    h.assigns_of_own (hstays.writes byte hwrites) (by omega)
  have hother : other = index := by
    have hbytes := hassigns.2.2
    simp only [formalOffset] at hbytes
    omega
  subst hother
  exact hnot m hm t ht byte hassigns

/-- At its end a run gives the C runtime its own back, as far as the entry function has
not assigned to the formals that lie on it. -/
theorem Ends.restores (h : P.Ends f n s u t) (hcalled : P.Called f s u) :
    t.registers .rsp = s.registers .rsp ∧
    (¬ AssignsWithin P.library P.items n s 1 → t.registers .rbx = s.registers .rbx) ∧
    (¬ AssignsWithin P.library P.items n s 2 → t.registers .rbp = s.registers .rbp) ∧
    (¬ AssignsWithin P.library P.items n s 3 →
      t.stack (s.registers .rsp) = s.stack (s.registers .rsp)) := by
  obtain ⟨hentered, k, v, rfl, hpath, hrbp, hleft⟩ := h
  have hword : ∀ index, ¬ AssignsWithin P.library P.items (7 + k + 3) s index →
      v.stack (entryBase s + formalOffset index) = u.stack (entryBase s + formalOffset index) := by
    intro index hnot
    refine hcalled.stack_eq hpath fun m hm t ht byte hassigns => hnot ⟨7 + m, by omega, t, ?_, byte,
      hassigns⟩
    rw [steps?_add, hentered, Option.bind_some, ht]
  have hslot : ∀ index : Nat,
      entryBase s + formalOffset index = s.registers .rsp - 24 + 8 * index := by
    intro index
    simp only [entryBase, formalOffset]
    omega
  refine ⟨?_, fun hnot => ?_, fun hnot => ?_, fun hnot => ?_⟩
  · rw [hleft.rsp, hrbp]
    omega
  · have hkept := hword 1 hnot
    rw [hslot, show s.registers .rsp - 24 + 8 * (1 : Nat) = s.registers .rsp - 16 by omega,
      hcalled.savedRbx] at hkept
    rw [hleft.rbx, hrbp, show s.registers .rsp - 8 - 8 = s.registers .rsp - 16 by omega, hkept]
  · have hkept := hword 2 hnot
    rw [hslot, show s.registers .rsp - 24 + 8 * (2 : Nat) = s.registers .rsp - 8 by omega,
      hcalled.savedRbp] at hkept
    rw [hleft.rbp, hrbp, hkept]
  · have hkept := hword 3 hnot
    rw [hslot, show s.registers .rsp - 24 + 8 * (3 : Nat) = s.registers .rsp by omega,
      hcalled.above _ (Int.le_refl _)] at hkept
    rw [hleft.stack, hkept]

/-- The part of the entry function's own that the C runtime needs back. -/
theorem Called.assigns_saved (h : P.Called f s u) {names : List String} {byte : Int}
    (hown : (Frame.entered f u).Own P.items names t byte)
    (hlow : s.registers .rsp - 16 ≤ byte) (hhigh : byte < s.registers .rsp + 8) :
    ∃ name ∈ names, ∃ index, f.formals.idxOf? name = some index ∧ 1 ≤ index ∧ index ≤ 3 ∧
      AssignsFormal P.items (entryBase s) index t byte := by
  obtain ⟨name, hname, index, hindex, hassigns⟩ :=
    h.assigns_of_own hown (by simp only [entryBase]; omega)
  have hbytes := hassigns.2.2
  simp only [entryBase, formalOffset] at hbytes
  exact ⟨name, hname, index, hindex, by omega, by omega, hassigns⟩

end Process

/-- The words of the entry point's frame that hold the saved `%rbx`, the saved `%rbp` and
the return address are written by a function only where the entry function, as the entry
point called it, assigns to its second, third or fourth formal. When the run returns,
`%rsp` is where it belongs, and `%rbx`, `%rbp` and the return address are those of the
start unless the formal that lies on them has been assigned to. A body in which no
assignment is to one of these formals never does so. -/
theorem entry_frame_written_iff {p : Program} (library : Library) (haccepted : p.diagnostics = [])
    {s : State} (hs : Started (p.generate library.target).items s) :
    (∀ n t, Reaches library (p.generate library.target).items n s t →
      t.pc < (p.userCode library.target).length →
      ∀ byte, s.registers .rsp - 16 ≤ byte → byte < s.registers .rsp + 8 →
        (t.Writes (p.generate library.target).items byte ↔
          ∃ index, 1 ≤ index ∧ index ≤ 3 ∧
            AssignsFormal (p.generate library.target).items (entryBase s) index t byte)) ∧
    (∀ n t, Reaches library (p.generate library.target).items n s t →
      AtExit (p.generate library.target).items t →
      ∃ u, step? library (p.generate library.target).items t = some u ∧
        u.registers .rsp = s.registers .rsp + 8 ∧
        (¬ AssignsWithin library (p.generate library.target).items n s 1 →
          u.registers .rbx = s.registers .rbx) ∧
        (¬ AssignsWithin library (p.generate library.target).items n s 2 →
          u.registers .rbp = s.registers .rbp) ∧
        (¬ AssignsWithin library (p.generate library.target).items n s 3 →
          u.pc = (s.stack (s.registers .rsp)).toNat)) ∧
    (∀ f, p.find? entryName = some f →
      (∀ name ∈ f.body.targets, ∀ index, f.formals.idxOf? name = some index →
        index = 0 ∨ 3 < index) →
      ∀ n t, Reaches library (p.generate library.target).items n s t →
        ∀ index, 1 ≤ index → index ≤ 3 →
          ¬ AssignsWithin library (p.generate library.target).items n s index) := by
  let P := Process.unrestricted p library haccepted
  obtain ⟨f, hfind⟩ := Program.exists_entry haccepted
  obtain ⟨v, hcalled, hstates⟩ := Process.running_or_ends (P := P) hs hfind trivial
  have hrunning : ∀ n t, Reaches library P.items n s t → t.pc < P.user.length →
      P.Running (Frame.entered f v) f.body.targets t := by
    intro n t hreaches hlt
    rcases hstates n t hreaches with hrun | hends
    · exact hrun
    · obtain ⟨-, k, w, -, -, -, hleft⟩ := hends
      obtain ⟨-, entry, hentry, hlt'⟩ := hleft.exit
      rw [Process.labelIndex?_entry, Option.some.injEq] at hentry
      omega
  refine ⟨fun n t hreaches hlt byte hlow hhigh => ⟨fun hwrites => ?_, ?_⟩,
    fun n t hreaches hexit => ?_, fun g hg htargets n t hreaches index hone hthree hassigned => ?_⟩
  · obtain ⟨-, -, index, -, hone, hthree, hassigns⟩ :=
      hcalled.assigns_saved ((hrunning n t hreaches hlt).writes hlt byte hwrites) hlow hhigh
    exact ⟨index, hone, hthree, hassigns⟩
  · rintro ⟨index, -, -, hassigns⟩
    exact Process.writes_of_assignsFormal hassigns
  · rcases hstates n t hreaches with hrun | hends
    · exact absurd hexit hrun.notExit
    · obtain ⟨hrsp, hrbx, hrbp, hback⟩ := hends.restores hcalled
      refine ⟨{ (t.pop).2 with pc := (t.pop).1.toNat }, ?_, ?_, hrbx, hrbp, fun hnot => ?_⟩
      · rw [step?, hexit.1]
        rfl
      · show t.registers .rsp + 8 = _
        rw [hrsp]
      · show (t.stack (t.registers .rsp)).toNat = _
        rw [hrsp, hback hnot]
  · obtain ⟨m, hm, u, hu, byte, hassigns⟩ := hassigned
    have hreaches' : Reaches library P.items m s u :=
      ⟨hu, fun k hk => hreaches.2 k (Nat.lt_trans hk hm)⟩
    have hlt := Process.lt_length_of_assignsFormal (P := P) hassigns
    have hown := (hrunning m u hreaches' hlt).writes hlt byte
      (Process.writes_of_assignsFormal hassigns)
    have hbytes := hassigns.2.2
    simp only [entryBase, formalOffset] at hbytes
    obtain ⟨name, hname, other, hother, hone', hthree', -⟩ :=
      hcalled.assigns_saved hown (by omega) (by omega)
    rw [hfind, Option.some.injEq] at hg
    subst hg
    rcases htargets name hname other hother with hzero | hmore <;> omega

/-- Assigns to its first formal, which lies on the padding. -/
def assignsPadding : Program := ⟨[⟨"main", ["a"], .block [.assign "a" (.lit 7), .ret (.var "a")]⟩]⟩

theorem assignsPadding_restores :
    assignsPadding.diagnostics = [] ∧
    (∃ t, steps? (.blank .elf) (assignsPadding.generate .elf).items 20
        (.blank ((assignsPadding.userCode .elf).length + 2)) = some t ∧
      AtExit (assignsPadding.generate .elf).items t) ∧
    ∀ n t, Reaches (.blank .elf) (assignsPadding.generate .elf).items n
        (.blank ((assignsPadding.userCode .elf).length + 2)) t →
      AtExit (assignsPadding.generate .elf).items t →
      ∃ u, step? (.blank .elf) (assignsPadding.generate .elf).items t = some u ∧
        u.registers .rsp = 8 ∧ u.registers .rbx = 0 ∧ u.registers .rbp = 0 := by
  have hs := started_blank assignsPadding .elf (by decide)
  obtain ⟨-, hreturns, hbody⟩ := entry_frame_written_iff (.blank .elf) (by decide) hs
  have hnever := hbody _ rfl (by decide)
  refine ⟨by decide, ⟨_, rfl, rfl, _, rfl, by decide⟩, fun n t hreaches hexit => ?_⟩
  obtain ⟨u, hstep, hrsp, hrbx, hrbp, -⟩ := hreturns n t hreaches hexit
  exact ⟨u, hstep, hrsp, hrbx (hnever n t hreaches 1 (by decide) (by decide)),
    hrbp (hnever n t hreaches 2 (by decide) (by decide))⟩

/-- Assigns to its second formal, which lies on the saved `%rbx`. -/
def assignsSavedRbx : Program := ⟨[⟨"main", ["a", "b"], .block [.assign "b" (.lit 7)]⟩]⟩

/-- A program without a diagnostic can change the `%rbx` of the C runtime. -/
theorem assignsSavedRbx_overwrites :
    assignsSavedRbx.diagnostics = [] ∧
    Started (assignsSavedRbx.generate .elf).items
      (.blank ((assignsSavedRbx.userCode .elf).length + 2)) ∧
    (∃ t, steps? (.blank .elf) (assignsSavedRbx.generate .elf).items 12
        (.blank ((assignsSavedRbx.userCode .elf).length + 2)) = some t ∧
      t.pc < (assignsSavedRbx.userCode .elf).length ∧
      t.Writes (assignsSavedRbx.generate .elf).items (-16)) ∧
    ∃ t, steps? (.blank .elf) (assignsSavedRbx.generate .elf).items 20
        (.blank ((assignsSavedRbx.userCode .elf).length + 2)) = some t ∧
      AtExit (assignsSavedRbx.generate .elf).items t ∧ t.registers .rbx = 7 :=
  ⟨by decide, started_blank assignsSavedRbx .elf (by decide),
    ⟨_, rfl, by decide, Process.writes_of_assignsFormal
      (show AssignsFormal _ (-40) 1 _ (-16) from ⟨rfl, rfl, by decide, by decide⟩)⟩,
    ⟨_, rfl, ⟨rfl, _, rfl, by decide⟩, rfl⟩⟩

end FunCompiler.Semantics
