import FunCompiler.Proofs.Simulation.Run

/-!
The generated code does what the program says. If the evaluation of an accepted
program ends, the machine gets to the end of the entry point with the same
output and the result in `%rax`; if the evaluation never ends, the machine runs
on forever and prints nothing that the evaluation does not print. Registers,
stack and flags may hold anything at the start, `printf` may leave anything
behind that its conventions allow it to, and both targets are covered, since
the target is the library's.
-/

namespace FunCompiler.Semantics

open Asm Code

/-- An accepted program in its surroundings, with no restriction on states. -/
def Process.unrestricted (p : Program) (library : Library) (h : p.diagnostics = []) : Process where
  program := p
  library := library
  accepted := h
  visited _ := True
  onward _ _ _ _ _ := trivial

theorem evaluate_eq (p : Program) (fuel : Nat) :
    evaluate p fuel = ((runEval (evalCall p fuel entryName []) .initial).1,
      (runEval (evalCall p fuel entryName []) .initial).2.output) := rfl

theorem Process.found_eq_nil {f : Function} (h : f.formals = []) (s : State) : found f s = [] := by
  rw [← List.length_eq_zero_iff, length_found, h]
  rfl

/-! ### A machine to start with -/

/-- The item declares no word, or zero. -/
def declaresZero : Item → Bool
  | .directive (.quad value) => value == 0
  | _ => true

/-- A machine in which all is zero, about to run the item of the given index. -/
def State.blank (pc : Nat) : State := ⟨pc, fun _ => 0, fun _ => 0, fun _ => 0, none, []⟩

/-- Surroundings in which all is zero. -/
def Library.blank (target : Target) : Library := ⟨target, fun _ => 0, fun _ _ => 0, fun _ _ => 0⟩

theorem started_blank (p : Program) (target : Target)
    (hzero : (p.generate target).items.all declaresZero = true) :
    Started (p.generate target).items (.blank ((p.userCode target).length + 2)) where
  pc := p.labelIndex?_entry target
  cells index symbol value _ hquad := by
    have hdeclares := List.all_eq_true.1 hzero _ (List.mem_of_getElem? hquad)
    exact (of_decide_eq_true hdeclares).symm
  output := rfl

/-! ### Terminating runs -/

/-- If the evaluation of an accepted program ends with a result,
having printed some values, then the machine, started at the entry label, comes to the
`ret` of the entry point, has printed the same values and has the result in `%rax`. -/
theorem terminating_run_preserved {p : Program} (library : Library) (haccepted : p.diagnostics = [])
    {f : Function} (hfind : p.find? entryName = some f) (hformals : f.formals = [])
    {fuel : Nat} {result : Word} {values : List Word}
    (heval : evaluate p fuel = (.ok result, values))
    {s : State} (hs : Started (p.generate library.target).items s) :
    ∃ n t, steps? library (p.generate library.target).items n s = some t ∧
      AtExit (p.generate library.target).items t ∧ t.output = values ∧
      word (t.registers .rax) = result := by
  let P := Process.unrestricted p library haccepted
  obtain ⟨u, hcall, hcalled, hsim⟩ := Process.exists_run (P := P) hs hfind trivial
  rw [evaluate_eq, Prod.mk.injEq, ← Process.found_eq_nil hformals u] at heval
  obtain ⟨hresult, hvalues⟩ := heval
  obtain ⟨n, v, hpath, hreturned⟩ := (hsim fuel).ok (Prod.ext hresult rfl)
  obtain ⟨t, hleave, hleft⟩ := hreturned.exists_left hcalled
  refine ⟨_, t, ((hcall.trans hpath.whole).trans hleave).steps?_eq, hleft.exit, ?_, ?_⟩
  · rw [hleft.output, hreturned.output, ← hvalues]
    rfl
  · rw [hleft.rax]
    exact hreturned.rax

/-- Prints the factorial of four and returns its successor. -/
def factorialOfFour : Program :=
  ⟨[⟨"fact", ["n"], .ifElse (.binary .lt (.var "n") (.lit 2)) (.ret (.lit 1))
      (.ret (.binary .mul (.var "n")
        (.call "fact" [.binary .add (.var "n") (.lit 18446744073709551615)])))⟩,
    ⟨"main", [], .block [.assign "g" (.call "fact" [.lit 4]), .print (.var "g"),
      .ret (.binary .add (.var "g") (.lit 1))]⟩]⟩

theorem factorialOfFour_preserved :
    evaluate factorialOfFour 40 = (.ok 25, [24]) ∧
    ∃ n t, steps? (.blank .macho) (factorialOfFour.generate .macho).items n
        (.blank ((factorialOfFour.userCode .macho).length + 2)) = some t ∧
      AtExit (factorialOfFour.generate .macho).items t ∧ t.output = [24] ∧
      word (t.registers .rax) = 25 := by
  have heval : evaluate factorialOfFour 40 = (.ok 25, [24]) := rfl
  exact ⟨heval, terminating_run_preserved (.blank .macho) (by decide) rfl rfl heval
    (started_blank factorialOfFour .macho (by decide))⟩

/-! ### Runs without end -/

/-- If the evaluation of an accepted program ends with no fuel,
the machine, started at the entry label, is never stuck and never at the `ret` of the
entry point, and at any time it has printed a beginning of what the evaluation prints
with some fuel. -/
theorem diverging_run_preserved {p : Program} (library : Library) (haccepted : p.diagnostics = [])
    {f : Function} (hfind : p.find? entryName = some f) (hformals : f.formals = [])
    (hdiverges : ∀ fuel result, (evaluate p fuel).1 ≠ .ok result)
    {s : State} (hs : Started (p.generate library.target).items s) (n : Nat) :
    ∃ t, steps? library (p.generate library.target).items n s = some t ∧
      ¬ AtExit (p.generate library.target).items t ∧
      ∃ fuel, t.output <+: (evaluate p fuel).2 := by
  let P := Process.unrestricted p library haccepted
  obtain ⟨u, hcall, -, hsim⟩ := Process.exists_run (P := P) hs hfind trivial
  rw [Process.found_eq_nil hformals u] at hsim
  -- so much fuel that the machine has to make more than `n` steps before it is spent
  let fuel := (n + 1) * P.pace
  cases hrun : (evaluate p fuel).1 with
  | ok result => exact absurd hrun (hdiverges fuel result)
  | error e =>
      obtain ⟨k, v, hpath, hneed, hout⟩ := (hsim fuel).error (Prod.ext hrun rfl)
      have hlt : n + 1 ≤ k := Nat.le_of_mul_le_mul_right hneed (Nat.succ_pos _)
      have hwhole := hcall.trans hpath.whole
      obtain ⟨t, ht, hrunning⟩ := hwhole.ok_of_lt (m := n) (by omega)
      refine ⟨t, ht, hrunning.notExit, fuel, ?_⟩
      have hgrows := output_grows (by omega) ht hwhole.steps?_eq
      rwa [hout] at hgrows

/-- A loop whose test always holds ends only by a `return`. -/
theorem execStmt_loop_one_ne {p : Program} {formals : List String} {body : Stmt}
    (hbody : ∀ fuel σ value, (runEval (execStmt p formals fuel body) σ).1 ≠ .ok (some value))
    (fuel : Nat) (σ : Store) (completion : Completion) :
    (runEval (execStmt p formals fuel (.loop (.lit 1) body)) σ).1 ≠ .ok completion := by
  induction fuel generalizing σ with
  | zero => rintro ⟨⟩
  | succ fuel ih =>
      cases fuel with
      | zero => rintro ⟨⟩
      | succ fuel =>
          rw [execStmt, runEval_bind]
          show (runEval (execStmt p formals (fuel + 1) body >>= _) σ).1 ≠ _
          rw [runEval_bind]
          rcases hrun : runEval (execStmt p formals (fuel + 1) body) σ with ⟨_ | _ | value, σ'⟩
          · rintro ⟨⟩
          · exact ih σ'
          · exact absurd (by rw [hrun]) (hbody (fuel + 1) σ value)

/-- Prints two again and again. -/
def twosForever : Program := ⟨[⟨"main", [], .loop (.lit 1) (.print (.lit 2))⟩]⟩

theorem evaluate_twosForever_ne (fuel : Nat) (result : Word) :
    (evaluate twosForever fuel).1 ≠ .ok result := by
  have hprint : ∀ fuel σ value,
      (runEval (execStmt twosForever [] fuel (.print (.lit 2))) σ).1 ≠ .ok (some value)
    | 0, _, _ => nofun
    | 1, _, _ => nofun
    | _ + 2, _, _ => nofun
  cases fuel with
  | zero => nofun
  | succ fuel =>
      rw [evaluate_eq]
      show (runEval (execStmt twosForever [] fuel (.loop (.lit 1) (.print (.lit 2))) >>= _)
        .initial).1 ≠ _
      rw [runEval_bind]
      rcases hrun : runEval (execStmt twosForever [] fuel (.loop (.lit 1) (.print (.lit 2))))
        .initial with ⟨_ | completion, σ⟩
      · nofun
      · exact absurd (by rw [hrun]) (execStmt_loop_one_ne hprint fuel .initial completion)

theorem twosForever_preserved :
    (∀ fuel result, (evaluate twosForever fuel).1 ≠ .ok result) ∧
    ∃ t, steps? (.blank .elf) (twosForever.generate .elf).items 1000
        (.blank ((twosForever.userCode .elf).length + 2)) = some t ∧
      ¬ AtExit (twosForever.generate .elf).items t ∧
      ∃ fuel, t.output <+: (evaluate twosForever fuel).2 :=
  ⟨evaluate_twosForever_ne, diverging_run_preserved (.blank .elf) (by decide) rfl rfl
    evaluate_twosForever_ne (started_blank twosForever .elf (by decide)) 1000⟩

end FunCompiler.Semantics
