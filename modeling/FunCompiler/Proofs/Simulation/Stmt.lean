import FunCompiler.Proofs.Simulation.Expr

/-!
The code of statements. A statement starts and ends with an empty stack below
the frame pointer, whichever way it goes, unless it returns: then it leaves the
frame as it found it and goes back to the caller. A loop passes its first label
before every turn, so turns without end take the machine on without end.
-/

namespace FunCompiler.Semantics.Process

open Asm Code

variable {P : Process} {fuel need : Nat} {writable : State → Int → Prop} {s t : State}
  {frame : Frame} {depth : Int} {pc : Nat} {code more : List Item} {a : Word} {σ : Store}

theorem Represents.rsp_eq_base (h : P.Represents frame 0 σ s) :
    s.registers .rsp = frame.base := h.rsp.trans (Int.sub_zero _)

/-- Code that writes below the frame writes what its function owns. -/
theorem own_of_below (names : List String) (u : State) (byte : Int)
    (h : Below (frame.base - 0) u byte) : frame.Own P.items names u byte := by
  simp only [Below] at h
  exact .inl (by omega)

/-! ### Assignments and prints -/

/-- A value is assigned to a variable. -/
theorem Evaluated.assign {name : String} {tables : Tables}
    (h : P.Evaluated frame 0 pc a σ s)
    (hlies : Lies P.user s.pc
      [.instr (.mov Register.rax (locate frame.formals name tables).1)]) :
    ∃ u, P.Path (frame.Own P.items [name]) 1 s u ∧ u.pc = pc + 1 ∧
      P.Represents frame 0 (σ.set frame.formals name a) u := by
  have hrep := h.toRepresents
  obtain ⟨i, hi, hloc⟩ | ⟨hi, hloc⟩ := locate_cases frame.formals tables name
  · rw [hloc] at hlies
    have hrun : s.run? P.library P.items (.mov Register.rax (.stack (formalOffset i) .rbp)) =
        some (s.store (frame.base + formalOffset i) (s.registers .rax)).next := by
      rw [← h.rbp]
      rfl
    refine ⟨_, path_instr hlies hrun (fun byte hbyte => .inr ?_) (.inl rfl), ?_, ?_⟩
    · have hget : P.items[s.pc]? =
          some (.instr (.mov Register.rax (.stack (formalOffset i) .rbp))) := by
        rw [items_eq]
        exact hlies.getElem? _
      refine ⟨name, List.mem_singleton.2 rfl, i, hi, h.rbp, hget, ?_⟩
      rw [← h.rbp]
      exact hbyte
    · rw [← h.pc]
      rfl
    · rw [← h.rax]
      exact (hrep.set_formal hi).same ⟨rfl, rfl, rfl, rfl, rfl⟩
  · rw [hloc] at hlies
    refine ⟨_, path_quiet hlies rfl (fun _ => id) rfl, ?_, ?_⟩
    · rw [← h.pc]
      rfl
    · rw [← h.rax]
      exact (hrep.set_global hi).same ⟨rfl, rfl, rfl, rfl, rfl⟩

theorem stmtMeets_assign (ih : P.Meets fuel) (name : String) (value : Expr) :
    P.StmtMeets (fuel + 1) (.assign name value) := by
  intro frame t σ s hplaced hrep
  have hlies := hplaced.lies
  rw [Stmt.emit_assign] at hlies
  have hneed : fuel + 1 - sizeOf (Stmt.assign name value) ≤ fuel - sizeOf value := by
    rw [Stmt.assign.sizeOf_spec]
    omega
  have hvalue := ih.expr value frame 0 t σ s
    (hplaced.part hlies.left (grows_locate ..) Program.links_stmt.1 (List.Subset.refl _)) hrep
  rw [execStmt]
  refine .bind (hvalue.weaken hneed) (own_of_below _)
    fun a σ₁ s₁ n₁ hpath₁ hpost₁ => ?_
  have hlies₁ := hlies.right
  rw [← hpost₁.pc] at hlies₁
  obtain ⟨u, hassign, hpc, hrep'⟩ := hpost₁.assign hlies₁
  refine .of_ok rfl hassign ⟨?_, hrep'⟩
  rw [hpc, Stmt.emit_assign, List.length_append]
  rfl

/-- The stack pointer is rounded down for the C library. -/
theorem align_le (x : Int) : x / 16 * 16 ≤ x ∧ x / 16 * 16 % 16 = 0 := by omega

/-- A value is printed. -/
theorem Evaluated.print (h : P.Evaluated frame 0 pc a σ s)
    (hlies : Lies P.user s.pc (printCode P.library.target)) :
    ∃ n u, P.Path (Below frame.base) n s u ∧ u.pc = pc + (printCode P.library.target).length ∧
      P.Represents frame 0 (σ.print a) u := by
  have hrsp := h.toRepresents.rsp_eq_base
  let s₁ : State := (s.setRegister .rbx (s.registers .rsp)).next
  let s₂ : State := (s₁.compute .rsp (s₁.registers .rsp / 16 * 16)).next
  let s₃ : State := (s₂.setRegister .rdi (P.library.address Symbol.format.name)).next
  let s₄ : State := (s₃.setRegister .rsi (s₃.registers .rax)).next
  let s₅ : State := (s₄.setRegister .rax 0).next
  have h₁ : P.Path (Below frame.base) 1 s s₁ := path_quiet hlies rfl (fun _ => id) rfl
  have h₂ : P.Path (Below frame.base) 1 s₁ s₂ := path_quiet hlies.tail rfl (fun _ => id) rfl
  have h₃ : P.Path (Below frame.base) 1 s₂ s₃ :=
    path_quiet hlies.tail.tail rfl (fun _ => id) rfl
  have h₄ : P.Path (Below frame.base) 1 s₃ s₄ :=
    path_quiet hlies.tail.tail.tail rfl (fun _ => id) rfl
  have h₅ : P.Path (Below frame.base) 1 s₄ s₅ :=
    path_quiet hlies.tail.tail.tail.tail rfl (fun _ => id) rfl
  -- rounding down leaves the frame above the stack pointer that `printf` gets
  have hle : s₅.registers .rsp ≤ frame.base := by
    rw [← hrsp]
    exact (align_le _).1
  have hcalls : s₅.CallsPrintf P.library P.items :=
    ⟨rfl, P.program.string?_format P.library.target, rfl, (align_le _).2⟩
  obtain ⟨s₆, hprintf⟩ : ∃ u, s₅.printf? P.library P.items = some u := by
    rw [State.printf?, if_pos hcalls]
    exact ⟨_, rfl⟩
  have hprinted := printed_of_printf? hprintf
  have h₆ : P.Path (Below frame.base) 1 s₅ s₆.next := by
    refine path_instr hlies.tail.tail.tail.tail.tail ?_
      (fun byte (hbyte : byte < _) => show byte < _ by omega) (.inl rfl)
    rw [State.run?, if_pos rfl, hprintf]
    rfl
  have hlies₆ : Lies P.user s₆.next.pc [.instr (.mov Register.rbx Register.rsp)] := by
    rw [State.pc_next, hprinted.pc]
    exact hlies.tail.tail.tail.tail.tail.tail
  let s₇ : State := (s₆.next.setRegister .rsp (s₆.next.registers .rbx)).next
  have h₇ : P.Path (Below frame.base) 1 s₆.next s₇ := path_quiet hlies₆ rfl (fun _ => id) rfl
  have hrbx : s₆.registers .rbx = frame.base := hprinted.rbx.trans hrsp
  refine ⟨_, s₇, (((((h₁.trans h₂).trans h₃).trans h₄).trans h₅).trans h₆).trans h₇, ?_, ?_⟩
  · show s₆.pc + 1 + 1 = _
    rw [hprinted.pc, ← h.pc]
    rfl
  · have hprint : P.Represents frame 0 (σ.print a)
        { s with output := s.output ++ [word (s.registers .rax)] } :=
      ⟨⟨h.cells, by rw [h.rax, h.output]; rfl⟩, h.depth_nonneg, h.rsp, h.rbp, h.arity, h.locals,
        h.caller, h.back⟩
    refine hprint.transfer hprinted.cells hprinted.output (Int.le_refl _) ?_ hprinted.rbp
      fun x hx => hprinted.stack x (Int.le_trans hle hx)
    rw [Int.sub_zero]
    exact hrbx

theorem stmtMeets_print (ih : P.Meets fuel) (value : Expr) :
    P.StmtMeets (fuel + 1) (.print value) := by
  intro frame t σ s hplaced hrep
  have hlies := hplaced.lies
  rw [Stmt.emit_print] at hlies
  have hneed : fuel + 1 - sizeOf (Stmt.print value) ≤ fuel - sizeOf value := by
    rw [Stmt.print.sizeOf_spec]
    omega
  have hvalue := ih.expr value frame 0 t σ s
    (hplaced.part hlies.left (.refl _) Program.links_stmt.1 (List.Subset.refl _)) hrep
  rw [execStmt]
  refine .bind (hvalue.weaken hneed) (own_of_below _)
    fun a σ₁ s₁ n₁ hpath₁ hpost₁ => ?_
  have hlies₁ := hlies.right
  rw [← hpost₁.pc] at hlies₁
  obtain ⟨n, u, hprint, hpc, hrep'⟩ := hpost₁.print hlies₁
  rw [← Int.sub_zero frame.base] at hprint
  refine .of_ok rfl (hprint.mono fun u hu => hu.mono (own_of_below _ u)) ⟨?_, hrep'⟩
  rw [hpc, Stmt.emit_print, List.length_append, Nat.add_assoc]

/-! ### Returns -/

/-- A frame is left. -/
theorem Represents.leave (h : P.Represents frame depth σ s)
    (hlies : Lies P.user s.pc (leaveFrame ++ code)) :
    ∃ u, P.Path writable 2 s u ∧ u.pc = s.pc + 2 ∧ P.Agrees σ u ∧
      u.registers .rsp = frame.base + 8 ∧ u.registers .rbp = frame.caller ∧
      u.stack (frame.base + 8) = frame.back ∧ u.registers .rax = s.registers .rax := by
  let s₁ : State := (s.setRegister .rsp (s.registers .rbp)).next
  let s₂ : State :=
    ((s₁.setRegister .rsp (s₁.registers .rsp + 8)).setRegister .rbp
      (s₁.stack (s₁.registers .rsp))).next
  have h₁ : P.Path writable 1 s s₁ := path_quiet hlies rfl (fun _ => id) rfl
  have h₂ : P.Path writable 1 s₁ s₂ := path_quiet hlies.tail rfl (fun _ => id) rfl
  refine ⟨s₂, h₁.trans h₂, rfl, h.toAgrees.transfer rfl rfl, ?_, ?_, h.back, rfl⟩
  · rw [← h.rbp]
    rfl
  · rw [← h.caller, ← h.rbp]
    rfl

/-- A function returns. -/
theorem path_ret (hlies : Lies P.user s.pc (.instr .ret :: code)) (hagrees : P.Agrees σ s)
    (hrsp : s.registers .rsp = frame.base + 8) (hrbp : s.registers .rbp = frame.caller)
    (hback : s.stack (frame.base + 8) = frame.back) (hrax : word (s.registers .rax) = a) :
    ∃ u, P.Path writable 1 s u ∧ P.Returned frame a σ u := by
  refine ⟨_, path_quiet hlies rfl (fun _ => id) rfl, hagrees.transfer rfl rfl, ?_, ?_, hrbp, hrax⟩
  · rw [← hback, ← hrsp]
  · show s.registers .rsp + 8 = _
    rw [hrsp]
    omega

theorem stmtMeets_ret (ih : P.Meets fuel) (value : Expr) :
    P.StmtMeets (fuel + 1) (.ret value) := by
  intro frame t σ s hplaced hrep
  have hlies := hplaced.lies
  rw [Stmt.emit_ret, List.append_assoc] at hlies
  have hneed : fuel + 1 - sizeOf (Stmt.ret value) ≤ fuel - sizeOf value := by
    rw [Stmt.ret.sizeOf_spec]
    omega
  have hvalue := ih.expr value frame 0 t σ s
    (hplaced.part hlies.left (.refl _) Program.links_stmt.1 (List.Subset.refl _)) hrep
  rw [execStmt, map_eq_pure_bind]
  refine .bind (hvalue.weaken hneed) (own_of_below _)
    fun a σ₁ s₁ n₁ hpath₁ hpost₁ => ?_
  have hlies₁ := hlies.right
  rw [← hpost₁.pc] at hlies₁
  obtain ⟨s₂, hleave, hpc₂, hagrees, hrsp, hrbp, hback, hrax⟩ := hpost₁.toRepresents.leave hlies₁
  have hlies₂ := hlies₁.right
  rw [← show s₂.pc = s₁.pc + leaveFrame.length from hpc₂] at hlies₂
  obtain ⟨u, hret, hreturned⟩ :=
    path_ret hlies₂ hagrees hrsp hrbp hback ((congrArg word hrax).trans hpost₁.rax)
  exact .of_ok rfl (hleave.trans hret) hreturned

/-! ### Conditionals -/

/-- A conditional jump is taken if the accumulator is zero. -/
theorem path_jumpIfZero {label : Symbol} {target : Nat}
    (hlies : Lies P.user s.pc (jumpIfZero label ++ code))
    (hlabel : Lies P.user target (.label label :: more)) :
    ∃ u, P.Path writable 2 s u ∧ SameMemory s u ∧
      u.pc = if word (s.registers .rax) = 0 then target else s.pc + 2 := by
  let s₁ : State := { s with flags := some (word (s.registers .rax), word 0) }.next
  have h₁ : P.Path writable 1 s s₁ := path_quiet hlies rfl (fun _ => id) rfl
  have hholds : s₁.holds? .equal = some (word (s.registers .rax) == 0) := rfl
  by_cases hzero : word (s.registers .rax) = 0
  · have h₂ : P.Path writable 1 s₁ { s₁ with pc := target } := by
      refine path_quiet hlies.tail ?_ (fun _ => id) rfl
      rw [State.run?, hholds, hzero]
      exact jump?_eq hlabel
    refine ⟨_, h₁.trans h₂, ⟨rfl, rfl, rfl, rfl, rfl⟩, ?_⟩
    rw [if_pos hzero]
  · have h₂ : P.Path writable 1 s₁ s₁.next := by
      refine path_quiet hlies.tail ?_ (fun _ => id) rfl
      rw [State.run?, hholds, beq_false_of_ne hzero]
      rfl
    refine ⟨_, h₁.trans h₂, ⟨rfl, rfl, rfl, rfl, rfl⟩, ?_⟩
    rw [if_neg hzero]
    rfl

/-- A test is evaluated, and the machine goes on in the branch it chooses. -/
theorem Simulates.branch {cond : Expr} {tables : Tables} {label : Symbol} {target : Nat}
    {zero other : Eval Completion} {post : Completion → Store → State → Prop}
    (ih : P.Meets fuel) (hneed : need ≤ fuel - sizeOf cond)
    (hplaced : P.Placed frame.base s.pc (cond.emit frame.formals tables) cond.walk
      (cond.callDepths 0))
    (hlies : Lies P.user (s.pc + (cond.emit frame.formals tables).1.length)
      (jumpIfZero label ++ code))
    (hlabel : Lies P.user target (.label label :: more)) (hrep : P.Represents frame 0 σ s)
    (hwritable : ∀ u byte, Below (frame.base - 0) u byte → writable u byte)
    (hzero : ∀ σ' u, u.pc = target → P.Represents frame 0 σ' u →
      P.Simulates need writable zero σ' u post)
    (hother : ∀ σ' u, u.pc = s.pc + (cond.emit frame.formals tables).1.length + 2 →
      P.Represents frame 0 σ' u → P.Simulates need writable other σ' u post) :
    P.Simulates need writable
      (evalExpr P.program frame.formals fuel cond >>= fun v => if v = 0 then zero else other)
      σ s post := by
  have hcond := ih.expr cond frame 0 tables σ s hplaced hrep
  refine .bind (hcond.weaken hneed) hwritable
    fun v σ₁ s₁ n₁ hpath₁ hpost₁ => ?_
  rw [← hpost₁.pc] at hlies
  obtain ⟨u, hjump, hsame, hpc⟩ := path_jumpIfZero hlies hlabel
  rw [hpost₁.rax] at hpc
  have hrep₁ := hpost₁.toRepresents.same hsame
  refine .after hjump ?_ (Nat.le_add_right _ _)
  by_cases hv : v = 0
  · rw [if_pos hv] at hpc ⊢
    exact hzero σ₁ u hpc hrep₁
  · rw [if_neg hv] at hpc ⊢
    exact hother σ₁ u (by rw [hpc, hpost₁.pc]) hrep₁

theorem path_jmp {label : Symbol} {target : Nat}
    (hlies : Lies P.user s.pc (.instr (.jmp label) :: code))
    (hlabel : Lies P.user target (.label label :: more)) :
    P.Path writable 1 s { s with pc := target } :=
  path_quiet hlies (jump?_eq hlabel) (fun _ => id) rfl

/-- A branch that runs to its end jumps behind the label. -/
theorem Simulates.jumpOut {m : Eval Completion} {inner : State → Int → Prop} {label : Symbol}
    {target : Nat} (h : P.Simulates need inner m σ s (P.Completed frame pc))
    (hinner : ∀ u byte, inner u byte → writable u byte)
    (hlies : Lies P.user pc (.instr (.jmp label) :: code))
    (hlabel : Lies P.user target (.label label :: more)) :
    P.Simulates need writable m σ s (P.Completed frame (target + 1)) := by
  refine h.finish hinner fun completion σ' u n hpath hpost => ?_
  cases completion with
  | none =>
      obtain ⟨rfl, hrep⟩ := hpost
      exact ⟨2, _, (path_jmp hlies hlabel).trans (path_label hlabel), rfl,
        hrep.goto _⟩
  | some value => exact ⟨0, u, .refl u, hpost⟩

/-- A branch that runs to its end passes the label behind it. -/
theorem Simulates.passLabel {m : Eval Completion} {inner : State → Int → Prop} {label : Symbol}
    (h : P.Simulates need inner m σ s (P.Completed frame pc))
    (hinner : ∀ u byte, inner u byte → writable u byte)
    (hlabel : Lies P.user pc (.label label :: more)) :
    P.Simulates need writable m σ s (P.Completed frame (pc + 1)) := by
  refine h.finish hinner fun completion σ' u n hpath hpost => ?_
  cases completion with
  | none =>
      obtain ⟨rfl, hrep⟩ := hpost
      exact ⟨1, _, path_label hlabel, rfl, hrep.goto _⟩
  | some value => exact ⟨0, u, .refl u, hpost⟩

theorem stmtMeets_ifThen (ih : P.Meets fuel) (cond : Expr) (yes : Stmt) :
    P.StmtMeets (fuel + 1) (.ifThen cond yes) := by
  intro frame t σ s hplaced hrep
  have hlies := hplaced.lies
  simp only [Stmt.emit_ifThen, List.append_assoc, List.cons_append] at hlies
  have hneed : fuel + 1 - sizeOf (Stmt.ifThen cond yes) ≤ fuel - sizeOf cond ∧
      fuel + 1 - sizeOf (Stmt.ifThen cond yes) ≤ fuel - sizeOf yes := by
    rw [Stmt.ifThen.sizeOf_spec]
    omega
  have hlinks : P.program.Links (Stmt.ifThen cond yes).walk →
      P.program.Links cond.walk ∧ P.program.Links yes.walk := by
    simp only [Stmt.walk, List.cons_append, Program.links_stmt, Program.links_append]
    exact id
  have hyes := hlies.right.right
  have hend := hyes.tail.right
  have hlength : s.pc + ((Stmt.ifThen cond yes).emit P.library.target frame.formals t).1.length =
      s.pc + (cond.emit frame.formals t).1.length +
        (jumpIfZero (.control (cond.emit frame.formals t).2.labels .no)).length + 1 +
        (yes.emit P.library.target frame.formals
          (freshLabel (cond.emit frame.formals t).2).2).1.length + 1 + 1 + 1 := by
    simp only [Stmt.emit_ifThen, List.length_append, List.length_cons, List.length_nil]
    omega
  rw [execStmt, hlength]
  -- both ways out of the conditional end behind its last label
  refine .branch ih hneed.1
    (hplaced.part hlies.left ((grows_freshLabel _).trans (Stmt.grows_emit ..))
      (fun h => (hlinks h).1) (List.subset_append_left ..))
    hlies.right hend.tail hrep (own_of_below _) ?_ ?_
  · intro σ₁ s₁ hpc₁ hrep₁
    have hno := hend.tail
    rw [← hpc₁] at hno
    refine .of_ok rfl ((path_label hno).trans (path_label hno.tail)) ⟨?_, ?_⟩
    · show s₁.pc + 1 + 1 = _
      rw [hpc₁]
    · exact hrep₁.goto _
  · intro σ₁ s₁ hpc₁ hrep₁
    rw [show s.pc + _ + 2 = s.pc + _ + (jumpIfZero _).length from rfl] at hpc₁
    rw [← hpc₁] at hyes hend ⊢
    refine .after (path_label hyes) ?_ (Nat.le_add_right _ _)
    have hbody := ih.stmt yes frame (freshLabel (cond.emit frame.formals t).2).2 σ₁ s₁.next
      (hplaced.part hyes.tail.left (.refl _) (fun h => (hlinks h).2)
        (List.subset_append_right ..)) (hrep₁.goto _)
    exact (hbody.weaken hneed.2).jumpOut (fun _ _ => id)
      hend hend.tail.tail

theorem stmtMeets_ifElse (ih : P.Meets fuel) (cond : Expr) (yes no : Stmt) :
    P.StmtMeets (fuel + 1) (.ifElse cond yes no) := by
  intro frame t σ s hplaced hrep
  have hlies := hplaced.lies
  simp only [Stmt.emit_ifElse, List.append_assoc, List.cons_append, List.nil_append] at hlies
  have hneed : fuel + 1 - sizeOf (Stmt.ifElse cond yes no) ≤ fuel - sizeOf cond ∧
      fuel + 1 - sizeOf (Stmt.ifElse cond yes no) ≤ fuel - sizeOf yes ∧
      fuel + 1 - sizeOf (Stmt.ifElse cond yes no) ≤ fuel - sizeOf no := by
    rw [Stmt.ifElse.sizeOf_spec]
    omega
  have hlinks : P.program.Links (Stmt.ifElse cond yes no).walk →
      (P.program.Links cond.walk ∧ P.program.Links yes.walk) ∧ P.program.Links no.walk := by
    simp only [Stmt.walk, List.cons_append, Program.links_stmt, Program.links_append]
    exact id
  have hyes := hlies.right.right
  have hno := hyes.tail.right.tail
  have hlast := hno.tail.right
  have hlength : s.pc + ((Stmt.ifElse cond yes no).emit P.library.target frame.formals t).1.length =
      s.pc + (cond.emit frame.formals t).1.length +
        (jumpIfZero (.control (cond.emit frame.formals t).2.labels .no)).length + 1 +
        (yes.emit P.library.target frame.formals
          (freshLabel (cond.emit frame.formals t).2).2).1.length + 1 + 1 +
        (no.emit P.library.target frame.formals (yes.emit P.library.target frame.formals
          (freshLabel (cond.emit frame.formals t).2).2).2).1.length + 1 := by
    simp only [Stmt.emit_ifElse, List.length_append, List.length_cons, List.length_nil]
    omega
  rw [execStmt, hlength]
  refine .branch ih hneed.1
    (hplaced.part hlies.left
      ((grows_freshLabel _).trans ((Stmt.grows_emit ..).trans (Stmt.grows_emit ..)))
      (fun h => (hlinks h).1.1)
      (List.Subset.trans (List.subset_append_left ..) (List.subset_append_left ..)))
    hlies.right hno hrep (own_of_below _) ?_ ?_
  · intro σ₁ s₁ hpc₁ hrep₁
    rw [← hpc₁] at hno hlast ⊢
    refine .after (path_label hno) ?_ (Nat.le_add_right _ _)
    have hbody := ih.stmt no frame _ σ₁ s₁.next
      (hplaced.part hno.tail.left (.refl _) (fun h => (hlinks h).2)
        (List.subset_append_right ..)) (hrep₁.goto _)
    exact (hbody.weaken hneed.2.2).passLabel
      (Frame.Own.mono (List.subset_append_right ..)) hlast
  · intro σ₁ s₁ hpc₁ hrep₁
    rw [show s.pc + _ + 2 = s.pc + _ + (jumpIfZero _).length from rfl] at hpc₁
    rw [← hpc₁] at hyes hlast ⊢
    refine .after (path_label hyes) ?_ (Nat.le_add_right _ _)
    have hbody := ih.stmt yes frame _ σ₁ s₁.next
      (hplaced.part hyes.tail.left (Stmt.grows_emit ..) (fun h => (hlinks h).1.2)
        (List.Subset.trans (List.subset_append_right ..) (List.subset_append_left ..)))
      (hrep₁.goto _)
    exact (hbody.weaken hneed.2.1).jumpOut
      (Frame.Own.mono (List.subset_append_left ..)) hyes.tail.right hlast

/-! ### Loops and blocks -/

theorem stmtMeets_loop (ih : P.Meets fuel) (cond : Expr) (body : Stmt) :
    P.StmtMeets (fuel + 1) (.loop cond body) := by
  intro frame t σ s hplaced hrep
  have hlies := hplaced.lies
  simp only [Stmt.emit_loop, List.append_assoc, List.cons_append] at hlies
  have hneed : fuel - sizeOf (Stmt.loop cond body) ≤ fuel - sizeOf cond ∧
      fuel - sizeOf (Stmt.loop cond body) ≤ fuel - sizeOf body := by
    rw [Stmt.loop.sizeOf_spec]
    omega
  have hlinks : P.program.Links (Stmt.loop cond body).walk →
      P.program.Links cond.walk ∧ P.program.Links body.walk := by
    simp only [Stmt.walk, List.cons_append, Program.links_stmt, Program.links_append]
    exact id
  have htest := hlies.tail
  have hbody := htest.right.right
  have hlast := hbody.right.tail
  rw [execStmt]
  -- the first label pays for the fuel of the turn
  refine .after (path_label hlies)
    (?_ : P.Simulates (fuel - sizeOf (Stmt.loop cond body)) _ _ _ _ _) ?_
  · refine Simulates.branch (s := s.next) ih hneed.1
      (hplaced.part htest.left (Stmt.grows_emit ..) (fun h => (hlinks h).1)
        (List.subset_append_left ..))
      htest.right hlast (hrep.goto _) (own_of_below _) ?_ ?_
    · intro σ₁ s₁ hpc₁ hrep₁
      rw [← hpc₁] at hlast
      refine .of_ok rfl (path_label hlast) ⟨?_, hrep₁.goto _⟩
      rw [State.pc_next, hpc₁]
      simp only [Stmt.emit_loop, List.length_append, List.length_cons, List.length_nil]
      omega
    · intro σ₁ s₁ hpc₁ hrep₁
      rw [show s.next.pc + _ + 2 = s.pc + 1 + _ + (jumpIfZero _).length from rfl] at hpc₁
      rw [← hpc₁] at hbody
      have hturn := ih.stmt body frame _ σ₁ s₁
        (hplaced.part hbody.left (.refl _) (fun h => (hlinks h).2)
          (List.subset_append_right ..)) hrep₁
      refine .bind (hturn.weaken hneed.2) (fun _ _ => id)
        fun completion σ₂ s₂ n₂ hpath₂ hpost₂ => ?_
      cases completion with
      | some value => exact .of_ok rfl (.refl s₂) hpost₂
      | none =>
          obtain ⟨hpc₂, hrep₂⟩ := hpost₂
          have hback := hbody.right
          rw [← hpc₂] at hback
          -- back at the first label, the loop is met with what fuel is left
          refine .after (path_jmp hback hlies) ?_ (Nat.le_add_right _ _)
          exact ih.stmt (.loop cond body) frame t σ₂ { s₂ with pc := s.pc } hplaced
            (hrep₂.goto _)
  · have hpace : 0 < P.pace := Nat.succ_pos _
    omega

theorem stmtMeets_block (ih : P.Meets fuel) (body : List Stmt) :
    P.StmtMeets (fuel + 1) (.block body) := by
  intro frame t σ s hplaced hrep
  have hneed : fuel + 1 - sizeOf (Stmt.block body) ≤ fuel - sizeOf body := by
    rw [Stmt.block.sizeOf_spec]
    omega
  rw [execStmt]
  exact (ih.all body frame t σ s
    (hplaced.part hplaced.lies (.refl _) Program.links_stmt.1 (List.Subset.refl _)) hrep).weaken
    hneed

theorem allMeet_nil : P.AllMeet (fuel + 1) [] := by
  intro frame t σ s hplaced hrep
  exact .of_ok rfl (.refl s) ⟨rfl, hrep⟩

theorem allMeet_cons (ih : P.Meets fuel) (st : Stmt) (sts : List Stmt) :
    P.AllMeet (fuel + 1) (st :: sts) := by
  intro frame t σ s hplaced hrep
  have hlies := hplaced.lies
  rw [Stmt.emitAll_cons] at hlies
  have hneed : fuel + 1 - sizeOf (st :: sts) ≤ fuel - sizeOf st ∧
      fuel + 1 - sizeOf (st :: sts) ≤ fuel - sizeOf sts := by
    rw [List.cons.sizeOf_spec]
    omega
  have hlinks : P.program.Links (Stmt.walkAll (st :: sts)) →
      P.program.Links st.walk ∧ P.program.Links (Stmt.walkAll sts) := Program.links_append.1
  have hfirst := ih.stmt st frame t σ s
    (hplaced.part hlies.left (Stmt.grows_emitAll ..) (fun h => (hlinks h).1)
      (List.subset_append_left ..)) hrep
  rw [execAll]
  refine .bind (hfirst.weaken hneed.1)
    (Frame.Own.mono (List.subset_append_left ..)) fun completion σ₁ s₁ n₁ hpath₁ hpost₁ => ?_
  cases completion with
  | some value => exact .of_ok rfl (.refl s₁) hpost₁
  | none =>
      obtain ⟨hpc₁, hrep₁⟩ := hpost₁
      have hlies₁ := hlies.right
      rw [← hpc₁] at hlies₁
      have hmore := ih.all sts frame (st.emit P.library.target frame.formals t).2 σ₁ s₁
        (hplaced.part hlies₁ (.refl _) (fun h => (hlinks h).2) (List.subset_append_right ..)) hrep₁
      rw [Stmt.emitAll_cons, List.length_append, ← Nat.add_assoc, ← hpc₁]
      exact hmore.mono hneed.2 (Frame.Own.mono (List.subset_append_right ..)) fun _ _ _ => id

/-! ### Functions -/

/-- Not all of the fuel for a turn through a body is spent inside it. -/
theorem sizeOf_body_lt_pace {f : Function} (hf : f ∈ P.program.functions) :
    sizeOf f.body < P.pace := by
  have hprogram : sizeOf P.program = 1 + sizeOf P.program.functions := Program.mk.sizeOf_spec _
  have hfunction : sizeOf f = 1 + sizeOf f.name + sizeOf f.formals + sizeOf f.body :=
    Function.mk.sizeOf_spec ..
  have hlt := List.sizeOf_lt_of_mem hf
  unfold pace
  omega

/-- A function makes its frame. -/
theorem Agrees.enter {f : Function} {values : List Word} (h : P.Agrees σ s)
    (hlies : Lies P.user s.pc (.label (.function f.name) :: .label (.functionAlias f.name) ::
      (enterFrame ++ code)))
    (hlength : values.length = f.formals.length)
    (hwords : HoldsWords (s.registers .rsp + 8) values s) :
    ∃ u, P.Path ((Frame.entered f s).Own P.items f.body.targets) 4 s u ∧ u.pc = s.pc + 4 ∧
      P.Represents (Frame.entered f s) 0 { σ with locals := values } u := by
  let s₁ : State := s.next.next
  let s₂ : State := (s₁.push (s₁.registers .rbp)).next
  let s₃ : State := (s₂.setRegister .rbp (s₂.registers .rsp)).next
  have h₁ : P.Path ((Frame.entered f s).Own P.items f.body.targets) 2 s s₁ :=
    (path_label hlies).trans (path_label (s := s.next) hlies.tail)
  have h₂ : P.Path ((Frame.entered f s).Own P.items f.body.targets) 1 s₁ s₂ := by
    refine path_instr hlies.tail.tail rfl (fun byte hbyte => .inl ?_) (.inl rfl)
    have hlt : byte < s.registers .rsp := hbyte.2
    show byte < s.registers .rsp - 8 + 8
    omega
  have h₃ : P.Path ((Frame.entered f s).Own P.items f.body.targets) 1 s₂ s₃ :=
    path_quiet hlies.tail.tail.tail rfl (fun _ => id) rfl
  have hstack : ∀ a, s.registers .rsp ≤ a → s₃.stack a = s.stack a := fun a ha =>
    if_neg (show ¬ a = s.registers .rsp - 8 by omega)
  refine ⟨s₃, (h₁.trans h₂).trans h₃, rfl, ⟨⟨h.cells, h.output⟩, Int.le_refl _, ?_, rfl, hlength,
    ?_, if_pos rfl, ?_⟩⟩
  · exact (Int.sub_zero _).symm
  · show HoldsWords (s.registers .rsp - 8 + 16) values s₃
    rw [show s.registers .rsp - 8 + 16 = s.registers .rsp + 8 by omega]
    exact hwords.transfer fun a ha => hstack a (by omega)
  · show s₃.stack (s.registers .rsp - 8 + 8) = s.stack (s.registers .rsp)
    rw [Int.sub_add_cancel]
    exact hstack _ (Int.le_refl _)

/-- A function that ends without a `return` returns zero. -/
theorem Represents.endReturn (h : P.Represents frame 0 σ s)
    (hlies : Lies P.user s.pc
      (leaveFrame ++ [.instr (.mov (.immediate 0) Register.rax), .instr .ret])) :
    ∃ n u, P.Path writable n s u ∧ P.Returned frame 0 σ u := by
  obtain ⟨s₁, hleave, hpc₁, hagrees, hrsp, hrbp, hback, -⟩ := h.leave hlies
  have hlies₁ := hlies.right
  rw [← show s₁.pc = s.pc + leaveFrame.length from hpc₁] at hlies₁
  have hmov : P.Path writable 1 s₁ (s₁.setRegister .rax 0).next :=
    path_quiet hlies₁ rfl (fun _ => id) rfl
  obtain ⟨u, hret, hreturned⟩ := path_ret (s := (s₁.setRegister .rax 0).next) (a := 0)
    hlies₁.tail (hagrees.transfer rfl rfl) hrsp hrbp hback rfl
  exact ⟨_, u, (hleave.trans hmov).trans hret, hreturned⟩

theorem callMeets_succ (ih : P.Meets fuel) : P.CallMeets (fuel + 1) := by
  intro callee f values σ s hfind henters hlength hagrees hwords hcalls
  obtain ⟨hf, rfl⟩ := Program.find?_name hfind
  obtain ⟨start, t, hpc, hlies, hglobals⟩ := henters
  rw [Function.emit_eq] at hlies hglobals
  simp only [List.append_assoc] at hlies
  have hlies₀ := hlies.tail.tail
  rw [← show s.pc = start + 1 + 1 from hpc] at hlies₀
  obtain ⟨u, henter, hpc₁, hrep⟩ := hagrees.enter hlies₀ hlength hwords
  have hlies₁ : Lies P.user u.pc ((f.body.emit P.library.target f.formals t).1 ++ (leaveFrame ++
      [.instr (.mov (.immediate 0) Register.rax), .instr .ret])) := by
    rw [hpc₁]
    exact hlies₀.tail.tail.tail.tail
  have hframe : P.CalledWith ((Frame.entered f s).base + 16) := by
    rwa [show (Frame.entered f s).base + 16 = s.registers .rsp + 8 by
      show s.registers .rsp - 8 + 16 = _
      omega]
  have hdepths : f.body.callDepths ⊆ P.callDepths := fun depth hdepth =>
    List.mem_flatMap.2 ⟨f, hf, hdepth⟩
  have hbody := ih.stmt f.body (Frame.entered f s) t { σ with locals := values } u
    ⟨hlies₁.left, hglobals, Program.links_body P.accepted hf, hdepths, hframe⟩ hrep
  -- the caller's locals come back when the body is done
  have heval : runEval (evalCall P.program (fuel + 1) f.name values) σ =
      runEval (execStmt P.program f.formals fuel f.body >>= fun completion => do
        modify ({ · with locals := σ.locals })
        return completion.getD 0) { σ with locals := values } := by
    rw [evalCall, show P.program.functions.find? (·.name == f.name) = some f from hfind]
    rfl
  refine Simulates.congr ?_ heval
  -- entering the frame pays for all that the body spends without a step
  have hpace := sizeOf_body_lt_pace (P := P) hf
  refine .after henter (?_ : P.Simulates (fuel - sizeOf f.body) _ _ _ _ _) (by omega)
  refine hbody.bind (fun _ _ => id) fun completion σ₁ s₁ n₁ hpath₁ hpost₁ => ?_
  cases completion with
  | some value =>
      exact .of_ok rfl (.refl s₁) ⟨rfl, ⟨hpost₁.cells, hpost₁.output⟩, hpost₁.pc, hpost₁.rsp,
        hpost₁.rbp, hpost₁.rax⟩
  | none =>
      obtain ⟨hpc₂, hrep₂⟩ := hpost₁
      have hlies₂ : Lies P.user s₁.pc (leaveFrame ++
          [.instr (.mov (.immediate 0) Register.rax), .instr .ret]) := by
        rw [hpc₂]
        exact hlies₁.right
      obtain ⟨n, v, hend, hreturned⟩ := hrep₂.endReturn hlies₂
      exact .of_ok rfl hend ⟨rfl, ⟨hreturned.cells, hreturned.output⟩, hreturned.pc, hreturned.rsp,
        hreturned.rbp, hreturned.rax⟩

/-! ### All code -/

theorem meets_zero : P.Meets 0 where
  expr e frame depth t σ s _ hrep := by
    rw [Nat.zero_sub]
    exact .of_outOfFuel rfl hrep.output
  actuals es frame depth t σ s index _ hrep _ := by
    rw [Nat.zero_sub]
    exact .of_outOfFuel rfl hrep.output
  call callee f values σ s _ _ _ hagrees _ _ := .of_outOfFuel rfl hagrees.output
  stmt st frame t σ s _ hrep := by
    rw [Nat.zero_sub]
    exact .of_outOfFuel rfl hrep.output
  all sts frame t σ s _ hrep := by
    rw [Nat.zero_sub]
    exact .of_outOfFuel rfl hrep.output

/-- All code does what it is asked to, with any fuel. -/
theorem meets (P : Process) (fuel : Nat) : P.Meets fuel := by
  -- the contracts of calls and loops refer to code that encloses them, so the induction
  -- is on the fuel and not on the syntax
  induction fuel with
  | zero => exact meets_zero
  | succ fuel ih =>
      refine ⟨fun e => ?_, fun es => ?_, callMeets_succ ih, fun st => ?_, fun sts => ?_⟩
      · cases e with
        | var name => exact exprMeets_var name
        | lit value => exact exprMeets_lit value
        | call callee actuals => exact exprMeets_call ih callee actuals
        | binary op left right => exact exprMeets_binary ih op left right
      · cases es with
        | nil => exact actualsMeet_nil
        | cons e es => exact actualsMeet_cons ih e es
      · cases st with
        | assign name value => exact stmtMeets_assign ih name value
        | print value => exact stmtMeets_print ih value
        | ifThen cond yes => exact stmtMeets_ifThen ih cond yes
        | ifElse cond yes no => exact stmtMeets_ifElse ih cond yes no
        | loop cond body => exact stmtMeets_loop ih cond body
        | block body => exact stmtMeets_block ih body
        | ret value => exact stmtMeets_ret ih value
      · cases sts with
        | nil => exact allMeet_nil
        | cons st sts => exact allMeet_cons ih st sts

end FunCompiler.Semantics.Process
