import FunCompiler.Proofs.Simulation.Contract

/-!
The code of expressions. While the right operand of an operator is computed,
the left one waits on the stack, and while the actuals of a call are computed,
those before them wait in their slots. Both survive for the same reason: code
that is started with a stack pointer writes only below it, the functions it
calls included, since their frames lie there.
-/

namespace FunCompiler.Semantics.Process

open Asm Code

variable {P : Process} {fuel : Nat} {writable : State → Int → Prop} {s t : State} {frame : Frame}
  {depth : Int} {pc : Nat} {code : List Item} {a b : Word} {σ : Store}

/-- An instruction that writes no stack and calls no function is one step of a run. -/
theorem path_quiet {i : Instr} (hlies : Lies P.user s.pc (.instr i :: code))
    (hrun : s.run? P.library P.items i = some t) (hwrites : ∀ byte, ¬ s.WritesBy i byte)
    (hcalls : i.callee? = none) : P.Path writable 1 s t :=
  path_instr hlies hrun (fun byte hbyte => absurd hbyte (hwrites byte)) (.inl hcalls)

/-- A run keeps the words from the bound on below which it writes. -/
theorem stack_eq_of_below {bound a : Int} {n : Nat} (h : P.Path (Below bound) n s t)
    (ha : bound ≤ a) : t.stack a = s.stack a := by
  refine h.stack_eq fun u hu byte hle _ hwrites => ?_
  have hlt : byte < bound := hu.writes byte hwrites
  omega

/-! ### Operators -/

theorem path_compare {c : Condition} {b : Bool}
    (hlies : Lies P.user s.pc (operatorCode.compare c))
    (hholds : { s with flags := some (word (s.registers .rcx), word (s.registers .rax)) }.holds? c
      = some b) :
    ∃ t, P.Path writable 3 s t ∧ t.pc = s.pc + 3 ∧ SameMemory s t ∧
      word (t.registers .rax) = Word.ofBool b := by
  let s₁ : State :=
    { s with flags := some (word (s.registers .rcx), word (s.registers .rax)) }.next
  let s₂ : State :=
    (s₁.setRegister .rax (s₁.registers .rax / 256 * 256 + if b then 1 else 0)).next
  let s₃ : State := (s₂.setRegister .rax (s₂.registers .rax % 256)).next
  have h₁ : P.Path writable 1 s s₁ := path_quiet hlies rfl (fun _ => id) rfl
  have h₂ : P.Path writable 1 s₁ s₂ := by
    refine path_quiet hlies.tail ?_ (fun _ => id) rfl
    rw [State.run?, show s₁.holds? c = some b from hholds]
    rfl
  have h₃ : P.Path writable 1 s₂ s₃ := path_quiet hlies.tail.tail rfl (fun _ => id) rfl
  refine ⟨s₃, (h₁.trans h₂).trans h₃, rfl, ⟨rfl, rfl, rfl, rfl, rfl⟩, ?_⟩
  show word ((s.registers .rax / 256 * 256 + if b then 1 else 0) % 256) = Word.ofBool b
  rw [Int.add_comm, Int.add_mul_emod_self_right]
  cases b <;> rfl

/-- The code of an operator applies it to `%rcx` and `%rax`. -/
theorem path_operator {op : Operator} (hlies : Lies P.user s.pc (operatorCode op)) :
    ∃ n t, P.Path writable n s t ∧ t.pc = s.pc + (operatorCode op).length ∧ SameMemory s t ∧
      word (t.registers .rax) = op.apply (word (s.registers .rcx)) (word (s.registers .rax)) := by
  cases op with
  | add =>
      refine ⟨1, _, path_quiet hlies rfl (fun _ => id) rfl, rfl, ⟨rfl, rfl, rfl, rfl, rfl⟩, ?_⟩
      show word (word (s.registers .rax) + word (s.registers .rcx)).toNat = _
      rw [word_toNat, BitVec.add_comm]
      rfl
  | mul =>
      refine ⟨1, _, path_quiet hlies rfl (fun _ => id) rfl, rfl, ⟨rfl, rfl, rfl, rfl, rfl⟩, ?_⟩
      show word (word (s.registers .rax) * word (s.registers .rcx)).toNat = _
      rw [word_toNat, BitVec.mul_comm]
      rfl
  | eq | ne | lt | gt => exact ⟨3, path_compare hlies rfl⟩

/-! ### Variables, literals and operators -/

theorem exprMeets_var (name : String) : P.ExprMeets (fuel + 1) (.var name) := by
  intro frame depth t σ s hplaced hrep
  have heval : runEval (evalExpr P.program frame.formals (fuel + 1) (.var name)) σ =
      (.ok (σ.get frame.formals name), σ) := rfl
  have hlies := hplaced.lies
  have hglobals := hplaced.globals
  rw [Expr.emit_var] at hlies hglobals ⊢
  refine .of_ok heval (path_quiet hlies rfl (fun _ => id) rfl) ⟨?_, rfl, ?_⟩
  · exact hrep.same ⟨rfl, rfl, rfl, rfl, rfl⟩
  · show word (s.read (locate frame.formals name t).1) = _
    obtain ⟨i, hi, hloc⟩ | ⟨hi, hloc⟩ := locate_cases frame.formals t name
    · rw [hloc]
      show word (s.stack (s.registers .rbp + formalOffset i)) = _
      rw [hrep.rbp]
      exact hrep.get_formal hi
    · rw [hloc] at hglobals ⊢
      exact hrep.get_global hi (hglobals (Globals.mem_register ..))

theorem exprMeets_lit (value : Int) : P.ExprMeets (fuel + 1) (.lit value) := by
  intro frame depth t σ s hplaced hrep
  have heval : runEval (evalExpr P.program frame.formals (fuel + 1) (.lit value)) σ =
      (.ok (word value), σ) := rfl
  exact .of_ok heval (path_quiet hplaced.lies rfl (fun _ => id) rfl)
    ⟨hrep.same ⟨rfl, rfl, rfl, rfl, rfl⟩, rfl, rfl⟩

/-- A value goes on the stack. -/
theorem Evaluated.push (h : P.Evaluated frame depth pc a σ s)
    (hlies : Lies P.user s.pc (.instr (.push .rax) :: code)) :
    ∃ u, P.Path (Below (frame.base - depth)) 1 s u ∧ u.pc = s.pc + 1 ∧
      P.Represents frame (depth + 8) σ u ∧ word (u.stack (frame.base - (depth + 8))) = a := by
  have hrsp : s.registers .rsp - 8 = frame.base - (depth + 8) := by
    rw [h.rsp]
    omega
  refine ⟨(s.push (s.registers .rax)).next, ?_, rfl, ?_, ?_⟩
  · refine path_instr hlies rfl (fun byte hbyte => ?_) (.inl rfl)
    rw [← h.rsp]
    exact hbyte.2
  · have hdepth := h.depth_nonneg
    refine h.toRepresents.transfer rfl rfl (by omega) hrsp rfl fun a ha => ?_
    rw [State.stack_next, State.stack_push, hrsp, if_neg (by omega)]
  · rw [State.stack_next, State.stack_push, hrsp, if_pos rfl]
    exact h.rax

/-- An operator takes its left operand from the stack. -/
theorem Evaluated.pop {op : Operator} (h : P.Evaluated frame (depth + 8) pc b σ s)
    (hdepth : 0 ≤ depth) (hwait : word (s.stack (frame.base - (depth + 8))) = a)
    (hlies : Lies P.user s.pc (.instr (.pop .rcx) :: operatorCode op)) :
    ∃ n u, P.Path writable n s u ∧
      P.Evaluated frame depth (pc + (1 + (operatorCode op).length)) (op.apply a b) σ u := by
  let s₁ : State :=
    ((s.setRegister .rsp (s.registers .rsp + 8)).setRegister .rcx
      (s.stack (s.registers .rsp))).next
  have hpop : P.Path writable 1 s s₁ := path_quiet hlies rfl (fun _ => id) rfl
  have hrep : P.Represents frame depth σ s₁ := by
    refine h.toRepresents.transfer rfl rfl hdepth ?_ rfl fun _ _ => rfl
    show s.registers .rsp + 8 = _
    rw [h.rsp]
    omega
  have hlies₁ : Lies P.user s₁.pc (operatorCode op) := hlies.tail
  obtain ⟨n, u, hop, hpc, hsame, hrax⟩ := path_operator hlies₁
  refine ⟨1 + n, u, hpop.trans hop, hrep.same hsame, ?_, ?_⟩
  · rw [hpc, ← h.pc]
    exact Nat.add_assoc ..
  · have hrcx : word (s₁.registers .rcx) = a := by
      rw [← hwait, ← h.rsp]
      rfl
    rw [hrax, hrcx, ← h.rax]
    rfl

theorem exprMeets_binary (ih : P.Meets fuel) (op : Operator) (left right : Expr) :
    P.ExprMeets (fuel + 1) (.binary op left right) := by
  intro frame depth t σ s hplaced hrep
  have hlies := hplaced.lies
  rw [Expr.emit_binary, List.append_assoc] at hlies
  have hneed : fuel + 1 - sizeOf (Expr.binary op left right) ≤ fuel - sizeOf left ∧
      fuel + 1 - sizeOf (Expr.binary op left right) ≤ fuel - sizeOf right := by
    rw [Expr.binary.sizeOf_spec]
    omega
  have hlinks : P.program.Links (Expr.binary op left right).walk →
      P.program.Links left.walk ∧ P.program.Links right.walk := by
    simp only [Expr.walk, List.cons_append, Program.links_binary, Program.links_append]
    exact id
  have hleft := ih.expr left frame depth t σ s
    (hplaced.part hlies.left (Expr.grows_emit ..) (fun h => (hlinks h).1)
      (List.subset_append_left ..)) hrep
  rw [evalExpr]
  refine .bind (hleft.weaken hneed.1) (fun _ _ => id) fun a σ₁ s₁ n₁ hpath₁ hpost₁ => ?_
  have hlies₁ := hlies.right
  rw [← hpost₁.pc] at hlies₁
  obtain ⟨s₂, hpush, hpc₂, hrep₂, hwait⟩ := hpost₁.push hlies₁
  have hlies₂ := hlies₁.tail
  rw [← hpc₂] at hlies₂
  have hright := ih.expr right frame (depth + 8) (left.emit frame.formals t).2 σ₁ s₂
    (hplaced.part hlies₂.left (.refl _) (fun h => (hlinks h).2)
      (List.subset_append_right ..)) hrep₂
  refine .after hpush ?_ (Nat.le_add_right _ _)
  refine .bind (hright.weaken hneed.2)
    (fun u byte (hbyte : byte < _) => show byte < _ by omega) fun b σ₂ s₃ n₃ hpath₃ hpost₃ => ?_
  have hlies₃ := hlies₂.right
  rw [← hpost₃.pc] at hlies₃
  -- the left operand waited at the bound below which the right one writes
  rw [← stack_eq_of_below hpath₃ (Int.le_refl _)] at hwait
  obtain ⟨n, u, hpop, hpost⟩ := hpost₃.pop hrep.depth_nonneg hwait hlies₃
  refine .of_ok rfl hpop ?_
  convert hpost using 1
  rw [Expr.emit_binary, hpc₂, hpost₁.pc]
  simp only [List.length_append, List.length_cons]
  omega

/-! ### Actuals -/

/-- A value goes into the slot of an actual. -/
theorem Evaluated.pass {index : Nat} (h : P.Evaluated frame depth pc a σ s)
    (hroom : 8 * (index + 1 : Int) ≤ depth)
    (hlies : Lies P.user s.pc (storeActual index :: code)) :
    ∃ u, P.Path (Slots (frame.base - depth) index (index + 1)) 1 s u ∧ u.pc = s.pc + 1 ∧
      P.Represents frame depth σ u ∧ word (u.stack (frame.base - depth + 8 * index)) = a := by
  refine ⟨(s.store (s.registers .rsp + 8 * index) (s.registers .rax)).next, ?_, rfl, ?_, ?_⟩
  · refine path_instr hlies rfl (fun byte hbyte => .inr ?_) (.inl rfl)
    rw [← h.rsp, Int.natCast_add, Int.mul_add, ← Int.add_assoc]
    exact hbyte
  · refine h.toRepresents.transfer rfl rfl h.depth_nonneg h.rsp rfl fun a ha => ?_
    rw [State.stack_next, State.stack_store, h.rsp, if_neg (by omega)]
  · rw [State.stack_next, State.stack_store, h.rsp, if_pos rfl]
    exact h.rax

theorem actualsMeet_nil : P.ActualsMeet (fuel + 1) [] := by
  intro frame depth t σ s index hplaced hrep hroom
  exact .of_ok rfl (.refl s) ⟨rfl, hrep, rfl, nofun⟩

theorem actualsMeet_cons (ih : P.Meets fuel) (e : Expr) (es : List Expr) :
    P.ActualsMeet (fuel + 1) (e :: es) := by
  intro frame depth t σ s index hplaced hrep hroom
  have hlies := hplaced.lies
  rw [Expr.emitActuals_cons] at hlies
  rw [List.length_cons] at hroom
  have hneed : fuel + 1 - sizeOf (e :: es) ≤ fuel - sizeOf e ∧
      fuel + 1 - sizeOf (e :: es) ≤ fuel - sizeOf es := by
    rw [List.cons.sizeOf_spec]
    omega
  have hlinks : P.program.Links (Expr.walkAll (e :: es)) →
      P.program.Links e.walk ∧ P.program.Links (Expr.walkAll es) := Program.links_append.1
  have hfirst := ih.expr e frame depth t σ s
    (hplaced.part hlies.left (Expr.grows_emitActuals ..) (fun h => (hlinks h).1)
      (List.subset_append_left ..)) hrep
  rw [evalActuals]
  refine .bind (hfirst.weaken hneed.1) (fun _ _ => .inl) fun a σ₁ s₁ n₁ hpath₁ hpost₁ => ?_
  have hlies₁ := hlies.right
  rw [← hpost₁.pc] at hlies₁
  obtain ⟨s₂, hpass, hpc₂, hrep₂, hslot⟩ := hpost₁.pass (by omega) hlies₁
  have hlies₂ := hlies₁.tail
  rw [← hpc₂] at hlies₂
  have hmore := ih.actuals es frame depth (e.emit frame.formals t).2 σ₁ s₂ (index + 1)
    (hplaced.part hlies₂ (.refl _) (fun h => (hlinks h).2) (List.subset_append_right ..)) hrep₂
    (by omega)
  have hstore : P.Path (Slots (frame.base - depth) index (index + (e :: es).length)) 1 s₁ s₂ := by
    refine hpass.mono fun u hu => hu.mono fun byte hbyte => ?_
    simp only [Slots, List.length_cons] at hbyte ⊢
    omega
  refine .after hstore ?_ (Nat.le_add_right _ _)
  refine .bind (hmore.weaken hneed.2) (fun u byte hbyte => ?_)
    fun values σ₂ s₃ n₃ hpath₃ hpost₃ => ?_
  · simp only [Slots, List.length_cons] at hbyte ⊢
    omega
  obtain ⟨hlength, hpost₃⟩ := hpost₃
  refine .of_ok rfl (.refl s₃)
    ⟨by rw [List.length_cons, List.length_cons, hlength], hpost₃.toRepresents, ?_, ?_⟩
  · rw [hpost₃.pc, hpc₂, hpost₁.pc, Expr.emitActuals_cons]
    simp only [List.length_append, List.length_cons]
    omega
  · intro other value hvalue
    cases other with
    | zero =>
        rw [List.getElem?_cons_zero] at hvalue
        -- the actuals behind this one go into the slots behind its own
        have hkeep : s₃.stack (frame.base - depth + 8 * index) =
            s₂.stack (frame.base - depth + 8 * index) := by
          refine hpath₃.stack_eq fun u hu byte hle hlt hwrites => ?_
          have hslots := hu.writes byte hwrites
          simp only [Slots] at hslots
          omega
        rw [Int.natCast_zero, Int.mul_zero, Int.add_zero, hkeep, hslot]
        exact Option.some.inj hvalue
    | succ other =>
        rw [List.getElem?_cons_succ] at hvalue
        rw [← hpost₃.slots other value hvalue]
        congr 2
        omega

/-! ### Calls -/

theorem lies_reserving {user : List Item} {n : Nat} (hlies : Lies user pc (reserving n code)) :
    Lies user (pc + if n = 0 then 0 else 1) code := by
  unfold reserving at hlies
  split at hlies
  · rwa [if_pos ‹_›]
  · rw [if_neg ‹_›]
    exact hlies.tail.left

/-- The slots of a call are reserved. -/
theorem path_reserve {n : Nat} (hlies : Lies P.user s.pc (reserving n code))
    (hrep : P.Represents frame depth σ s) :
    ∃ k u, P.Path writable k s u ∧ u.pc = s.pc + (if n = 0 then 0 else 1) ∧
      P.Represents frame (depth + areaBytes n) σ u := by
  unfold reserving at hlies
  unfold areaBytes
  split at hlies
  · rw [if_pos ‹_›, if_pos ‹_›, Int.add_zero]
    exact ⟨0, s, .refl s, rfl, hrep⟩
  · rw [if_neg ‹_›, if_neg ‹_›]
    refine ⟨1, _, path_quiet hlies rfl (fun _ => id) rfl, rfl, ?_⟩
    have hdepth := hrep.depth_nonneg
    refine hrep.transfer rfl rfl (by simp only [reservedBytes]; omega) ?_ rfl fun _ _ => rfl
    show s.registers .rsp + -reservedBytes n = _
    rw [hrep.rsp]
    omega

/-- The slots of a call are given up again. -/
theorem path_release {n : Nat} (hlies : Lies P.user pc (reserving n code)) (hdepth : 0 ≤ depth)
    (h : P.Evaluated frame (depth + areaBytes n)
      (pc + (if n = 0 then 0 else 1) + code.length) a σ s) :
    ∃ k u, P.Path writable k s u ∧
      P.Evaluated frame depth (pc + (reserving n code).length) a σ u := by
  have hpc := h.pc
  unfold areaBytes at h
  unfold reserving at hlies ⊢
  split at hlies
  · rw [if_pos ‹_›, Int.add_zero, if_pos ‹_›] at h
    rw [if_pos ‹_›]
    exact ⟨0, s, .refl s, h⟩
  · rw [if_neg ‹_›] at h hpc
    rw [if_neg ‹_›]
    have hlies' : Lies P.user s.pc [.instr (.add (.immediate (reservedBytes n)) Register.rsp)] := by
      rw [hpc]
      exact hlies.tail.right
    refine ⟨1, _, path_quiet hlies' rfl (fun _ => id) rfl, ?_, ?_, h.rax⟩
    · refine h.toRepresents.transfer rfl rfl hdepth ?_ rfl fun _ _ => rfl
      show s.registers .rsp + reservedBytes n = _
      rw [h.rsp]
      omega
    · show s.pc + 1 = _
      rw [hpc]
      simp only [List.length_append, List.length_cons, List.length_nil]
      omega

/-- A call enters the function, with the actuals where the function looks for them. -/
theorem Passed.call {f : Function} {values : List Word}
    (h : P.Passed frame depth pc 0 values σ s) (hf : f ∈ P.program.functions)
    (hlies : Lies P.user s.pc (.instr (.call (.function f.name)) :: code))
    (hnested : P.Nested s) :
    ∃ u, P.Path (Below (frame.base - depth)) 1 s u ∧ P.Enters f u.pc ∧ P.Agrees σ u ∧
      u.registers .rsp + 8 = frame.base - depth ∧
      Frame.entered f u = ⟨f.formals, frame.base - depth - 16, frame.base, s.pc + 1⟩ ∧
      (∀ a, frame.base - depth ≤ a → u.stack a = s.stack a) := by
  obtain ⟨entry, henters, hjump⟩ := exists_enters hf
  let u : State := { s.push (s.pc + 1) with pc := entry }
  have hrsp : u.registers .rsp = frame.base - depth - 8 := by
    show s.registers .rsp - 8 = _
    rw [h.rsp]
  refine ⟨u, ?_, henters, ⟨h.cells, h.output⟩, by omega, ?_, ?_⟩
  · refine path_instr hlies (hjump _) (fun byte hbyte => ?_) (.inr hnested)
    rw [← h.rsp]
    exact hbyte.2
  · have hback : u.stack (u.registers .rsp) = s.pc + 1 := if_pos rfl
    have hrbp : u.registers .rbp = frame.base := h.rbp
    rw [Frame.entered, hback, hrbp, hrsp]
    congr 1
    omega
  · intro a ha
    show (s.push (s.pc + 1)).stack a = s.stack a
    rw [State.stack_push, h.rsp, if_neg (by omega)]

/-- The caller goes on when a function has returned. -/
theorem Represents.resume {names : List String} {σ' : Store} (h : P.Represents frame depth σ s)
    (hreturned : P.Returned ⟨names, frame.base - depth - 16, frame.base, s.pc + 1⟩ a σ' t)
    (hlocals : σ'.locals = σ.locals) (hstack : ∀ x, frame.base ≤ x → t.stack x = s.stack x) :
    P.Evaluated frame depth (s.pc + 1) a σ' t where
  toAgrees := hreturned.toAgrees
  depth_nonneg := h.depth_nonneg
  rsp := by
    rw [hreturned.rsp]
    show frame.base - depth - 16 + 16 = _
    omega
  rbp := hreturned.rbp
  arity := hlocals ▸ h.arity
  locals := hlocals ▸ h.locals.transfer fun x hx => hstack x (by omega)
  caller := by rw [hstack _ (Int.le_refl _)]; exact h.caller
  back := by rw [hstack _ (by omega)]; exact h.back
  pc := hreturned.pc
  rax := hreturned.rax

theorem exprMeets_call (ih : P.Meets fuel) (callee : String) (actuals : List Expr) :
    P.ExprMeets (fuel + 1) (.call callee actuals) := by
  intro frame depth t σ s hplaced hrep
  have hlies := hplaced.lies
  rw [Expr.emit_call] at hlies
  have hneed : fuel + 1 - sizeOf (Expr.call callee actuals) ≤ fuel - sizeOf actuals ∧
      fuel + 1 - sizeOf (Expr.call callee actuals) ≤ fuel := by
    rw [Expr.call.sizeOf_spec]
    omega
  obtain ⟨⟨f, hfind, harity⟩, hlinks⟩ := Program.links_call.1 hplaced.links
  obtain ⟨hf, rfl⟩ := Program.find?_name hfind
  have hdepth := hrep.depth_nonneg
  have harea : 8 * (actuals.length : Int) ≤ areaBytes actuals.length := by
    simp only [areaBytes, reservedBytes]
    split <;> omega
  obtain ⟨k, s₁, hreserve, hpc₁, hrep₁⟩ := path_reserve hlies hrep
  have hlies₁ := lies_reserving hlies
  rw [← hpc₁] at hlies₁
  have hactuals := ih.actuals actuals frame (depth + areaBytes actuals.length) t σ s₁ 0
    (hplaced.part hlies₁.left (.refl _) (fun _ => hlinks) (List.subset_append_left ..)) hrep₁
    (by omega)
  rw [evalExpr]
  refine .after hreserve ?_ (Nat.le_add_right _ _)
  refine .bind (hactuals.weaken hneed.1) (fun u byte hbyte => ?_)
    fun values σ₂ s₂ n₂ hpath₂ hpost₂ => ?_
  · simp only [Slots, Below] at hbyte ⊢
    omega
  obtain ⟨hlength, hpost₂⟩ := hpost₂
  have hlies₂ := hlies₁.right
  rw [← hpost₂.pc] at hlies₂
  refine .of_visited fun hvisited => ?_
  have hcalls : s₂.CallsFunction P.items := by
    refine ⟨f.name, ?_⟩
    rw [items_eq]
    exact hlies₂.getElem? _
  have hnested : P.Nested s₂ := by
    have harea₂ := hpost₂.depth_nonneg
    refine ⟨by rw [hpost₂.rbp]; exact hplaced.frame, by rw [hpost₂.rsp, hpost₂.rbp]; omega,
      hplaced.depths (List.mem_append_right _ (List.mem_singleton.2 ?_))⟩
    rw [hpost₂.rbp, hpost₂.rsp]
    omega
  obtain ⟨s₃, hcall, henters, hagrees, hrsp₃, hframe, hstack₃⟩ := hpost₂.call hf hlies₂ hnested
  have hwords : HoldsWords (s₃.registers .rsp + 8) values s₃ := by
    rw [hrsp₃]
    refine HoldsWords.transfer ?_ hstack₃
    simpa using hpost₂.slots
  -- what the function owns, its formals included, lies in the area reserved for it
  have hbelow : ∀ u byte, (Frame.entered f s₃).Own P.items f.body.targets u byte →
      Below (frame.base - depth) u byte := by
    intro u byte hown
    have hlt := hown.below
    rw [hrsp₃, harity] at hlt
    show byte < _
    omega
  have hfunction := ih.call f.name f values σ₂ s₃ hfind henters (hlength.trans harity.symm)
    hagrees hwords ⟨s₂, hvisited, hcalls, by rw [hrsp₃, hpost₂.rsp]⟩
  have hcall' : P.Path (Below (frame.base - depth)) 1 s₂ s₃ :=
    hcall.mono fun u hu => hu.mono fun byte hbyte => by
      simp only [Below] at hbyte ⊢
      omega
  refine .after hcall' ?_ (Nat.le_add_right _ _)
  refine Simulates.finish (hfunction.weaken hneed.2) hbelow
    fun value σ₄ s₄ n₄ hpath₄ hpost₄ => ?_
  obtain ⟨hlocals, hreturned⟩ := hpost₄
  rw [hframe] at hreturned
  have hstack₄ : ∀ a, frame.base ≤ a → s₄.stack a = s₂.stack a := by
    intro a ha
    rw [stack_eq_of_below (hpath₄.mono fun u hu => hu.mono (hbelow u)) (by omega),
      hstack₃ a (by omega)]
  have hpost := hpost₂.toRepresents.resume hreturned hlocals hstack₄
  rw [hpost₂.pc, hpc₁] at hpost
  refine path_release hlies hdepth ?_
  convert hpost using 1
  rw [List.length_append]
  rfl

end FunCompiler.Semantics.Process
