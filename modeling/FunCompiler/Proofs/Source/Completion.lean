import FunCompiler.Proofs.Source.RoundTrip

/-!
Whatever has been read can be completed. A reading that waits for something is
given the shortest that it may be given: an operand for an expression, an empty
block for a statement, and the marks that close what is open, innermost first.
Each closes one piece of the context, so the proof is an induction on the pieces.
-/

namespace FunCompiler.Source

/-- Some tokens can be read that end the program. -/
def Reading.Completable (r : Reading) : Prop :=
  ∃ ts r' p, Takes r ts r' ∧ r'.finish? = some p

namespace Reading

variable {r r' : Reading}

theorem Completable.of_takes {ts : List Token} (h : r'.Completable) (htakes : Takes r ts r') :
    r.Completable := by
  obtain ⟨us, r'', p, htakes', hfinish⟩ := h
  exact ⟨ts ++ us, r'', p, htakes.append htakes', hfinish⟩

theorem Completable.of_step {t : Token} (h : r'.Completable) (hread : t.ReadAt r.place)
    (hstep : r.step t = some r') : r.Completable :=
  h.of_takes (.single hread hstep)

theorem Completable.of_mark (m : Mark) (h : r'.Completable)
    (hadmits : r.place.admits (.mark m) = true) (hstep : r.step (.mark m) = some r') :
    r.Completable :=
  h.of_step (readAt_mark hadmits) hstep

/-- Where a name is expected, any one will do. -/
theorem Completable.of_name (h : r'.Completable) (hadmits : r.place.admitsNames = true)
    (hstep : r.step (.name "x") = some r') : r.Completable := by
  refine h.of_step (readAt_name rfl hadmits fun k hk => ?_) hstep
  have hnone : Keyword.ofText? "x" = none := by decide
  rw [hnone] at hk
  cases hk

/-! ### Statements -/

theorem HasStmt.completable {frames : List StmtFrame} {head : Head} {s : Stmt}
    (h : r.HasStmt ⟨frames, head⟩ s) : r.Completable := by
  induction frames generalizing r s with
  | nil => exact ⟨[], r, _, .nil r, h.finish⟩
  | cons frame frames ih =>
      cases frame with
      | yes cond =>
          have hjoined : r.HasStmt ⟨frames, head⟩ (.ifThen cond s) :=
            HasStmt.join h (fun _ => rfl) nofun
          exact ih hjoined
      | no cond yes =>
          have hjoined : r.HasStmt ⟨frames, head⟩ (.ifElse cond yes s) :=
            HasStmt.join h (fun _ => rfl) fun hopen => ⟨hopen, fun _ => rfl⟩
          exact ih hjoined
      | body cond =>
          have hjoined : r.HasStmt ⟨frames, head⟩ (.loop cond s) :=
            HasStmt.join h (fun _ => rfl) fun hopen => ⟨hopen, fun _ => rfl⟩
          exact ih hjoined
      | item before =>
          have hitem : r.ExpectsItem ⟨frames, head⟩ (before ++ [s]) := HasStmt.expectsItem h
          have hblock := ih (hasStmt_afterBlock ⟨frames, head⟩ (before ++ [s]))
          exact hblock.of_mark .closeBrace hitem.admits_close hitem.step_close

theorem ExpectsStmt.completable {ctx : StmtContext} (h : r.ExpectsStmt ctx) : r.Completable := by
  have hempty : (Stmt.block []).Reads := Stmt.reads_block nofun
  obtain ⟨r', htakes, hhas⟩ := hempty r ctx h
  exact hhas.completable.of_takes htakes

/-! ### Expressions -/

theorem HasOperand.completable {frames : List ExprFrame} {purpose : Purpose} {outer : StmtContext}
    {e : Expr} (h : r.HasOperand ⟨frames, purpose, outer⟩ 0 e) : r.Completable := by
  induction frames generalizing r e with
  | nil =>
      cases purpose with
      | assign target =>
          have hstmt : r.HasStmt outer (.assign target e) := h.hasStmt (fun _ => rfl) rfl
          exact hstmt.completable
      | print =>
          have hstmt : r.HasStmt outer (.print e) := h.hasStmt (fun _ => rfl) rfl
          exact hstmt.completable
      | ret =>
          have hstmt : r.HasStmt outer (.ret e) := h.hasStmt (fun _ => rfl) rfl
          exact hstmt.completable
      | branch =>
          have hstmt : r.ExpectsStmt (outer.push (.yes e)) := h.expectsStmt fun _ => rfl
          exact hstmt.completable
      | loop =>
          have hstmt : r.ExpectsStmt (outer.push (.body e)) := h.expectsStmt fun _ => rfl
          exact hstmt.completable
  | cons frame frames ih =>
      cases frame with
      | right left op =>
          have hjoined : r.HasOperand ⟨frames, purpose, outer⟩ 0 (.binary op left e) :=
            HasOperand.binary h (Nat.zero_le _)
          exact ih hjoined
      | group =>
          have hoperand := ih (hasOperand_afterOperand ⟨frames, purpose, outer⟩ 0 e)
          exact hoperand.of_mark .closeParen (h.admits _ rfl) (h.step _ rfl (Nat.zero_le _))
      | actual callee before =>
          have hoperand := ih (hasOperand_afterOperand ⟨frames, purpose, outer⟩ 0
            (.call callee (before ++ [e])))
          exact hoperand.of_mark .closeParen (h.admits _ rfl) (h.step _ rfl (Nat.zero_le _))

theorem ExpectsOperand.completable {ctx : ExprContext} (h : r.ExpectsOperand ctx) :
    r.Completable := by
  have hread : (Token.number (toString 0)).ReadAt r.place :=
    readAt_number (by decide) fun digits => h.admits _ rfl
  exact (hasOperand_afterOperand ctx 0 _).completable.of_step hread (h.step _ rfl)

/-! ### Programs -/

theorem completable_statement (ctx : StmtContext) : (Reading.statement ctx).Completable :=
  (expectsStmt_statement ctx).completable

theorem completable_firstFormal (before : List Function) (name : String) :
    (Reading.firstFormal before name).Completable :=
  (completable_statement ⟨[], ⟨before, name, []⟩⟩).of_mark .closeParen rfl rfl

theorem completable_formalsOpen (before : List Function) (name : String) :
    (Reading.formalsOpen before name).Completable :=
  (completable_firstFormal before name).of_mark .openParen rfl rfl

theorem completable_afterFormal (before : List Function) (name : String) (formals : List String) :
    (Reading.afterFormal before name formals).Completable :=
  (completable_statement ⟨[], ⟨before, name, formals⟩⟩).of_mark .closeParen rfl rfl

theorem completable (r : Reading) : r.Completable := by
  cases r with
  | start => exact ⟨[], .start, _, .nil _, rfl⟩
  | functionName before => exact (completable_formalsOpen before "x").of_name rfl rfl
  | formalsOpen before name => exact completable_formalsOpen before name
  | firstFormal before name => exact completable_firstFormal before name
  | nextFormal before name formals =>
      exact (completable_afterFormal before name (formals ++ ["x"])).of_name rfl rfl
  | afterFormal before name formals => exact completable_afterFormal before name formals
  | statement ctx => exact completable_statement ctx
  | blockStart ctx => exact (expectsItem_blockStart ctx).item.completable
  | afterTarget ctx target =>
      have hvalue := (expectsOperand_operand ⟨[], .assign target, ctx⟩).completable
      exact hvalue.of_mark .becomes rfl rfl
  | operand ctx => exact (expectsOperand_operand ctx).completable
  | firstActual ctx callee => exact (expectsOperand_firstActual ctx callee).completable
  | afterName ctx name => exact (hasOperand_afterName ctx 0 name).completable
  | afterOperand ctx e => exact (hasOperand_afterOperand ctx 0 e).completable
  | afterBlock ctx body => exact (hasStmt_afterBlock ctx body).completable

end Reading

end FunCompiler.Source
