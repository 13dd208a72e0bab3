import FunCompiler.Proofs.Source.Lexing
import FunCompiler.Program.Walk

/-!
Parsing undoes writing. A reading that has taken the tokens of an expression in
goes on as if the expression had been one operand (`Reading.HasOperand`), as long
as the next operator does not bind tighter than the place where the expression
was written allows; this is what the parentheses are put for. In the same way a
reading that has taken the tokens of a statement in goes on as if the statement
had been joined to what surrounds it (`Reading.HasStmt`), unless an `else` comes
next and the statement ends with a conditional that would take it.

`Expr.Reads` and `Stmt.Reads` say this of one tree, in every context. There is
one lemma for each constructor, and the trees of a program follow by recursion.
-/

namespace FunCompiler

open Source

/-- The statement ends with a conditional without an `else`. -/
def Stmt.endsOpen : Stmt → Bool
  | .ifThen _ _ => true
  | .ifElse _ _ no => no.endsOpen
  | .loop _ body => body.endsOpen
  | _ => false

/-- What a node must satisfy to be read back from its text: names are identifiers, a
target spells no keyword, a literal fits in a word, and no `else` is taken by a
conditional inside the branch before it. -/
def Node.isWritable : Node → Bool
  | .function f => isIdentifier f.name && f.formals.all isIdentifier
  | .stmt (.assign target _) => isIdentifier target && (Keyword.ofText? target).isNone
  | .stmt (.ifElse _ yes _) => !yes.endsOpen
  | .expr (.var name) => isIdentifier name
  | .expr (.call callee _) => isIdentifier callee
  | .expr (.lit value) => decide (0 ≤ value ∧ value < wordCount)
  | _ => true

namespace Source

/-! ### Operands -/

/-- The precedence at which operands before this token are joined. -/
def Token.reach : Token → Nat
  | .operator op => op.precedence
  | _ => 0

namespace ExprContext

/-- No operator on the left takes an operand before one of precedence `limit`. -/
def Yields (limit : Nat) : List ExprFrame → Prop
  | .right _ op :: _ => op.precedence < limit
  | _ => True

theorem close_of_yields {limit : Nat} {frames : List ExprFrame} (h : Yields limit frames)
    (e : Expr) : close limit frames e = (frames, e) := by
  cases frames with
  | nil => rfl
  | cons frame frames =>
      cases frame with
      | right left op => exact if_neg (Nat.not_le.2 h)
      | group => rfl
      | actual callee before => rfl

theorem Yields.mono {limit limit' : Nat} {frames : List ExprFrame} (h : Yields limit frames)
    (hle : limit ≤ limit') : Yields limit' frames := by
  cases frames with
  | nil => trivial
  | cons frame frames =>
      cases frame with
      | right left op => exact Nat.lt_of_lt_of_le h hle
      | group => trivial
      | actual callee before => trivial

variable {ctx : ExprContext} {left right : Expr} {op : Operator}

theorem close_push_right {limit : Nat} (h : limit ≤ op.precedence) :
    close limit (ctx.push (.right left op)).frames right =
      close limit ctx.frames (.binary op left right) :=
  if_pos h

/-- Behind a token that does not bind tighter, a right operand is joined at once. -/
theorem follow?_push_right {t : Token} (h : t.reach ≤ op.precedence) :
    (ctx.push (.right left op)).follow? right t = ctx.follow? (.binary op left right) t := by
  have hclose : close t.reach (ctx.push (.right left op)).frames right =
      close t.reach ctx.frames (.binary op left right) := close_push_right h
  cases t with
  | mark m => cases m <;> simp only [follow?, Token.reach] at hclose ⊢ <;> rw [hclose] <;> rfl
  | _ => simp only [follow?, Token.reach] at hclose ⊢; rw [hclose]; rfl

theorem finish?_push_right :
    (ctx.push (.right left op)).finish? right = ctx.finish? (.binary op left right) := by
  unfold finish?
  rw [close_push_right (Nat.zero_le _)]
  rfl

end ExprContext

/-- An operand comes next, inside the context. -/
structure Reading.ExpectsOperand (r : Reading) (ctx : ExprContext) : Prop where
  admits : ∀ t : Token, t.startsOperand = true → r.place.admits t = true
  admits_keyword : ∀ k, r.place.admits (.keyword k) = false
  step : ∀ t : Token, t.startsOperand = true → r.step t = ctx.begin? t

/-- The reading goes on as behind the operand `e`, if no operator tighter than `limit`
comes next. -/
structure Reading.HasOperand (r : Reading) (ctx : ExprContext) (limit : Nat) (e : Expr) :
    Prop where
  admits : ∀ t : Token, t.followsOperand = true → r.place.admits t = true
  step : ∀ t : Token, t.followsOperand = true → t.reach ≤ limit → r.step t = ctx.follow? e t
  finish : r.finish? = ctx.finish? e

namespace Reading

variable {r : Reading} {ctx : ExprContext} {limit : Nat} {e : Expr}

theorem expectsOperand_operand (ctx : ExprContext) : (Reading.operand ctx).ExpectsOperand ctx where
  admits _ ht := ht
  admits_keyword _ := rfl
  step _ _ := rfl

theorem expectsOperand_firstActual (ctx : ExprContext) (callee : String) :
    (Reading.firstActual ctx callee).ExpectsOperand (ctx.push (.actual callee [])) where
  admits _ ht := Bool.or_eq_true_iff.2 (.inl ht)
  admits_keyword _ := rfl
  step t ht := by
    cases t with
    | mark m =>
        cases m with
        | closeParen => cases ht
        | _ => rfl
    | _ => rfl

theorem hasOperand_afterOperand (ctx : ExprContext) (limit : Nat) (e : Expr) :
    (Reading.afterOperand ctx e).HasOperand ctx limit e where
  admits _ ht := ht
  step _ _ _ := rfl
  finish := rfl

theorem hasOperand_afterName (ctx : ExprContext) (limit : Nat) (name : String) :
    (Reading.afterName ctx name).HasOperand ctx limit (.var name) where
  admits _ ht := Bool.or_eq_true_iff.2 (.inl ht)
  step t ht _ := by
    cases t with
    | mark m =>
        cases m with
        | openParen => cases ht
        | _ => rfl
    | _ => rfl
  finish := rfl

theorem HasOperand.mono {limit' : Nat} (h : r.HasOperand ctx limit e) (hle : limit' ≤ limit) :
    r.HasOperand ctx limit' e :=
  ⟨h.admits, fun t ht hreach => h.step t ht (Nat.le_trans hreach hle), h.finish⟩

/-- Behind the right operand of an operator stands the whole operation. -/
theorem HasOperand.binary {op : Operator} {left right : Expr}
    (h : r.HasOperand (ctx.push (.right left op)) limit right) (hop : limit ≤ op.precedence) :
    r.HasOperand ctx limit (.binary op left right) where
  admits := h.admits
  step t ht hreach := by
    rw [h.step t ht hreach]
    exact ExprContext.follow?_push_right (Nat.le_trans hreach hop)
  finish := by
    rw [h.finish]
    exact ExprContext.finish?_push_right

theorem ExpectsOperand.readAt_name {name : String} (h : r.ExpectsOperand ctx)
    (hname : isIdentifier name = true) : (Token.name name).ReadAt r.place :=
  Source.readAt_name hname (h.admits _ rfl) fun k _ => h.admits_keyword k

end Reading

/-! ### Expressions -/

end Source

/-- Wherever an operand may stand that binds at least as tightly as `limit`, reading the
tokens of the expression gives the expression. -/
def Expr.Reads (limit : Nat) (e : Expr) : Prop :=
  ∀ (r : Reading) (ctx : ExprContext), r.ExpectsOperand ctx →
    ExprContext.Yields limit ctx.frames →
    ∃ r', Takes r (e.tokens limit) r' ∧ r'.HasOperand ctx limit e

namespace Expr

theorem reads_var {name : String} (hname : isIdentifier name = true) (limit : Nat) :
    (Expr.var name).Reads limit := by
  intro r ctx hr _
  refine ⟨.afterName ctx name, ?_, Reading.hasOperand_afterName ctx limit name⟩
  exact .single (hr.readAt_name hname) (hr.step _ rfl)

theorem reads_lit {value : Int} (hnonneg : 0 ≤ value) (hlt : value < wordCount) (limit : Nat) :
    (Expr.lit value).Reads limit := by
  intro r ctx hr _
  refine ⟨.afterOperand ctx (.lit value), ?_, Reading.hasOperand_afterOperand ctx limit _⟩
  have hread : (Token.number (toString value.toNat)).ReadAt r.place := by
    refine readAt_number ?_ fun digits => hr.admits _ rfl
    omega
  refine .single hread ?_
  rw [hr.step _ rfl, ExprContext.begin?, ofDigitChars_toString, Int.toNat_of_nonneg hnonneg]

/-- The inside of an operation, with or without parentheses around it. -/
theorem takes_binary {op : Operator} {left right : Expr} (hleft : left.Reads op.precedence)
    (hright : right.Reads (op.precedence + 1)) {r : Reading} {ctx : ExprContext}
    (hr : r.ExpectsOperand ctx) (hctx : ExprContext.Yields op.precedence ctx.frames) :
    ∃ r', Takes r (left.tokens op.precedence ++
        .operator op :: right.tokens (op.precedence + 1)) r' ∧
      r'.HasOperand ctx op.precedence (.binary op left right) := by
  obtain ⟨r₁, htakes₁, hhas₁⟩ := hleft r ctx hr hctx
  -- nothing on the left takes `left` away from the operator
  have hstep : r₁.step (.operator op) = some (.operand (ctx.push (.right left op))) := by
    rw [hhas₁.step _ rfl (Nat.le_refl _), ExprContext.follow?, ExprContext.close_of_yields hctx]
    rfl
  obtain ⟨r₂, htakes₂, hhas₂⟩ :=
    hright _ _ (Reading.expectsOperand_operand (ctx.push (.right left op)))
      (Nat.lt_succ_self op.precedence)
  have hread : (Token.operator op).ReadAt r₁.place := readAt_operator (hhas₁.admits _ rfl)
  have hhas : r₂.HasOperand (ctx.push (.right left op)) op.precedence right :=
    hhas₂.mono (Nat.le_succ _)
  exact ⟨r₂, htakes₁.append (.cons hread hstep htakes₂), hhas.binary (Nat.le_refl _)⟩

theorem reads_binary {op : Operator} {left right : Expr} (hleft : left.Reads op.precedence)
    (hright : right.Reads (op.precedence + 1)) (limit : Nat) :
    (Expr.binary op left right).Reads limit := by
  intro r ctx hr hctx
  by_cases hparen : op.precedence < limit
  · obtain ⟨r', htakes, hhas⟩ := takes_binary hleft hright
      (Reading.expectsOperand_operand (ctx.push .group)) trivial
    have hopen : (Token.mark .openParen).ReadAt r.place := readAt_mark (hr.admits _ rfl)
    have hclose : (Token.mark .closeParen).ReadAt r'.place := readAt_mark (hhas.admits _ rfl)
    have hstep : r'.step (.mark .closeParen) =
        some (.afterOperand ctx (.binary op left right)) :=
      hhas.step _ rfl (Nat.zero_le _)
    refine ⟨_, ?_, Reading.hasOperand_afterOperand ctx limit _⟩
    rw [Expr.tokens, if_pos hparen]
    exact .append (.cons hopen (hr.step _ rfl) htakes) (.single hclose hstep)
  · have hle : limit ≤ op.precedence := Nat.not_lt.1 hparen
    obtain ⟨r', htakes, hhas⟩ :=
      takes_binary hleft hright hr (ExprContext.Yields.mono hctx hle)
    rw [Expr.tokens, if_neg hparen]
    exact ⟨r', htakes, hhas.mono hle⟩

/-- The actuals of a call from its first one on, with the closing parenthesis. -/
theorem takes_actuals {callee : String} {ctx : ExprContext} {e : Expr} {es : List Expr}
    (hreads : ∀ e' ∈ e :: es, e'.Reads 0) {before : List Expr} {r : Reading}
    (hr : r.ExpectsOperand (ctx.push (.actual callee before))) :
    Takes r (Expr.actualTokens (e :: es) ++ [.mark .closeParen])
      (.afterOperand ctx (.call callee (before ++ e :: es))) := by
  induction es generalizing before r e with
  | nil =>
      obtain ⟨r', htakes, hhas⟩ := hreads e (List.mem_cons_self ..) r _ hr trivial
      have hread : (Token.mark .closeParen).ReadAt r'.place := readAt_mark (hhas.admits _ rfl)
      exact htakes.append (.single hread (hhas.step _ rfl (Nat.zero_le _)))
  | cons e' es ih =>
      obtain ⟨r', htakes, hhas⟩ := hreads e (List.mem_cons_self ..) r _ hr trivial
      have hread : (Token.mark .comma).ReadAt r'.place := readAt_mark (hhas.admits _ rfl)
      have hstep : r'.step (.mark .comma) =
          some (.operand (ctx.push (.actual callee (before ++ [e])))) :=
        hhas.step _ rfl (Nat.zero_le _)
      have hrest := ih (fun x hx => hreads x (List.mem_cons_of_mem _ hx))
        (Reading.expectsOperand_operand (ctx.push (.actual callee (before ++ [e]))))
      rw [List.append_assoc] at hrest
      rw [Expr.actualTokens, List.append_assoc]
      · exact htakes.append (.cons hread hstep hrest)
      · rintro ⟨⟩

theorem reads_call {callee : String} {actuals : List Expr} (hcallee : isIdentifier callee = true)
    (hactuals : ∀ e ∈ actuals, e.Reads 0) (limit : Nat) : (Expr.call callee actuals).Reads limit := by
  intro r ctx hr _
  refine ⟨.afterOperand ctx (.call callee actuals), ?_,
    Reading.hasOperand_afterOperand ctx limit _⟩
  have hrest : Takes (.firstActual ctx callee)
      (Expr.actualTokens actuals ++ [.mark .closeParen])
      (.afterOperand ctx (.call callee actuals)) := by
    cases actuals with
    | nil => exact .single (readAt_mark rfl) rfl
    | cons e es => exact takes_actuals hactuals (Reading.expectsOperand_firstActual ctx callee)
  have hopen : (Token.mark .openParen).ReadAt (Reading.afterName ctx callee).place :=
    readAt_mark rfl
  rw [Expr.tokens]
  exact .cons (hr.readAt_name hcallee) (hr.step _ rfl) (.cons hopen rfl hrest)

end Expr

mutual

theorem Expr.reads (e : Expr) (h : e.walk.all Node.isWritable = true) (limit : Nat) :
    e.Reads limit := by
  cases e with
  | var name =>
      rw [Expr.walk, List.all_cons, Bool.and_eq_true] at h
      exact reads_var h.1 limit
  | lit value =>
      rw [Expr.walk, List.all_cons, Bool.and_eq_true, Node.isWritable, decide_eq_true_eq] at h
      exact reads_lit h.1.1 h.1.2 limit
  | call callee actuals =>
      rw [Expr.walk, List.all_cons, Bool.and_eq_true] at h
      exact reads_call h.1 (Expr.reads_all actuals h.2) limit
  | binary op left right =>
      rw [Expr.walk, List.cons_append, List.all_cons, List.all_append, Bool.and_eq_true,
        Bool.and_eq_true] at h
      exact reads_binary (Expr.reads left h.2.1 _) (Expr.reads right h.2.2 _) limit

theorem Expr.reads_all (es : List Expr) (h : (Expr.walkAll es).all Node.isWritable = true) :
    ∀ e ∈ es, e.Reads 0 := by
  cases es with
  | nil => exact fun _ he => absurd he List.not_mem_nil
  | cons e es =>
      rw [Expr.walkAll, List.all_append, Bool.and_eq_true] at h
      exact List.forall_mem_cons.2 ⟨Expr.reads e h.1 0, Expr.reads_all es h.2⟩

end

/-! ### Statements -/

namespace Source

namespace StmtContext

variable {ctx : StmtContext} {frame : StmtFrame} {s s' : Stmt}

/-- A statement that closes into the frame around it is followed like the joined one. -/
theorem follow?_push {t : Token}
    (hclose : ∀ frames, close (frame :: frames) s = close frames s')
    (hbranch : t = .keyword .otherwise →
      ∀ frames, closeToBranch (frame :: frames) s = closeToBranch frames s') :
    (ctx.push frame).follow? s t = ctx.follow? s' t := by
  cases t with
  | keyword k =>
      cases k with
      | otherwise => simp only [follow?, push, hbranch rfl]
      | _ => simp only [follow?, push, hclose]
  | _ => simp only [follow?, push, hclose]

theorem finish?_push (hclose : ∀ frames, close (frame :: frames) s = close frames s') :
    (ctx.push frame).finish? s = ctx.finish? s' := by
  simp only [finish?, push, hclose]

end StmtContext

theorem Token.followsBlock_of_startsStatement {t : Token} (h : t.startsStatement = true) :
    t.followsBlock = true := by
  cases t with
  | mark m =>
      cases m with
      | openBrace => rfl
      | _ => cases h
  | keyword k => rfl
  | name text => rfl
  | number digits => cases h
  | operator op => cases h

theorem Token.followsOperand_of_followsBlock {t : Token} (h : t.followsBlock = true) :
    t.followsOperand = true ∧ t.reach = 0 := by
  cases t with
  | mark m =>
      cases m with
      | openBrace | closeBrace => exact ⟨rfl, rfl⟩
      | _ => cases h
  | keyword k => exact ⟨rfl, rfl⟩
  | name text => exact ⟨rfl, rfl⟩
  | number digits => cases h
  | operator op => cases h

/-- A statement comes next, inside the context. -/
structure Reading.ExpectsStmt (r : Reading) (ctx : StmtContext) : Prop where
  admits : ∀ t : Token, t.startsStatement = true → r.place.admits t = true
  step : ∀ t : Token, t.startsStatement = true → r.step t = ctx.begin? t

/-- The reading goes on as behind the statement `s`, unless an `else` comes next that
belongs to a conditional at the end of `s`. -/
structure Reading.HasStmt (r : Reading) (ctx : StmtContext) (s : Stmt) : Prop where
  admits : ∀ t : Token, t.followsBlock = true → r.place.admits t = true
  step : ∀ t : Token, t.followsBlock = true → (t = .keyword .otherwise → s.endsOpen = false) →
    r.step t = ctx.follow? s t
  finish : r.finish? = ctx.finish? s

/-- A statement or the closing brace comes next, inside a block that holds `before`. -/
structure Reading.ExpectsItem (r : Reading) (ctx : StmtContext) (before : List Stmt) : Prop where
  item : r.ExpectsStmt (ctx.push (.item before))
  admits_close : r.place.admits (.mark .closeBrace) = true
  step_close : r.step (.mark .closeBrace) = some (.afterBlock ctx before)

namespace Reading

variable {r : Reading} {ctx : StmtContext} {purpose : Purpose} {frame : StmtFrame} {e : Expr}
  {s s' : Stmt}

theorem expectsStmt_statement (ctx : StmtContext) : (Reading.statement ctx).ExpectsStmt ctx where
  admits _ ht := ht
  step _ _ := rfl

theorem expectsItem_blockStart (ctx : StmtContext) : (Reading.blockStart ctx).ExpectsItem ctx [] where
  item := {
    admits := fun _ ht => Bool.or_eq_true_iff.2 (.inl ht)
    step := fun t ht => by
      cases t with
      | mark m =>
          cases m with
          | closeBrace => cases ht
          | _ => rfl
      | _ => rfl }
  admits_close := rfl
  step_close := rfl

theorem hasStmt_afterBlock (ctx : StmtContext) (body : List Stmt) :
    (Reading.afterBlock ctx body).HasStmt ctx (.block body) where
  admits _ ht := ht
  step _ _ _ := rfl
  finish := rfl

theorem HasOperand.step_whole (h : r.HasOperand ⟨[], purpose, ctx⟩ 0 e) {t : Token}
    (ht : t.followsBlock = true) : r.step t = ExprContext.endExpr? ⟨[], purpose, ctx⟩ e t := by
  obtain ⟨hfollows, hreach⟩ := Token.followsOperand_of_followsBlock ht
  rw [h.step t hfollows (Nat.le_of_eq hreach)]
  cases t with
  | mark m =>
      cases m with
      | openBrace | closeBrace => rfl
      | _ => cases ht
  | operator op => cases ht
  | _ => rfl

/-- Behind the expression that ends a statement stands the whole statement. -/
theorem HasOperand.hasStmt (h : r.HasOperand ⟨[], purpose, ctx⟩ 0 e)
    (hstep : ∀ t, ExprContext.endExpr? ⟨[], purpose, ctx⟩ e t = ctx.follow? s t)
    (hfinish : ExprContext.finish? ⟨[], purpose, ctx⟩ e = ctx.finish? s) : r.HasStmt ctx s where
  admits t ht := h.admits t (Token.followsOperand_of_followsBlock ht).1
  step t ht _ := (h.step_whole ht).trans (hstep t)
  finish := h.finish.trans hfinish

/-- Behind a condition comes the statement that it guards. -/
theorem HasOperand.expectsStmt (h : r.HasOperand ⟨[], purpose, ctx⟩ 0 e)
    (hstep : ∀ t, ExprContext.endExpr? ⟨[], purpose, ctx⟩ e t = (ctx.push frame).begin? t) :
    r.ExpectsStmt (ctx.push frame) where
  admits t ht := h.admits t
    (Token.followsOperand_of_followsBlock (Token.followsBlock_of_startsStatement ht)).1
  step t ht := (h.step_whole (Token.followsBlock_of_startsStatement ht)).trans (hstep t)

/-- Behind the last part of a statement stands the whole statement. -/
theorem HasStmt.join (h : r.HasStmt (ctx.push frame) s)
    (hclose : ∀ frames, StmtContext.close (frame :: frames) s = StmtContext.close frames s')
    (hbranch : s'.endsOpen = false → s.endsOpen = false ∧ ∀ frames,
      StmtContext.closeToBranch (frame :: frames) s = StmtContext.closeToBranch frames s') :
    r.HasStmt ctx s' where
  admits := h.admits
  step t ht hopen := by
    rw [h.step t ht fun helse => (hbranch (hopen helse)).1]
    exact StmtContext.follow?_push hclose fun helse => (hbranch (hopen helse)).2
  finish := h.finish.trans (StmtContext.finish?_push hclose)

theorem HasStmt.expectsItem {before : List Stmt} (h : r.HasStmt (ctx.push (.item before)) s) :
    r.ExpectsItem ctx (before ++ [s]) where
  item := {
    admits := fun t ht => h.admits t (Token.followsBlock_of_startsStatement ht)
    step := fun t ht => by
      have helse : t ≠ .keyword .otherwise := by
        rintro rfl
        cases ht
      rw [h.step t (Token.followsBlock_of_startsStatement ht) fun h' => absurd h' helse]
      cases t with
      | mark m =>
          cases m with
          | openBrace => rfl
          | _ => cases ht
      | keyword k => cases k <;> rfl
      | _ => rfl }
  admits_close := h.admits _ rfl
  step_close := h.step _ rfl nofun

end Reading

end Source

/-- Wherever a statement may stand, reading the tokens of the statement gives it. -/
def Stmt.Reads (s : Stmt) : Prop :=
  ∀ (r : Reading) (ctx : StmtContext), r.ExpectsStmt ctx →
    ∃ r', Takes r s.tokens r' ∧ r'.HasStmt ctx s

namespace Stmt

variable {r : Reading} {ctx : StmtContext} {e cond : Expr} {yes no body : Stmt}

/-- The keyword of a statement and the expression behind it. -/
theorem takes_keyword (k : Keyword) (purpose : Purpose) (hr : r.ExpectsStmt ctx)
    (hk : (Token.keyword k).startsStatement = true)
    (hbegin : ctx.begin? (.keyword k) = some (ctx.expect purpose)) (he : e.Reads 0) :
    ∃ r', Takes r (.keyword k :: e.tokens 0) r' ∧ r'.HasOperand ⟨[], purpose, ctx⟩ 0 e := by
  obtain ⟨r', htakes, hhas⟩ :=
    he _ _ (Reading.expectsOperand_operand ⟨[], purpose, ctx⟩) trivial
  have hread : (Token.keyword k).ReadAt r.place :=
    readAt_keyword (hr.admits (.name "") rfl) (hr.admits _ hk)
  exact ⟨r', .cons hread ((hr.step _ hk).trans hbegin) htakes, hhas⟩

theorem reads_print (he : e.Reads 0) : (Stmt.print e).Reads := by
  intro r ctx hr
  obtain ⟨r', htakes, hhas⟩ := takes_keyword .print .print hr rfl rfl he
  exact ⟨r', htakes, hhas.hasStmt (fun _ => rfl) rfl⟩

theorem reads_ret (he : e.Reads 0) : (Stmt.ret e).Reads := by
  intro r ctx hr
  obtain ⟨r', htakes, hhas⟩ := takes_keyword .ret .ret hr rfl rfl he
  exact ⟨r', htakes, hhas.hasStmt (fun _ => rfl) rfl⟩

theorem reads_assign {target : String} (htarget : isIdentifier target = true)
    (hkeyword : Keyword.ofText? target = none) (he : e.Reads 0) : (Stmt.assign target e).Reads := by
  intro r ctx hr
  obtain ⟨r', htakes, hhas⟩ :=
    he _ _ (Reading.expectsOperand_operand ⟨[], .assign target, ctx⟩) trivial
  have hname : (Token.name target).ReadAt r.place := by
    refine readAt_name htarget (hr.admits (.name "") rfl) fun k hk => ?_
    rw [hkeyword] at hk
    cases hk
  have hbecomes : (Token.mark .becomes).ReadAt (Reading.afterTarget ctx target).place :=
    readAt_mark rfl
  exact ⟨r', .cons hname (hr.step _ rfl) (.cons hbecomes rfl htakes),
    hhas.hasStmt (fun _ => rfl) rfl⟩

theorem reads_ifThen (hcond : cond.Reads 0) (hyes : yes.Reads) : (Stmt.ifThen cond yes).Reads := by
  intro r ctx hr
  obtain ⟨r₁, htakes₁, hhas₁⟩ := takes_keyword .branch .branch hr rfl rfl hcond
  obtain ⟨r₂, htakes₂, hhas₂⟩ := hyes r₁ (ctx.push (.yes cond)) (hhas₁.expectsStmt fun _ => rfl)
  exact ⟨r₂, htakes₁.append htakes₂, hhas₂.join (fun _ => rfl) nofun⟩

theorem reads_ifElse (hcond : cond.Reads 0) (hyes : yes.Reads) (hopen : yes.endsOpen = false)
    (hno : no.Reads) : (Stmt.ifElse cond yes no).Reads := by
  intro r ctx hr
  obtain ⟨r₁, htakes₁, hhas₁⟩ := takes_keyword .branch .branch hr rfl rfl hcond
  obtain ⟨r₂, htakes₂, hhas₂⟩ := hyes r₁ (ctx.push (.yes cond)) (hhas₁.expectsStmt fun _ => rfl)
  -- the `else` finds the frame of this conditional, since `yes` leaves none open
  have hread : (Token.keyword .otherwise).ReadAt r₂.place :=
    readAt_keyword (hhas₂.admits (.name "") rfl) (hhas₂.admits _ rfl)
  have hstep : r₂.step (.keyword .otherwise) =
      some (.statement (ctx.push (.no cond yes))) := hhas₂.step _ rfl fun _ => hopen
  obtain ⟨r₃, htakes₃, hhas₃⟩ :=
    hno _ _ (Reading.expectsStmt_statement (ctx.push (.no cond yes)))
  exact ⟨r₃, (htakes₁.append htakes₂).append (.cons hread hstep htakes₃),
    hhas₃.join (fun _ => rfl) fun hno => ⟨hno, fun _ => rfl⟩⟩

theorem reads_loop (hcond : cond.Reads 0) (hbody : body.Reads) : (Stmt.loop cond body).Reads := by
  intro r ctx hr
  obtain ⟨r₁, htakes₁, hhas₁⟩ := takes_keyword .loop .loop hr rfl rfl hcond
  obtain ⟨r₂, htakes₂, hhas₂⟩ := hbody r₁ (ctx.push (.body cond)) (hhas₁.expectsStmt fun _ => rfl)
  exact ⟨r₂, htakes₁.append htakes₂,
    hhas₂.join (fun _ => rfl) fun hbody => ⟨hbody, fun _ => rfl⟩⟩

theorem takes_items {ss before : List Stmt} (hreads : ∀ s ∈ ss, s.Reads)
    (hr : r.ExpectsItem ctx before) :
    ∃ r', Takes r (Stmt.allTokens ss) r' ∧ r'.ExpectsItem ctx (before ++ ss) := by
  induction ss generalizing r before with
  | nil =>
      rw [List.append_nil]
      exact ⟨r, .nil r, hr⟩
  | cons s ss ih =>
      obtain ⟨hs, hss⟩ := List.forall_mem_cons.1 hreads
      obtain ⟨r₁, htakes₁, hhas₁⟩ := hs r _ hr.item
      obtain ⟨r₂, htakes₂, hexpects⟩ := ih hss hhas₁.expectsItem
      rw [List.append_assoc] at hexpects
      exact ⟨r₂, htakes₁.append htakes₂, hexpects⟩

theorem reads_block {ss : List Stmt} (hreads : ∀ s ∈ ss, s.Reads) : (Stmt.block ss).Reads := by
  intro r ctx hr
  obtain ⟨r', htakes, hexpects⟩ := takes_items hreads (Reading.expectsItem_blockStart ctx)
  have hopen : (Token.mark .openBrace).ReadAt r.place := readAt_mark (hr.admits _ rfl)
  have hclose : (Token.mark .closeBrace).ReadAt r'.place := readAt_mark hexpects.admits_close
  refine ⟨.afterBlock ctx ss, ?_, Reading.hasStmt_afterBlock ctx ss⟩
  exact .append (.cons hopen (hr.step _ rfl) htakes) (.single hclose hexpects.step_close)

end Stmt

mutual

theorem Stmt.reads (s : Stmt) (h : s.walk.all Node.isWritable = true) : s.Reads := by
  cases s with
  | assign target value =>
      simp only [Stmt.walk, List.all_cons, Node.isWritable, Bool.and_eq_true,
        Option.isNone_iff_eq_none] at h
      exact reads_assign h.1.1 h.1.2 (value.reads h.2 0)
  | print value =>
      simp only [Stmt.walk, List.all_cons, Bool.and_eq_true] at h
      exact reads_print (value.reads h.2 0)
  | ifThen cond yes =>
      simp only [Stmt.walk, List.cons_append, List.all_cons, List.all_append, Bool.and_eq_true] at h
      exact reads_ifThen (cond.reads h.2.1 0) (yes.reads h.2.2)
  | ifElse cond yes no =>
      simp only [Stmt.walk, List.cons_append, List.all_cons, List.all_append, Bool.and_eq_true,
        Node.isWritable, Bool.not_eq_true'] at h
      exact reads_ifElse (cond.reads h.2.1.1 0) (yes.reads h.2.1.2) h.1 (no.reads h.2.2)
  | loop cond body =>
      simp only [Stmt.walk, List.cons_append, List.all_cons, List.all_append, Bool.and_eq_true] at h
      exact reads_loop (cond.reads h.2.1 0) (body.reads h.2.2)
  | block body =>
      simp only [Stmt.walk, List.all_cons, Bool.and_eq_true] at h
      exact reads_block (Stmt.reads_all body h.2)
  | ret value =>
      simp only [Stmt.walk, List.all_cons, Bool.and_eq_true] at h
      exact reads_ret (value.reads h.2 0)

theorem Stmt.reads_all (ss : List Stmt) (h : (Stmt.walkAll ss).all Node.isWritable = true) :
    ∀ s ∈ ss, s.Reads := by
  cases ss with
  | nil => exact fun _ hs => absurd hs List.not_mem_nil
  | cons s ss =>
      rw [Stmt.walkAll, List.all_append, Bool.and_eq_true] at h
      exact List.forall_mem_cons.2 ⟨Stmt.reads s h.1, Stmt.reads_all ss h.2⟩

end

/-! ### Functions and programs -/

/-- A function or the end of the text comes next, behind the functions `before`. -/
structure Source.Reading.ExpectsFunction (r : Reading) (before : List Function) : Prop where
  read : (Token.keyword .function).ReadAt r.place
  step : r.step (.keyword .function) = some (.functionName before)
  finish : r.finish? = some ⟨before⟩

theorem Source.Reading.expectsFunction_start : Reading.start.ExpectsFunction [] where
  read := {
    starts := starts_of_isIdentifier (isIdentifier_keyword .function)
    read := fun _ _ => rfl
    faultless := fun _ => rfl }
  step := rfl
  finish := rfl

theorem Source.Reading.HasStmt.expectsFunction {r : Reading} {head : Head} {s : Stmt}
    (h : r.HasStmt ⟨[], head⟩ s) : r.ExpectsFunction (head.finish s) where
  read := readAt_keyword (h.admits (.name "") rfl) (h.admits _ rfl)
  step := h.step _ rfl nofun
  finish := h.finish

namespace Function

theorem formalTokens_cons (formal : String) (more : List String) :
    formalTokens (formal :: more) =
      .name formal :: more.flatMap fun formal => [.mark .comma, .name formal] := by
  induction more generalizing formal with
  | nil => rfl
  | cons next more ih =>
      rw [formalTokens, ih, List.flatMap_cons]
      · rfl
      · nofun

theorem takes_formals_rest {before : List Function} {name : String} {formals more : List String}
    (hmore : more.all isIdentifier = true) :
    Takes (.afterFormal before name formals)
      ((more.flatMap fun formal => [.mark .comma, .name formal]) ++ [.mark .closeParen])
      (.statement ⟨[], ⟨before, name, formals ++ more⟩⟩) := by
  induction more generalizing formals with
  | nil =>
      rw [List.append_nil]
      exact .single (readAt_mark rfl) rfl
  | cons formal more ih =>
      rw [List.all_cons, Bool.and_eq_true] at hmore
      have hcomma : (Token.mark .comma).ReadAt (Reading.afterFormal before name formals).place :=
        readAt_mark rfl
      have hname : (Token.name formal).ReadAt (Reading.nextFormal before name formals).place :=
        readAt_name hmore.1 rfl fun _ _ => rfl
      have hrest := @ih (formals ++ [formal]) hmore.2
      rw [List.append_assoc] at hrest
      exact .cons hcomma rfl (.cons hname rfl hrest)

/-- The parenthesised formals of a function. -/
theorem takes_formals {before : List Function} {name : String} {formals : List String}
    (hformals : formals.all isIdentifier = true) :
    Takes (.firstFormal before name) (formalTokens formals ++ [.mark .closeParen])
      (.statement ⟨[], ⟨before, name, formals⟩⟩) := by
  cases formals with
  | nil => exact .single (readAt_mark rfl) rfl
  | cons formal more =>
      rw [List.all_cons, Bool.and_eq_true] at hformals
      have hname : (Token.name formal).ReadAt (Reading.firstFormal before name).place :=
        readAt_name hformals.1 rfl fun _ _ => rfl
      rw [formalTokens_cons]
      exact .cons hname rfl (takes_formals_rest hformals.2)

theorem takes_tokens {f : Function} (h : f.walk.all Node.isWritable = true) {r : Reading}
    {before : List Function} (hr : r.ExpectsFunction before) :
    ∃ r', Takes r f.tokens r' ∧ r'.ExpectsFunction (before ++ [f]) := by
  simp only [Function.walk, List.all_cons, Node.isWritable, Bool.and_eq_true] at h
  obtain ⟨⟨hname, hformals⟩, hbody⟩ := h
  obtain ⟨r', htakes, hhas⟩ := f.body.reads hbody _ _
    (Reading.expectsStmt_statement ⟨[], ⟨before, f.name, f.formals⟩⟩)
  have hread : (Token.name f.name).ReadAt (Reading.functionName before).place :=
    readAt_name hname rfl fun _ _ => rfl
  have hopen : (Token.mark .openParen).ReadAt (Reading.formalsOpen before f.name).place :=
    readAt_mark rfl
  have hrest : Takes (.firstFormal before f.name)
      (formalTokens f.formals ++ .mark .closeParen :: f.body.tokens) r' := by
    rw [← List.singleton_append, ← List.append_assoc]
    exact (takes_formals hformals).append htakes
  exact ⟨r', .cons hr.read hr.step (.cons hread rfl (.cons hopen rfl hrest)),
    hhas.expectsFunction⟩

end Function

theorem Program.takes_functions {fs : List Function}
    (h : (fs.flatMap Function.walk).all Node.isWritable = true) {r : Reading}
    {before : List Function} (hr : r.ExpectsFunction before) :
    ∃ r', Takes r (fs.flatMap Function.tokens) r' ∧ r'.ExpectsFunction (before ++ fs) := by
  induction fs generalizing r before with
  | nil =>
      rw [List.append_nil]
      exact ⟨r, .nil r, hr⟩
  | cons f fs ih =>
      rw [List.flatMap_cons, List.all_append, Bool.and_eq_true] at h
      obtain ⟨r₁, htakes₁, hexpects₁⟩ := Function.takes_tokens h.1 hr
      obtain ⟨r₂, htakes₂, hexpects₂⟩ := ih h.2 hexpects₁
      rw [List.append_assoc] at hexpects₂
      rw [List.flatMap_cons]
      exact ⟨r₂, htakes₁.append htakes₂, hexpects₂⟩

/-- A program of identifiers and words in which every `else` belongs to the nearest
conditional before it is read back from its text. -/
theorem parse_unparse (p : Program) (h : ∀ node ∈ p.walk, node.isWritable = true) :
    parse p.unparse = .ok p := by
  have hwalk : (p.functions.flatMap Function.walk).all Node.isWritable = true :=
    List.all_eq_true.2 fun node hnode => h node (List.mem_cons_of_mem _ hnode)
  obtain ⟨r, htakes, hexpects⟩ := Program.takes_functions hwalk Reading.expectsFunction_start
  have hskip : skipLayout .start p.unparse.toList = ⟨.start, (trailing p.tokens).tail⟩ := by
    rw [Program.unparse, toList_intercalate_text]
    exact skipLayout_tail_trailing htakes .start
  obtain ⟨lexemes, hall, hfaults⟩ :
      ∃ lexemes, readAll .start .start ⟨.start, p.unparse.toList⟩ = .ok (lexemes, p) ∧
        lexemes.findSome? Lexeme.fault? = none := readAll_of_takes htakes hexpects.finish hskip
  rw [parse, hall]
  dsimp only
  rw [hfaults]

/-- Names that spell keywords, operands on both sides that need parentheses, the largest
literal, and an `else` behind a conditional that a block has closed. -/
def keywordNames : Program :=
  ⟨[⟨"fun", ["if", "x"], .block [
      .ifElse (.binary .lt (.var "if") (.lit 3))
        (.loop (.var "while") (.block [.ifThen (.var "x") (.print (.lit 18446744073709551615))]))
        (.ifThen (.call "print" [])
          (.assign "x" (.binary .add (.var "x") (.binary .add (.lit 1) (.var "return"))))),
      .ret (.binary .mul (.binary .add (.var "if") (.lit 1))
        (.call "fun" [.var "x", .binary .eq (.lit 0) (.binary .eq (.lit 0) (.lit 1))]))]⟩,
    ⟨"main", [], .print (.call "fun" [.lit 1, .lit 2])⟩]⟩

theorem keywordNames_read_back :
    keywordNames.unparse =
      "fun fun ( if , x ) \x7b if if < 3 while while \x7b if x print 18446744073709551615 \x7d " ++
      "else if print ( ) x = x + ( 1 + return ) return ( if + 1 ) * fun ( x , 0 == ( 0 == 1 ) ) \x7d " ++
      "fun main ( ) print fun ( 1 , 2 )" ∧
    (∀ node ∈ keywordNames.walk, node.isWritable = true) ∧
    parse keywordNames.unparse = .ok keywordNames :=
  have hwritable : ∀ node ∈ keywordNames.walk, node.isWritable = true :=
    List.all_eq_true.1 rfl
  ⟨by decide +kernel, hwritable, parse_unparse keywordNames hwritable⟩

end FunCompiler
