import FunCompiler.Proofs.Source.RoundTrip

/-!
The grammar of source text, and why a reading keeps to it. `Derives` relates
tokens to the tree that the grammar builds from them, one rule for each
alternative of the grammar.

A reading holds the trees of what it has read as pieces that wait for a part.
`Reading.Consumed` says that the tokens read so far are those of the pieces, in
order: each finished tree in a piece is derived from its own tokens, and the
fixed tokens of the piece stand between them. One step keeps this up with one
more token, so a program that is read to its end is derived from its tokens.

The grammar leaves open which conditional an `else` belongs to. A reading gives
it to the nearest one, so the branch before the `else` never ends with a
conditional that could have taken it.
-/

namespace FunCompiler

namespace Source

/-- A nonterminal of the grammar, with the tree that is built for it. Expressions are
graded by how tightly they bind: a whole expression is of level 0, operations are of the
level of their operator's precedence, and an operand that needs no parentheses anywhere
is of level 5. -/
inductive Phrase where
  | expr (level : Nat) (e : Expr)
  | actuals (es : List Expr)
  | stmt (s : Stmt)
  | stmts (ss : List Stmt)
  | formals (names : List String)
  | functions (fs : List Function)

/-- The tokens are derived from the nonterminal, and the tree is built from the
derivation. An `else` may follow a branch for which `closed` holds; the grammar itself
lets it follow any branch. -/
inductive Derives (closed : Stmt → Prop) : List Token → Phrase → Prop
  | literal (digits : String) :
      Derives closed [.number digits] (.expr 5 (.lit (Nat.ofDigitChars 10 digits.toList 0)))
  | var (name : String) : Derives closed [.name name] (.expr 5 (.var name))
  | call (callee : String) {ts : List Token} {es : List Expr}
      (actuals : Derives closed ts (.actuals es)) :
      Derives closed (.name callee :: .mark .openParen :: (ts ++ [.mark .closeParen]))
        (.expr 5 (.call callee es))
  | group {ts : List Token} {e : Expr} (inner : Derives closed ts (.expr 0 e)) :
      Derives closed (.mark .openParen :: (ts ++ [.mark .closeParen])) (.expr 5 e)
  | operation (op : Operator) {ts us : List Token} {left right : Expr}
      (first : Derives closed ts (.expr op.precedence left))
      (second : Derives closed us (.expr (op.precedence + 1) right)) :
      Derives closed (ts ++ .operator op :: us) (.expr op.precedence (.binary op left right))
  | tighter {level : Nat} {ts : List Token} {e : Expr}
      (inner : Derives closed ts (.expr (level + 1) e)) : Derives closed ts (.expr level e)
  | noActuals : Derives closed [] (.actuals [])
  | firstActual {ts : List Token} {e : Expr} (first : Derives closed ts (.expr 0 e)) :
      Derives closed ts (.actuals [e])
  | nextActual {ts us : List Token} {es : List Expr} {e : Expr} (nonempty : es ≠ [])
      (before : Derives closed ts (.actuals es)) (next : Derives closed us (.expr 0 e)) :
      Derives closed (ts ++ .mark .comma :: us) (.actuals (es ++ [e]))
  | assign (target : String) {ts : List Token} {e : Expr} (value : Derives closed ts (.expr 0 e)) :
      Derives closed (.name target :: .mark .becomes :: ts) (.stmt (.assign target e))
  | print {ts : List Token} {e : Expr} (value : Derives closed ts (.expr 0 e)) :
      Derives closed (.keyword .print :: ts) (.stmt (.print e))
  | ret {ts : List Token} {e : Expr} (value : Derives closed ts (.expr 0 e)) :
      Derives closed (.keyword .ret :: ts) (.stmt (.ret e))
  | ifThen {ts us : List Token} {cond : Expr} {yes : Stmt}
      (test : Derives closed ts (.expr 0 cond)) (first : Derives closed us (.stmt yes)) :
      Derives closed (.keyword .branch :: (ts ++ us)) (.stmt (.ifThen cond yes))
  | ifElse {ts us vs : List Token} {cond : Expr} {yes no : Stmt}
      (test : Derives closed ts (.expr 0 cond)) (first : Derives closed us (.stmt yes))
      (ends : closed yes) (second : Derives closed vs (.stmt no)) :
      Derives closed (.keyword .branch :: (ts ++ us ++ .keyword .otherwise :: vs))
        (.stmt (.ifElse cond yes no))
  | loop {ts us : List Token} {cond : Expr} {body : Stmt}
      (test : Derives closed ts (.expr 0 cond)) (inner : Derives closed us (.stmt body)) :
      Derives closed (.keyword .loop :: (ts ++ us)) (.stmt (.loop cond body))
  | block {ts : List Token} {ss : List Stmt} (body : Derives closed ts (.stmts ss)) :
      Derives closed (.mark .openBrace :: (ts ++ [.mark .closeBrace])) (.stmt (.block ss))
  | noStmts : Derives closed [] (.stmts [])
  | nextStmt {ts us : List Token} {ss : List Stmt} {s : Stmt}
      (before : Derives closed ts (.stmts ss)) (next : Derives closed us (.stmt s)) :
      Derives closed (ts ++ us) (.stmts (ss ++ [s]))
  | noFormals : Derives closed [] (.formals [])
  | firstFormal (name : String) : Derives closed [.name name] (.formals [name])
  | nextFormal (name : String) {ts : List Token} {names : List String} (nonempty : names ≠ [])
      (before : Derives closed ts (.formals names)) :
      Derives closed (ts ++ [.mark .comma, .name name]) (.formals (names ++ [name]))
  | noFunctions : Derives closed [] (.functions [])
  | nextFunction (name : String) {ts us vs : List Token} {fs : List Function}
      {formals : List String} {body : Stmt} (before : Derives closed ts (.functions fs))
      (params : Derives closed us (.formals formals)) (inner : Derives closed vs (.stmt body)) :
      Derives closed
        (ts ++ .keyword .function :: .name name :: .mark .openParen ::
          (us ++ .mark .closeParen :: vs))
        (.functions (fs ++ [⟨name, formals, body⟩]))

/-- No `else` could belong to a conditional at the end of the branch before it. -/
abbrev DerivesNearest : List Token → Phrase → Prop := Derives (·.endsOpen = false)

namespace Derives

variable {closed : Stmt → Prop} {ts us : List Token} {e : Expr}

/-- A rule about `else` can be forgotten. -/
theorem grammar {phrase : Phrase} (h : Derives closed ts phrase) :
    Derives (fun _ => True) ts phrase := by
  induction h with
  | ifElse _ _ _ _ test first second => exact .ifElse test first trivial second
  | _ => constructor <;> assumption

theorem mono {level limit : Nat} (h : Derives closed ts (.expr level e)) (hle : limit ≤ level) :
    Derives closed ts (.expr limit e) := by
  induction hle with
  | refl => exact h
  | step _ ih => exact ih h.tighter

end Derives

/-! ### Open expressions -/

/-- The tokens behind the opening parenthesis of a call, where the next actual begins:
none, or the actuals before it with a comma behind them. -/
inductive OpenActuals : List Token → List Expr → Prop
  | first : OpenActuals [] []
  | next {ts : List Token} {es : List Expr} (nonempty : es ≠ [])
      (before : DerivesNearest ts (.actuals es)) : OpenActuals (ts ++ [.mark .comma]) es

theorem OpenActuals.add {ts us : List Token} {es : List Expr} {e : Expr} (h : OpenActuals ts es)
    (he : DerivesNearest us (.expr 0 e)) : DerivesNearest (ts ++ us) (.actuals (es ++ [e])) := by
  cases h with
  | first => exact .firstActual he
  | next nonempty before =>
      rw [List.append_assoc]
      exact .nextActual nonempty before he

/-- The tokens of an expression up to the operand that its pieces, innermost first, wait
for. Each operator waits for a right operand that binds tighter than it. -/
inductive OpenExprs : List Token → List ExprFrame → Prop
  | nil : OpenExprs [] []
  | right {ts us : List Token} {frames : List ExprFrame} {left : Expr} {op : Operator}
      (outer : OpenExprs ts frames) (yields : ExprContext.Yields op.precedence frames)
      (first : DerivesNearest us (.expr op.precedence left)) :
      OpenExprs (ts ++ us ++ [.operator op]) (.right left op :: frames)
  | group {ts : List Token} {frames : List ExprFrame} (outer : OpenExprs ts frames) :
      OpenExprs (ts ++ [.mark .openParen]) (.group :: frames)
  | actual (callee : String) {ts us : List Token} {frames : List ExprFrame} {before : List Expr}
      (outer : OpenExprs ts frames) (actuals : OpenActuals us before) :
      OpenExprs (ts ++ .name callee :: .mark .openParen :: us) (.actual callee before :: frames)

/-- What is left open after an operand has been joined to the operators on its left. -/
structure ClosedExpr (limit : Nat) (ts : List Token) (frames : List ExprFrame) (e : Expr) :
    Prop where
  yields : ExprContext.Yields limit frames
  split : ∃ us vs, ts = us ++ vs ∧ OpenExprs us frames ∧ DerivesNearest vs (.expr limit e)

/-- An operand that binds tighter than the operator before it is joined to all operators
that bind at least as tightly as `limit`. -/
theorem OpenExprs.close {ts us : List Token} {frames : List ExprFrame} {e : Expr}
    {level limit : Nat} (h : OpenExprs ts frames) (hyields : ExprContext.Yields level frames)
    (he : DerivesNearest us (.expr level e)) (hlimit : limit ≤ level) :
    ClosedExpr limit (ts ++ us) (ExprContext.close limit frames e).1
      (ExprContext.close limit frames e).2 := by
  induction h generalizing us e level with
  | nil => exact ⟨trivial, _, _, rfl, .nil, he.mono hlimit⟩
  | group outer _ => exact ⟨trivial, _, _, rfl, .group outer, he.mono hlimit⟩
  | actual callee outer actuals _ =>
      exact ⟨trivial, _, _, rfl, .actual callee outer actuals, he.mono hlimit⟩
  | @right ts vs frames left op outer yields first ih =>
      unfold ExprContext.close
      split
      · rename_i hop
        -- the operation is of its operator's level, which is looser than before
        have hjoined := ih yields (.operation op first (he.mono hyields)) hop
        simpa only [List.append_assoc, List.singleton_append] using hjoined
      · rename_i hop
        exact ⟨Nat.not_le.1 hop, _, _, rfl, .right outer yields first, he.mono hlimit⟩

/-! ### Open statements -/

/-- The tokens of a function body up to the statement that its pieces, innermost first,
wait for. -/
inductive OpenStmts : List Token → List StmtFrame → Prop
  | nil : OpenStmts [] []
  | yes {ts us : List Token} {frames : List StmtFrame} {cond : Expr} (outer : OpenStmts ts frames)
      (test : DerivesNearest us (.expr 0 cond)) :
      OpenStmts (ts ++ .keyword .branch :: us) (.yes cond :: frames)
  | no {ts us vs : List Token} {frames : List StmtFrame} {cond : Expr} {yes : Stmt}
      (outer : OpenStmts ts frames) (test : DerivesNearest us (.expr 0 cond))
      (first : DerivesNearest vs (.stmt yes)) (ends : yes.endsOpen = false) :
      OpenStmts (ts ++ .keyword .branch :: (us ++ vs ++ [.keyword .otherwise]))
        (.no cond yes :: frames)
  | body {ts us : List Token} {frames : List StmtFrame} {cond : Expr} (outer : OpenStmts ts frames)
      (test : DerivesNearest us (.expr 0 cond)) :
      OpenStmts (ts ++ .keyword .loop :: us) (.body cond :: frames)
  | item {ts us : List Token} {frames : List StmtFrame} {before : List Stmt}
      (outer : OpenStmts ts frames) (items : DerivesNearest us (.stmts before)) :
      OpenStmts (ts ++ .mark .openBrace :: us) (.item before :: frames)

/-- What is left open after a statement has been joined to everything that it ends. -/
inductive ClosedStmt (ts : List Token) : List StmtFrame → Stmt → Prop
  | whole {s : Stmt} (all : DerivesNearest ts (.stmt s)) : ClosedStmt ts [] s
  | item {us vs : List Token} {frames : List StmtFrame} {before : List Stmt} {s : Stmt}
      (split : ts = us ++ vs) (outer : OpenStmts us (.item before :: frames))
      (last : DerivesNearest vs (.stmt s)) : ClosedStmt ts (.item before :: frames) s

theorem OpenStmts.close {ts us : List Token} {frames : List StmtFrame} {s : Stmt}
    (h : OpenStmts ts frames) (hs : DerivesNearest us (.stmt s)) :
    ClosedStmt (ts ++ us) (StmtContext.close frames s).1 (StmtContext.close frames s).2 := by
  induction h generalizing us s with
  | nil => exact .whole hs
  | item outer items _ => exact .item rfl (.item outer items) hs
  | yes outer test ih =>
      rw [List.append_assoc]
      exact ih (.ifThen test hs)
  | no outer test first ends ih =>
      have hjoined := ih (.ifElse test first ends hs)
      simpa only [StmtContext.close, List.append_assoc, List.cons_append, List.nil_append]
        using hjoined
  | body outer test ih =>
      rw [List.append_assoc]
      exact ih (.loop test hs)

/-- The conditional that takes an `else` waits for its second branch, and the first ends
with no conditional: none was passed over on the way out. -/
theorem OpenStmts.closeToBranch {ts us : List Token} {frames frames' : List StmtFrame} {s : Stmt}
    (h : OpenStmts ts frames) (hs : DerivesNearest us (.stmt s)) (hends : s.endsOpen = false)
    (hclose : StmtContext.closeToBranch frames s = some frames') :
    OpenStmts (ts ++ us ++ [.keyword .otherwise]) frames' := by
  induction h generalizing us s with
  | nil => cases hclose
  | item outer items _ => cases hclose
  | yes outer test _ =>
      cases hclose
      have hopen := OpenStmts.no outer test hs hends
      simpa only [List.append_assoc, List.cons_append] using hopen
  | no outer test first ends ih =>
      have hopen := ih (.ifElse test first ends hs) hends hclose
      simpa only [List.append_assoc, List.cons_append, List.nil_append] using hopen
  | body outer test ih =>
      have hopen := ih (.loop test hs) hends hclose
      simpa only [List.append_assoc, List.cons_append] using hopen

/-! ### Open programs -/

/-- The tokens of a program up to the body of the function whose head this is. -/
inductive Head.Opens : Head → List Token → Prop
  | mk {before : List Function} {name : String} {formals : List String} {ts us : List Token}
      (functions : DerivesNearest ts (.functions before))
      (params : DerivesNearest us (.formals formals)) :
      Head.Opens ⟨before, name, formals⟩
        (ts ++ .keyword .function :: .name name :: .mark .openParen :: (us ++ [.mark .closeParen]))

theorem Head.Opens.finish {head : Head} {ts us : List Token} {body : Stmt} (h : head.Opens ts)
    (hbody : DerivesNearest us (.stmt body)) :
    DerivesNearest (ts ++ us) (.functions (head.finish body)) := by
  cases h with
  | @mk before name formals ts vs functions params =>
      have hall := Derives.nextFunction name functions params hbody
      simpa only [Head.finish, List.append_assoc, List.cons_append, List.nil_append] using hall

/-- The tokens of a program up to the statement that comes next. -/
def StmtContext.Opens (ctx : StmtContext) (ts : List Token) : Prop :=
  ∃ us vs, ts = us ++ vs ∧ ctx.head.Opens us ∧ OpenStmts vs ctx.frames

/-- The tokens before an expression for the purpose. -/
def Purpose.tokens : Purpose → List Token
  | .assign target => [.name target, .mark .becomes]
  | .print => [.keyword .print]
  | .branch => [.keyword .branch]
  | .loop => [.keyword .loop]
  | .ret => [.keyword .ret]

/-- The tokens of a program up to the operand that comes next. -/
def ExprContext.Opens (ctx : ExprContext) (ts : List Token) : Prop :=
  ∃ us vs, ts = us ++ ctx.purpose.tokens ++ vs ∧ ctx.outer.Opens us ∧ OpenExprs vs ctx.frames

/-- The tokens are those that have been read, in the order of the pieces that hold them. -/
inductive Reading.Consumed : Reading → List Token → Prop
  | start : Consumed .start []
  | functionName {before : List Function} {ts : List Token}
      (functions : DerivesNearest ts (.functions before)) :
      Consumed (.functionName before) (ts ++ [.keyword .function])
  | formalsOpen {before : List Function} {name : String} {ts : List Token}
      (functions : DerivesNearest ts (.functions before)) :
      Consumed (.formalsOpen before name) (ts ++ [.keyword .function, .name name])
  | firstFormal {before : List Function} {name : String} {ts : List Token}
      (functions : DerivesNearest ts (.functions before)) :
      Consumed (.firstFormal before name)
        (ts ++ [.keyword .function, .name name, .mark .openParen])
  | nextFormal {before : List Function} {name : String} {formals : List String}
      {ts us : List Token} (functions : DerivesNearest ts (.functions before))
      (nonempty : formals ≠ []) (params : DerivesNearest us (.formals formals)) :
      Consumed (.nextFormal before name formals)
        (ts ++ .keyword .function :: .name name :: .mark .openParen :: (us ++ [.mark .comma]))
  | afterFormal {before : List Function} {name : String} {formals : List String}
      {ts us : List Token} (functions : DerivesNearest ts (.functions before))
      (nonempty : formals ≠ []) (params : DerivesNearest us (.formals formals)) :
      Consumed (.afterFormal before name formals)
        (ts ++ .keyword .function :: .name name :: .mark .openParen :: us)
  | statement {ctx : StmtContext} {ts : List Token} (outer : ctx.Opens ts) :
      Consumed (.statement ctx) ts
  | blockStart {ctx : StmtContext} {ts : List Token} (outer : ctx.Opens ts) :
      Consumed (.blockStart ctx) (ts ++ [.mark .openBrace])
  | afterTarget {ctx : StmtContext} {target : String} {ts : List Token} (outer : ctx.Opens ts) :
      Consumed (.afterTarget ctx target) (ts ++ [.name target])
  | operand {ctx : ExprContext} {ts : List Token} (outer : ctx.Opens ts) :
      Consumed (.operand ctx) ts
  | firstActual {ctx : ExprContext} {callee : String} {ts : List Token} (outer : ctx.Opens ts) :
      Consumed (.firstActual ctx callee) (ts ++ [.name callee, .mark .openParen])
  | afterName {ctx : ExprContext} {name : String} {ts : List Token} (outer : ctx.Opens ts) :
      Consumed (.afterName ctx name) (ts ++ [.name name])
  | afterOperand {ctx : ExprContext} {e : Expr} {ts us : List Token} (outer : ctx.Opens ts)
      (operand : DerivesNearest us (.expr 5 e)) : Consumed (.afterOperand ctx e) (ts ++ us)
  | afterBlock {ctx : StmtContext} {body : List Stmt} {ts us : List Token} (outer : ctx.Opens ts)
      (block : DerivesNearest us (.stmt (.block body))) :
      Consumed (.afterBlock ctx body) (ts ++ us)

/-! ### One more token -/

namespace StmtContext.Opens

variable {ctx : StmtContext} {ts us : List Token} {s : Stmt} {t : Token} {r : Reading}

theorem expect (h : ctx.Opens ts) (purpose : Purpose) :
    (ctx.expect purpose).Consumed (ts ++ purpose.tokens) :=
  .operand ⟨ts, [], (List.append_nil _).symm, h, .nil⟩

theorem push (h : ctx.Opens ts) {frame : StmtFrame}
    (hframe : ∀ vs, OpenStmts vs ctx.frames → OpenStmts (vs ++ us) (frame :: ctx.frames)) :
    (ctx.push frame).Opens (ts ++ us) := by
  obtain ⟨hs, vs, rfl, hhead, hframes⟩ := h
  exact ⟨hs, vs ++ us, List.append_assoc .., hhead, hframe vs hframes⟩

theorem begin? (h : ctx.Opens ts) (hbegin : ctx.begin? t = some r) : r.Consumed (ts ++ [t]) := by
  unfold StmtContext.begin? at hbegin
  split at hbegin <;> cases hbegin
  · exact h.expect .print
  · exact h.expect .branch
  · exact h.expect .loop
  · exact h.expect .ret
  · exact .blockStart h
  · exact .afterTarget h

/-- The token behind a finished statement that ends with no conditional. -/
theorem follow? (h : ctx.Opens ts) (hs : DerivesNearest us (.stmt s)) (hends : s.endsOpen = false)
    (hfollow : ctx.follow? s t = some r) : r.Consumed (ts ++ us ++ [t]) := by
  obtain ⟨hts, vs, rfl, hhead, hframes⟩ := h
  unfold StmtContext.follow? at hfollow
  split at hfollow
  · obtain ⟨frames, hclose, rfl⟩ := Option.map_eq_some_iff.1 hfollow
    have hopen := hframes.closeToBranch hs hends hclose
    exact .statement ⟨hts, _, by simp only [List.append_assoc], hhead, hopen⟩
  · have hclosed := hframes.close hs
    rcases hclose : close ctx.frames s with ⟨frames, s'⟩
    rw [hclose] at hclosed hfollow
    cases hclosed with
    | whole all =>
        dsimp only at hfollow
        split at hfollow
        · rename_i ht
          cases hfollow
          rw [ht, List.append_assoc hts]
          exact .functionName (hhead.finish all)
        · cases hfollow
    | @item ws xs frames before _ split outer last =>
        cases outer with
        | @item vs' ys _ _ outer items =>
        dsimp only at hfollow
        have hitems := items.nextStmt last
        split at hfollow
        · rename_i ht
          cases hfollow
          have hopens : StmtContext.Opens { ctx with frames } (hts ++ vs') :=
            ⟨hts, vs', rfl, hhead, outer⟩
          have hblock := Reading.Consumed.afterBlock hopens hitems.block
          rw [ht, List.append_assoc hts, split]
          simpa only [List.append_assoc, List.cons_append] using hblock
        · have hopens : StmtContext.Opens { ctx with frames := .item (before ++ [s']) :: frames }
              (hts ++ vs ++ us) :=
            ⟨hts, _, by simp only [List.append_assoc, split, List.cons_append], hhead,
              .item outer hitems⟩
          exact hopens.begin? hfollow

theorem finish? (h : ctx.Opens ts) (hs : DerivesNearest us (.stmt s)) {p : Program}
    (hfinish : ctx.finish? s = some p) : DerivesNearest (ts ++ us) (.functions p.functions) := by
  obtain ⟨hts, vs, rfl, hhead, hframes⟩ := h
  unfold StmtContext.finish? at hfinish
  have hclosed := hframes.close hs
  split at hfinish
  · rename_i s' hclose
    rw [hclose] at hclosed
    cases hfinish
    cases hclosed with
    | whole all =>
        rw [List.append_assoc]
        exact hhead.finish all
  · cases hfinish

end StmtContext.Opens

namespace ExprContext

theorem precedence_lt_five (op : Operator) : op.precedence < 5 := by
  cases op <;> decide

theorem yields_five (frames : List ExprFrame) : Yields 5 frames := by
  cases frames with
  | nil => trivial
  | cons frame frames =>
      cases frame with
      | right left op => exact precedence_lt_five op
      | group => trivial
      | actual callee before => trivial

namespace Opens

variable {ctx : ExprContext} {ts us vs : List Token} {e : Expr} {t : Token} {r : Reading}

theorem push (h : ctx.Opens ts) {frame : ExprFrame}
    (hframe : ∀ vs, OpenExprs vs ctx.frames → OpenExprs (vs ++ us) (frame :: ctx.frames)) :
    (ctx.push frame).Opens (ts ++ us) := by
  obtain ⟨os, vs, rfl, houter, hframes⟩ := h
  exact ⟨os, vs ++ us, by rw [List.append_assoc]; rfl, houter, hframe vs hframes⟩

theorem begin? (h : ctx.Opens ts) (hbegin : ctx.begin? t = some r) : r.Consumed (ts ++ [t]) := by
  unfold ExprContext.begin? at hbegin
  split at hbegin <;> cases hbegin
  · exact .afterOperand h (.literal _)
  · exact .afterName h
  · exact .operand (h.push fun _ => .group)

/-- The token behind an expression that is whole. -/
theorem endExpr? (houter : ctx.outer.Opens us) (he : DerivesNearest vs (.expr 0 e))
    (hend : ctx.endExpr? e t = some r) : r.Consumed (us ++ (ctx.purpose.tokens ++ vs) ++ [t]) := by
  unfold ExprContext.endExpr? at hend
  split at hend <;> rename_i hpurpose <;> rw [hpurpose]
  · exact houter.follow? (he.assign _) rfl hend
  · exact houter.follow? he.print rfl hend
  · exact houter.follow? he.ret rfl hend
  · exact (houter.push fun _ hframes => .yes hframes he).begin? hend
  · exact (houter.push fun _ hframes => .body hframes he).begin? hend

/-- The operand joined to the operators on its left that bind at least as tightly as
`limit`. -/
theorem close (h : ctx.Opens ts) (he : DerivesNearest us (.expr 5 e)) {limit : Nat}
    (hlimit : limit ≤ 5) {frames : List ExprFrame} {e' : Expr}
    (hclose : ExprContext.close limit ctx.frames e = (frames, e')) :
    Yields limit frames ∧ ∃ us' vs, ts ++ us = us' ++ vs ∧
      ExprContext.Opens { ctx with frames } us' ∧ DerivesNearest vs (.expr limit e') := by
  obtain ⟨os, vs, rfl, houter, hframes⟩ := h
  have hclosed := hframes.close (yields_five ctx.frames) he hlimit
  rw [hclose] at hclosed
  obtain ⟨hyields, ws, xs, hsplit, hopen, hjoined⟩ := hclosed
  refine ⟨hyields, _, xs, ?_, ⟨os, ws, rfl, houter, hopen⟩, hjoined⟩
  simp only [List.append_assoc, hsplit]

/-- An expression that no piece waits for is the whole one. -/
theorem whole (h : ExprContext.Opens { ctx with frames := [] } ts) :
    ∃ us, ts = us ++ ctx.purpose.tokens ∧ ctx.outer.Opens us := by
  obtain ⟨os, vs, rfl, houter, hframes⟩ := h
  cases hframes
  exact ⟨os, List.append_nil _, houter⟩

theorem group {frames : List ExprFrame}
    (h : ExprContext.Opens { ctx with frames := .group :: frames } ts) :
    ∃ us, ts = us ++ [.mark .openParen] ∧ ExprContext.Opens { ctx with frames } us := by
  obtain ⟨os, vs, rfl, houter, hframes⟩ := h
  cases hframes with
  | group outer => exact ⟨_, (List.append_assoc ..).symm, os, _, rfl, houter, outer⟩

theorem actual {frames : List ExprFrame} {callee : String} {before : List Expr}
    (h : ExprContext.Opens { ctx with frames := .actual callee before :: frames } ts) :
    ∃ us vs, ts = us ++ .name callee :: .mark .openParen :: vs ∧
      ExprContext.Opens { ctx with frames } us ∧ OpenActuals vs before := by
  obtain ⟨os, vs, rfl, houter, hframes⟩ := h
  cases hframes with
  | actual _ outer actuals =>
      exact ⟨_, _, (List.append_assoc ..).symm, ⟨os, _, rfl, houter, outer⟩, actuals⟩

/-- The token behind a finished operand. -/
theorem follow? (h : ctx.Opens ts) (he : DerivesNearest us (.expr 5 e))
    (hfollow : ctx.follow? e t = some r) : r.Consumed (ts ++ us ++ [t]) := by
  unfold ExprContext.follow? at hfollow
  split at hfollow
  · rename_i op
    rcases hclose : ExprContext.close op.precedence ctx.frames e with ⟨frames, e'⟩
    rw [hclose] at hfollow
    cases hfollow
    obtain ⟨hyields, us', vs, hsplit, hopen, hjoined⟩ :=
      h.close he (Nat.le_of_lt (precedence_lt_five op)) hclose
    rw [hsplit, List.append_assoc]
    refine .operand (hopen.push fun ws hframes => ?_)
    rw [← List.append_assoc]
    exact .right hframes hyields hjoined
  · split at hfollow
    · rename_i frames e' hclose
      cases hfollow
      obtain ⟨-, _, vs, hsplit, hopen, hjoined⟩ := h.close he (by decide) hclose
      obtain ⟨us', rfl, houter⟩ := hopen.group
      have hoperand := Reading.Consumed.afterOperand houter hjoined.group
      rw [hsplit]
      simpa only [List.append_assoc, List.cons_append, List.nil_append] using hoperand
    · rename_i callee before frames e' hclose
      cases hfollow
      obtain ⟨-, _, vs, hsplit, hopen, hjoined⟩ := h.close he (by decide) hclose
      obtain ⟨us', ws, rfl, houter, hactuals⟩ := hopen.actual
      have hoperand := Reading.Consumed.afterOperand houter ((hactuals.add hjoined).call callee)
      rw [hsplit]
      simpa only [List.append_assoc, List.cons_append, List.nil_append] using hoperand
    · cases hfollow
  · split at hfollow
    · rename_i callee before frames e' hclose
      cases hfollow
      obtain ⟨-, _, vs, hsplit, hopen, hjoined⟩ := h.close he (by decide) hclose
      obtain ⟨us', ws, rfl, houter, hactuals⟩ := hopen.actual
      have hnext := OpenActuals.next (by simp) (hactuals.add hjoined)
      have hoperand := Reading.Consumed.operand (houter.push fun _ hframes =>
        .actual callee hframes hnext)
      rw [hsplit]
      simpa only [ExprContext.push, List.append_assoc, List.cons_append, List.nil_append]
        using hoperand
    · cases hfollow
  · split at hfollow
    · rename_i e' hclose
      obtain ⟨-, _, vs, hsplit, hopen, hjoined⟩ := h.close he (by decide) hclose
      obtain ⟨us', rfl, houter⟩ := hopen.whole
      rw [hsplit, List.append_assoc us']
      exact endExpr? houter hjoined hfollow
    · cases hfollow

theorem finish? (h : ctx.Opens ts) (he : DerivesNearest us (.expr 5 e)) {p : Program}
    (hfinish : ctx.finish? e = some p) : DerivesNearest (ts ++ us) (.functions p.functions) := by
  unfold ExprContext.finish? at hfinish
  split at hfinish
  · rename_i e' target hclose hpurpose
    obtain ⟨-, _, vs, hsplit, hopen, hjoined⟩ := h.close he (by decide) hclose
    obtain ⟨us', rfl, houter⟩ := hopen.whole
    rw [hsplit, List.append_assoc us', hpurpose]
    exact houter.finish? (hjoined.assign target) hfinish
  · rename_i e' hclose hpurpose
    obtain ⟨-, _, vs, hsplit, hopen, hjoined⟩ := h.close he (by decide) hclose
    obtain ⟨us', rfl, houter⟩ := hopen.whole
    rw [hsplit, List.append_assoc us', hpurpose]
    exact houter.finish? hjoined.print hfinish
  · rename_i e' hclose hpurpose
    obtain ⟨-, _, vs, hsplit, hopen, hjoined⟩ := h.close he (by decide) hclose
    obtain ⟨us', rfl, houter⟩ := hopen.whole
    rw [hsplit, List.append_assoc us', hpurpose]
    exact houter.finish? hjoined.ret hfinish
  · cases hfinish

end Opens

end ExprContext

namespace Reading.Consumed

variable {r r' : Reading} {ts : List Token} {t : Token}

/-- Reading one more token adds it behind the tokens read so far. -/
theorem step (h : r.Consumed ts) (hstep : r.step t = some r') : r'.Consumed (ts ++ [t]) := by
  cases h with
  | start =>
      cases t with
      | keyword k =>
          cases k with
          | function =>
              cases hstep
              exact .functionName .noFunctions
          | _ => cases hstep
      | _ => cases hstep
  | functionName functions =>
      cases t with
      | name name =>
          cases hstep
          simpa using Consumed.formalsOpen functions
      | _ => cases hstep
  | formalsOpen functions =>
      cases t with
      | mark m =>
          cases m with
          | openParen =>
              cases hstep
              simpa using Consumed.firstFormal functions
          | _ => cases hstep
      | _ => cases hstep
  | firstFormal functions =>
      cases t with
      | name name =>
          cases hstep
          simpa using Consumed.afterFormal functions (by simp) (.firstFormal name)
      | mark m =>
          cases m with
          | closeParen =>
              cases hstep
              refine .statement ⟨_, [], ?_, .mk functions .noFormals, .nil⟩
              simp
          | _ => cases hstep
      | _ => cases hstep
  | nextFormal functions nonempty params =>
      cases t with
      | name name =>
          cases hstep
          simpa using Consumed.afterFormal functions (by simp) (params.nextFormal name nonempty)
      | _ => cases hstep
  | afterFormal functions nonempty params =>
      cases t with
      | mark m =>
          cases m with
          | comma =>
              cases hstep
              simpa using Consumed.nextFormal functions nonempty params
          | closeParen =>
              cases hstep
              refine .statement ⟨_, [], ?_, .mk functions params, .nil⟩
              simp
          | _ => cases hstep
      | _ => cases hstep
  | statement outer => exact outer.begin? hstep
  | blockStart outer =>
      by_cases ht : t = .mark .closeBrace
      · subst ht
        cases hstep
        rw [List.append_assoc]
        exact .afterBlock outer (.block .noStmts)
      · rw [Reading.step] at hstep
        · exact (outer.push fun _ hframes => .item hframes .noStmts).begin? hstep
        · exact ht
  | afterTarget outer =>
      cases t with
      | mark m =>
          cases m with
          | becomes =>
              cases hstep
              rw [List.append_assoc]
              exact outer.expect (.assign _)
          | _ => cases hstep
      | _ => cases hstep
  | operand outer => exact outer.begin? hstep
  | firstActual outer =>
      by_cases ht : t = .mark .closeParen
      · subst ht
        cases hstep
        rw [List.append_assoc]
        exact .afterOperand outer (Derives.noActuals.call _)
      · rw [Reading.step] at hstep
        · exact (outer.push fun _ hframes => .actual _ hframes .first).begin? hstep
        · exact ht
  | afterName outer =>
      by_cases ht : t = .mark .openParen
      · subst ht
        cases hstep
        rw [List.append_assoc]
        exact .firstActual outer
      · rw [Reading.step] at hstep
        · exact outer.follow? (.var _) hstep
        · exact ht
  | afterOperand outer operand => exact outer.follow? operand hstep
  | afterBlock outer block => exact outer.follow? block rfl hstep

theorem finish? (h : r.Consumed ts) {p : Program} (hfinish : r.finish? = some p) :
    DerivesNearest ts (.functions p.functions) := by
  cases h with
  | start =>
      cases hfinish
      exact .noFunctions
  | afterName outer => exact outer.finish? (.var _) hfinish
  | afterOperand outer operand => exact outer.finish? operand hfinish
  | afterBlock outer block => exact outer.finish? block hfinish
  | _ => cases hfinish

end Reading.Consumed

end Source

end FunCompiler
