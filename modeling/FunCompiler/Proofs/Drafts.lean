import FunCompiler.Draft
import FunCompiler.Proofs.Globals

/-!
Where code generation stops in a tree that nobody has checked. `Draft.plan` says
what generation does at one node, in order: which nodes it visits, when it draws
a label, which names it looks up and what it finds fault with. The plans of all
visited nodes make up the events of a draft. A run stops at the first fault
among the events, and the tables hold what the events before it put there, no
matter what the generator was used for before. A draft without faults is that of
a program, and its code is that of the program.
-/

namespace FunCompiler

open Asm Code

/-! ### Plans -/

/-- What a node is visited as. -/
inductive Role where
  | statement
  | expression
  deriving DecidableEq, Repr

inductive Action where
  | visit (role : Role) (node : Draft)
  | label
  | name (name : String)
  | fault (fault : Fault)

namespace Draft

/-- A conditional may lack its second branch. -/
def planElse : Draft → List Action
  | .absent => []
  | no => [.visit .statement no]

def operatorTexts : List String := ["+", "*", "==", "<>", "<", ">"]

def planOperator (op : String) : List Action :=
  if op ∈ operatorTexts then [] else [.fault (.noOperator op)]

/-- What generation does at a node, in order. -/
def plan : Role → Draft → List Action
  | .statement, .assign target value => [.visit .expression value, .name target]
  | .statement, .print value => [.visit .expression value]
  | .statement, .branch cond yes no =>
    [.visit .expression cond, .label, .visit .statement yes] ++ planElse no
  | .statement, .loop cond body => [.label, .visit .expression cond, .visit .statement body]
  | .statement, .block body => body.map (.visit .statement)
  | .statement, .ret value => [.visit .expression value]
  | .statement, node => [.fault (.notStatement node.className)]
  | .expression, .var name => [.name name]
  | .expression, .lit _ => []
  | .expression, .call _ actuals => actuals.map (.visit .expression)
  | .expression, .binary op left right =>
    [.visit .expression left, .visit .expression right] ++ planOperator op
  | .expression, node => [.fault (.notExpression node.className)]

theorem planElse_of_ne {no : Draft} (h : no ≠ .absent) : planElse no = [.visit .statement no] := by
  unfold planElse
  split
  · exact absurd rfl h
  · rfl

theorem eq_of_mem_planElse {role : Role} {node no : Draft}
    (h : .visit role node ∈ planElse no) : node = no := by
  unfold planElse at h
  split at h
  · cases h
  · cases List.mem_singleton.1 h
    rfl

theorem visit_not_mem_planOperator (role : Role) (node : Draft) (op : String) :
    .visit role node ∉ planOperator op := by
  unfold planOperator
  split <;> simp

theorem sizeOf_lt_of_mem_plan {role role' : Role} {d node : Draft}
    (h : .visit role' node ∈ d.plan role) : sizeOf node < sizeOf d := by
  have hall {nodes : List Draft} (h : .visit role' node ∈ nodes.map (Action.visit role)) :
      sizeOf node < sizeOf nodes := by
    obtain ⟨node', hmem, heq⟩ := List.mem_map.1 h
    cases heq
    exact List.sizeOf_lt_of_mem hmem
  cases role with
  | statement =>
      cases d with simp only [plan] at h
      | block body =>
          have hlt := hall h
          simp only [block.sizeOf_spec]
          omega
      | branch cond yes no =>
          rcases List.mem_append.1 h with h | h
          · simp only [List.mem_cons, Action.visit.injEq, reduceCtorEq, List.not_mem_nil, or_false,
              false_or] at h
            rcases h with ⟨-, rfl⟩ | ⟨-, rfl⟩ <;> simp only [branch.sizeOf_spec] <;> omega
          · cases eq_of_mem_planElse h
            simp only [branch.sizeOf_spec]
            omega
      | _ => grind
  | expression =>
      cases d with simp only [plan] at h
      | call callee actuals =>
          have hlt := hall h
          simp only [call.sizeOf_spec]
          omega
      | binary op left right =>
          rcases List.mem_append.1 h with h | h
          · simp only [List.mem_cons, Action.visit.injEq, List.not_mem_nil, or_false] at h
            rcases h with ⟨-, rfl⟩ | ⟨-, rfl⟩ <;> simp only [binary.sizeOf_spec] <;> omega
          · exact (visit_not_mem_planOperator _ _ _ h).elim
      | _ => grind

end Draft

/-! ### Events -/

/-- What generation puts in the tables, or where it stops. -/
inductive Event where
  | label
  | cell (name : String)
  | fault (fault : Fault)
  deriving DecidableEq, Repr

namespace Event

def cell? : Event → Option String
  | .cell v => some v
  | _ => none

def fault? : Event → Option Fault
  | .fault f => some f
  | _ => none

theorem eq_fault_of_fault? {event : Event} {f : Fault} (h : event.fault? = some f) :
    event = .fault f := by
  cases event with
  | fault f' =>
      cases h
      rfl
  | _ => cases h

end Event

/-- The events at a node and at all nodes that are visited from there. A name counts unless it
is a formal. -/
def Draft.events (formals : List String) (role : Role) (d : Draft) : List Event :=
  (d.plan role).attach.flatMap fun
    | ⟨.visit role' node, _⟩ => node.events formals role'
    | ⟨.label, _⟩ => [.label]
    | ⟨.name v, _⟩ => if v ∈ formals then [] else [.cell v]
    | ⟨.fault f, _⟩ => [.fault f]
termination_by sizeOf d
decreasing_by exact sizeOf_lt_of_mem_plan ‹_›

def Action.events (formals : List String) : Action → List Event
  | .visit role node => node.events formals role
  | .label => [.label]
  | .name v => if v ∈ formals then [] else [.cell v]
  | .fault f => [.fault f]

theorem Draft.events_eq (formals : List String) (role : Role) (d : Draft) :
    d.events formals role = (d.plan role).flatMap (Action.events formals) := by
  rw [Draft.events]
  conv_rhs => rw [← List.attach_map_subtype_val (d.plan role), List.flatMap_map]
  congr 1
  funext ⟨action, _⟩
  cases action <;> rfl

/-- The events of all functions. -/
def DraftProgram.events (d : DraftProgram) : List Event :=
  d.functions.flatMap fun f => f.body.events f.formals .statement

/-! ### Faults -/

namespace Draft

/-- From a node in one role, generation comes to a node in a role. -/
inductive Visits : Role → Draft → Role → Draft → Prop
  | here {role : Role} {d : Draft} : Visits role d role d
  | child {role role' role'' : Role} {d d' d'' : Draft} (action : .visit role' d' ∈ d.plan role)
      (rest : Visits role' d' role'' d'') : Visits role d role'' d''

def isStatement : Draft → Bool
  | .assign .. | .print _ | .branch .. | .loop .. | .block _ | .ret _ => true
  | _ => false

def isExpression : Draft → Bool
  | .var _ | .lit _ | .call .. | .binary .. => true
  | _ => false

/-- What is wrong with a node in a role: it is of the wrong class, or its operator is none of
the six. -/
inductive Faulty : Role → Draft → Fault → Prop
  | statement {d : Draft} (wrong : d.isStatement = false) :
      Faulty .statement d (.notStatement d.className)
  | expression {d : Draft} (wrong : d.isExpression = false) :
      Faulty .expression d (.notExpression d.className)
  | operator {op : String} {left right : Draft} (wrong : op ∉ operatorTexts) :
      Faulty .expression (.binary op left right) (.noOperator op)

theorem fault_not_mem_planElse (fault : Fault) (no : Draft) : .fault fault ∉ planElse no := by
  unfold planElse
  split <;> simp

theorem fault_mem_planOperator_iff {fault : Fault} {op : String} :
    .fault fault ∈ planOperator op ↔ op ∉ operatorTexts ∧ fault = .noOperator op := by
  unfold planOperator
  split <;> simp [*]

theorem faulty_statement_iff {d : Draft} {fault : Fault} :
    Faulty .statement d fault ↔ d.isStatement = false ∧ fault = .notStatement d.className := by
  constructor
  · rintro ⟨wrong⟩
    exact ⟨wrong, rfl⟩
  · rintro ⟨wrong, rfl⟩
    exact .statement wrong

theorem faulty_expression_iff {d : Draft} {fault : Fault} :
    Faulty .expression d fault ↔ (d.isExpression = false ∧ fault = .notExpression d.className) ∨
      ∃ op left right, d = .binary op left right ∧ .fault fault ∈ planOperator op := by
  constructor
  · intro h
    cases h with
    | expression wrong => exact .inl ⟨wrong, rfl⟩
    | operator wrong => exact .inr ⟨_, _, _, rfl, fault_mem_planOperator_iff.2 ⟨wrong, rfl⟩⟩
  · rintro (⟨wrong, rfl⟩ | ⟨op, left, right, rfl, hmem⟩)
    · exact .expression wrong
    · obtain ⟨wrong, rfl⟩ := fault_mem_planOperator_iff.1 hmem
      exact .operator wrong

/-- The plan of a node holds a fault where something is wrong with the node. -/
theorem fault_mem_plan_iff {role : Role} {d : Draft} {fault : Fault} :
    .fault fault ∈ d.plan role ↔ Faulty role d fault := by
  cases role with
  | statement =>
      rw [faulty_statement_iff]
      cases d <;> simp [plan, isStatement, fault_not_mem_planElse]
  | expression =>
      rw [faulty_expression_iff]
      cases d <;> simp [plan, isExpression]

theorem exists_faulty_of_mem_events {formals : List String} {role : Role} {d : Draft}
    {fault : Fault} (h : .fault fault ∈ d.events formals role) :
    ∃ role' node, Visits role d role' node ∧ Faulty role' node fault := by
  rw [events_eq, List.mem_flatMap] at h
  obtain ⟨action, haction, hevent⟩ := h
  cases action with
  | visit role' node =>
      obtain ⟨role'', node', hvisits, hfaulty⟩ := exists_faulty_of_mem_events hevent
      exact ⟨role'', node', .child haction hvisits, hfaulty⟩
  | label => simp [Action.events] at hevent
  | name v =>
      rw [Action.events] at hevent
      split at hevent
      · cases hevent
      · cases List.mem_singleton.1 hevent
  | fault f =>
      cases List.mem_singleton.1 hevent
      exact ⟨role, d, .here, fault_mem_plan_iff.1 haction⟩
termination_by sizeOf d
decreasing_by exact sizeOf_lt_of_mem_plan haction

theorem fault_mem_events {formals : List String} {role role' : Role} {d node : Draft}
    {fault : Fault} (hvisits : Visits role d role' node) (hfaulty : Faulty role' node fault) :
    .fault fault ∈ d.events formals role := by
  induction hvisits with
  | here =>
      rw [events_eq, List.mem_flatMap]
      exact ⟨.fault fault, fault_mem_plan_iff.2 hfaulty, List.mem_singleton_self _⟩
  | child haction _ ih =>
      rw [events_eq, List.mem_flatMap]
      exact ⟨_, haction, ih hfaulty⟩

end Draft

/-! ### Playing events -/

/-- The events before the first fault. -/
def reached (events : List Event) : List Event := events.takeWhile (·.fault?.isNone)

theorem reached_label (events : List Event) :
    reached (.label :: events) = .label :: reached events := rfl

theorem reached_cell (v : String) (events : List Event) :
    reached (.cell v :: events) = .cell v :: reached events := rfl

/-- Enters events in the tables up to the first fault. -/
def play : List Event → Tables → Option Fault × Tables
  | [], t => (none, t)
  | .label :: events, t => play events (freshLabel t).2
  | .cell v :: events, t => play events { t with globals := t.globals.register v }
  | .fault f :: _, t => (some f, t)

theorem play_append (events more : List Event) (t : Tables) :
    play (events ++ more) t =
      match play events t with
      | (none, t') => play more t'
      | stopped => stopped := by
  induction events generalizing t with
  | nil => rfl
  | cons event events ih =>
      cases event with
      | label => exact ih _
      | cell v => exact ih _
      | fault f => rfl

theorem play_eq (events : List Event) (t : Tables) :
    play events t = (events.findSome? Event.fault?,
      { labels := t.labels + (reached events).count .label
        globals := t.globals.registerAll ((reached events).filterMap Event.cell?) }) := by
  induction events generalizing t with
  | nil => rfl
  | cons event events ih =>
      cases event with
      | label =>
          rw [play, ih, reached_label, List.count_cons_self, ← Nat.add_assoc, Nat.add_right_comm]
          rfl
      | cell v =>
          rw [play, ih, reached_cell, List.count_cons_of_ne (show Event.cell v ≠ .label from nofun)]
          rfl
      | fault f => rfl

theorem run_bind {α β : Type} (m : Attempt α) (next : α → Attempt β) (t : Tables) :
    (m >>= next).run.run t =
      match m.run.run t with
      | (.ok a, t') => (next a).run.run t'
      | (.error f, t') => (.error f, t') := by
  show (ExceptT.bindCont next (m.run.run t).1).run (m.run.run t).2 = _
  rcases m.run.run t with ⟨_ | a, t'⟩ <;> rfl

/-- The fault at which a computation stopped. -/
def stopped? {α : Type} : Except Fault α → Option Fault
  | .ok _ => none
  | .error f => some f

/-- A computation on the tables that stops and fills them as the events say. -/
def Plays {α : Type} (m : Attempt α) (events : List Event) : Prop :=
  ∀ t, (stopped? (m.run.run t).1, (m.run.run t).2) = play events t

namespace Plays

variable {α β : Type}

theorem pure (a : α) : Plays (Pure.pure a) [] := fun _ => rfl

theorem throw (fault : Fault) : Plays (MonadExcept.throw fault : Attempt α) [.fault fault] :=
  fun _ => rfl

theorem bind {m : Attempt α} {next : α → Attempt β} {events more : List Event}
    (h : Plays m events) (hnext : ∀ a, Plays (next a) more) :
    Plays (m >>= next) (events ++ more) := by
  intro t
  have hm := h t
  rw [play_append, ← hm, run_bind]
  rcases m.run.run t with ⟨_ | a, t'⟩
  · rfl
  · exact hnext a t'

theorem map {m : Attempt α} {events : List Event} (h : Plays m events) (f : α → β) :
    Plays (m >>= fun a => Pure.pure (f a)) events := by
  have hbind := h.bind fun a => Plays.pure (f a)
  rwa [List.append_nil] at hbind

theorem locate (formals : List String) (v : String) :
    Plays (liftM (Code.locate formals v)) ((Action.name v).events formals) := by
  intro t
  show (none, (Code.locate formals v t).2) = _
  obtain ⟨hmem, -, heq⟩ | ⟨hnot, heq⟩ := locate_of_formals formals t v
  · rw [heq, Action.events, if_pos hmem]
    rfl
  · rw [heq, Action.events, if_neg hnot]
    rfl

theorem freshLabel : Plays (liftM Code.freshLabel) [.label] := fun _ => rfl

end Plays

theorem Operator.isSome_ofText?_iff (op : String) :
    (ofText? op).isSome ↔ op ∈ Draft.operatorTexts := by
  simp [ofText?, all, text, Draft.operatorTexts, @eq_comm _ op]

namespace Draft

theorem plays_emitOperator (formals : List String) (op : String) :
    Plays (emitOperator op) ((planOperator op).flatMap (Action.events formals)) := by
  have hop := Operator.isSome_ofText?_iff op
  unfold emitOperator planOperator
  cases hread : Operator.ofText? op with
  | some op' =>
      rw [if_pos (hop.1 (by rw [hread]; rfl))]
      exact .pure _
  | none =>
      rw [if_neg (mt hop.2 (by rw [hread]; nofun))]
      exact .throw _

mutual

theorem plays_emitExpr (formals : List String) (d : Draft) :
    Plays (d.emitExpr formals) (d.events formals .expression) := by
  rw [events_eq]
  cases d with
  | var name => exact (Plays.locate formals name).bind fun _ => .pure _
  | lit value => exact .pure _
  | call callee actuals =>
      rw [plan, List.flatMap_map]
      exact (plays_emitActuals formals 0 actuals).map _
  | binary op left right =>
      exact (plays_emitExpr formals left).bind fun _ => (plays_emitExpr formals right).bind
        fun _ => (plays_emitOperator formals op).map _
  | _ => exact .throw _

theorem plays_emitActuals (formals : List String) (index : Nat) (ds : List Draft) :
    Plays (emitActuals formals index ds) (ds.flatMap (events formals .expression)) := by
  cases ds with
  | nil => exact .pure _
  | cons d ds =>
      rw [List.flatMap_cons]
      exact (plays_emitExpr formals d).bind fun _ =>
        (plays_emitActuals formals (index + 1) ds).map _

end

theorem emitStmt_branch_of_ne {no : Draft} (h : no ≠ .absent) (target : Target)
    (formals : List String) (cond yes : Draft) :
    (branch cond yes no).emitStmt target formals =
      emitBranch (cond.emitExpr formals) (yes.emitStmt target formals)
        (no.emitStmt target formals) := by
  cases no <;> first | rfl | exact absurd rfl h

mutual

theorem plays_emitStmt (target : Target) (formals : List String) (d : Draft) :
    Plays (d.emitStmt target formals) (d.events formals .statement) := by
  rw [events_eq]
  cases d with
  | assign name value =>
      exact (plays_emitExpr formals value).bind fun _ => (Plays.locate formals name).bind
        fun _ => .pure _
  | print value => exact (plays_emitExpr formals value).bind fun _ => .pure _
  | branch cond yes no =>
      have hfirst {events : List Event} {rest : Attempt (List Item)} (hrest : Plays rest events) :
          Plays (emitBranch (cond.emitExpr formals) (yes.emitStmt target formals) rest)
            (cond.events formals .expression ++ ([.label] ++ (yes.events formals .statement ++
              events))) :=
        (plays_emitExpr formals cond).bind fun _ => Plays.freshLabel.bind fun _ =>
          (plays_emitStmt target formals yes).bind fun _ => hrest.map _
      by_cases habsent : no = .absent
      · subst habsent
        exact hfirst (.pure _)
      · rw [emitStmt_branch_of_ne habsent, plan, planElse_of_ne habsent]
        have h := hfirst (plays_emitStmt target formals no)
        simpa [Action.events] using h
  | loop cond body =>
      exact Plays.freshLabel.bind fun _ => (plays_emitExpr formals cond).bind fun _ =>
        (plays_emitStmt target formals body).bind fun _ => .pure _
  | block body =>
      rw [plan, List.flatMap_map]
      exact plays_emitStmts target formals body
  | ret value => exact (plays_emitExpr formals value).bind fun _ => .pure _
  | _ => exact .throw _

theorem plays_emitStmts (target : Target) (formals : List String) (ds : List Draft) :
    Plays (emitStmts target formals ds) (ds.flatMap (events formals .statement)) := by
  cases ds with
  | nil => exact .pure _
  | cons d ds =>
      rw [List.flatMap_cons]
      exact (plays_emitStmt target formals d).bind fun _ =>
        (plays_emitStmts target formals ds).map _

end

end Draft

theorem DraftFunction.plays_emitAll (target : Target) (fs : List DraftFunction) :
    Plays (emitAll target fs) (fs.flatMap fun f => f.body.events f.formals .statement) := by
  induction fs with
  | nil => exact .pure _
  | cons f fs ih =>
      rw [List.flatMap_cons]
      exact ((f.body.plays_emitStmt target f.formals).map _).bind fun _ => ih.map _

/-! ### Drafts of programs -/

theorem Operator.text_of_ofText? {text : String} {op : Operator} (h : ofText? text = some op) :
    op.text = text := by
  have hbeq := List.find?_some h
  exact beq_iff_eq.1 hbeq

theorem Operator.ofText?_text (op : Operator) : ofText? op.text = some op := by
  cases op <;> rfl

theorem Expr.length_toDrafts (es : List Expr) : (Expr.toDrafts es).length = es.length := by
  induction es with
  | nil => rfl
  | cons e es ih => exact congrArg (· + 1) ih

namespace Draft

theorem emitOperator_text (op : Operator) :
    emitOperator op.text = liftM (pure (operatorCode op) : Gen (List Item)) := by
  rw [emitOperator, Operator.ofText?_text]
  rfl

-- A rule commutes with lifting, so both sides come down to the same rule for the same parts.
mutual

theorem emitExpr_toDraft (formals : List String) (e : Expr) :
    e.toDraft.emitExpr formals = liftM (e.emit formals) := by
  cases e with
  | var name => rfl
  | lit value => rfl
  | call callee actuals =>
      simp only [Expr.toDraft, emitExpr, Expr.emit, emitCall, liftM_bind, liftM_pure,
        emitActuals_toDrafts, Expr.length_toDrafts]
  | binary op left right =>
      simp only [Expr.toDraft, emitExpr, Expr.emit, emitBinary, liftM_bind, liftM_pure,
        emitExpr_toDraft formals left, emitExpr_toDraft formals right, emitOperator_text]

theorem emitActuals_toDrafts (formals : List String) (index : Nat) (es : List Expr) :
    emitActuals formals index (Expr.toDrafts es) = liftM (Expr.emitActuals formals index es) := by
  cases es with
  | nil => rfl
  | cons e es =>
      simp only [Expr.toDrafts, emitActuals, Expr.emitActuals, emitActual, liftM_bind, liftM_pure,
        emitExpr_toDraft formals e, emitActuals_toDrafts formals (index + 1) es]

end

theorem toDraft_ne_absent (s : Stmt) : s.toDraft ≠ .absent := by
  cases s <;> rintro ⟨⟩

mutual

theorem emitStmt_toDraft (target : Target) (formals : List String) (s : Stmt) :
    s.toDraft.emitStmt target formals = liftM (s.emit target formals) := by
  cases s with
  | assign name value =>
      simp only [Stmt.toDraft, emitStmt, Stmt.emit, emitAssign, liftM_bind, liftM_pure,
        emitExpr_toDraft]
      rfl
  | print value =>
      simp only [Stmt.toDraft, emitStmt, Stmt.emit, emitPrint, liftM_bind, liftM_pure,
        emitExpr_toDraft]
  | ifThen cond yes =>
      simp only [Stmt.toDraft, emitStmt, Stmt.emit, emitBranch, liftM_bind, liftM_pure,
        emitExpr_toDraft, emitStmt_toDraft target formals yes]
      rfl
  | ifElse cond yes no =>
      rw [Stmt.toDraft, emitStmt_branch_of_ne (toDraft_ne_absent no)]
      simp only [Stmt.emit, emitBranch, liftM_bind, liftM_pure, emitExpr_toDraft,
        emitStmt_toDraft target formals yes, emitStmt_toDraft target formals no]
      rfl
  | loop cond body =>
      simp only [Stmt.toDraft, emitStmt, Stmt.emit, emitLoop, liftM_bind, liftM_pure,
        emitExpr_toDraft, emitStmt_toDraft target formals body]
      rfl
  | block body => exact emitStmts_toDrafts target formals body
  | ret value =>
      simp only [Stmt.toDraft, emitStmt, Stmt.emit, emitReturn, liftM_bind, liftM_pure,
        emitExpr_toDraft]

theorem emitStmts_toDrafts (target : Target) (formals : List String) (ss : List Stmt) :
    emitStmts target formals (Stmt.toDrafts ss) = liftM (Stmt.emitAll target formals ss) := by
  cases ss with
  | nil => rfl
  | cons s ss =>
      simp only [Stmt.toDrafts, emitStmts, Stmt.emitAll, emitBefore, liftM_bind, liftM_pure,
        emitStmt_toDraft target formals s, emitStmts_toDrafts target formals ss]

end

end Draft

theorem Function.emitAll_toDraft (target : Target) (fs : List Function) :
    DraftFunction.emitAll target (fs.map toDraft) = liftM (emitAll target fs) := by
  induction fs with
  | nil => rfl
  | cons f fs ih =>
      simp only [List.map_cons, DraftFunction.emitAll, emitAll, emitBefore, DraftFunction.emit,
        emit, emitFunction, toDraft, liftM_bind, liftM_pure, Draft.emitStmt_toDraft, ih]

/-- The draft of a program has the program's listing. -/
theorem Program.generate_toDraft (target : Target) (p : Program) :
    p.toDraft.generate target = .ok (p.generate target) := by
  rw [DraftProgram.generate, toDraft, Function.emitAll_toDraft]
  rfl

/-- The tables that a program leaves are those that the events of its draft make up. -/
theorem Program.tables_generate (target : Target) (p : Program) :
    (p.generate target).tables = (play p.toDraft.events {}).2 := by
  have hplays := DraftFunction.plays_emitAll target (p.functions.map Function.toDraft) {}
  rw [Function.emitAll_toDraft] at hplays
  exact congrArg Prod.snd hplays

namespace Draft

/-- Nothing is wrong with any node that generation comes to. -/
def Flawless (role : Role) (d : Draft) : Prop :=
  ∀ role' node fault, Visits role d role' node → ¬ Faulty role' node fault

theorem Flawless.child {role role' : Role} {d node : Draft} (h : d.Flawless role)
    (haction : .visit role' node ∈ d.plan role) : node.Flawless role' :=
  fun _ _ _ hvisits => h _ _ _ (.child haction hvisits)

theorem Flawless.not_faulty {role : Role} {d : Draft} {fault : Fault} (h : d.Flawless role) :
    ¬ Faulty role d fault := h _ _ _ .here

mutual

theorem Flawless.exists_expr {d : Draft} (h : d.Flawless .expression) :
    ∃ e : Expr, e.toDraft = d := by
  cases d with
  | var name => exact ⟨.var name, rfl⟩
  | lit value => exact ⟨.lit value, rfl⟩
  | call callee actuals =>
      obtain ⟨es, rfl⟩ := exists_exprs fun a ha => h.child (List.mem_map_of_mem ha)
      exact ⟨.call callee es, rfl⟩
  | binary op left right =>
      obtain ⟨e, rfl⟩ := (h.child (.head _)).exists_expr
      obtain ⟨e', rfl⟩ := (h.child (.tail _ (.head _))).exists_expr
      have hop : op ∈ operatorTexts :=
        Decidable.not_not.1 fun hnot => h.not_faulty (.operator hnot)
      obtain ⟨op', hread⟩ := Option.isSome_iff_exists.1 ((Operator.isSome_ofText?_iff op).2 hop)
      refine ⟨.binary op' e e', ?_⟩
      rw [Expr.toDraft, Operator.text_of_ofText? hread]
  | _ => exact absurd (.expression rfl) h.not_faulty

theorem exists_exprs {ds : List Draft} (h : ∀ d ∈ ds, d.Flawless .expression) :
    ∃ es : List Expr, Expr.toDrafts es = ds := by
  cases ds with
  | nil => exact ⟨[], rfl⟩
  | cons d ds =>
      obtain ⟨hd, hds⟩ := List.forall_mem_cons.1 h
      obtain ⟨e, rfl⟩ := hd.exists_expr
      obtain ⟨es, rfl⟩ := exists_exprs hds
      exact ⟨e :: es, rfl⟩

end

mutual

theorem Flawless.exists_stmt {d : Draft} (h : d.Flawless .statement) :
    ∃ s : Stmt, s.toDraft = d := by
  cases d with
  | assign name value =>
      obtain ⟨e, rfl⟩ := (h.child (.head _)).exists_expr
      exact ⟨.assign name e, rfl⟩
  | print value =>
      obtain ⟨e, rfl⟩ := (h.child (.head _)).exists_expr
      exact ⟨.print e, rfl⟩
  | branch cond yes no =>
      obtain ⟨e, rfl⟩ := (h.child (.head _)).exists_expr
      obtain ⟨s, rfl⟩ := (h.child (.tail _ (.tail _ (.head _)))).exists_stmt
      by_cases habsent : no = .absent
      · exact ⟨.ifThen e s, by rw [habsent]; rfl⟩
      · have hno : .visit .statement no ∈ plan .statement (.branch e.toDraft s.toDraft no) := by
          rw [plan, planElse_of_ne habsent]
          exact List.mem_append_right _ (.head _)
        obtain ⟨s', rfl⟩ := (h.child hno).exists_stmt
        exact ⟨.ifElse e s s', rfl⟩
  | loop cond body =>
      obtain ⟨e, rfl⟩ := (h.child (.tail _ (.head _))).exists_expr
      obtain ⟨s, rfl⟩ := (h.child (.tail _ (.tail _ (.head _)))).exists_stmt
      exact ⟨.loop e s, rfl⟩
  | block body =>
      obtain ⟨ss, rfl⟩ := exists_stmts fun s hs => h.child (List.mem_map_of_mem hs)
      exact ⟨.block ss, rfl⟩
  | ret value =>
      obtain ⟨e, rfl⟩ := (h.child (.head _)).exists_expr
      exact ⟨.ret e, rfl⟩
  | _ => exact absurd (.statement rfl) h.not_faulty

theorem exists_stmts {ds : List Draft} (h : ∀ d ∈ ds, d.Flawless .statement) :
    ∃ ss : List Stmt, Stmt.toDrafts ss = ds := by
  cases ds with
  | nil => exact ⟨[], rfl⟩
  | cons d ds =>
      obtain ⟨hd, hds⟩ := List.forall_mem_cons.1 h
      obtain ⟨s, rfl⟩ := hd.exists_stmt
      obtain ⟨ss, rfl⟩ := exists_stmts hds
      exact ⟨s :: ss, rfl⟩

end

end Draft

/-! ### Generators -/

namespace DraftProgram

/-- There is a fault among the events where something is wrong with a visited node. -/
theorem exists_fault_iff {d : DraftProgram} :
    (∃ fault, d.events.findSome? Event.fault? = some fault) ↔
      ∃ f ∈ d.functions, ∃ role node fault,
        Draft.Visits .statement f.body role node ∧ Draft.Faulty role node fault := by
  constructor
  · rintro ⟨fault, hfound⟩
    obtain ⟨event, hevent, heq⟩ := List.exists_of_findSome?_eq_some hfound
    obtain rfl := Event.eq_fault_of_fault? heq
    obtain ⟨f, hf, hmem⟩ := List.mem_flatMap.1 hevent
    obtain ⟨role, node, hvisits, hfaulty⟩ := Draft.exists_faulty_of_mem_events hmem
    exact ⟨f, hf, role, node, fault, hvisits, hfaulty⟩
  · rintro ⟨f, hf, role, node, fault, hvisits, hfaulty⟩
    have hmem : .fault fault ∈ d.events :=
      List.mem_flatMap.2 ⟨f, hf, Draft.fault_mem_events hvisits hfaulty⟩
    rw [← Option.isSome_iff_exists, List.isSome_findSome?, List.any_eq_true]
    exact ⟨_, hmem, rfl⟩

/-- A run stops at the first fault among the events with what they put in the tables before
it, whatever the target. -/
theorem generate_eq_of_fault {d : DraftProgram} {fault : Fault}
    (h : d.events.findSome? Event.fault? = some fault) (target : Target) :
    d.generate target = .error (fault, (play d.events {}).2) := by
  have hplays := DraftFunction.plays_emitAll target d.functions {}
  change _ = play d.events {} at hplays
  have hfound : (play d.events {}).1 = some fault := by rw [play_eq, h]
  rw [← hplays] at hfound ⊢
  unfold generate
  rcases hrun : (DraftFunction.emitAll target d.functions).run.run {} with ⟨other | functions, t⟩
  · rw [hrun] at hfound
    cases hfound
    rfl
  · rw [hrun] at hfound
    cases hfound

/-- A draft without faults is the draft of a program. -/
theorem exists_program {d : DraftProgram} (h : d.events.findSome? Event.fault? = none) :
    ∃ p : Program, p.toDraft = d := by
  have hflawless : ∀ f ∈ d.functions, f.body.Flawless .statement := by
    intro f hf role node fault hvisits hfaulty
    obtain ⟨other, hfound⟩ := exists_fault_iff.2 ⟨f, hf, role, node, fault, hvisits, hfaulty⟩
    rw [h] at hfound
    cases hfound
  obtain ⟨fs⟩ := d
  suffices hfunctions : ∃ gs : List Function, gs.map Function.toDraft = fs by
    obtain ⟨gs, rfl⟩ := hfunctions
    exact ⟨⟨gs⟩, rfl⟩
  clear h
  induction fs with
  | nil => exact ⟨[], rfl⟩
  | cons f fs ih =>
      obtain ⟨hf, hfs⟩ := List.forall_mem_cons.1 hflawless
      obtain ⟨s, hbody⟩ := hf.exists_stmt
      obtain ⟨gs, rfl⟩ := ih hfs
      refine ⟨⟨f.name, f.formals, s⟩ :: gs, ?_⟩
      rw [List.map_cons, Function.toDraft, hbody]

/-- A draft has a fault among its events and generation stops at the first one, or it is the
draft of a program and gives the listing of the program. -/
theorem generate_cases (d : DraftProgram) :
    (∃ fault, d.events.findSome? Event.fault? = some fault ∧
      ∀ target, d.generate target = .error (fault, (play d.events {}).2)) ∨
    (d.events.findSome? Event.fault? = none ∧ ∃ p : Program, p.toDraft = d ∧
      ∀ target, d.generate target = .ok (p.generate target) ∧
        (p.generate target).tables = (play d.events {}).2) := by
  cases hfound : d.events.findSome? Event.fault? with
  | some fault => exact .inl ⟨fault, rfl, generate_eq_of_fault hfound⟩
  | none =>
      obtain ⟨p, rfl⟩ := exists_program hfound
      exact .inr ⟨rfl, p, rfl, fun target => ⟨p.generate_toDraft target, p.tables_generate target⟩⟩

end DraftProgram

namespace Generator

/-- The generator after it has been used for some drafts. -/
def after (g : Generator) (history : List DraftProgram) : Generator :=
  history.foldl (fun g d => (g.generate d).2) g

theorem target_generate (g : Generator) (d : DraftProgram) :
    (g.generate d).2.target = g.target := by
  unfold generate
  split <;> rfl

theorem target_after (g : Generator) (history : List DraftProgram) :
    (g.after history).target = g.target := by
  induction history generalizing g with
  | nil => rfl
  | cons d history ih => exact (ih _).trans (g.target_generate d)

end Generator

/-- Whatever a generator was used for before, a run on a draft fails where some node that it
visits is of the wrong class or has an unknown operator. The error is the first such fault in the
order of generation, and the tables hold what comes before that fault, or all of it if there is
none. A run that does not fail gives the listing of the program that the draft stands for. -/
theorem first_fault_stops_generation (g : Generator) (history : List DraftProgram)
    (d : DraftProgram) :
    ((∃ fault, ((g.after history).generate d).1 = .error fault) ↔
      ∃ f ∈ d.functions, ∃ role node fault,
        Draft.Visits .statement f.body role node ∧ Draft.Faulty role node fault) ∧
    (∀ fault, ((g.after history).generate d).1 = .error fault ↔
      d.events.findSome? Event.fault? = some fault) ∧
    (∀ listing, ((g.after history).generate d).1 = .ok listing →
      ∃ p : Program, p.toDraft = d ∧ listing = p.generate g.target) ∧
    ((g.after history).generate d).2.tables.labels = (reached d.events).count .label ∧
    ((g.after history).generate d).2.tables.globals.names =
      ((reached d.events).filterMap Event.cell?).eraseDups := by
  have hlabels : (play d.events {}).2.labels = (reached d.events).count .label := by
    rw [play_eq]
    exact Nat.zero_add _
  have hnames : (play d.events {}).2.globals.names =
      ((reached d.events).filterMap Event.cell?).eraseDups := by
    rw [play_eq]
    exact Globals.names_registerAll_empty _
  rw [← DraftProgram.exists_fault_iff, ← hlabels, ← hnames, ← g.target_after history]
  -- a run starts from empty tables, so all that it takes from the history is the target
  generalize g.after history = g
  unfold Generator.generate
  obtain ⟨fault, hfound, heq⟩ | ⟨hfound, p, hdraft, hlisting⟩ := d.generate_cases
  · rw [heq, hfound]
    simp
  · obtain ⟨heq, htables⟩ := hlisting g.target
    rw [heq, hfound, ← htables]
    refine ⟨by simp, by simp, ?_, rfl, rfl⟩
    rintro _ ⟨rfl⟩
    exact ⟨p, hdraft, rfl⟩

end FunCompiler
