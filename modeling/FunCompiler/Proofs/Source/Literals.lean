import FunCompiler.Proofs.Source.Faults
import FunCompiler.Proofs.Source.Spacing

/-!
Literals that are too long or too large. They are judged once a text has been read to
its end, and the first literal at fault is reported; a text that cannot be read is
rejected before any literal is judged.

A parse tree (`Tree`) has the nodes of a program, but each literal is still the number
that stands in the text, with its position. The program is built from the tree from the
bottom up, each node when the nodes inside it are ready, and a literal is judged when it
is built (`Tree.build`). The numbers of the tree that a text is derived from are those
of the text in their order (`Derives.exists_tree`), so building stops at the literal
that comes first in the text among those at fault.
-/

namespace FunCompiler

namespace Source

/-! ### Parse trees -/

/-- What a parse tree is built into. -/
inductive Kind where
  | expr
  | exprs
  | stmt
  | stmts
  | names
  | functions

abbrev Kind.Result : Kind → Type
  | .expr => Expr
  | .exprs => List Expr
  | .stmt => Stmt
  | .stmts => List Stmt
  | .names => List String
  | .functions => List Function

/-- Parse trees. Lists grow at their end, as the text is read. -/
inductive Tree : Kind → Type
  | literal (digits : String) (position : Position) : Tree .expr
  | var (name : String) : Tree .expr
  | call (callee : String) (actuals : Tree .exprs) : Tree .expr
  | binary (op : Operator) (left right : Tree .expr) : Tree .expr
  | noExprs : Tree .exprs
  | nextExpr (before : Tree .exprs) (next : Tree .expr) : Tree .exprs
  | assign (target : String) (value : Tree .expr) : Tree .stmt
  | print (value : Tree .expr) : Tree .stmt
  | ret (value : Tree .expr) : Tree .stmt
  | ifThen (cond : Tree .expr) (yes : Tree .stmt) : Tree .stmt
  | ifElse (cond : Tree .expr) (yes no : Tree .stmt) : Tree .stmt
  | loop (cond : Tree .expr) (body : Tree .stmt) : Tree .stmt
  | block (body : Tree .stmts) : Tree .stmt
  | noStmts : Tree .stmts
  | nextStmt (before : Tree .stmts) (next : Tree .stmt) : Tree .stmts
  | formalNames (names : List String) : Tree .names
  | noFunctions : Tree .functions
  | nextFunction (before : Tree .functions) (name : String) (formals : Tree .names)
      (body : Tree .stmt) : Tree .functions

namespace Tree

/-- The numbers of a tree, from left to right. -/
def numbers : {k : Kind} → Tree k → List Lexeme
  | _, .literal digits position => [⟨.number digits, position⟩]
  | _, .var _ => []
  | _, .call _ actuals => actuals.numbers
  | _, .binary _ left right => left.numbers ++ right.numbers
  | _, .noExprs => []
  | _, .nextExpr before next => before.numbers ++ next.numbers
  | _, .assign _ value => value.numbers
  | _, .print value => value.numbers
  | _, .ret value => value.numbers
  | _, .ifThen cond yes => cond.numbers ++ yes.numbers
  | _, .ifElse cond yes no => cond.numbers ++ (yes.numbers ++ no.numbers)
  | _, .loop cond body => cond.numbers ++ body.numbers
  | _, .block body => body.numbers
  | _, .noStmts => []
  | _, .nextStmt before next => before.numbers ++ next.numbers
  | _, .formalNames _ => []
  | _, .noFunctions => []
  | _, .nextFunction before _ formals body => before.numbers ++ (formals.numbers ++ body.numbers)

/-- Makes what a tree stands for from the bottom up and from left to right, given how a
literal is made. -/
def foldM {m : Type → Type} [Monad m] (literal : String → Position → m Expr) :
    {k : Kind} → Tree k → m k.Result
  | _, .literal digits position => literal digits position
  | _, .var name => return Expr.var name
  | _, .call callee actuals => return Expr.call callee (← actuals.foldM literal)
  | _, .binary op left right => do
    let left ← left.foldM literal
    let right ← right.foldM literal
    return Expr.binary op left right
  | _, .noExprs => return []
  | _, .nextExpr before next => do
    let before ← before.foldM literal
    let next ← next.foldM literal
    return before ++ [next]
  | _, .assign target value => return Stmt.assign target (← value.foldM literal)
  | _, .print value => return Stmt.print (← value.foldM literal)
  | _, .ret value => return Stmt.ret (← value.foldM literal)
  | _, .ifThen cond yes => do
    let cond ← cond.foldM literal
    let yes ← yes.foldM literal
    return Stmt.ifThen cond yes
  | _, .ifElse cond yes no => do
    let cond ← cond.foldM literal
    let yes ← yes.foldM literal
    let no ← no.foldM literal
    return Stmt.ifElse cond yes no
  | _, .loop cond body => do
    let cond ← cond.foldM literal
    let body ← body.foldM literal
    return Stmt.loop cond body
  | _, .block body => return Stmt.block (← body.foldM literal)
  | _, .noStmts => return []
  | _, .nextStmt before next => do
    let before ← before.foldM literal
    let next ← next.foldM literal
    return before ++ [next]
  | _, .formalNames names => return names
  | _, .noFunctions => return []
  | _, .nextFunction before name formals body => do
    let before ← before.foldM literal
    let formals ← formals.foldM literal
    let body ← body.foldM literal
    return before ++ [⟨name, formals, body⟩]

/-- The literal of a number, unless it is at fault. -/
def buildLiteral (digits : String) (position : Position) : Except ParseError Expr :=
  match (⟨.number digits, position⟩ : Lexeme).fault? with
  | some fault => .error fault
  | none => .ok (.lit (Nat.ofDigitChars 10 digits.toList 0))

def build {k : Kind} (t : Tree k) : Except ParseError k.Result := t.foldM buildLiteral

/-- What the tree stands for, if no literal is judged. -/
def result {k : Kind} (t : Tree k) : k.Result :=
  Id.run (t.foldM fun digits _ => return .lit (Nat.ofDigitChars 10 digits.toList 0))

end Tree

/-- The outcome is `a`, or the first fault among the numbers. -/
def Judges {α : Type} (numbers : List Lexeme) (a : α) (outcome : Except ParseError α) : Prop :=
  outcome = (numbers.findSome? Lexeme.fault?).elim (.ok a) .error

namespace Judges

variable {α β : Type} {numbers more : List Lexeme} {a : α} {outcome : Except ParseError α}

theorem bind {next : α → Except ParseError β} {b : β} (h : Judges numbers a outcome)
    (hnext : Judges more b (next a)) : Judges (numbers ++ more) b (outcome >>= next) := by
  unfold Judges at *
  rw [h, List.findSome?_append]
  cases numbers.findSome? Lexeme.fault? with
  | some fault => rfl
  | none => exact hnext

theorem map (h : Judges numbers a outcome) (f : α → β) :
    Judges numbers (f a) (outcome >>= fun a => return f a) := by
  rw [← List.append_nil numbers]
  exact h.bind rfl

end Judges

/-- Building a tree stops at the first of its numbers that is at fault. -/
theorem Tree.judges_build {k : Kind} (t : Tree k) : Judges t.numbers t.result t.build := by
  induction t with
  | literal digits position =>
      show buildLiteral digits position =
        ([(⟨.number digits, position⟩ : Lexeme)].findSome? Lexeme.fault?).elim
          (.ok (.lit (Nat.ofDigitChars 10 digits.toList 0))) .error
      rw [buildLiteral, List.findSome?_singleton]
      cases (⟨.number digits, position⟩ : Lexeme).fault? <;> rfl
  | var name => exact rfl
  | call callee actuals ih => exact ih.map _
  | binary op left right first second => exact first.bind (second.map _)
  | noExprs => exact rfl
  | nextExpr before next first second => exact first.bind (second.map _)
  | assign target value ih => exact ih.map _
  | print value ih => exact ih.map _
  | ret value ih => exact ih.map _
  | ifThen cond yes test first => exact test.bind (first.map _)
  | ifElse cond yes no test first second => exact test.bind (first.bind (second.map _))
  | loop cond body test inner => exact test.bind (inner.map _)
  | block body ih => exact ih.map _
  | noStmts => exact rfl
  | nextStmt before next first second => exact first.bind (second.map _)
  | formalNames names => exact rfl
  | noFunctions => exact rfl
  | nextFunction before name formals body first params inner =>
      exact first.bind (params.bind (inner.map _))

/-! ### The tree of a text -/

def Token.isNumber : Token → Bool
  | .number _ => true
  | _ => false

/-- The numbers among lexemes. -/
def numbers (lexemes : List Lexeme) : List Lexeme := lexemes.filter (·.token.isNumber)

/-- The lexemes are the numbers among the tokens, at some positions. -/
inductive Numbered : List Token → List Lexeme → Prop
  | nil : Numbered [] []
  | number (digits : String) (position : Position) {ts : List Token} {lexemes : List Lexeme}
      (rest : Numbered ts lexemes) :
      Numbered (.number digits :: ts) (⟨.number digits, position⟩ :: lexemes)
  | other {token : Token} (other : token.isNumber = false) {ts : List Token}
      {lexemes : List Lexeme} (rest : Numbered ts lexemes) : Numbered (token :: ts) lexemes

namespace Numbered

theorem numbers (lexemes : List Lexeme) :
    Numbered (lexemes.map Lexeme.token) (numbers lexemes) := by
  induction lexemes with
  | nil => exact .nil
  | cons l lexemes ih =>
      obtain ⟨token, position⟩ := l
      cases token with
      | number digits => exact .number digits position ih
      | _ => exact .other rfl ih

theorem of_cons {token : Token} {ts : List Token} {lexemes : List Lexeme}
    (h : Numbered (token :: ts) lexemes) (other : token.isNumber = false) :
    Numbered ts lexemes := by
  cases h with
  | number => cases other
  | other _ rest => exact rest

theorem of_append {ts us : List Token} {lexemes : List Lexeme} (h : Numbered (ts ++ us) lexemes) :
    ∃ first second, lexemes = first ++ second ∧ Numbered ts first ∧ Numbered us second := by
  induction ts generalizing lexemes with
  | nil => exact ⟨[], lexemes, rfl, .nil, h⟩
  | cons token ts ih =>
      cases h with
      | number digits position rest =>
          obtain ⟨first, second, rfl, hfirst, hsecond⟩ := ih rest
          exact ⟨_ :: first, second, rfl, .number digits position hfirst, hsecond⟩
      | other other rest =>
          obtain ⟨first, second, rfl, hfirst, hsecond⟩ := ih rest
          exact ⟨first, second, rfl, .other other hfirst, hsecond⟩

/-- A token that is no number stands behind the others. -/
theorem of_concat {token : Token} {ts : List Token} {lexemes : List Lexeme}
    (h : Numbered (ts ++ [token]) lexemes) (other : token.isNumber = false) :
    Numbered ts lexemes := by
  obtain ⟨first, second, rfl, hfirst, hsecond⟩ := h.of_append
  cases hsecond.of_cons other
  rwa [List.append_nil]

end Numbered

/-- Some parse tree with the numbers stands for the result. -/
def HasTree (k : Kind) (result : k.Result) (numbers : List Lexeme) : Prop :=
  ∃ t : Tree k, t.result = result ∧ t.numbers = numbers

/-- Some parse tree with the numbers stands for what is derived. -/
def Phrase.HasTree : Phrase → List Lexeme → Prop
  | .expr _ e => Source.HasTree .expr e
  | .actuals es => Source.HasTree .exprs es
  | .stmt s => Source.HasTree .stmt s
  | .stmts ss => Source.HasTree .stmts ss
  | .formals names => Source.HasTree .names names
  | .functions fs => Source.HasTree .functions fs

/-- What is derived from tokens has a parse tree with the numbers among them. -/
theorem Derives.exists_tree {closed : Stmt → Prop} {ts : List Token} {phrase : Phrase}
    (h : Derives closed ts phrase) {lexemes : List Lexeme} (hnumbered : Numbered ts lexemes) :
    phrase.HasTree lexemes := by
  induction h generalizing lexemes with
  | literal digits =>
      cases hnumbered with
      | number _ position rest =>
          cases rest
          exact ⟨.literal digits position, rfl, rfl⟩
      | other other => cases other
  | var name =>
      cases hnumbered.of_cons rfl
      exact ⟨.var name, rfl, rfl⟩
  | call callee _ ih =>
      obtain ⟨t, rfl, rfl⟩ := ih (((hnumbered.of_cons rfl).of_cons rfl).of_concat rfl)
      exact ⟨.call callee t, rfl, rfl⟩
  | group _ ih => exact ih ((hnumbered.of_cons rfl).of_concat rfl)
  | operation op _ _ first second =>
      obtain ⟨before, behind, rfl, hbefore, hbehind⟩ := hnumbered.of_append
      obtain ⟨left, rfl, rfl⟩ := first hbefore
      obtain ⟨right, rfl, rfl⟩ := second (hbehind.of_cons rfl)
      exact ⟨.binary op left right, rfl, rfl⟩
  | tighter _ ih => exact ih hnumbered
  | noActuals =>
      cases hnumbered
      exact ⟨.noExprs, rfl, rfl⟩
  | firstActual _ ih =>
      obtain ⟨t, rfl, rfl⟩ := ih hnumbered
      exact ⟨.nextExpr .noExprs t, rfl, rfl⟩
  | nextActual _ _ _ before next =>
      obtain ⟨earlier, last, rfl, hearlier, hlast⟩ := hnumbered.of_append
      obtain ⟨ts, rfl, rfl⟩ := before hearlier
      obtain ⟨t, rfl, rfl⟩ := next (hlast.of_cons rfl)
      exact ⟨.nextExpr ts t, rfl, rfl⟩
  | assign target _ value =>
      obtain ⟨t, rfl, rfl⟩ := value ((hnumbered.of_cons rfl).of_cons rfl)
      exact ⟨.assign target t, rfl, rfl⟩
  | print _ value =>
      obtain ⟨t, rfl, rfl⟩ := value (hnumbered.of_cons rfl)
      exact ⟨.print t, rfl, rfl⟩
  | ret _ value =>
      obtain ⟨t, rfl, rfl⟩ := value (hnumbered.of_cons rfl)
      exact ⟨.ret t, rfl, rfl⟩
  | ifThen _ _ test first =>
      obtain ⟨before, behind, rfl, hbefore, hbehind⟩ := (hnumbered.of_cons rfl).of_append
      obtain ⟨cond, rfl, rfl⟩ := test hbefore
      obtain ⟨yes, rfl, rfl⟩ := first hbehind
      exact ⟨.ifThen cond yes, rfl, rfl⟩
  | ifElse _ _ _ _ test first second =>
      have hrest := hnumbered.of_cons rfl
      rw [List.append_assoc] at hrest
      obtain ⟨before, behind, rfl, hbefore, hbehind⟩ := hrest.of_append
      obtain ⟨middle, last, rfl, hmiddle, hlast⟩ := hbehind.of_append
      obtain ⟨cond, rfl, rfl⟩ := test hbefore
      obtain ⟨yes, rfl, rfl⟩ := first hmiddle
      obtain ⟨no, rfl, rfl⟩ := second (hlast.of_cons rfl)
      exact ⟨.ifElse cond yes no, rfl, rfl⟩
  | loop _ _ test inner =>
      obtain ⟨before, behind, rfl, hbefore, hbehind⟩ := (hnumbered.of_cons rfl).of_append
      obtain ⟨cond, rfl, rfl⟩ := test hbefore
      obtain ⟨body, rfl, rfl⟩ := inner hbehind
      exact ⟨.loop cond body, rfl, rfl⟩
  | block _ body =>
      obtain ⟨t, rfl, rfl⟩ := body ((hnumbered.of_cons rfl).of_concat rfl)
      exact ⟨.block t, rfl, rfl⟩
  | noStmts =>
      cases hnumbered
      exact ⟨.noStmts, rfl, rfl⟩
  | nextStmt _ _ before next =>
      obtain ⟨earlier, last, rfl, hearlier, hlast⟩ := hnumbered.of_append
      obtain ⟨ts, rfl, rfl⟩ := before hearlier
      obtain ⟨t, rfl, rfl⟩ := next hlast
      exact ⟨.nextStmt ts t, rfl, rfl⟩
  | noFormals =>
      cases hnumbered
      exact ⟨.formalNames [], rfl, rfl⟩
  | firstFormal name =>
      cases hnumbered.of_cons rfl
      exact ⟨.formalNames [name], rfl, rfl⟩
  | nextFormal name _ _ before =>
      obtain ⟨earlier, last, rfl, hearlier, hlast⟩ := hnumbered.of_append
      cases (hlast.of_cons rfl).of_cons rfl
      obtain ⟨t, rfl, rfl⟩ := before hearlier
      cases t with
      | formalNames names => exact ⟨.formalNames (names ++ [name]), rfl, rfl⟩
  | noFunctions =>
      cases hnumbered
      exact ⟨.noFunctions, rfl, rfl⟩
  | nextFunction name _ _ _ before params inner =>
      obtain ⟨earlier, last, rfl, hearlier, hlast⟩ := hnumbered.of_append
      obtain ⟨middle, behind, rfl, hmiddle, hbehind⟩ :=
        (((hlast.of_cons rfl).of_cons rfl).of_cons rfl).of_append
      obtain ⟨fs, rfl, rfl⟩ := before hearlier
      obtain ⟨names, rfl, rfl⟩ := params hmiddle
      obtain ⟨body, rfl, rfl⟩ := inner (hbehind.of_cons rfl)
      exact ⟨.nextFunction fs name names body, rfl, rfl⟩

/-! ### The first literal at fault -/

theorem Lexeme.fault?_number (digits : String) (position : Position)
    (h : (Token.number digits).IsExcessive) :
    (⟨.number digits, position⟩ : Lexeme).fault? =
      some (if maxLiteralLength < digits.length then .literalTooLong digits.length
        else .literalTooLarge digits position) := by
  simp only [Lexeme.fault?]
  split
  · rfl
  · rename_i hlength
    exact if_pos (h.resolve_left hlength)

/-- Leading zeros make a literal longer, but not larger. -/
theorem Token.isExcessive_zeros (zeros n : Nat) :
    (Token.number (String.ofList (List.replicate zeros '0') ++ toString n)).IsExcessive ↔
      maxLiteralLength < zeros + (toString n).length ∨ wordCount ≤ n := by
  rw [Token.IsExcessive, String.length_append, String.length_ofList, List.length_replicate,
    String.toList_append, String.toList_ofList, Nat.ofDigitChars_append,
    Nat.ofDigitChars_replicate_zero, Nat.mul_zero, ofDigitChars_toString]

theorem findSome?_fault?_numbers (lexemes : List Lexeme) :
    (numbers lexemes).findSome? Lexeme.fault? = lexemes.findSome? Lexeme.fault? := by
  induction lexemes with
  | nil => rfl
  | cons l lexemes ih =>
      obtain ⟨token, position⟩ := l
      cases token with
      | number digits =>
          have hcons : numbers (⟨.number digits, position⟩ :: lexemes) =
              ⟨.number digits, position⟩ :: numbers lexemes := rfl
          rw [hcons, List.findSome?_cons, List.findSome?_cons, ih]
      | _ => exact ih

/-- The first number at fault is the one reported, at its own position. -/
theorem Spread.findSome?_fault?_eq_some (t : Spread) {earlier later : List (List Char × Token)}
    {lay : List Char} {digits : String} (hwords : t.words = earlier ++ (lay, .number digits) :: later)
    (hearlier : ∀ word ∈ earlier, ¬ word.2.IsExcessive) (h : (Token.number digits).IsExcessive) :
    t.lexemes.findSome? Lexeme.fault? =
      some (if maxLiteralLength < digits.length then .literalTooLong digits.length
        else .literalTooLarge digits (.behind (charsOf earlier ++ lay))) := by
  have hnone : (lexemesOf .start earlier).findSome? Lexeme.fault? = none := by
    apply (findSome?_fault?_eq_none_iff ⟨earlier, []⟩).2
    exact List.forall_mem_map.2 hearlier
  rw [lexemes, hwords, lexemesOf_append, List.findSome?_append, hnone, lexemesOf,
    List.findSome?_cons, Lexeme.fault?_number digits _ h, ← Position.advance_append,
    Position.advance_start]
  rfl

/-- A text that is read to its end has a parse tree with its numbers, and building the tree
stops at the first of them that is at fault. -/
theorem Scans.exists_tree {s : String} {r : Reading} {cursor : Cursor} {lexemes : List Lexeme}
    {p : Program} (h : Scans .start ⟨.start, s.toList⟩ lexemes r cursor)
    (hfinishes : Finishes r cursor p) :
    ∃ tree : Tree .functions, tree.result = p.functions ∧ tree.numbers = numbers lexemes ∧
      tree.build = (lexemes.findSome? Lexeme.fault?).elim (.ok p.functions) .error := by
  have hderives : DerivesNearest (lexemes.map Lexeme.token) (.functions p.functions) :=
    (h.consumed .start).finish? hfinishes.finish
  obtain ⟨tree, hresult, hnumbers⟩ := hderives.exists_tree (.numbers lexemes)
  refine ⟨tree, hresult, hnumbers, ?_⟩
  rw [← findSome?_fault?_numbers, ← hnumbers, ← hresult]
  exact tree.judges_build

/-- A text that can be read is rejected exactly if one of its numbers has more than 4300
digits or a value of `2 ^ 64` or more. Its parse tree stands for the program that was read and has
the numbers of the text for literals, and building the program from it finds the same fault as
parsing: that of the first such number in the text. A text that cannot be read is rejected for what
cannot be read, whatever its numbers are. -/
theorem literal_faults_in_source_order (s : String) :
    (∀ lexemes p, readAll .start .start ⟨.start, s.toList⟩ = .ok (lexemes, p) →
      ∃ t : Spread, t.text = s ∧ t.lexemes = lexemes ∧ (∀ lay ∈ t.stretches, Layout lay []) ∧
        (∃ tree : Tree .functions, tree.result = p.functions ∧ tree.numbers = numbers lexemes ∧
          parse s = tree.build.map Program.mk) ∧
        (parse s = .ok p ↔ ∀ token ∈ t.tokens, ¬ token.IsExcessive) ∧
        ((∃ e, parse s = .error e) ↔ ∃ token ∈ t.tokens, token.IsExcessive) ∧
        ∀ earlier lay digits later, t.words = earlier ++ (lay, .number digits) :: later →
          (∀ word ∈ earlier, ¬ word.2.IsExcessive) → (Token.number digits).IsExcessive →
          parse s = .error (if 4300 < digits.length then .literalTooLong digits.length
            else .literalTooLarge digits (.behind (Spread.charsOf earlier ++ lay)))) ∧
    ((∀ lexemes p, readAll .start .start ⟨.start, s.toList⟩ ≠ .ok (lexemes, p)) →
      ∃ what position,
        readAll .start .start ⟨.start, s.toList⟩ = .error (.unexpected what position) ∧
        parse s = .error (.unexpected what position)) ∧
    ∀ zeros n : Nat,
      (Token.number (String.ofList (List.replicate zeros '0') ++ toString n)).IsExcessive ↔
        4300 < zeros + (toString n).length ∨ Nat.pow 2 64 ≤ n := by
  obtain ⟨r, cursor, hscans, ⟨q, hok, hfinishes⟩ | ⟨what, position, herror, -⟩⟩ :=
    scans_readAll .start .start ⟨.start, s.toList⟩
  · refine ⟨fun lexemes p hread => ?_, fun hunread => absurd hok (hunread _ _),
      Token.isExcessive_zeros⟩
    obtain ⟨rfl, rfl⟩ : _ = lexemes ∧ q = p := by simpa using hok.symm.trans hread
    have hparse := parse_of_readAll_ok hread
    obtain ⟨t, htext, hlexemes, hlayout⟩ := hscans.exists_spread hfinishes
    obtain ⟨tree, hresult, hnumbers, hbuild⟩ := hscans.exists_tree hfinishes
    rw [← hlexemes] at hparse hbuild
    refine ⟨t, htext, hlexemes, hlayout, ⟨tree, hresult, hnumbers, ?_⟩, ?_, ?_, ?_⟩
    · rw [hbuild, hparse]
      cases t.lexemes.findSome? Lexeme.fault? <;> rfl
    · rw [← t.findSome?_fault?_eq_none_iff, hparse]
      cases t.lexemes.findSome? Lexeme.fault? <;> simp
    · have hsome : (∃ token ∈ t.tokens, token.IsExcessive) ↔
          ¬ t.lexemes.findSome? Lexeme.fault? = none := by
        simp [t.findSome?_fault?_eq_none_iff]
      rw [hsome, hparse]
      cases t.lexemes.findSome? Lexeme.fault? <;> simp
    · intro earlier lay digits later hwords hearlier hexcessive
      rw [hparse, t.findSome?_fault?_eq_some hwords hearlier hexcessive]
      rfl
  · refine ⟨fun lexemes p hread => ?_, fun _ => ⟨what, position, herror, ?_⟩,
      Token.isExcessive_zeros⟩
    · rw [herror] at hread
      cases hread
    · rw [parse, herror]

/-- Two literals at fault, inside a call on the right of an operator; the first is too large
in spite of its zeros. -/
def largeActuals : String :=
  "fun f(x)\n return 1 + f(0018446744073709551616, 99999999999999999999)"

theorem largeActuals_rejected :
    ∃ lexemes p, ∃ tree : Tree .functions,
      readAll .start .start ⟨.start, largeActuals.toList⟩ = .ok (lexemes, p) ∧
      tree.result = p.functions ∧ tree.numbers = numbers lexemes ∧
      tree.build.map Program.mk =
        .error (.literalTooLarge "0018446744073709551616" ⟨2, 15⟩) ∧
      parse largeActuals = .error (.literalTooLarge "0018446744073709551616" ⟨2, 15⟩) := by
  have herror : parse largeActuals = .error (.literalTooLarge "0018446744073709551616" ⟨2, 15⟩) :=
    parse_of_error? (by decide +kernel)
  have hreads : (readAll .start .start ⟨.start, largeActuals.toList⟩).toOption.isSome = true := by
    decide +kernel
  cases hread : readAll .start .start ⟨.start, largeActuals.toList⟩ with
  | error e =>
      rw [hread] at hreads
      cases hreads
  | ok all =>
      obtain ⟨lexemes, p⟩ := all
      obtain ⟨t, -, -, -, ⟨tree, hresult, hnumbers, hbuild⟩, -⟩ :=
        (literal_faults_in_source_order largeActuals).1 lexemes p hread
      exact ⟨lexemes, p, tree, rfl, hresult, hnumbers, hbuild.symm.trans herror, herror⟩

end Source

end FunCompiler
