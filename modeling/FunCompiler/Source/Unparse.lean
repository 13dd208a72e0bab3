import FunCompiler.Source.Token

/-!
Writing a program as source text, its tokens divided by single spaces. An
operand is put in parentheses only where its own operator binds looser than the
place requires; the right operand of an operator must bind tighter than it,
because operators of one precedence associate to the left.
-/

namespace FunCompiler

open Source

mutual

/-- The tokens of an expression where operators below `limit` need parentheses. -/
def Expr.tokens (limit : Nat) : Expr → List Token
  | .var name => [.name name]
  | .lit value => [.number (toString value.toNat)]
  | .call callee actuals =>
    .name callee :: .mark .openParen :: Expr.actualTokens actuals ++ [.mark .closeParen]
  | .binary op left right =>
    let inner := left.tokens op.precedence ++ .operator op :: right.tokens (op.precedence + 1)
    if op.precedence < limit then .mark .openParen :: inner ++ [.mark .closeParen] else inner

def Expr.actualTokens : List Expr → List Token
  | [] => []
  | [e] => e.tokens 0
  | e :: es => e.tokens 0 ++ .mark .comma :: Expr.actualTokens es

end

mutual

def Stmt.tokens : Stmt → List Token
  | .assign target value => .name target :: .mark .becomes :: value.tokens 0
  | .print value => .keyword .print :: value.tokens 0
  | .ifThen cond yes => .keyword .branch :: cond.tokens 0 ++ yes.tokens
  | .ifElse cond yes no =>
    .keyword .branch :: cond.tokens 0 ++ yes.tokens ++ .keyword .otherwise :: no.tokens
  | .loop cond body => .keyword .loop :: cond.tokens 0 ++ body.tokens
  | .block body => .mark .openBrace :: Stmt.allTokens body ++ [.mark .closeBrace]
  | .ret value => .keyword .ret :: value.tokens 0

def Stmt.allTokens : List Stmt → List Token
  | [] => []
  | s :: ss => s.tokens ++ Stmt.allTokens ss

end

def Function.formalTokens : List String → List Token
  | [] => []
  | [formal] => [.name formal]
  | formal :: more => .name formal :: .mark .comma :: formalTokens more

def Function.tokens (f : Function) : List Token :=
  .keyword .function :: .name f.name :: .mark .openParen ::
    Function.formalTokens f.formals ++ .mark .closeParen :: f.body.tokens

def Program.tokens (p : Program) : List Token := p.functions.flatMap Function.tokens

def Program.unparse (p : Program) : String := " ".intercalate (p.tokens.map Token.text)

end FunCompiler
