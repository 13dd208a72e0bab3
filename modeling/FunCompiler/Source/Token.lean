import FunCompiler.Program

/-!
Tokens of source text, and the places between tokens. Which tokens are tried
depends on the place: a word that spells a keyword is that keyword only where
the keyword may stand, and a name elsewhere.
-/

namespace FunCompiler.Source

inductive Keyword where
  | function
  | print
  | branch
  | otherwise
  | loop
  | ret
  deriving DecidableEq, Repr

namespace Keyword

def all : List Keyword := [.function, .print, .branch, .otherwise, .loop, .ret]

def text : Keyword → String
  | .function => "fun"
  | .print => "print"
  | .branch => "if"
  | .otherwise => "else"
  | .loop => "while"
  | .ret => "return"

def ofText? (s : String) : Option Keyword := all.find? (·.text == s)

end Keyword

inductive Mark where
  | openParen
  | closeParen
  | openBrace
  | closeBrace
  | comma
  | becomes
  deriving DecidableEq, Repr

namespace Mark

def all : List Mark := [.openParen, .closeParen, .openBrace, .closeBrace, .comma, .becomes]

def text : Mark → String
  | .openParen => "("
  | .closeParen => ")"
  | .openBrace => "\x7b"
  | .closeBrace => "\x7d"
  | .comma => ","
  | .becomes => "="

end Mark

inductive Token where
  | keyword (k : Keyword)
  | name (text : String)
  | number (digits : String)
  | mark (m : Mark)
  | operator (op : Operator)
  deriving DecidableEq, Repr

namespace Token

def text : Token → String
  | .keyword k => k.text
  | .name s => s
  | .number s => s
  | .mark m => m.text
  | .operator op => op.text

/-- A statement can begin with this token. -/
def startsStatement : Token → Bool
  | .keyword .print => true
  | .keyword .branch => true
  | .keyword .loop => true
  | .keyword .ret => true
  | .mark .openBrace => true
  | .name _ => true
  | _ => false

/-- An operand can begin with this token. -/
def startsOperand : Token → Bool
  | .name _ => true
  | .number _ => true
  | .mark .openParen => true
  | _ => false

/-- This token can follow an operand somewhere. -/
def followsOperand : Token → Bool
  | .number _ => false
  | .mark .openParen => false
  | .mark .becomes => false
  | _ => true

/-- This token can follow the closing brace of a block somewhere. -/
def followsBlock : Token → Bool
  | .keyword _ => true
  | .name _ => true
  | .mark .openBrace => true
  | .mark .closeBrace => true
  | _ => false

/-- The symbols, two characters before one. -/
def symbols : List Token :=
  [.eq, .ne, .lt, .gt, .add, .mul].map .operator ++ Mark.all.map .mark

end Token

/-- What has just been read, as far as it decides which token may come next. -/
inductive Place where
  | start
  | functionName
  | formalsOpen
  | firstFormal
  | nextFormal
  | afterFormal
  | statement
  | blockStart
  | afterTarget
  | operand
  | firstActual
  | afterName
  | afterOperand
  | afterBlock
  /-- Every token is tried, to name the one that stands where none fits. -/
  | anywhere
  deriving DecidableEq, Repr

namespace Place

def admits : Place → Token → Bool
  | .start, t => t == .keyword .function
  | .functionName, .name _ => true
  | .functionName, _ => false
  | .formalsOpen, t => t == .mark .openParen
  | .firstFormal, .name _ => true
  | .firstFormal, t => t == .mark .closeParen
  | .nextFormal, .name _ => true
  | .nextFormal, _ => false
  | .afterFormal, t => t == .mark .comma || t == .mark .closeParen
  | .statement, t => t.startsStatement
  | .blockStart, t => t.startsStatement || t == .mark .closeBrace
  | .afterTarget, t => t == .mark .becomes
  | .operand, t => t.startsOperand
  | .firstActual, t => t.startsOperand || t == .mark .closeParen
  | .afterName, t => t.followsOperand || t == .mark .openParen
  | .afterOperand, t => t.followsOperand
  | .afterBlock, t => t.followsBlock
  | .anywhere, _ => true

def admitsNames (place : Place) : Bool := place.admits (.name "")

/-- The tokens of fixed spelling that are tried, in this order. Where no name
may stand a keyword needs no boundary behind it. -/
def spelled (place : Place) : List Token :=
  ((if place.admitsNames then [] else Keyword.all.map Token.keyword) ++ Token.symbols).filter place.admits

end Place

end FunCompiler.Source
