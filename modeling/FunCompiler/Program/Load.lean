import FunCompiler.Json.Checked
import FunCompiler.Json.Decimal
import FunCompiler.Json.Spoken
import FunCompiler.Text.Numeral

/-!
Loading programs from JSON. Lists of functions, formals, actuals and statements
may be left out when they are empty, and so may an absent `else`.

Behind an object that is a statement or expression the way to its parts also
names its kind.
-/

namespace FunCompiler

open Checked

/-- A literal has to fit in a word. -/
def word (n : Int) : Checked Int :=
  if n < 0 then refuse .negative
  else if (wordCount : Int) ≤ n then refuse .tooLarge
  else .ok n

def literalOfJson : Json → Checked Int
  | .integer n => word n
  | .bool b => word (if b then 1 else 0)
  | .decimal d =>
    match d.toInt with
    | .ok n => word n
    | .error .notFinite => refuse .notFinite
    | .error .fraction => refuse .fraction
    | .error .tooLarge => refuse .oversized
  | .nonFinite _ => refuse .notFinite
  | .string s =>
    match Text.readInteger s with
    | .ok n => word n
    | .error .malformed => refuse .notNumeral
    | .error .tooLong => refuse .oversized
  | _ => refuse .notInteger

def Operator.ofJson : Json → Checked Operator := oneOf (Operator.all.map fun op => (op.text, op))

def exprKinds : List String := ["variable", "literal", "call", "binary"]

def stmtKinds : List String := ["assign", "print", "if", "while", "block", "return"]

def Expr.ofJson (j : Json) : Checked Expr :=
  match j with
  | .object members =>
    match Json.member? "kind" members with
    | none => refuse .noKind
    | some (.string "variable") =>
      within (.member "variable") (.var <$> stringMember members "name")
    | some (.string "literal") =>
      within (.member "literal") (.lit <$> required members "value" fun v _ => literalOfJson v)
    | some (.string "call") =>
      within (.member "call") (both .call (stringMember members "name")
        (optional members "actuals" [] fun v _ => listOf v fun item _ => Expr.ofJson item))
    | some (.string "binary") =>
      within (.member "binary") (both (fun op (left, right) => .binary op left right)
        (required members "op" fun v _ => Operator.ofJson v)
        (both Prod.mk (required members "left" fun v _ => Expr.ofJson v)
          (required members "right" fun v _ => Expr.ofJson v)))
    | some kind => refuse (.unknownKind kind.spoken exprKinds)
  | _ => refuse .notObject
termination_by sizeOf j
decreasing_by all_goals simp_all; omega

/-- An expression that has to be there. -/
def exprMember (members : List (String × Json)) (name : String) : Checked Expr :=
  required members name fun v _ => Expr.ofJson v

/-- A conditional with or without its `else`. -/
def Stmt.conditional (cond : Expr) (yes : Stmt) : Option Stmt → Stmt
  | none => .ifThen cond yes
  | some no => .ifElse cond yes no

def Stmt.ofJson (j : Json) : Checked Stmt :=
  match j with
  | .object members =>
    match Json.member? "kind" members with
    | none => refuse .noKind
    | some (.string "assign") =>
      within (.member "assign")
        (both .assign (stringMember members "name") (exprMember members "value"))
    | some (.string "print") =>
      within (.member "print") (.print <$> exprMember members "value")
    | some (.string "if") =>
      within (.member "if") (both (fun cond (yes, no) => Stmt.conditional cond yes no)
        (exprMember members "condition")
        (both Prod.mk (required members "then_branch" fun v _ => Stmt.ofJson v)
          (optional members "else_branch" none fun v _ =>
            match v with
            | .null => .ok none
            | v => some <$> Stmt.ofJson v)))
    | some (.string "while") =>
      within (.member "while") (both .loop (exprMember members "condition")
        (required members "body" fun v _ => Stmt.ofJson v))
    | some (.string "block") =>
      within (.member "block") (.block <$>
        optional members "statements" [] fun v _ => listOf v fun item _ => Stmt.ofJson item)
    | some (.string "return") =>
      within (.member "return") (.ret <$> exprMember members "value")
    | some kind => refuse (.unknownKind kind.spoken stmtKinds)
  | _ => refuse .notObject
termination_by sizeOf j
decreasing_by all_goals simp_all; omega

def Function.ofJson : Json → Checked Function
  | .object members =>
    both (fun name (formals, body) => ⟨name, formals, body⟩)
      (stringMember members "name")
      (both Prod.mk
        (optional members "formals" [] fun v _ => listOf v fun item _ => string item)
        (required members "body" fun v _ => Stmt.ofJson v))
  | _ => refuse (.notRecord "Function")

def Program.ofJson : Json → Checked Program
  | .object members =>
    Program.mk <$>
      optional members "functions" [] fun v _ => listOf v fun item _ => Function.ofJson item
  | _ => refuse (.notRecord "Program")

end FunCompiler
