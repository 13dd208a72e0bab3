import FunCompiler.Source.Lexer
import FunCompiler.Source.Reading
import FunCompiler.Text.Quoted

/-!
Parsing source text into a program. Tokens are read one at a time, each at the
place the tokens before it lead to, so the first fault in the text is the one
reported. Literals are only judged once the whole text has been read.
-/

namespace FunCompiler.Source

/-- A token and the position of its first character. -/
structure Lexeme where
  token : Token
  position : Position
  deriving DecidableEq, Repr

inductive Unexpected where
  | token (text : String)
  | character (c : Char)
  | endOfInput
  deriving DecidableEq, Repr

inductive ParseError where
  | unexpected (what : Unexpected) (position : Position)
  | literalTooLarge (digits : String) (position : Position)
  | literalTooLong (length : Nat)
  deriving DecidableEq, Repr

/-- The most digits a literal may be written with, leading zeros included. -/
def maxLiteralLength : Nat := 4300

def Unexpected.text : Unexpected → String
  | .token text => s!"unexpected {Text.quoted text}"
  | .character c => s!"unexpected character {Text.quoted c.toString}"
  | .endOfInput => "unexpected end of input"

def ParseError.message : ParseError → String
  | .unexpected what position =>
    s!"Syntax error at line {position.line}, column {position.column}: {what.text}"
  | .literalTooLarge digits _ => s!"Integer literal {digits} does not fit in 64 bits"
  | .literalTooLong length =>
    s!"Error trying to process rule \"literal\":\n\nExceeds the limit ({maxLiteralLength} digits) " ++
    s!"for integer string conversion: value has {length} digits; " ++
    "use sys.set_int_max_str_digits() to increase the limit"

/-- Names what stands at the beginning of a text where no token fits. -/
def blame (c : Char) (cs : List Char) : Unexpected :=
  match read? .anywhere (c :: cs) with
  | some (token, _) => .token token.text
  | none => .character c

/-- Reads the rest of a text. `last` is where the token before it starts, which is
the position of a text that ends too soon. -/
def readAll (reading : Reading) (last : Position) (cursor : Cursor) :
    Except ParseError (List Lexeme × Program) :=
  match _skipped : skipLayout cursor.position cursor.rest with
  | ⟨_, []⟩ =>
    match reading.finish? with
    | some program => .ok ([], program)
    | none => .error (.unexpected .endOfInput last)
  | ⟨position, c :: cs⟩ =>
    match _token : read? reading.place (c :: cs) with
    | none => .error (.unexpected (blame c cs) position)
    | some (token, rest) =>
      match reading.step token with
      | none => .error (.unexpected (.token token.text) position)
      | some next =>
        match readAll next position ⟨position.advance token.text.toList, rest⟩ with
        | .ok (lexemes, program) => .ok (⟨token, position⟩ :: lexemes, program)
        | .error e => .error e
termination_by cursor.rest.length
decreasing_by
  have shorter := length_lt_of_read? _token
  have skipped := length_skipLayout_le cursor.position cursor.rest
  rw [_skipped] at skipped
  exact Nat.lt_of_lt_of_le shorter skipped

/-- The fault of a lexeme that is a literal too long or too large. -/
def Lexeme.fault? (l : Lexeme) : Option ParseError :=
  match l.token with
  | .number digits =>
    if maxLiteralLength < digits.length then some (.literalTooLong digits.length)
    else if wordCount ≤ Nat.ofDigitChars 10 digits.toList 0 then
      some (.literalTooLarge digits l.position)
    else none
  | _ => none

def parse (source : String) : Except ParseError Program :=
  match readAll .start .start ⟨.start, source.toList⟩ with
  | .error e => .error e
  | .ok (lexemes, program) =>
    match lexemes.findSome? Lexeme.fault? with
    | some fault => .error fault
    | none => .ok program

end FunCompiler.Source
