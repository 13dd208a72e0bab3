import FunCompiler.Json
import FunCompiler.Text.Quoted

/-!
Writing JSON over several lines: every item of an array and every member of an
object has a line of its own, indented by two blanks for each level. Empty
arrays and objects are written without a break. In strings only quotes,
backslashes and control characters are escaped.
-/

namespace FunCompiler.Json

def escapeChar (c : Char) : List Char :=
  if c = '"' then ['\\', '"']
  else if c = '\\' then ['\\', '\\']
  else if c = '\x08' then ['\\', 'b']
  else if c = '\t' then ['\\', 't']
  else if c = '\n' then ['\\', 'n']
  else if c = '\x0c' then ['\\', 'f']
  else if c = '\r' then ['\\', 'r']
  else if c.toNat < 0x20 then '\\' :: 'u' :: Text.hexDigits 4 c.toNat
  else [c]

def writeString (s : String) : List Char :=
  '"' :: s.toList.flatMap escapeChar ++ ['"']

def writeInt (n : Int) : List Char := (toString n).toList

/-- A line break, and the blanks of the next line. -/
def newline (level : Nat) : List Char := '\n' :: List.replicate (2 * level) ' '

mutual

def write (level : Nat) : Json → List Char
  | .null => "null".toList
  | .bool true => "true".toList
  | .bool false => "false".toList
  | .integer n => writeInt n
  | .decimal d => writeInt d.mantissa ++ 'e' :: writeInt d.exponent
  | .nonFinite n => n.text.toList
  | .string s => writeString s
  | .array [] => ['[', ']']
  | .array (item :: items) =>
    '[' :: newline (level + 1) ++ write (level + 1) item ++ writeItems (level + 1) items ++
      newline level ++ [']']
  | .object [] => ['\x7b', '\x7d']
  | .object ((key, value) :: members) =>
    '\x7b' :: newline (level + 1) ++ writeString key ++ ':' :: ' ' :: write (level + 1) value ++
      writeMembers (level + 1) members ++ newline level ++ ['\x7d']

/-- Items behind the first. -/
def writeItems (level : Nat) : List Json → List Char
  | [] => []
  | item :: items => ',' :: newline level ++ write level item ++ writeItems level items

/-- Members behind the first. -/
def writeMembers (level : Nat) : List (String × Json) → List Char
  | [] => []
  | (key, value) :: members =>
    ',' :: newline level ++ writeString key ++ ':' :: ' ' :: write level value ++
      writeMembers level members

end

def text (j : Json) : String := String.ofList (j.write 0)

end FunCompiler.Json
