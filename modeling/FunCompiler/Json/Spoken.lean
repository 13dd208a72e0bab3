import FunCompiler.Json
import FunCompiler.Text.Quoted

/-!
JSON values in messages. A string stands as it is; inside arrays and objects
strings are quoted. Null and the truth values are spelled `None`, `True` and
`False`.
-/

namespace FunCompiler.Json

/-- The decimal with its point where it belongs. -/
def decimalText (d : Decimal) : String :=
  if 0 ≤ d.exponent then s!"{d.mantissa * Nat.pow 10 d.exponent.toNat}.0"
  else
    let digits := Nat.toDigits 10 d.mantissa.natAbs
    let places := (-d.exponent).toNat
    let padded := List.replicate (places + 1 - digits.length) '0' ++ digits
    let sign := if d.mantissa < 0 then "-" else ""
    let (whole, fraction) := padded.splitAt (padded.length - places)
    s!"{sign}{String.ofList whole}.{String.ofList fraction}"

def nonFiniteText : NonFinite → String
  | .nan => "nan"
  | .infinity => "inf"
  | .negativeInfinity => "-inf"

mutual

def inner : Json → String
  | .null => "None"
  | .bool true => "True"
  | .bool false => "False"
  | .integer n => toString n
  | .decimal d => decimalText d
  | .nonFinite n => nonFiniteText n
  | .string s => Text.quoted s
  | .array items => "[" ++ ", ".intercalate (innerItems items) ++ "]"
  | .object members => "\x7b" ++ ", ".intercalate (innerMembers members) ++ "\x7d"

def innerItems : List Json → List String
  | [] => []
  | item :: items => inner item :: innerItems items

def innerMembers : List (String × Json) → List String
  | [] => []
  | (key, value) :: members => (Text.quoted key ++ ": " ++ inner value) :: innerMembers members

end

def spoken : Json → String
  | .string s => s
  | j => inner j

end FunCompiler.Json
