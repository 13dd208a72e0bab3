/-!
Digits and blanks of all scripts, and integers written as numerals.

A plain numeral is a zero alone, or digits that begin with another one, behind a
minus sign if it is negative. Around a plain numeral there may be more that does
not count: blanks at both ends, a plus sign, zeros in front of the digits, a
point with zeros behind it, and single underscores between characters. Among the
zeros in front underscores may stand in any number, and a minus sign may follow
them.
-/

namespace FunCompiler.Text

/-! ### Characters -/

/-- The code points of the zero digits, in ascending order. Each script has its ten digits in a
row, from zero to nine. -/
def zeroDigits : List Nat := [
  0x30, 0x660, 0x6f0, 0x7c0, 0x966, 0x9e6, 0xa66, 0xae6, 0xb66, 0xbe6, 0xc66, 0xce6, 0xd66, 0xde6,
  0xe50, 0xed0, 0xf20, 0x1040, 0x1090, 0x17e0, 0x1810, 0x1946, 0x19d0, 0x1a80, 0x1a90, 0x1b50,
  0x1bb0, 0x1c40, 0x1c50, 0xa620, 0xa8d0, 0xa900, 0xa9d0, 0xa9f0, 0xaa50, 0xabf0, 0xff10, 0x104a0,
  0x10d30, 0x11066, 0x110f0, 0x11136, 0x111d0, 0x112f0, 0x11450, 0x114d0, 0x11650, 0x116c0,
  0x11730, 0x118e0, 0x11950, 0x11c50, 0x11d50, 0x11da0, 0x16a60, 0x16ac0, 0x16b50, 0x1d7ce,
  0x1d7d8, 0x1d7e2, 0x1d7ec, 0x1d7f6, 0x1e140, 0x1e2f0, 0x1e950, 0x1fbf0]

def isDecimalDigit (c : Char) : Bool :=
  zeroDigits.any fun z => z ≤ c.toNat && c.toNat < z + 10

/-- White space of all scripts: the characters that divide words or lines. -/
def isBlank (c : Char) : Bool :=
  (0x9 ≤ c.toNat && c.toNat ≤ 0xd) || c.toNat == 0x20 || c.toNat == 0x85 || c.toNat == 0xa0 ||
  c.toNat == 0x1680 || (0x2000 ≤ c.toNat && c.toNat ≤ 0x200a) || c.toNat == 0x2028 ||
  c.toNat == 0x2029 || c.toNat == 0x202f || c.toNat == 0x205f || c.toNat == 0x3000

/-- The text without the blanks at both its ends. -/
def trim (cs : List Char) : List Char :=
  ((cs.dropWhile isBlank).reverse.dropWhile isBlank).reverse

/-! ### Numerals -/

inductive NumeralFault where
  | malformed
  | tooLong
  deriving DecidableEq, Repr

/-- The most digits a plain numeral may have. -/
def maxNumeralLength : Nat := 4300

/-- The text begins as a plain numeral with too many digits. This is judged before
anything is taken away, and whatever stands behind the digits. -/
def isTooLong (cs : List Char) : Bool :=
  let digits := (if cs.head? = some '-' then cs.tail else cs).takeWhile Char.isDigit
  digits.head? != some '0' && maxNumeralLength < digits.length

def plainNatural? : List Char → Option Nat
  | [] => none
  | ['0'] => some 0
  | '0' :: _ => none
  | cs =>
    if cs.all Char.isDigit && cs.length ≤ maxNumeralLength then some (Nat.ofDigitChars 10 cs 0)
    else none

def plainInteger? : List Char → Option Int
  | '-' :: cs => (plainNatural? cs).map fun n : Nat => -(n : Int)
  | cs => (plainNatural? cs).map Int.ofNat

/-- What is left of a text behind a zero. The last character that was dropped stands
for the digits if none are left. -/
def dropZeros? (last : Char) : List Char → Option (List Char)
  | [] => some [last]
  | c :: cs =>
    if c = '0' ∨ c = '_' then dropZeros? c cs
    else if c = '.' then some (last :: c :: cs)
    else if c.isDigit ∨ c = '-' then some (c :: cs)
    else none

/-- Takes the zeros in front of a text that begins with a digit. -/
def dropLeadingZeros? : List Char → Option (List Char)
  | [] => none
  | c :: cs =>
    if c = '0' then dropZeros? c cs
    else if c.isDigit then some (c :: cs)
    else none

/-- Takes a point and the zeros behind it from the end of a text. -/
def dropZeroFraction (cs : List Char) : List Char :=
  match cs.dropWhile (· ≠ '.') with
  | _ :: zero :: zeros => if (zero :: zeros).all (· = '0') then cs.takeWhile (· ≠ '.') else cs
  | _ => cs

/-- Takes the underscores out of a text where each stands alone between two
characters. -/
def joinGroups? : List Char → Option (List Char)
  | [] => none
  | [c] => if c = '_' then none else some [c]
  | c :: '_' :: cs => if c = '_' then none else (joinGroups? cs).map (c :: ·)
  | c :: cs => if c = '_' then none else (joinGroups? cs).map (c :: ·)

/-- What counts of a numeral behind its sign. -/
def significant? (cs : List Char) : Option (List Char) :=
  (dropLeadingZeros? cs).bind fun cs => joinGroups? (dropZeroFraction cs)

def integer? (cs : List Char) : Option Int :=
  match trim cs with
  | '+' :: cs => (significant? cs).bind plainInteger?
  | '-' :: cs => (significant? cs).bind fun cs => plainInteger? ('-' :: cs)
  | cs => (significant? cs).bind plainInteger?

/-- The integer a text stands for. -/
def readInteger (s : String) : Except NumeralFault Int :=
  if isTooLong s.toList then .error .tooLong
  else
    match integer? s.toList with
    | some n => .ok n
    | none => .error .malformed

end FunCompiler.Text
