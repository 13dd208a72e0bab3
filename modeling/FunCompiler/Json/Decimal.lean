import FunCompiler.Json

/-!
Decimals as integers. A number with a fraction or an exponent stands for the
binary floating-point number of 53 bits nearest to it; it is an integer if that
number has no fraction and fits in 64 bits with a sign.
-/

namespace FunCompiler.Decimal

inductive Fault where
  | notFinite
  | fraction
  | tooLarge
  deriving DecidableEq, Repr

/-- The quotient rounded to the nearest integer, and to the even one of two. -/
def roundDiv (n d : Nat) : Nat :=
  let q := n / d
  if 2 * (n % d) < d then q
  else if d < 2 * (n % d) then q + 1
  else q + q % 2

/-- The exponent `e` with `2 ^ e ≤ n / d < 2 ^ (e + 1)`, for positive `n` and `d`. -/
def binaryExponent (n d : Nat) : Int :=
  let e : Int := n.log2 - d.log2
  if n <<< (-e).toNat < d <<< e.toNat then e - 1 else e

/-- The nearest number `m * 2 ^ e` to `n / d` with `m` of at most 53 bits and `e` at
least -1074. -/
def nearest (n d : Nat) : Nat × Int :=
  if n = 0 then (0, 0)
  else
    let e := max (binaryExponent n d - 52) (-1074)
    (roundDiv (n <<< (-e).toNat) (d <<< e.toNat), e)

/-- The integer that the floating-point number nearest to the decimal is. -/
def toInt (d : Decimal) : Except Fault Int :=
  let (m, e) := nearest (d.mantissa.natAbs * Nat.pow 10 d.exponent.toNat)
    (Nat.pow 10 (-d.exponent).toNat)
  let divisor := 1 <<< (-e).toNat
  let size := (m / divisor) <<< e.toNat
  if 1 <<< 1024 ≤ size then .error .notFinite
  else if m % divisor ≠ 0 then .error .fraction
  else if 1 <<< 63 ≤ size then .error .tooLarge
  else .ok (d.mantissa.sign * size)

end FunCompiler.Decimal
