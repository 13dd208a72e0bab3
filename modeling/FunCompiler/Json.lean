/-!
JSON values. Numbers without fraction and exponent are integers of any size;
all other finite numbers are kept as the decimal they are written as. An object
keeps its members in order, and of several members with one key the last counts.
-/

namespace FunCompiler

/-- The number `mantissa * 10 ^ exponent`. -/
structure Decimal where
  mantissa : Int
  exponent : Int
  deriving DecidableEq, Repr, Inhabited

/-- A number that is not finite. -/
inductive NonFinite where
  | nan
  | infinity
  | negativeInfinity
  deriving DecidableEq, Repr, Inhabited

def NonFinite.text : NonFinite → String
  | .nan => "NaN"
  | .infinity => "Infinity"
  | .negativeInfinity => "-Infinity"

inductive Json where
  | null
  | bool (b : Bool)
  | integer (n : Int)
  | decimal (d : Decimal)
  | nonFinite (n : NonFinite)
  | string (s : String)
  | array (items : List Json)
  | object (members : List (String × Json))
  deriving Repr, BEq, Inhabited

namespace Json

/-- The member of that key. -/
def member? (key : String) : List (String × Json) → Option Json
  | [] => none
  | (k, v) :: rest =>
    match member? key rest with
    | some w => some w
    | none => if k = key then some v else none

/-- The member of that key, if the value is an object that has one. -/
def get? (key : String) : Json → Option Json
  | .object members => member? key members
  | _ => none

theorem sizeOf_lt_of_member? {key : String} {members : List (String × Json)} {v : Json}
    (h : member? key members = some v) : sizeOf v < sizeOf members := by
  induction members with
  | nil => simp [member?] at h
  | cons m rest ih =>
    obtain ⟨k, w⟩ := m
    simp only [member?] at h
    split at h
    · rename_i u hu
      have := ih (hu.trans h)
      simp only [List.cons.sizeOf_spec]
      omega
    · split at h
      · simp only [Option.some.injEq] at h
        subst h
        simp only [List.cons.sizeOf_spec, Prod.mk.sizeOf_spec]
        omega
      · simp at h

end Json

end FunCompiler
