import FunCompiler.Json
import FunCompiler.Program

/-!
Checking JSON values against what is asked of them. Every part that does not
fit is reported, with the way that leads to it, in the order of the parts; an
issue in one part hides none in another. Members that no part asks for are
ignored.
-/

namespace FunCompiler

inductive Step where
  | member (name : String)
  | index (i : Nat)
  deriving DecidableEq, Repr

inductive Violation where
  | missing
  | notString
  | notList
  | notInteger
  | notNumeral
  | oversized
  | notFinite
  | fraction
  | negative
  | tooLarge
  | notOneOf (choices : List String)
  | notRecord (name : String)
  | notObject
  | noKind
  | unknownKind (kind : String) (choices : List String)
  deriving DecidableEq, Repr

structure Issue where
  location : List Step
  violation : Violation
  deriving DecidableEq, Repr

namespace Violation

/-- The short name of a kind of violation. -/
def name : Violation → String
  | .missing => "missing"
  | .notString => "string_type"
  | .notList => "list_type"
  | .notInteger => "int_type"
  | .notNumeral => "int_parsing"
  | .oversized => "int_parsing_size"
  | .notFinite => "finite_number"
  | .fraction => "int_from_float"
  | .negative => "greater_than_equal"
  | .tooLarge => "less_than_equal"
  | .notOneOf _ => "enum"
  | .notRecord _ => "model_type"
  | .notObject => "model_attributes_type"
  | .noKind => "union_tag_not_found"
  | .unknownKind .. => "union_tag_invalid"

def single (s : String) : String := s!"'{s}'"

/-- A list in words, `or` before its last item. -/
def alternatives : List String → String
  | [] => ""
  | [s] => s
  | [s, t] => s!"{s} or {t}"
  | s :: rest => s!"{s}, {alternatives rest}"

def message : Violation → String
  | .missing => "Field required"
  | .notString => "Input should be a valid string"
  | .notList => "Input should be a valid list"
  | .notInteger => "Input should be a valid integer"
  | .notNumeral => "Input should be a valid integer, unable to parse string as an integer"
  | .oversized => "Unable to parse input string as an integer, exceeded maximum size"
  | .notFinite => "Input should be a finite number"
  | .fraction => "Input should be a valid integer, got a number with a fractional part"
  | .negative => "Input should be greater than or equal to 0"
  | .tooLarge => s!"Input should be less than or equal to {wordCount - 1}"
  | .notOneOf choices => s!"Input should be {alternatives (choices.map single)}"
  | .notRecord name => s!"Input should be a valid dictionary or instance of {name}"
  | .notObject => "Input should be a valid dictionary or object to extract fields from"
  | .noKind => "Unable to extract tag using discriminator 'kind'"
  | .unknownKind kind choices =>
    s!"Input tag '{kind}' found using 'kind' does not match any of the expected tags: " ++
    ", ".intercalate (choices.map single)

end Violation

/-- A value, or the issues that stand against it. -/
abbrev Checked (α : Type) := Except (List Issue) α

namespace Checked

def refuse {α : Type} (v : Violation) : Checked α := .error [⟨[], v⟩]

/-- Joins two parts and keeps the issues of both. -/
def both {α β γ : Type} (f : α → β → γ) : Checked α → Checked β → Checked γ
  | .ok a, .ok b => .ok (f a b)
  | .ok _, .error issues => .error issues
  | .error issues, .ok _ => .error issues
  | .error issues, .error more => .error (issues ++ more)

/-- Issues of a part, seen from the whole. -/
def within {α : Type} (step : Step) (c : Checked α) : Checked α :=
  c.mapError (·.map fun issue => { issue with location := step :: issue.location })

/-- A member that has to be there. -/
def required {α : Type} (members : List (String × Json)) (name : String)
    (check : (v : Json) → sizeOf v < sizeOf members → Checked α) : Checked α :=
  match h : Json.member? name members with
  | some v => within (.member name) (check v (Json.sizeOf_lt_of_member? h))
  | none => within (.member name) (refuse .missing)

/-- A member that may be left out. -/
def optional {α : Type} (members : List (String × Json)) (name : String) (absent : α)
    (check : (v : Json) → sizeOf v < sizeOf members → Checked α) : Checked α :=
  match h : Json.member? name members with
  | some v => within (.member name) (check v (Json.sizeOf_lt_of_member? h))
  | none => .ok absent

/-- The items of an array, from the given index on. -/
def items {α : Type} (index : Nat) :
    (js : List Json) → (check : (v : Json) → v ∈ js → Checked α) → Checked (List α)
  | [], _ => .ok []
  | j :: js, check =>
    both List.cons (within (.index index) (check j (by simp)))
      (items (index + 1) js fun v h => check v (by simp [h]))

def listOf {α : Type} (j : Json)
    (check : (v : Json) → sizeOf v < sizeOf j → Checked α) : Checked (List α) :=
  match j with
  | .array js => items 0 js fun v h => check v (by
      have := List.sizeOf_lt_of_mem h
      simp only [Json.array.sizeOf_spec]
      omega)
  | _ => refuse .notList

def string : Json → Checked String
  | .string s => .ok s
  | _ => refuse .notString

/-- A name out of a list of choices. -/
def oneOf {α : Type} (choices : List (String × α)) (j : Json) : Checked α :=
  match j with
  | .string s =>
    match choices.lookup s with
    | some a => .ok a
    | none => refuse (.notOneOf (choices.map (·.1)))
  | _ => refuse (.notOneOf (choices.map (·.1)))

def stringMember (members : List (String × Json)) (name : String) : Checked String :=
  required members name fun v _ => string v

end Checked

end FunCompiler
