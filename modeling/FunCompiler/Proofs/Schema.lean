import FunCompiler.Proofs.Loading
import FunCompiler.Proofs.Numerals
import FunCompiler.Proofs.Rounding

/-!
The issues of loading a program. The schema says what is asked of the parts of a
JSON value, and a location leads through the schema and the value at once. The
issues that loading reports are the violations of the schema that locations lead
to, each of them once.

A literal may be written as a string or with a fraction. Which strings are numerals
and which binary number is nearest to a decimal is said without the loader.
-/

namespace FunCompiler

/-! ### The schema -/

/-- Objects that all have the same fields. -/
inductive Record where
  | program
  | function
  deriving DecidableEq, Repr

/-- Objects that tell their kind, on which their fields depend. -/
inductive Family where
  | expr
  | stmt
  deriving DecidableEq, Repr

/-- What a value is asked to be. -/
inductive Shape where
  | text
  | literal
  | operator
  | list (item : Shape)
  | nullable (inner : Shape)
  | record (r : Record)
  | tagged (family : Family)
  deriving DecidableEq, Repr

/-- A member that is asked of an object. -/
structure Field where
  name : String
  shape : Shape
  isRequired : Bool
  deriving DecidableEq, Repr

namespace Field

def required (name : String) (shape : Shape) : Field := ⟨name, shape, true⟩

def optional (name : String) (shape : Shape) : Field := ⟨name, shape, false⟩

end Field

namespace Record

def name : Record → String
  | .program => "Program"
  | .function => "Function"

def fields : Record → List Field
  | .program => [.optional "functions" (.list (.record .function))]
  | .function =>
    [.required "name" .text, .optional "formals" (.list .text), .required "body" (.tagged .stmt)]

end Record

/-- The kinds of a family, each with its fields. -/
def Family.kinds : Family → List (String × List Field)
  | .expr =>
    [("variable", [.required "name" .text]),
     ("literal", [.required "value" .literal]),
     ("call", [.required "name" .text, .optional "actuals" (.list (.tagged .expr))]),
     ("binary", [.required "op" .operator, .required "left" (.tagged .expr),
       .required "right" (.tagged .expr)])]
  | .stmt =>
    [("assign", [.required "name" .text, .required "value" (.tagged .expr)]),
     ("print", [.required "value" (.tagged .expr)]),
     ("if", [.required "condition" (.tagged .expr), .required "then_branch" (.tagged .stmt),
       .optional "else_branch" (.nullable (.tagged .stmt))]),
     ("while", [.required "condition" (.tagged .expr), .required "body" (.tagged .stmt)]),
     ("block", [.optional "statements" (.list (.tagged .stmt))]),
     ("return", [.required "value" (.tagged .expr)])]

def Family.fields? (family : Family) (kind : String) : Option (List Field) :=
  family.kinds.lookup kind

theorem Family.mem_of_fields? {family : Family} {kind : String} {fields : List Field}
    (h : family.fields? kind = some fields) : kind ∈ family.kinds.map (·.1) := by
  obtain ⟨before, after, hkinds, -⟩ := List.lookup_eq_some_iff.1 h
  simp [hkinds]

/-- The fields that are asked of the members of an object. Before the fields of an
object that tells its kind, a location names the kind. -/
inductive Asks : Shape → List (String × Json) → List Step → List Field → Prop where
  | record {r : Record} {members : List (String × Json)} : Asks (.record r) members [] r.fields
  | tagged {family : Family} {members : List (String × Json)} {kind : String}
      {fields : List Field} :
      family.fields? kind = some fields → Json.member? "kind" members = some (.string kind) →
      Asks (.tagged family) members [.member kind] fields

/-- From a value of some shape the location leads to a part of it, of which another
shape is asked. -/
inductive Leads : Shape → Json → List Step → Shape → Json → Prop where
  | here {shape : Shape} {j : Json} : Leads shape j [] shape j
  | field {shape shape' : Shape} {members : List (String × Json)} {tag rest : List Step}
      {fields : List Field} {field : Field} {v part : Json} :
      Asks shape members tag fields → field ∈ fields →
      Json.member? field.name members = some v → Leads field.shape v rest shape' part →
      Leads shape (.object members) (tag ++ .member field.name :: rest) shape' part
  | item {item shape' : Shape} {js : List Json} {i : Nat} {rest : List Step} {v part : Json} :
      js[i]? = some v → Leads item v rest shape' part →
      Leads (.list item) (.array js) (.index i :: rest) shape' part
  | present {inner shape' : Shape} {j part : Json} {way : List Step} :
      j ≠ .null → Leads inner j way shape' part → Leads (.nullable inner) j way shape' part

/-- The integer that a value is taken for. -/
inductive Json.StandsFor : Json → Int → Prop where
  | integer (n : Int) : StandsFor (.integer n) n
  | bool (b : Bool) : StandsFor (.bool b) (if b then 1 else 0)
  | decimal {d : Decimal} {n : ℕ} :
      d.Rounds n → n < 2 ^ 63 → StandsFor (.decimal d) (d.mantissa.sign * n)
  | string {s : String} {n : Int} :
      ¬ Text.TooLong s.toList → Text.Numeral s.toList n → StandsFor (.string s) n

/-- What stands against a value whatever its parts are. -/
inductive Violates : Shape → Json → Violation → Prop where
  | notString {j : Json} : (∀ s, j ≠ .string s) → Violates .text j .notString
  | notList {item : Shape} {j : Json} : (∀ js, j ≠ .array js) → Violates (.list item) j .notList
  | notOneOf {j : Json} : (∀ op : Operator, j ≠ .string op.text) →
      Violates .operator j (.notOneOf (Operator.all.map (·.text)))
  | notRecord {r : Record} {j : Json} :
      (∀ members, j ≠ .object members) → Violates (.record r) j (.notRecord r.name)
  | notObject {family : Family} {j : Json} :
      (∀ members, j ≠ .object members) → Violates (.tagged family) j .notObject
  | noKind {family : Family} {members : List (String × Json)} :
      Json.member? "kind" members = none → Violates (.tagged family) (.object members) .noKind
  | unknownKind {family : Family} {members : List (String × Json)} {kind : Json} :
      Json.member? "kind" members = some kind →
      (∀ name fields, family.fields? name = some fields → kind ≠ .string name) →
      Violates (.tagged family) (.object members)
        (.unknownKind kind.spoken (family.kinds.map (·.1)))
  | negative {j : Json} {n : Int} : j.StandsFor n → n < 0 → Violates .literal j .negative
  | tooLarge {j : Json} {n : Int} :
      j.StandsFor n → 18446744073709551615 < n → Violates .literal j .tooLarge
  | nonFinite (n : NonFinite) : Violates .literal (.nonFinite n) .notFinite
  | notFinite {d : Decimal} {q : ℚ} :
      d.Rounds q → 2 ^ 1024 ≤ q → Violates .literal (.decimal d) .notFinite
  | fraction {d : Decimal} {q : ℚ} :
      d.Rounds q → q < 2 ^ 1024 → (∀ n : ℕ, q ≠ n) → Violates .literal (.decimal d) .fraction
  | oversizedDecimal {d : Decimal} {n : ℕ} :
      d.Rounds n → (n : ℚ) < 2 ^ 1024 → 2 ^ 63 ≤ n → Violates .literal (.decimal d) .oversized
  | oversizedNumeral {s : String} :
      Text.TooLong s.toList → Violates .literal (.string s) .oversized
  | notNumeral {s : String} :
      ¬ Text.TooLong s.toList → (∀ n, ¬ Text.Numeral s.toList n) →
      Violates .literal (.string s) .notNumeral
  | null : Violates .literal .null .notInteger
  | array (js : List Json) : Violates .literal (.array js) .notInteger
  | object (members : List (String × Json)) : Violates .literal (.object members) .notInteger

/-- An issue with a value of that shape: its location leads to a part with that
violation, or to an object that lacks a required field. -/
inductive Wrong (shape : Shape) (j : Json) : Issue → Prop where
  | violation {way : List Step} {shape' : Shape} {part : Json} {v : Violation} :
      Leads shape j way shape' part → Violates shape' part v → Wrong shape j ⟨way, v⟩
  | missing {way tag : List Step} {shape' : Shape} {members : List (String × Json)}
      {fields : List Field} {field : Field} :
      Leads shape j way shape' (.object members) → Asks shape' members tag fields →
      field ∈ fields → field.isRequired → Json.member? field.name members = none →
      Wrong shape j ⟨way ++ tag ++ [.member field.name], .missing⟩

/-! ### Issues of a value and of its parts -/

/-- An issue of a part, seen from the whole. -/
def Issue.behind (way : List Step) (issue : Issue) : Issue :=
  ⟨way ++ issue.location, issue.violation⟩

/-- Issues of a part, seen from the whole. -/
def Behind (way : List Step) (wrong : Issue → Prop) (issue : Issue) : Prop :=
  ∃ inner, wrong inner ∧ inner.behind way = issue

/-- An issue with the member of an object that a field asks for. -/
inductive Field.Wrong (field : Field) (members : List (String × Json)) : Issue → Prop where
  | missing : field.isRequired → Json.member? field.name members = none →
      field.Wrong members ⟨[.member field.name], .missing⟩
  | inside {v : Json} {issue : Issue} : Json.member? field.name members = some v →
      FunCompiler.Wrong field.shape v issue →
      field.Wrong members (issue.behind [.member field.name])

/-- An issue with one of the fields. -/
def AnyWrong (fields : List Field) (members : List (String × Json)) (issue : Issue) : Prop :=
  ∃ field ∈ fields, field.Wrong members issue

namespace Wrong

variable {shape : Shape} {j : Json} {members : List (String × Json)} {issue : Issue}

theorem present {inner : Shape} (hnull : j ≠ .null) (h : Wrong inner j issue) :
    Wrong (.nullable inner) j issue := by
  cases h with
  | violation lead h => exact .violation (.present hnull lead) h
  | missing lead asks hfield hrequired habsent =>
      exact .missing (.present hnull lead) asks hfield hrequired habsent

theorem item {item : Shape} {js : List Json} {i : Nat} {v : Json} (hitem : js[i]? = some v)
    (h : Wrong item v issue) : Wrong (.list item) (.array js) (issue.behind [.index i]) := by
  cases h with
  | violation lead h => exact .violation (.item hitem lead) h
  | missing lead asks hfield hrequired habsent =>
      exact .missing (.item hitem lead) asks hfield hrequired habsent

theorem field {tag : List Step} {fields : List Field} (asks : Asks shape members tag fields)
    (h : AnyWrong fields members issue) : Wrong shape (.object members) (issue.behind tag) := by
  obtain ⟨field, hfield, hwrong⟩ := h
  cases hwrong with
  | missing hrequired habsent => exact .missing .here asks hfield hrequired habsent
  | inside hmember h =>
      cases h with
      | violation lead h => exact .violation (.field asks hfield hmember lead) h
      | missing lead asks' hfield' hrequired habsent =>
          have h := Wrong.missing (.field asks hfield hmember lead) asks' hfield' hrequired habsent
          simpa [Issue.behind] using h

/-- Every issue is one of the value itself, or comes from a part of it. -/
theorem cases (h : Wrong shape j issue) :
    (∃ v, Violates shape j v ∧ issue = ⟨[], v⟩) ∨
    (∃ inner, shape = .nullable inner ∧ j ≠ .null ∧ Wrong inner j issue) ∨
    (∃ item js i v, shape = .list item ∧ j = .array js ∧ js[i]? = some v ∧
      Behind [.index i] (Wrong item v) issue) ∨
    ∃ members tag fields, j = .object members ∧ Asks shape members tag fields ∧
      Behind tag (AnyWrong fields members) issue := by
  cases h with
  | violation lead h =>
      cases lead with
      | here => exact .inl ⟨_, h, rfl⟩
      | present hnull lead => exact .inr (.inl ⟨_, rfl, hnull, .violation lead h⟩)
      | item hitem lead =>
          exact .inr (.inr (.inl ⟨_, _, _, _, rfl, rfl, hitem, _, .violation lead h, rfl⟩))
      | field asks hfield hmember lead =>
          exact .inr (.inr (.inr ⟨_, _, _, rfl, asks, _,
            ⟨_, hfield, .inside hmember (.violation lead h)⟩, rfl⟩))
  | missing lead asks hfield hrequired habsent =>
      cases lead with
      | here =>
          exact .inr (.inr (.inr ⟨_, _, _, rfl, asks, _,
            ⟨_, hfield, .missing hrequired habsent⟩, rfl⟩))
      | present hnull lead =>
          exact .inr (.inl ⟨_, rfl, hnull, .missing lead asks hfield hrequired habsent⟩)
      | item hitem lead =>
          exact .inr (.inr (.inl ⟨_, _, _, _, rfl, rfl, hitem, _,
            .missing lead asks hfield hrequired habsent, rfl⟩))
      | field asks' hfield' hmember lead =>
          refine .inr (.inr (.inr ⟨_, _, _, rfl, asks', _,
            ⟨_, hfield', .inside hmember (.missing lead asks hfield hrequired habsent)⟩, ?_⟩))
          simp [Issue.behind]

end Wrong

/-- Nothing is asked of the parts of the value. -/
structure Undivided (shape : Shape) (j : Json) : Prop where
  notNullable : ∀ inner, shape ≠ .nullable inner
  notArray : ∀ item js, shape = .list item → j ≠ .array js
  notObject : ∀ members tag fields, j = .object members → ¬ Asks shape members tag fields

theorem Undivided.wrong_iff {shape : Shape} {j : Json} (h : Undivided shape j) (issue : Issue) :
    Wrong shape j issue ↔ ∃ v, Violates shape j v ∧ issue = ⟨[], v⟩ := by
  constructor
  · intro hwrong
    rcases hwrong.cases with hown | ⟨inner, hinner, -⟩ | ⟨item, js, -, -, hitem, hjs, -⟩ |
      ⟨members, tag, fields, hmembers, asks, -⟩
    · exact hown
    · exact absurd hinner (h.notNullable inner)
    · exact absurd hjs (h.notArray item js hitem)
    · exact absurd asks (h.notObject members tag fields hmembers)
  · rintro ⟨v, hv, rfl⟩
    exact .violation .here hv

theorem Wrong.list_iff {item : Shape} {js : List Json} (issue : Issue) :
    Wrong (.list item) (.array js) issue ↔
      ∃ i v, js[i]? = some v ∧ Behind [.index i] (Wrong item v) issue := by
  constructor
  · intro h
    rcases h.cases with ⟨v, hv, -⟩ | ⟨inner, hinner, -⟩ | ⟨item, js, i, v, hitem, hjs, hi, h⟩ |
      ⟨members, tag, fields, hmembers, -⟩
    · cases hv with
      | notList hj => exact absurd rfl (hj js)
    · cases hinner
    · cases hitem
      cases hjs
      exact ⟨i, v, hi, h⟩
    · cases hmembers
  · rintro ⟨i, v, hi, inner, h, rfl⟩
    exact .item hi h

theorem Wrong.nullable_iff {inner : Shape} {j : Json} (issue : Issue) :
    Wrong (.nullable inner) j issue ↔ j ≠ .null ∧ Wrong inner j issue := by
  constructor
  · intro h
    rcases h.cases with ⟨v, hv, -⟩ | ⟨inner, hinner, hnull, h⟩ | ⟨item, js, i, v, hitem, -⟩ |
      ⟨members, tag, fields, -, asks, -⟩
    · cases hv
    · cases hinner
      exact ⟨hnull, h⟩
    · cases hitem
    · cases asks
  · rintro ⟨hnull, h⟩
    exact .present hnull h

/-- What is asked of an object that has known fields is asked of these fields. -/
theorem Wrong.object_iff {shape : Shape} {members : List (String × Json)} {tag : List Step}
    {fields : List Field} (asks : Asks shape members tag fields)
    (honly : ∀ tag' fields', Asks shape members tag' fields' → tag' = tag ∧ fields' = fields)
    (hnone : ∀ v, ¬ Violates shape (.object members) v) (issue : Issue) :
    Wrong shape (.object members) issue ↔ Behind tag (AnyWrong fields members) issue := by
  constructor
  · intro h
    rcases h.cases with ⟨v, hv, -⟩ | ⟨inner, rfl, -⟩ | ⟨item, js, i, v, -, hjs, -⟩ |
      ⟨members', tag', fields', hmembers, asks', h⟩
    · exact absurd hv (hnone v)
    · cases asks
    · cases hjs
    · cases hmembers
      obtain ⟨rfl, rfl⟩ := honly tag' fields' asks'
      exact h
  · rintro ⟨inner, h, rfl⟩
    exact .field asks h

theorem Field.Wrong.location {field : Field} {members : List (String × Json)} {issue : Issue}
    (h : field.Wrong members issue) : ∃ rest, issue.location = .member field.name :: rest := by
  cases h with
  | missing => exact ⟨[], rfl⟩
  | inside => exact ⟨_, rfl⟩

theorem Field.wrong_of_some (field : Field) {members : List (String × Json)} {v : Json}
    (h : Json.member? field.name members = some v) (issue : Issue) :
    field.Wrong members issue ↔
      Behind [.member field.name] (FunCompiler.Wrong field.shape v) issue := by
  constructor
  · intro hwrong
    cases hwrong with
    | missing _ habsent => cases h.symm.trans habsent
    | inside hmember hwrong =>
        cases h.symm.trans hmember
        exact ⟨_, hwrong, rfl⟩
  · rintro ⟨inner, hinner, rfl⟩
    exact .inside h hinner

theorem Field.wrong_of_none (field : Field) {members : List (String × Json)}
    (h : Json.member? field.name members = none) (issue : Issue) :
    field.Wrong members issue ↔
      field.isRequired ∧ issue = ⟨[.member field.name], .missing⟩ := by
  constructor
  · intro hwrong
    cases hwrong with
    | missing hrequired => exact ⟨hrequired, rfl⟩
    | inside hmember => cases h.symm.trans hmember
  · rintro ⟨hrequired, rfl⟩
    exact .missing hrequired h

/-! ### Operators and literals -/

theorem Operator.ofJson_eq_refuse {j : Json} (h : ∀ op : Operator, j ≠ .string op.text) :
    Operator.ofJson j = Checked.refuse (.notOneOf (Operator.all.map (·.text))) := by
  unfold Operator.ofJson Checked.oneOf
  split
  · rename_i s
    have hnone : (Operator.all.map fun op => (op.text, op)).lookup s = none := by
      rw [List.lookup_eq_none_iff]
      intro choice hchoice
      obtain ⟨op, -, rfl⟩ := List.mem_map.1 hchoice
      have := h op
      simpa using this
    rw [hnone]
    rfl
  · rfl

theorem literalOfJson_of_standsFor {j : Json} {n : Int} (h : j.StandsFor n) :
    literalOfJson j = word n := by
  cases h with
  | integer | bool => rfl
  | decimal hrounds hn => rw [literalOfJson, Decimal.toInt_eq_ok hrounds hn]
  | string hshort hnumeral => rw [literalOfJson, Text.readInteger_eq_ok_iff.2 ⟨hshort, hnumeral⟩]

theorem wordCount_le_iff (n : Int) : (wordCount : Int) ≤ n ↔ 18446744073709551615 < n :=
  Int.add_one_le_iff (a := 18446744073709551615)

theorem literalOfJson_of_violates {j : Json} {v : Violation} (h : Violates .literal j v) :
    literalOfJson j = Checked.refuse v := by
  cases h with
  | negative hn hlt => simp [literalOfJson_of_standsFor hn, word, hlt]
  | tooLarge hn hlt =>
      have hle := (wordCount_le_iff _).2 hlt
      have hnot := Int.not_lt.2 (Int.le_trans (Int.natCast_nonneg wordCount) hle)
      simp [literalOfJson_of_standsFor hn, word, hle, hnot]
  | nonFinite | null | array | object => rfl
  | notFinite hrounds hq => rw [literalOfJson, Decimal.toInt_eq_notFinite hrounds hq]
  | fraction hrounds hfinite hq => rw [literalOfJson, Decimal.toInt_eq_fraction hrounds hfinite hq]
  | oversizedDecimal hrounds hfinite hn =>
      rw [literalOfJson, Decimal.toInt_eq_tooLarge hrounds hfinite hn]
  | oversizedNumeral hlong => rw [literalOfJson, Text.readInteger_eq_tooLong_iff.2 hlong]
  | notNumeral hshort hnone =>
      rw [literalOfJson, Text.readInteger_eq_malformed_iff.2 ⟨hshort, hnone⟩]

theorem word_cases {j : Json} {n : Int} (h : j.StandsFor n) :
    (∃ m, word n = .ok m) ∨ ∃ v, word n = Checked.refuse v ∧ Violates .literal j v := by
  unfold word
  split
  · rename_i hlt
    exact .inr ⟨_, rfl, .negative h hlt⟩
  · split
    · rename_i hle
      exact .inr ⟨_, rfl, .tooLarge h ((wordCount_le_iff n).1 hle)⟩
    · exact .inl ⟨n, rfl⟩

/-- A value stands for an integer, or something stands against it. -/
theorem Json.standsFor_or_violates (j : Json) :
    (∃ n, j.StandsFor n) ∨ ∃ v, Violates .literal j v := by
  cases j with
  | null => exact .inr ⟨_, .null⟩
  | bool b => exact .inl ⟨_, .bool b⟩
  | integer n => exact .inl ⟨n, .integer n⟩
  | decimal d =>
      obtain ⟨q, hrounds, hq | ⟨hfinite, hq⟩ | ⟨n, rfl, ⟨hfinite, hn⟩ | hn⟩⟩ := d.rounds_cases
      · exact .inr ⟨_, .notFinite hrounds hq⟩
      · exact .inr ⟨_, .fraction hrounds hfinite hq⟩
      · exact .inr ⟨_, .oversizedDecimal hrounds hfinite hn⟩
      · exact .inl ⟨_, .decimal hrounds hn⟩
  | nonFinite n => exact .inr ⟨_, .nonFinite n⟩
  | string s =>
      by_cases hlong : Text.TooLong s.toList
      · exact .inr ⟨_, .oversizedNumeral hlong⟩
      · by_cases hnumeral : ∃ n, Text.Numeral s.toList n
        · obtain ⟨n, hn⟩ := hnumeral
          exact .inl ⟨n, .string hlong hn⟩
        · exact .inr ⟨_, .notNumeral hlong (not_exists.1 hnumeral)⟩
  | array js => exact .inr ⟨_, .array js⟩
  | object members => exact .inr ⟨_, .object members⟩

/-- A literal is refused for what stands against it. -/
theorem literalOfJson_cases (j : Json) :
    (∃ n, literalOfJson j = .ok n) ∨
      ∃ v, literalOfJson j = Checked.refuse v ∧ Violates .literal j v := by
  obtain ⟨n, hn⟩ | ⟨v, hv⟩ := j.standsFor_or_violates
  · rw [literalOfJson_of_standsFor hn]
    exact word_cases hn
  · exact .inr ⟨v, literalOfJson_of_violates hv, hv⟩

/-! ### Checks that report all issues -/

/-- The check gives a value where nothing is wrong, and otherwise reports what is, at
each location once. -/
inductive Collects {α : Type} : Checked α → (Issue → Prop) → Prop where
  | accepts {a : α} {wrong : Issue → Prop} : (∀ issue, ¬ wrong issue) → Collects (.ok a) wrong
  | rejects {issues : List Issue} {wrong : Issue → Prop} :
      issues ≠ [] → (issues.map (·.location)).Nodup → (∀ issue, issue ∈ issues ↔ wrong issue) →
      Collects (.error issues) wrong

namespace Collects

open Checked

variable {α β γ : Type} {wrong wrong' : Issue → Prop} {members : List (String × Json)}

theorem congr {c : Checked α} (h : Collects c wrong) (hiff : ∀ issue, wrong issue ↔ wrong' issue) :
    Collects c wrong' := by
  cases h with
  | accepts hnone => exact .accepts fun issue => (not_congr (hiff issue)).1 (hnone issue)
  | rejects hne hnodup hmem =>
      exact .rejects hne hnodup fun issue => (hmem issue).trans (hiff issue)

theorem refuse {v : Violation} (h : ∀ issue, wrong issue ↔ issue = ⟨[], v⟩) :
    Collects (Checked.refuse v : Checked α) wrong :=
  .rejects (by simp) (by simp) (by simp [h])

theorem map (f : α → β) {c : Checked α} (h : Collects c wrong) : Collects (f <$> c) wrong := by
  cases h with
  | accepts hnone => exact .accepts hnone
  | rejects hne hnodup hmem => exact .rejects hne hnodup hmem

theorem within (step : Step) {c : Checked α} (h : Collects c wrong) :
    Collects (within step c) (Behind [step] wrong) := by
  cases h with
  | accepts hnone =>
      refine .accepts ?_
      rintro issue ⟨inner, hinner, -⟩
      exact hnone inner hinner
  | rejects hne hnodup hmem =>
      refine .rejects (by simpa using hne) ?_ fun issue => ?_
      · rw [List.map_map, List.nodup_iff_pairwise_ne, List.pairwise_map]
        rw [List.nodup_iff_pairwise_ne, List.pairwise_map] at hnodup
        exact hnodup.imp fun hne heq => hne (List.cons.inj heq).2
      · simp [Behind, Issue.behind, hmem]

theorem both (f : α → β → γ) {a : Checked α} {b : Checked β} (ha : Collects a wrong)
    (hb : Collects b wrong')
    (hapart : ∀ issue issue', wrong issue → wrong' issue' → issue.location ≠ issue'.location) :
    Collects (both f a b) fun issue => wrong issue ∨ wrong' issue := by
  cases ha with
  | accepts hnone =>
      cases hb with
      | accepts hnone' => exact .accepts fun issue h => h.elim (hnone issue) (hnone' issue)
      | rejects hne hnodup hmem =>
          exact .rejects hne hnodup fun issue => by simp [hmem, hnone issue]
  | rejects hne hnodup hmem =>
      cases hb with
      | accepts hnone' =>
          exact .rejects hne hnodup fun issue => by simp [hmem, hnone' issue]
      | rejects hne' hnodup' hmem' =>
          refine .rejects (by simp [hne]) ?_ fun issue => by simp [hmem, hmem']
          rw [List.map_append, List.nodup_append]
          refine ⟨hnodup, hnodup', ?_⟩
          simp only [List.mem_map]
          rintro _ ⟨issue, hissue, rfl⟩ _ ⟨issue', hissue', rfl⟩
          exact hapart issue issue' ((hmem issue).1 hissue) ((hmem' issue').1 hissue')

/-! Values without parts -/

theorem refused {shape : Shape} {j : Json} {v : Violation} (hundivided : Undivided shape j)
    (hv : Violates shape j v) (honly : ∀ v', Violates shape j v' → v' = v) :
    Collects (Checked.refuse v : Checked α) (Wrong shape j) := by
  refine refuse fun issue => ?_
  rw [hundivided.wrong_iff]
  constructor
  · rintro ⟨v', hv', rfl⟩
    rw [honly v' hv']
  · rintro rfl
    exact ⟨v, hv, rfl⟩

theorem accepted {shape : Shape} {j : Json} {a : α} (hundivided : Undivided shape j)
    (hnone : ∀ v, ¬ Violates shape j v) : Collects (.ok a) (Wrong shape j) := by
  refine .accepts fun issue h => ?_
  obtain ⟨v, hv, -⟩ := (hundivided.wrong_iff issue).1 h
  exact hnone v hv

theorem string (j : Json) : Collects (string j) (Wrong .text j) := by
  have hundivided : Undivided .text j :=
    ⟨by simp, by simp, fun _ _ _ _ asks => by cases asks⟩
  unfold Checked.string
  split
  · refine accepted hundivided fun v hv => ?_
    cases hv with
    | notString hj => exact hj _ rfl
  · rename_i hj
    refine refused hundivided (.notString hj) fun v hv => ?_
    cases hv
    rfl

theorem operator (j : Json) : Collects (Operator.ofJson j) (Wrong .operator j) := by
  have hundivided : Undivided .operator j :=
    ⟨by simp, by simp, fun _ _ _ _ asks => by cases asks⟩
  by_cases h : ∃ op : Operator, j = .string op.text
  · obtain ⟨op, rfl⟩ := h
    rw [Operator.ofJson_text]
    refine accepted hundivided fun v hv => ?_
    cases hv with
    | notOneOf hj => exact hj op rfl
  · have hj : ∀ op : Operator, j ≠ .string op.text := fun op hop => h ⟨op, hop⟩
    rw [Operator.ofJson_eq_refuse hj]
    refine refused hundivided (.notOneOf hj) fun v hv => ?_
    cases hv
    rfl

theorem literal (j : Json) : Collects (literalOfJson j) (Wrong .literal j) := by
  have hundivided : Undivided .literal j :=
    ⟨by simp, by simp, fun _ _ _ _ asks => by cases asks⟩
  rcases literalOfJson_cases j with ⟨n, hn⟩ | ⟨v, hv, hviolates⟩
  · rw [hn]
    refine accepted hundivided fun v hv => ?_
    cases hn.symm.trans (literalOfJson_of_violates hv)
  · rw [hv]
    refine refused hundivided hviolates fun v' hv' => ?_
    cases hv.symm.trans (literalOfJson_of_violates hv')
    rfl

/-! Fields of an object -/

theorem single {c : Checked α} {field : Field} (h : Collects c (field.Wrong members)) :
    Collects c (AnyWrong [field] members) :=
  h.congr (by simp [AnyWrong])

theorem cons (f : α → β → γ) {a : Checked α} {b : Checked β} {field : Field}
    {fields : List Field} (ha : Collects a (field.Wrong members))
    (hb : Collects b (AnyWrong fields members)) (hnew : field.name ∉ fields.map (·.name)) :
    Collects (Checked.both f a b) (AnyWrong (field :: fields) members) := by
  refine (both f ha hb ?_).congr (by simp [AnyWrong])
  -- locations of issues with different fields differ in their first step
  rintro issue issue' h ⟨other, hother, h'⟩ heq
  obtain ⟨rest, hrest⟩ := h.location
  obtain ⟨rest', hrest'⟩ := h'.location
  rw [hrest, hrest', List.cons.injEq, Step.member.injEq] at heq
  exact hnew (heq.1 ▸ List.mem_map_of_mem hother)

theorem required {name : String} {shape : Shape} {check : Json → Checked α}
    (h : ∀ v, Json.member? name members = some v → Collects (check v) (Wrong shape v)) :
    Collects (required members name fun v _ => check v)
      ((Field.required name shape).Wrong members) := by
  unfold Checked.required
  split
  · rename_i v hv
    refine ((h v hv).within _).congr fun issue => ?_
    exact ((Field.required name shape).wrong_of_some hv issue).symm
  · rename_i habsent
    have hmissing : Collects (Checked.refuse .missing : Checked α) (· = ⟨[], .missing⟩) :=
      refuse fun _ => Iff.rfl
    refine (hmissing.within _).congr fun issue => ?_
    rw [Field.wrong_of_none _ habsent]
    simp [Behind, Issue.behind, Field.required, eq_comm]

theorem optional {name : String} {shape : Shape} {absent : α} {check : Json → Checked α}
    (h : ∀ v, Json.member? name members = some v → Collects (check v) (Wrong shape v)) :
    Collects (optional members name absent fun v _ => check v)
      ((Field.optional name shape).Wrong members) := by
  unfold Checked.optional
  split
  · rename_i v hv
    refine ((h v hv).within _).congr fun issue => ?_
    exact ((Field.optional name shape).wrong_of_some hv issue).symm
  · rename_i habsent
    refine .accepts fun issue => ?_
    rw [Field.wrong_of_none _ habsent]
    simp [Field.optional]

/-! Lists -/

theorem items {check : Json → Checked α} {item : Shape} {js : List Json} (index : Nat)
    (h : ∀ v ∈ js, Collects (check v) (Wrong item v)) :
    Collects (items index js fun v _ => check v) fun issue =>
      ∃ i v, js[i]? = some v ∧ Behind [.index (index + i)] (Wrong item v) issue := by
  induction js generalizing index with
  | nil =>
      rw [Checked.items]
      exact .accepts (by simp)
  | cons j js ih =>
      rw [Checked.items]
      have hhead := (h j (by simp)).within (.index index)
      have htail := ih (index + 1) fun v hv => h v (by simp [hv])
      refine (both List.cons hhead htail ?_).congr fun issue => ?_
      -- the locations of the tail begin with larger indices than that of the head
      · rintro _ _ ⟨inner, -, rfl⟩ ⟨i, v, -, inner', -, rfl⟩
        simp [Issue.behind]
        omega
      · constructor
        · rintro (h | ⟨i, v, hi, h⟩)
          · exact ⟨0, j, rfl, h⟩
          · exact ⟨i + 1, v, hi, by rwa [← Nat.add_assoc, Nat.add_right_comm]⟩
        · rintro ⟨i, v, hi, h⟩
          cases i with
          | zero =>
              cases hi
              exact .inl h
          | succ i => exact .inr ⟨i, v, hi, by rwa [Nat.add_assoc, Nat.add_comm 1]⟩

theorem listOf {check : Json → Checked α} {item : Shape} {j : Json}
    (h : ∀ v, sizeOf v < sizeOf j → Collects (check v) (Wrong item v)) :
    Collects (listOf j fun v _ => check v) (Wrong (.list item) j) := by
  cases j with
  | array js =>
      have hitems : ∀ v ∈ js, Collects (check v) (Wrong item v) := fun v hv => h v (by
        have := List.sizeOf_lt_of_mem hv
        simp only [Json.array.sizeOf_spec]
        omega)
      refine (items 0 hitems).congr fun issue => ?_
      simp only [Nat.zero_add]
      exact (Wrong.list_iff issue).symm
  | _ =>
      refine refused ⟨by simp, by simp, fun _ _ _ _ asks => by cases asks⟩
        (.notList (by simp)) fun v hv => ?_
      cases hv
      rfl

/-! Objects -/

theorem record {r : Record} {c : Checked α} (h : Collects c (AnyWrong r.fields members)) :
    Collects c (Wrong (.record r) (.object members)) := by
  refine h.congr fun issue => ?_
  rw [Wrong.object_iff .record]
  · simp [Behind, Issue.behind]
  · rintro _ _ ⟨⟩
    exact ⟨rfl, rfl⟩
  · intro v hv
    cases hv with
    | notRecord hj => exact hj members rfl

theorem notRecord (r : Record) {j : Json} (hj : ∀ members, j ≠ .object members) :
    Collects (Checked.refuse (.notRecord r.name) : Checked α) (Wrong (.record r) j) := by
  refine refused ⟨by simp, by simp, fun members _ _ h => absurd h (hj members)⟩ (.notRecord hj) ?_
  intro v hv
  cases hv
  rfl

theorem kind {family : Family} {kind : String} {fields : List Field} {c : Checked α}
    (hkind : Json.member? "kind" members = some (.string kind))
    (hfields : family.fields? kind = some fields) (h : Collects c (AnyWrong fields members)) :
    Collects (Checked.within (.member kind) c) (Wrong (.tagged family) (.object members)) := by
  refine (h.within _).congr fun issue => ?_
  rw [Wrong.object_iff (.tagged hfields hkind)]
  · intro tag' fields' asks
    cases asks with
    | tagged hfields' hkind' =>
        cases hkind.symm.trans hkind'
        cases hfields.symm.trans hfields'
        exact ⟨rfl, rfl⟩
  · intro v hv
    cases hv with
    | notObject hj => exact hj members rfl
    | noKind habsent => cases hkind.symm.trans habsent
    | unknownKind hkind' hunknown =>
        cases hkind.symm.trans hkind'
        exact hunknown kind fields hfields rfl

theorem notObject {family : Family} {j : Json} (hj : ∀ members, j ≠ .object members) :
    Collects (Checked.refuse .notObject : Checked α) (Wrong (.tagged family) j) := by
  refine refused ⟨by simp, by simp, fun members _ _ h => absurd h (hj members)⟩ (.notObject hj) ?_
  intro v hv
  cases hv with
  | notObject => rfl
  | noKind | unknownKind => exact absurd rfl (hj _)

theorem noKind {family : Family} (habsent : Json.member? "kind" members = none) :
    Collects (Checked.refuse .noKind : Checked α) (Wrong (.tagged family) (.object members)) := by
  refine refused ⟨by simp, by simp, ?_⟩ (.noKind habsent) ?_
  · rintro _ tag fields ⟨⟩ asks
    cases asks with
    | tagged _ hkind => cases habsent.symm.trans hkind
  · intro v hv
    cases hv with
    | notObject hj => exact absurd rfl (hj members)
    | noKind => rfl
    | unknownKind hkind => cases habsent.symm.trans hkind

theorem unknownKind (family : Family) {kind : Json}
    (hkind : Json.member? "kind" members = some kind)
    (hunknown : ∀ name fields, family.fields? name = some fields → kind ≠ .string name) :
    Collects (Checked.refuse (.unknownKind kind.spoken (family.kinds.map (·.1))) : Checked α)
      (Wrong (.tagged family) (.object members)) := by
  refine refused ⟨by simp, by simp, ?_⟩ (.unknownKind hkind hunknown) ?_
  · rintro _ tag fields ⟨⟩ asks
    cases asks with
    | tagged hfields hkind' =>
        cases hkind.symm.trans hkind'
        exact hunknown _ _ hfields rfl
  · intro v hv
    cases hv with
    | notObject hj => exact absurd rfl (hj members)
    | noKind habsent => cases hkind.symm.trans habsent
    | unknownKind hkind' =>
        cases hkind.symm.trans hkind'
        rfl

end Collects

/-! ### Loading reports all issues -/

theorem Expr.collects_ofJson (j : Json) : Collects (Expr.ofJson j) (Wrong (.tagged .expr) j) := by
  induction j using Json.objectInduction with
  | object members ih =>
      rw [Expr.ofJson]
      split
      · rename_i habsent
        exact .noKind habsent
      · rename_i hkind
        exact .kind hkind rfl (.map _ (.single (.required fun v _ => .string v)))
      · rename_i hkind
        exact .kind hkind rfl (.map _ (.single (.required fun v _ => .literal v)))
      · rename_i hkind
        refine .kind hkind rfl (.cons _ (.required fun v _ => .string v) (.single ?_) (by decide))
        exact .optional fun v hv => .listOf fun item hlt =>
          ih item (Nat.lt_trans hlt (Json.sizeOf_lt_of_member? hv))
      · rename_i hkind
        refine .kind hkind rfl (.cons _ (.required fun v _ => .operator v) (.cons _ ?_ (.single ?_)
          (by decide)) (by decide))
        · exact .required fun v hv => ih v (Json.sizeOf_lt_of_member? hv)
        · exact .required fun v hv => ih v (Json.sizeOf_lt_of_member? hv)
      · rename_i kind hvariable hliteral hcall hbinary hkind
        refine .unknownKind .expr hkind ?_
        rintro name fields hfields rfl
        have hname : name ∈ exprKinds := Family.mem_of_fields? hfields
        simp only [exprKinds, List.mem_cons, List.not_mem_nil, or_false] at hname
        rcases hname with rfl | rfl | rfl | rfl
        · exact hvariable rfl
        · exact hliteral rfl
        · exact hcall rfl
        · exact hbinary rfl
  | other j hj =>
      rw [Expr.ofJson]
      · exact .notObject hj
      · exact hj

theorem collects_exprMember (members : List (String × Json)) (name : String) :
    Collects (exprMember members name) ((Field.required name (.tagged .expr)).Wrong members) :=
  .required fun v _ => Expr.collects_ofJson v

theorem Stmt.collects_elseOfJson {j : Json}
    (h : Collects (Stmt.ofJson j) (Wrong (.tagged .stmt) j)) :
    Collects (Stmt.elseOfJson j) (Wrong (.nullable (.tagged .stmt)) j) := by
  unfold Stmt.elseOfJson
  split
  · exact .accepts fun issue hwrong => ((Wrong.nullable_iff issue).1 hwrong).1 rfl
  · rename_i hnull
    refine (h.map some).congr fun issue => ?_
    rw [Wrong.nullable_iff, and_iff_right hnull]

theorem Stmt.collects_ofJson (j : Json) : Collects (Stmt.ofJson j) (Wrong (.tagged .stmt) j) := by
  induction j using Json.objectInduction with
  | object members ih =>
      have hpart : ∀ v name, Json.member? name members = some v →
          Collects (Stmt.ofJson v) (Wrong (.tagged .stmt) v) := fun v _ hv =>
        ih v (Json.sizeOf_lt_of_member? hv)
      -- a conditional has an equation of its own, the other kinds are split below
      by_cases hif : Json.member? "kind" members = some (.string "if")
      · rw [Stmt.ofJson_conditional hif]
        refine .kind hif rfl (.cons _ (collects_exprMember _ _) (.cons _ ?_ (.single ?_)
          (by decide)) (by decide))
        · exact .required fun v hv => hpart v _ hv
        · exact .optional fun v hv => Stmt.collects_elseOfJson (hpart v _ hv)
      · rw [Stmt.ofJson]
        split
        · rename_i habsent
          exact .noKind habsent
        · rename_i hkind
          exact .kind hkind rfl (.cons _ (.required fun v _ => .string v)
            (.single (collects_exprMember _ _)) (by decide))
        · rename_i hkind
          exact .kind hkind rfl (.map _ (.single (collects_exprMember _ _)))
        · contradiction
        · rename_i hkind
          refine .kind hkind rfl (.cons _ (collects_exprMember _ _) (.single ?_) (by decide))
          exact .required fun v hv => hpart v _ hv
        · rename_i hkind
          refine .kind hkind rfl (.map _ (.single ?_))
          exact .optional fun v hv => .listOf fun item hlt =>
            ih item (Nat.lt_trans hlt (Json.sizeOf_lt_of_member? hv))
        · rename_i hkind
          exact .kind hkind rfl (.map _ (.single (collects_exprMember _ _)))
        · rename_i kind hassign hprint hconditional hwhile hblock hreturn hkind
          refine .unknownKind .stmt hkind ?_
          rintro name fields hfields rfl
          have hname : name ∈ stmtKinds := Family.mem_of_fields? hfields
          simp only [stmtKinds, List.mem_cons, List.not_mem_nil, or_false] at hname
          rcases hname with rfl | rfl | rfl | rfl | rfl | rfl
          · exact hassign rfl
          · exact hprint rfl
          · exact hconditional rfl
          · exact hwhile rfl
          · exact hblock rfl
          · exact hreturn rfl
  | other j hj =>
      rw [Stmt.ofJson]
      · exact .notObject hj
      · exact hj

theorem Function.collects_ofJson (j : Json) :
    Collects (Function.ofJson j) (Wrong (.record .function) j) := by
  unfold Function.ofJson
  split
  · refine .record (.cons _ (.required fun v _ => .string v) (.cons _ ?_ (.single ?_) (by decide))
      (by decide))
    · exact .optional fun v _ => .listOf fun item _ => .string item
    · exact .required fun v _ => Stmt.collects_ofJson v
  · rename_i hj
    exact .notRecord .function hj

theorem Program.collects_ofJson (j : Json) :
    Collects (Program.ofJson j) (Wrong (.record .program) j) := by
  unfold Program.ofJson
  split
  · refine .record (.map _ (.single ?_))
    exact .optional fun v _ => .listOf fun item _ => Function.collects_ofJson item
  · rename_i hj
    exact .notRecord .program hj

/-- Loading a value gives a program, and then nothing is wrong with the value, or it
reports issues. These have different locations, and they are all that is wrong:
following the location of each from the root leads to a part that has the violation
at that place of the schema, or to an object that lacks the required field, and every
such violation is reported. -/
theorem load_collects_issues (j : Json) :
    (∃ p, Program.ofJson j = .ok p ∧ ∀ issue, ¬ Wrong (.record .program) j issue) ∨
    ∃ issues, Program.ofJson j = .error issues ∧ issues ≠ [] ∧
      (issues.map (·.location)).Nodup ∧
      ∀ issue, issue ∈ issues ↔ Wrong (.record .program) j issue := by
  cases hload : Program.ofJson j with
  | ok p =>
      cases hload ▸ Program.collects_ofJson j with
      | accepts hnone => exact .inl ⟨p, rfl, hnone⟩
  | error issues =>
      cases hload ▸ Program.collects_ofJson j with
      | rejects hne hnodup hmem => exact .inr ⟨issues, rfl, hne, hnodup, hmem⟩

/-- Issues stand side by side in one function and in two. -/
example : Program.ofJson (.object [("functions",
      .array [.object [("formals", .array [.null, .string "x"])], .integer 0])]) =
    .error [⟨[.member "functions", .index 0, .member "name"], .missing⟩,
      ⟨[.member "functions", .index 0, .member "formals", .index 0], .notString⟩,
      ⟨[.member "functions", .index 0, .member "body"], .missing⟩,
      ⟨[.member "functions", .index 1], .notRecord "Function"⟩] := by
  rfl

end FunCompiler
