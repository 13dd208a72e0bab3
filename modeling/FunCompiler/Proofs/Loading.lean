import FunCompiler.Program.Encode
import FunCompiler.Program.Load
import FunCompiler.Proofs.Json.Writing

/-!
Dumping and loading programs. What a program is dumped as is JSON, and loading
it gives the program back, if its literals fit in a word. A loaded program
always has such literals.
-/

namespace FunCompiler

/-! ### Checks that find no issue -/

namespace Checked

variable {α β γ : Type}

@[simp] theorem within_eq_ok {step : Step} {c : Checked α} {a : α} :
    within step c = .ok a ↔ c = .ok a := by
  cases c with
  | ok b => exact Iff.rfl
  | error issues => exact ⟨nofun, nofun⟩

@[simp] theorem both_eq_ok {f : α → β → γ} {a : Checked α} {b : Checked β} {c : γ} :
    both f a b = .ok c ↔ ∃ x y, a = .ok x ∧ b = .ok y ∧ f x y = c := by
  cases a <;> cases b <;> simp [both]

@[simp] theorem map_eq_ok {f : α → β} {a : Checked α} {b : β} :
    f <$> a = .ok b ↔ ∃ x, a = .ok x ∧ f x = b := by
  cases a <;> simp [Functor.map, Except.map]

@[simp] theorem required_eq_ok {members : List (String × Json)} {name : String}
    {check : Json → Checked α} {a : α} :
    required members name (fun v _ => check v) = .ok a ↔
      ∃ v, Json.member? name members = some v ∧ check v = .ok a := by
  unfold required
  split
  · rename_i v h
    simp [h]
  · rename_i h
    simp [h, refuse]

@[simp] theorem optional_eq_ok {members : List (String × Json)} {name : String} {absent : α}
    {check : Json → Checked α} {a : α} :
    optional members name absent (fun v _ => check v) = .ok a ↔
      (Json.member? name members = none ∧ absent = a) ∨
        ∃ v, Json.member? name members = some v ∧ check v = .ok a := by
  unfold Checked.optional
  split
  · rename_i v h
    simp [h]
  · rename_i h
    simp [h]

@[simp] theorem map_ok_inj {xs ys : List α} :
    xs.map (Except.ok : α → Checked α) = ys.map .ok ↔ xs = ys :=
  List.map_inj_right fun _ _ => Except.ok.inj

theorem items_eq_ok {index : Nat} {js : List Json} {check : Json → Checked α} {xs : List α} :
    items index js (fun v _ => check v) = .ok xs ↔ js.map check = xs.map .ok := by
  induction js generalizing index xs with
  | nil =>
      rw [items]
      cases xs <;> simp
  | cons j js ih =>
      rw [items]
      cases xs <;> simp [ih]

@[simp] theorem listOf_eq_ok {j : Json} {check : Json → Checked α} {xs : List α} :
    listOf j (fun v _ => check v) = .ok xs ↔ ∃ js, j = .array js ∧ js.map check = xs.map .ok := by
  cases j with
  | array js => simp [listOf, items_eq_ok]
  | _ => simp [listOf, refuse]

@[simp] theorem string_eq_ok {j : Json} {s : String} : string j = .ok s ↔ j = .string s := by
  cases j <;> simp [string, refuse]

end Checked

open Checked

/-! ### What is encoded can be loaded -/

theorem word_eq_ok {n m : Int} : word n = .ok m ↔ n = m ∧ 0 ≤ m ∧ m < wordCount := by
  unfold word
  split
  · simp [refuse]
    omega
  split
  · simp [refuse]
    omega
  · simp
    omega

@[simp] theorem Operator.ofJson_text (op : Operator) :
    Operator.ofJson (.string op.text) = .ok op := by
  cases op <;> rfl

mutual

theorem Expr.ofJson_toJson : ∀ e : Expr, e.InRange → Expr.ofJson e.toJson = .ok e
  | .var name, _ => by
      rw [Expr.toJson, Expr.ofJson]
      simp [Json.member?, stringMember]
  | .lit value, h => by
      rw [Expr.InRange] at h
      rw [Expr.toJson, Expr.ofJson]
      simp [Json.member?, literalOfJson, word_eq_ok, h]
  | .call callee actuals, h => by
      rw [Expr.InRange] at h
      rw [Expr.toJson, Expr.ofJson]
      simp [Json.member?, stringMember, Expr.map_ofJson_toJsons actuals h]
  | .binary op left right, h => by
      rw [Expr.InRange] at h
      rw [Expr.toJson, Expr.ofJson]
      simp [Json.member?, Expr.ofJson_toJson left h.1, Expr.ofJson_toJson right h.2]

theorem Expr.map_ofJson_toJsons : ∀ es : List Expr, Expr.AllInRange es →
    (Expr.toJsons es).map Expr.ofJson = es.map .ok
  | [], _ => rfl
  | e :: es, h => by
      rw [Expr.AllInRange] at h
      rw [Expr.toJsons, List.map_cons, List.map_cons, Expr.ofJson_toJson e h.1,
        Expr.map_ofJson_toJsons es h.2]

end

/-- The member for the `else` of a conditional is null or a statement. -/
def Stmt.elseOfJson : Json → Checked (Option Stmt)
  | .null => .ok none
  | j => some <$> Stmt.ofJson j

theorem Stmt.ofJson_conditional {members : List (String × Json)}
    (h : Json.member? "kind" members = some (.string "if")) :
    Stmt.ofJson (.object members) =
      within (.member "if") (both (fun cond (yes, no) => Stmt.conditional cond yes no)
        (exprMember members "condition")
        (both Prod.mk (required members "then_branch" fun v _ => Stmt.ofJson v)
          (optional members "else_branch" none fun v _ => Stmt.elseOfJson v))) := by
  rw [Stmt.ofJson]
  simp only [h]
  congr 4
  funext v _
  cases v <;> rfl

/-- No statement is taken for an absent `else`. -/
theorem Stmt.elseOfJson_toJson (s : Stmt) :
    Stmt.elseOfJson s.toJson = some <$> Stmt.ofJson s.toJson := by
  cases s <;> simp [Stmt.toJson, Stmt.elseOfJson]

mutual

theorem Stmt.ofJson_toJson : ∀ s : Stmt, s.InRange → Stmt.ofJson s.toJson = .ok s
  | .assign target value, h => by
      rw [Stmt.InRange] at h
      rw [Stmt.toJson, Stmt.ofJson]
      simp [Json.member?, stringMember, exprMember, value.ofJson_toJson h]
  | .print value, h => by
      rw [Stmt.InRange] at h
      rw [Stmt.toJson, Stmt.ofJson]
      simp [Json.member?, exprMember, value.ofJson_toJson h]
  | .ifThen cond yes, h => by
      rw [Stmt.InRange] at h
      rw [Stmt.toJson, Stmt.ofJson_conditional rfl]
      simp [Json.member?, exprMember, cond.ofJson_toJson h.1, yes.ofJson_toJson h.2,
        Stmt.elseOfJson, Stmt.conditional]
  | .ifElse cond yes no, h => by
      rw [Stmt.InRange] at h
      rw [Stmt.toJson, Stmt.ofJson_conditional rfl]
      simp [Json.member?, exprMember, cond.ofJson_toJson h.1, yes.ofJson_toJson h.2.1,
        no.elseOfJson_toJson, no.ofJson_toJson h.2.2, Stmt.conditional]
  | .loop cond body, h => by
      rw [Stmt.InRange] at h
      rw [Stmt.toJson, Stmt.ofJson]
      simp [Json.member?, exprMember, cond.ofJson_toJson h.1, body.ofJson_toJson h.2]
  | .block body, h => by
      rw [Stmt.InRange] at h
      rw [Stmt.toJson, Stmt.ofJson]
      simp [Json.member?, Stmt.map_ofJson_toJsons body h]
  | .ret value, h => by
      rw [Stmt.InRange] at h
      rw [Stmt.toJson, Stmt.ofJson]
      simp [Json.member?, exprMember, value.ofJson_toJson h]

theorem Stmt.map_ofJson_toJsons : ∀ ss : List Stmt, Stmt.AllInRange ss →
    (Stmt.toJsons ss).map Stmt.ofJson = ss.map .ok
  | [], _ => rfl
  | s :: ss, h => by
      rw [Stmt.AllInRange] at h
      rw [Stmt.toJsons, List.map_cons, List.map_cons, s.ofJson_toJson h.1,
        Stmt.map_ofJson_toJsons ss h.2]

end

theorem Function.ofJson_toJson (f : Function) (h : f.body.InRange) :
    Function.ofJson f.toJson = .ok f := by
  have hformals : (f.formals.map Json.string).map Checked.string = f.formals.map .ok := by
    rw [List.map_map]
    rfl
  simp [Function.toJson, Function.ofJson, strings, Json.member?, stringMember, hformals,
    f.body.ofJson_toJson h]

theorem Program.ofJson_toJson (p : Program) (h : p.InRange) : Program.ofJson p.toJson = .ok p := by
  have hfunctions : (p.functions.map Function.toJson).map Function.ofJson =
      p.functions.map .ok := by
    rw [List.map_map]
    exact List.map_congr_left fun f hf => f.ofJson_toJson (h f hf)
  simp [Program.toJson, Program.ofJson, Json.member?, hfunctions]

/-! ### What is loaded is in range -/

theorem literalOfJson_inRange {j : Json} {n : Int} (h : literalOfJson j = .ok n) :
    0 ≤ n ∧ n < wordCount := by
  have hword : ∃ m, word m = .ok n := by
    unfold literalOfJson at h
    split at h
    · exact ⟨_, h⟩
    · exact ⟨_, h⟩
    · split at h
      · exact ⟨_, h⟩
      all_goals cases h
    · cases h
    · split at h
      · exact ⟨_, h⟩
      all_goals cases h
    · cases h
  obtain ⟨m, hm⟩ := hword
  exact (word_eq_ok.1 hm).2

/-- Where a list is loaded from a member, each of its items is loaded from a part of
that member. -/
theorem Checked.exists_of_mem_optional {α : Type} {members : List (String × Json)} {name : String}
    {check : Json → Checked α} {xs : List α}
    (h : optional members name [] (fun v _ => listOf v fun item _ => check item) = .ok xs)
    {x : α} (hx : x ∈ xs) : ∃ v, sizeOf v < sizeOf members ∧ check v = .ok x := by
  rcases optional_eq_ok.1 h with ⟨-, rfl⟩ | ⟨v, hv, hlist⟩
  · cases hx
  · obtain ⟨js, rfl, hmap⟩ := listOf_eq_ok.1 hlist
    have hmem : Except.ok x ∈ js.map check := by
      rw [hmap]
      exact List.mem_map_of_mem hx
    obtain ⟨item, hitem, hcheck⟩ := List.mem_map.1 hmem
    have hmember := Json.sizeOf_lt_of_member? hv
    have hlt := List.sizeOf_lt_of_mem hitem
    simp only [Json.array.sizeOf_spec] at hmember
    exact ⟨item, by omega, hcheck⟩

theorem Expr.allInRange_iff {es : List Expr} : Expr.AllInRange es ↔ ∀ e ∈ es, e.InRange := by
  induction es with
  | nil => simp [Expr.AllInRange]
  | cons e es ih => simp [Expr.AllInRange, ih]

theorem Stmt.allInRange_iff {ss : List Stmt} : Stmt.AllInRange ss ↔ ∀ s ∈ ss, s.InRange := by
  induction ss with
  | nil => simp [Stmt.AllInRange]
  | cons s ss ih => simp [Stmt.AllInRange, ih]

/-- Induction over the parts of objects. -/
theorem Json.objectInduction {motive : Json → Prop} (j : Json)
    (object : ∀ members : List (String × Json),
      (∀ v : Json, sizeOf v < sizeOf members → motive v) → motive (.object members))
    (other : ∀ j : Json, (∀ members, j = .object members → False) → motive j) : motive j := by
  induction hsize : sizeOf j using Nat.strongRecOn generalizing j with
  | ind size ih =>
      cases j with
      | object members =>
          refine object members fun v hlt => ih (sizeOf v) ?_ v rfl
          simp only [← hsize, Json.object.sizeOf_spec]
          omega
      | _ => exact other _ nofun

theorem Expr.inRange_of_ofJson {j : Json} {e : Expr} (h : Expr.ofJson j = .ok e) : e.InRange := by
  induction j using Json.objectInduction generalizing e with
  | object members ih =>
      rw [Expr.ofJson] at h
      split at h
      · cases h
      · simp only [within_eq_ok, map_eq_ok] at h
        obtain ⟨name, -, rfl⟩ := h
        simp only [Expr.InRange]
      · simp only [within_eq_ok, map_eq_ok, required_eq_ok] at h
        obtain ⟨value, ⟨v, -, hvalue⟩, rfl⟩ := h
        simpa only [Expr.InRange] using literalOfJson_inRange hvalue
      · simp only [within_eq_ok, both_eq_ok] at h
        obtain ⟨callee, actuals, -, hactuals, rfl⟩ := h
        rw [Expr.InRange, Expr.allInRange_iff]
        intro e he
        obtain ⟨v, hlt, hv⟩ := exists_of_mem_optional hactuals he
        exact ih v hlt hv
      · simp only [within_eq_ok, both_eq_ok, required_eq_ok] at h
        obtain ⟨op, operands, -, ⟨left, right, ⟨v, hv, hleft⟩, ⟨w, hw, hright⟩, rfl⟩, rfl⟩ := h
        rw [Expr.InRange]
        exact ⟨ih v (Json.sizeOf_lt_of_member? hv) hleft,
          ih w (Json.sizeOf_lt_of_member? hw) hright⟩
      · cases h
  | other j hj =>
      rw [Expr.ofJson] at h
      · cases h
      · exact hj

theorem exprMember_inRange {members : List (String × Json)} {name : String} {e : Expr}
    (h : exprMember members name = .ok e) : e.InRange := by
  obtain ⟨v, -, hv⟩ := required_eq_ok.1 h
  exact Expr.inRange_of_ofJson hv

theorem Stmt.elseOfJson_eq_ok {j : Json} {no : Option Stmt} (h : Stmt.elseOfJson j = .ok no)
    {s : Stmt} (hs : s ∈ no) : Stmt.ofJson j = .ok s := by
  unfold Stmt.elseOfJson at h
  split at h
  · cases h
    cases hs
  · obtain ⟨s', hload, rfl⟩ := map_eq_ok.1 h
    cases hs
    exact hload

theorem Stmt.inRange_conditional {cond : Expr} {yes : Stmt} {no : Option Stmt}
    (hcond : cond.InRange) (hyes : yes.InRange) (hno : ∀ s ∈ no, s.InRange) :
    (Stmt.conditional cond yes no).InRange := by
  cases no with
  | none =>
      rw [Stmt.conditional, Stmt.InRange]
      exact ⟨hcond, hyes⟩
  | some s =>
      rw [Stmt.conditional, Stmt.InRange]
      exact ⟨hcond, hyes, hno s rfl⟩

theorem Stmt.inRange_of_ofJson {j : Json} {s : Stmt} (h : Stmt.ofJson j = .ok s) : s.InRange := by
  induction j using Json.objectInduction generalizing s with
  | object members ih =>
      -- a conditional has an equation of its own, the other kinds are split below
      by_cases hkind : Json.member? "kind" members = some (.string "if")
      · simp only [Stmt.ofJson_conditional hkind, within_eq_ok, both_eq_ok, required_eq_ok] at h
        obtain ⟨cond, branches, hcond, ⟨yes, no, ⟨v, hv, hyes⟩, helse, rfl⟩, rfl⟩ := h
        refine Stmt.inRange_conditional (exprMember_inRange hcond)
          (ih v (Json.sizeOf_lt_of_member? hv) hyes) ?_
        intro s hs
        rcases optional_eq_ok.1 helse with ⟨-, rfl⟩ | ⟨w, hw, hno⟩
        · cases hs
        · exact ih w (Json.sizeOf_lt_of_member? hw) (Stmt.elseOfJson_eq_ok hno hs)
      · rw [Stmt.ofJson] at h
        split at h
        · cases h
        · simp only [within_eq_ok, both_eq_ok] at h
          obtain ⟨target, value, -, hvalue, rfl⟩ := h
          rw [Stmt.InRange]
          exact exprMember_inRange hvalue
        · simp only [within_eq_ok, map_eq_ok] at h
          obtain ⟨value, hvalue, rfl⟩ := h
          rw [Stmt.InRange]
          exact exprMember_inRange hvalue
        · contradiction
        · simp only [within_eq_ok, both_eq_ok, required_eq_ok] at h
          obtain ⟨cond, body, hcond, ⟨v, hv, hbody⟩, rfl⟩ := h
          rw [Stmt.InRange]
          exact ⟨exprMember_inRange hcond, ih v (Json.sizeOf_lt_of_member? hv) hbody⟩
        · simp only [within_eq_ok, map_eq_ok] at h
          obtain ⟨body, hbody, rfl⟩ := h
          rw [Stmt.InRange, Stmt.allInRange_iff]
          intro s hs
          obtain ⟨v, hlt, hv⟩ := exists_of_mem_optional hbody hs
          exact ih v hlt hv
        · simp only [within_eq_ok, map_eq_ok] at h
          obtain ⟨value, hvalue, rfl⟩ := h
          rw [Stmt.InRange]
          exact exprMember_inRange hvalue
        · cases h
  | other j hj =>
      rw [Stmt.ofJson] at h
      · cases h
      · exact hj

theorem Function.inRange_of_ofJson {j : Json} {f : Function} (h : Function.ofJson j = .ok f) :
    f.body.InRange := by
  unfold Function.ofJson at h
  split at h
  · simp only [both_eq_ok, required_eq_ok] at h
    obtain ⟨name, parts, -, ⟨formals, body, -, ⟨v, -, hbody⟩, rfl⟩, rfl⟩ := h
    exact Stmt.inRange_of_ofJson hbody
  · cases h

theorem Program.inRange_of_ofJson {j : Json} {p : Program} (h : Program.ofJson j = .ok p) :
    p.InRange := by
  unfold Program.ofJson at h
  split at h
  · obtain ⟨functions, hfunctions, rfl⟩ := map_eq_ok.1 h
    intro f hf
    obtain ⟨v, -, hv⟩ := exists_of_mem_optional hfunctions hf
    exact Function.inRange_of_ofJson hv
  · cases h

/-! ### Dumping and loading -/

mutual

theorem Expr.finite_toJson : ∀ e : Expr, e.toJson.Finite
  | .var _ | .lit _ => by simp [Expr.toJson, Json.Finite, Json.MembersFinite]
  | .call _ actuals => by
      simp [Expr.toJson, Json.Finite, Json.MembersFinite, Expr.allFinite_toJsons actuals]
  | .binary _ left right => by
      simp [Expr.toJson, Json.Finite, Json.MembersFinite, left.finite_toJson, right.finite_toJson]

theorem Expr.allFinite_toJsons : ∀ es : List Expr, Json.AllFinite (Expr.toJsons es)
  | [] => by simp [Expr.toJsons, Json.AllFinite]
  | e :: es => by
      simp [Expr.toJsons, Json.AllFinite, e.finite_toJson, Expr.allFinite_toJsons es]

end

mutual

theorem Stmt.finite_toJson : ∀ s : Stmt, s.toJson.Finite
  | .assign _ value | .print value | .ret value => by
      simp [Stmt.toJson, Json.Finite, Json.MembersFinite, value.finite_toJson]
  | .ifThen cond yes => by
      simp [Stmt.toJson, Json.Finite, Json.MembersFinite, cond.finite_toJson, yes.finite_toJson]
  | .ifElse cond yes no => by
      simp [Stmt.toJson, Json.Finite, Json.MembersFinite, cond.finite_toJson, yes.finite_toJson,
        no.finite_toJson]
  | .loop cond body => by
      simp [Stmt.toJson, Json.Finite, Json.MembersFinite, cond.finite_toJson, body.finite_toJson]
  | .block body => by
      simp [Stmt.toJson, Json.Finite, Json.MembersFinite, Stmt.allFinite_toJsons body]

theorem Stmt.allFinite_toJsons : ∀ ss : List Stmt, Json.AllFinite (Stmt.toJsons ss)
  | [] => by simp [Stmt.toJsons, Json.AllFinite]
  | s :: ss => by
      simp [Stmt.toJsons, Json.AllFinite, s.finite_toJson, Stmt.allFinite_toJsons ss]

end

theorem Json.allFinite_map {α : Type} (encode : α → Json) (h : ∀ a, (encode a).Finite)
    (as : List α) : Json.AllFinite (as.map encode) := by
  induction as with
  | nil => simp [Json.AllFinite]
  | cons a as ih => simp [Json.AllFinite, h a, ih]

theorem Function.finite_toJson (f : Function) : f.toJson.Finite := by
  have hformals := Json.allFinite_map Json.string (by simp [Json.Finite]) f.formals
  simp [Function.toJson, strings, Json.Finite, Json.MembersFinite, hformals, f.body.finite_toJson]

theorem Program.finite_toJson (p : Program) : p.toJson.Finite := by
  have hfunctions := Json.allFinite_map Function.toJson Function.finite_toJson p.functions
  simp [Program.toJson, Json.Finite, Json.MembersFinite, hfunctions]

theorem Program.isText_dump (p : Program) : Json.IsText p.dump p.toJson :=
  Json.isText_text p.finite_toJson

/-- Dumping and loading are inverse. The dump of a program whose literals fit in a word
is JSON, and what it is read as loads as that program. A program that was loaded from
any value is such a program, so dumping and loading it once more changes nothing. -/
theorem load_dump :
    (∀ p : Program, p.InRange → ∃ j, Json.IsText p.dump j ∧ Json.parse? p.dump = some j ∧
      Program.ofJson j = .ok p) ∧
    ∀ (j : Json) (p : Program), Program.ofJson j = .ok p →
      ∃ j', Json.parse? p.dump = some j' ∧ Program.ofJson j' = .ok p := by
  have hread : ∀ p : Program, Json.parse? p.dump = some p.toJson := fun p =>
    Json.parse?_of_isText p.isText_dump
  constructor
  · intro p hp
    exact ⟨p.toJson, p.isText_dump, hread p, p.ofJson_toJson hp⟩
  · intro j p hload
    exact ⟨p.toJson, hread p, p.ofJson_toJson (Program.inRange_of_ofJson hload)⟩

/-- Names with all kinds of characters, the largest literal, and a missing `else`. -/
def oddNames : Program :=
  ⟨[⟨"\"a\\b\"", ["", "\x00\t\n\x1f\x7f", "é😀"],
      .ifThen (.call "main" [.lit 18446744073709551615, .var "\r"]) (.block [])⟩,
    ⟨"main", [], .ifElse (.binary .ne (.lit 0) (.var "/")) (.print (.lit 1))
      (.block [.ret (.lit 2)])⟩]⟩

/-- A program in JSON without its empty list of formals, and with a truth value for a
literal. -/
def sparse : Json :=
  .object [("functions", .array [.object [("body", .object [("kind", .string "return"),
    ("value", .object [("value", .bool true), ("kind", .string "literal")])]),
    ("name", .string "main")]])]

theorem oddNames_loaded :
    (oddNames.InRange ∧ ∃ j, Json.IsText oddNames.dump j ∧ Json.parse? oddNames.dump = some j ∧
      Program.ofJson j = .ok oddNames) ∧
    Program.ofJson sparse = .ok ⟨[⟨"main", [], .ret (.lit 1)⟩]⟩ ∧
      ∃ j', Json.parse? (Program.dump ⟨[⟨"main", [], .ret (.lit 1)⟩]⟩) = some j' ∧
        Program.ofJson j' = .ok ⟨[⟨"main", [], .ret (.lit 1)⟩]⟩ := by
  have hrange : oddNames.InRange := by
    simp [Program.InRange, oddNames, Stmt.InRange, Stmt.AllInRange, Expr.InRange, Expr.AllInRange,
      wordCount]
  have hsparse : Program.ofJson sparse = .ok ⟨[⟨"main", [], .ret (.lit 1)⟩]⟩ := by
    simp [sparse, Program.ofJson, Function.ofJson, Stmt.ofJson, Expr.ofJson, Json.member?,
      stringMember, exprMember, literalOfJson, word_eq_ok, wordCount]
  exact ⟨⟨hrange, load_dump.1 oddNames hrange⟩, hsparse, load_dump.2 sparse _ hsparse⟩

end FunCompiler
