import FunCompiler.Proofs.Constructs

/-!
The stack under the code of an expression. The depth of the stack is read off
the code: a push and a pop count a word, a reservation and its release count
their bytes, and a call counts nothing. A `Spot` is where the pass came to a
subexpression. Main statement: the code of an expression, whatever it calls, is
straight, never takes more off the stack than it has put there and ends where it
began; each word that it pops is the one that the same operator pushed, and each
actual is stored in the area that its own call reserved, which is on top of the
stack at that moment, so that nothing else on the stack is written.
-/

namespace FunCompiler

open Asm Code

namespace Asm

/-- The bytes by which an item makes the stack deeper. -/
def Item.growth : Item → Int
  | .instr (.push _) => 8
  | .instr (.pop _) => -8
  | .instr (.sub (.immediate bytes) (.register .rsp)) => bytes
  | .instr (.add (.immediate bytes) (.register .rsp)) => -bytes
  | _ => 0

/-- How much deeper the stack is behind some items than in front of them. -/
def depth : List Item → Int
  | [] => 0
  | item :: items => item.growth + depth items

@[simp] theorem depth_nil : depth [] = 0 := rfl

@[simp] theorem depth_cons (item : Item) (items : List Item) :
    depth (item :: items) = item.growth + depth items := rfl

@[simp] theorem depth_append (items more : List Item) :
    depth (items ++ more) = depth items + depth more := by
  induction items with
  | nil => simp
  | cons item items ih => rw [List.cons_append, depth_cons, depth_cons, ih, Int.add_assoc]

theorem depth_take_succ {items : List Item} {k : Nat} {item : Item} (h : items[k]? = some item) :
    depth (items.take (k + 1)) = depth (items.take k) + item.growth := by
  rw [List.take_add_one, h, depth_append]
  simp

/-! ### Balanced code -/

/-- The items leave the stack as deep as they found it, and are never above where they
began. -/
structure Balanced (items : List Item) : Prop where
  total : depth items = 0
  nonneg : ∀ n, 0 ≤ depth (items.take n)

namespace Balanced

theorem nil : Balanced [] := ⟨rfl, fun n => by simp⟩

theorem append {items more : List Item} (h : Balanced items) (h' : Balanced more) :
    Balanced (items ++ more) where
  total := by rw [depth_append, h.total, h'.total, Int.add_zero]
  nonneg n := by
    rw [List.take_append, depth_append]
    exact Int.add_nonneg (h.nonneg n) (h'.nonneg _)

/-- An item that does not move the stack pointer. -/
theorem still {item : Item} (h : item.growth = 0) : Balanced [item] where
  total := by simp [h]
  nonneg n := by cases n <;> simp [h]

theorem of_still {items : List Item} (h : ∀ item ∈ items, item.growth = 0) : Balanced items := by
  induction items with
  | nil => exact .nil
  | cons item items ih =>
      have hitem := still (h item (List.mem_cons_self ..))
      exact hitem.append (ih fun other hother => h other (List.mem_cons_of_mem _ hother))

/-- Balanced code between an item that takes some bytes and one that gives them back. -/
theorem between {first last : Item} {items : List Item} (h : Balanced items)
    (hfirst : 0 ≤ first.growth) (hlast : first.growth + last.growth = 0) :
    Balanced (first :: items ++ [last]) where
  total := by
    simp only [List.cons_append, depth_cons, depth_append, depth_nil, h.total]
    omega
  nonneg n := by
    cases n with
    | zero => simp
    | succ n =>
        have hitems := h.nonneg n
        simp only [List.cons_append, List.take_succ_cons, depth_cons, List.take_append,
          depth_append]
        -- the last item is reached only when the items before it have been passed
        rcases Nat.le_total n items.length with hle | hle
        · rw [Nat.sub_eq_zero_of_le hle]
          simp only [List.take_zero, depth_nil]
          omega
        · rw [List.take_of_length_le hle, h.total]
          cases n - items.length with
          | zero => simpa using hfirst
          | succ k =>
              simp only [List.take_succ_cons, List.take_nil, depth_cons, depth_nil]
              omega

end Balanced

/-! ### What lies on the stack -/

/-- What the item at `k` put on the stack is still there in front of the item at `j`: the
stack has not been lower since. -/
structure Kept (code : List Item) (k j : Nat) : Prop where
  before : k < j
  deep : ∀ n, k < n → n ≤ j → depth (code.take (k + 1)) ≤ depth (code.take n)

/-- What the item at `k` put on the stack is on top of it in front of the item at `j`. -/
structure OnTop (code : List Item) (k j : Nat) : Prop extends Kept code k j where
  top : depth (code.take j) = depth (code.take (k + 1))

/-- Balanced code leaves on top what was on top when it began. -/
theorem OnTop.of_balanced {code inner : List Item} {k : Nat} {item : Item} (h : Balanced inner)
    (hlies : Lies code k (item :: inner)) : OnTop code k (k + 1 + inner.length) := by
  obtain ⟨after, hafter⟩ := hlies
  have hdepth : ∀ m, m ≤ inner.length →
      depth (code.take (k + 1 + m)) =
        depth (code.take k) + item.growth + depth (inner.take m) := by
    intro m hm
    rw [Nat.add_assoc, List.take_add, ← hafter, Nat.add_comm 1 m, List.cons_append,
      List.take_succ_cons, List.take_append_of_le_length hm, depth_append, depth_cons,
      Int.add_assoc]
  have hstart := hdepth 0 (Nat.zero_le _)
  simp only [Nat.add_zero, List.take_zero, depth_nil] at hstart
  refine ⟨⟨by omega, fun n hn hle => ?_⟩, ?_⟩
  · obtain ⟨m, rfl⟩ := Nat.exists_eq_add_of_le (show k + 1 ≤ n from hn)
    have hinner := h.nonneg m
    rw [hstart, hdepth m (by omega)]
    omega
  · rw [hstart, hdepth _ (Nat.le_refl _), List.take_length, h.total]

/-- What else is on the stack lies below what is on top of it. -/
theorem OnTop.below {code : List Item} {k j i : Nat} {item : Item} (h : OnTop code k j)
    (hkept : Kept code i j) (hitem : code[i]? = some item) (hgrowth : 0 < item.growth)
    (hne : i ≠ k) : depth (code.take (i + 1)) ≤ depth (code.take k) := by
  rcases Nat.lt_or_gt_of_ne hne with hlt | hgt
  · exact hkept.deep k hlt (Nat.le_of_lt h.before)
  · -- it would be above, and the top has not moved
    have hup := depth_take_succ hitem
    have hfirst := h.deep i hgt (Nat.le_of_lt hkept.before)
    have hsecond := hkept.deep j hkept.before (Nat.le_refl _)
    have htop := h.top
    omega

end Asm

/-! ### Spots -/

/-- A subexpression, with the tables as they were and the line that was reached when the
pass came to it. -/
structure Spot where
  expr : Expr
  tables : Tables
  start : Nat

mutual

/-- The subexpressions of an expression whose code begins at that line, in the order of
the walk. -/
def Expr.spots (formals : List String) (t : Tables) (start : Nat) : Expr → List Spot
  | .var name => [⟨.var name, t, start⟩]
  | .lit value => [⟨.lit value, t, start⟩]
  | .call callee actuals =>
    ⟨.call callee actuals, t, start⟩ :: Expr.spotsActuals formals t (start + 1) actuals
  | .binary op left right =>
    let first := left.emit formals t
    ⟨.binary op left right, t, start⟩ ::
      (left.spots formals t start ++
        right.spots formals first.2 (start + (first.1.length + 1)))

def Expr.spotsActuals (formals : List String) (t : Tables) (start : Nat) :
    List Expr → List Spot
  | [] => []
  | e :: es =>
    let first := e.emit formals t
    e.spots formals t start ++
      Expr.spotsActuals formals first.2 (start + (first.1.length + 1)) es

end

namespace Spot

def code (formals : List String) (spot : Spot) : List Item :=
  (spot.expr.emit formals spot.tables).1

/-- The spot is an operator that pushes its left operand in line `i` and wants it back in
line `j`. -/
inductive TakesBack (formals : List String) : Spot → Nat → Nat → Prop
  | binary (op : Operator) (left right : Expr) (t : Tables) (start : Nat) :
      TakesBack formals ⟨.binary op left right, t, start⟩
        (start + (left.emit formals t).1.length)
        (start + (left.emit formals t).1.length + 1 +
          (right.emit formals (left.emit formals t).2).1.length)

/-- The spot is a call that stores its actual of that index in line `j`: the store is the
last item for the actuals up to this one, and the reservation stands in front of them. -/
inductive Passes (formals : List String) : Spot → Nat → Nat → Prop
  | call (callee : String) (actuals : List Expr) (t : Tables) (start : Nat) {index : Nat}
      (hindex : index < actuals.length) :
      Passes formals ⟨.call callee actuals, t, start⟩ index
        (start + (Expr.emitActuals formals 0 (actuals.take (index + 1)) t).1.length)

end Spot

mutual

/-- The spots of an expression are the nodes that a walk meets in it. -/
theorem Expr.spots_walk (formals : List String) (t : Tables) (start : Nat) (e : Expr) :
    (e.spots formals t start).map (fun spot => Node.expr spot.expr) = e.walk := by
  cases e with
  | var name => rfl
  | lit value => rfl
  | call callee actuals =>
      simp [Expr.spots, Expr.walk, Expr.spotsActuals_walk formals t (start + 1) actuals]
  | binary op left right =>
      simp [Expr.spots, Expr.walk, Expr.spots_walk formals _ _ left,
        Expr.spots_walk formals _ _ right]

theorem Expr.spotsActuals_walk (formals : List String) (t : Tables) (start : Nat)
    (es : List Expr) :
    (Expr.spotsActuals formals t start es).map (fun spot => Node.expr spot.expr) =
      Expr.walkAll es := by
  cases es with
  | nil => rfl
  | cons e es =>
      simp [Expr.spotsActuals, Expr.walkAll, Expr.spots_walk formals t start e,
        Expr.spotsActuals_walk formals _ _ es]

end

/-- The code of a call with actuals. -/
theorem Expr.code_call_cons (formals : List String) (t : Tables) (callee : String) (e : Expr)
    (es : List Expr) :
    ((Expr.call callee (e :: es)).emit formals t).1 =
      .instr (.sub (.immediate (reservedBytes (es.length + 1))) Register.rsp) ::
        ((Expr.emitActuals formals 0 (e :: es) t).1 ++ [.instr (.call (.function callee)),
          .instr (.add (.immediate (reservedBytes (es.length + 1))) Register.rsp)]) := by
  simp [Expr.emit_call, reserving]

mutual

/-- The code of a subexpression lies where its spot says. -/
theorem Expr.lies_spots {formals : List String} {t : Tables} {user : List Item} {start : Nat}
    {e : Expr} (h : Lies user start (e.emit formals t).1) :
    ∀ spot ∈ e.spots formals t start, Lies user spot.start (spot.code formals) := by
  intro spot hspot
  cases e with
  | var name =>
      rw [List.mem_singleton.1 hspot]
      exact h
  | lit value =>
      rw [List.mem_singleton.1 hspot]
      exact h
  | call callee actuals =>
      rcases List.mem_cons.1 hspot with rfl | hspot
      · exact h
      cases actuals with
      | nil => cases hspot
      | cons e es =>
          rw [Expr.code_call_cons] at h
          exact Expr.lies_spotsActuals h.tail.left spot hspot
  | binary op left right =>
      rcases List.mem_cons.1 hspot with rfl | hspot
      · exact h
      rw [Expr.emit_binary, List.append_assoc] at h
      rcases List.mem_append.1 hspot with hspot | hspot
      · exact Expr.lies_spots h.left spot hspot
      · exact Expr.lies_spots h.right.tail.left spot hspot

theorem Expr.lies_spotsActuals {formals : List String} {t : Tables} {user : List Item}
    {start index : Nat} {es : List Expr}
    (h : Lies user start (Expr.emitActuals formals index es t).1) :
    ∀ spot ∈ Expr.spotsActuals formals t start es, Lies user spot.start (spot.code formals) := by
  intro spot hspot
  cases es with
  | nil => cases hspot
  | cons e es =>
      rw [Expr.emitActuals_cons] at h
      rcases List.mem_append.1 hspot with hspot | hspot
      · exact Expr.lies_spots h.left spot hspot
      · exact Expr.lies_spotsActuals h.right.tail spot hspot

end

/-! ### Expressions are balanced -/

theorem Code.balanced_operatorCode (op : Operator) : Balanced (operatorCode op) :=
  .of_still (by cases op <;> simp [operatorCode, operatorCode.compare, Item.growth])

mutual

theorem Expr.balanced (formals : List String) (t : Tables) (e : Expr) :
    Balanced (e.emit formals t).1 := by
  cases e with
  | var name => exact .still rfl
  | lit value => exact .still rfl
  | call callee actuals =>
      have hcall : Balanced ((Expr.emitActuals formals 0 actuals t).1 ++
          [.instr (.call (.function callee))]) :=
        (Expr.balancedActuals formals t 0 actuals).append (.still rfl)
      rw [Expr.emit_call]
      unfold reserving
      split
      · exact hcall
      · refine hcall.between ?_ ?_
        · simp only [Item.growth, reservedBytes]
          omega
        · simp only [Item.growth]
          omega
  | binary op left right =>
      have hleft := Expr.balanced formals t left
      have hright := Expr.balanced formals (left.emit formals t).2 right
      have hoperand : Balanced (.instr (.push .rax) ::
          (right.emit formals (left.emit formals t).2).1 ++ [.instr (.pop .rcx)]) :=
        hright.between (by decide) (by decide)
      rw [Expr.emit_binary]
      simpa using (hleft.append hoperand).append (balanced_operatorCode op)

theorem Expr.balancedActuals (formals : List String) (t : Tables) (index : Nat)
    (es : List Expr) : Balanced (Expr.emitActuals formals index es t).1 := by
  cases es with
  | nil => exact .nil
  | cons e es =>
      have hstore : Balanced [storeActual index] := .still rfl
      rw [Expr.emitActuals_cons]
      exact (Expr.balanced formals t e).append
        (hstore.append (Expr.balancedActuals formals _ (index + 1) es))

end

/-! ### Whose items reach into the stack -/

/-- The item takes a word off the stack, or writes to a word by its distance from the
stack pointer. -/
def Asm.Item.reaches : Item → Bool
  | .instr (.pop _) => true
  | .instr (.mov _ (.stack _ .rsp)) => true
  | _ => false

/-- The item in line `j` is one by which the spot itself reaches into the stack. -/
inductive Spot.Owns (formals : List String) (spot : Spot) : Item → Nat → Prop
  | operand {i j : Nat} (h : spot.TakesBack formals i j) :
      Owns formals spot (.instr (.pop .rcx)) j
  | actual {index j : Nat} (h : spot.Passes formals index j) :
      Owns formals spot (storeActual index) j

/-- An item of a list stands in front of a given one, is that one, or stands behind it. -/
theorem Asm.getElem?_cases {items more : List Item} {item other : Item} {j : Nat}
    (h : (items ++ item :: more)[j]? = some other) :
    items[j]? = some other ∨ (j = items.length ∧ other = item) ∨
      ∃ k, j = items.length + 1 + k ∧ more[k]? = some other := by
  rcases Nat.lt_trichotomy j items.length with hlt | rfl | hgt
  · rw [List.getElem?_append_left hlt] at h
    exact .inl h
  · simp only [List.getElem?_append_right (Nat.le_refl _), Nat.sub_self, List.getElem?_cons_zero,
      Option.some.injEq] at h
    exact .inr (.inl ⟨rfl, h.symm⟩)
  · obtain ⟨k, rfl⟩ := Nat.exists_eq_add_of_le (show items.length + 1 ≤ j from hgt)
    rw [Nat.add_assoc, List.getElem?_append_right (Nat.le_add_right _ _), Nat.add_sub_cancel_left,
      Nat.add_comm 1 k, List.getElem?_cons_succ] at h
    exact .inr (.inr ⟨k, rfl, h⟩)

theorem Code.reaches_operatorCode (op : Operator) :
    ∀ item ∈ operatorCode op, item.reaches = false := by
  cases op <;> simp [operatorCode, operatorCode.compare, Item.reaches]

mutual

theorem Expr.owned {formals : List String} {t : Tables} {e : Expr} (start : Nat) {item : Item}
    {j : Nat} (h : (e.emit formals t).1[j]? = some item) (hitem : item.reaches = true) :
    ∃ spot ∈ e.spots formals t start, spot.Owns formals item (start + j) := by
  cases e with
  | var name =>
      have hmem := List.mem_of_getElem? h
      rw [Expr.emit_var, List.mem_singleton] at hmem
      subst hmem
      cases hitem
  | lit value =>
      have hmem := List.mem_of_getElem? h
      rw [Expr.emit_lit, List.mem_singleton] at hmem
      subst hmem
      cases hitem
  | call callee actuals =>
      cases actuals with
      | nil =>
          have hmem := List.mem_of_getElem? h
          rw [Expr.emit_call, List.length_nil, Expr.emitActuals_nil] at hmem
          rw [List.mem_singleton.1 hmem] at hitem
          cases hitem
      | cons e es =>
          rw [Expr.code_call_cons] at h
          cases j with
          | zero =>
              cases h
              cases hitem
          | succ j =>
              rcases getElem?_cases h with hactuals | ⟨-, rfl⟩ | ⟨_, -, hadd⟩
              · rcases Expr.ownedActuals (start + 1) 0 hactuals hitem with
                  ⟨spot, hspot, howns⟩ | ⟨index, hindex, rfl, hj⟩
                · refine ⟨spot, List.mem_cons_of_mem _ hspot, ?_⟩
                  rwa [Nat.add_assoc, Nat.add_comm 1 j] at howns
                · rw [hj, Nat.zero_add]
                  exact ⟨_, List.mem_cons_self .., .actual (.call callee (e :: es) t start hindex)⟩
              · cases hitem
              · rw [List.mem_singleton.1 (List.mem_of_getElem? hadd)] at hitem
                cases hitem
  | binary op left right =>
      rw [Expr.emit_binary, List.append_assoc] at h
      rcases getElem?_cases h with hleft | ⟨-, rfl⟩ | ⟨k, rfl, hmore⟩
      · obtain ⟨spot, hspot, howns⟩ := Expr.owned start hleft hitem
        exact ⟨spot, List.mem_cons_of_mem _ (List.mem_append_left _ hspot), howns⟩
      · cases hitem
      rcases getElem?_cases hmore with hright | ⟨rfl, rfl⟩ | ⟨_, -, hoperator⟩
      · obtain ⟨spot, hspot, howns⟩ :=
          Expr.owned (start + ((left.emit formals t).1.length + 1)) hright hitem
        refine ⟨spot, List.mem_cons_of_mem _ (List.mem_append_right _ hspot), ?_⟩
        rwa [Nat.add_assoc start] at howns
      · refine ⟨_, List.mem_cons_self .., .operand (i := start + (left.emit formals t).1.length) ?_⟩
        rw [← Nat.add_assoc, ← Nat.add_assoc]
        exact .binary op left right t start
      · rw [reaches_operatorCode op item (List.mem_of_getElem? hoperator)] at hitem
        cases hitem

/-- In the code for some actuals, an item that reaches into the stack belongs to one of
them, or stores one of them. -/
theorem Expr.ownedActuals {formals : List String} {t : Tables} {es : List Expr}
    (start index : Nat) {item : Item} {j : Nat}
    (h : (Expr.emitActuals formals index es t).1[j]? = some item) (hitem : item.reaches = true) :
    (∃ spot ∈ Expr.spotsActuals formals t start es, spot.Owns formals item (start + j)) ∨
    ∃ i < es.length, item = storeActual (index + i) ∧
      j + 1 = (Expr.emitActuals formals index (es.take (i + 1)) t).1.length := by
  cases es with
  | nil => cases h
  | cons e es =>
      rw [Expr.emitActuals_cons] at h
      rcases getElem?_cases h with hfirst | ⟨rfl, rfl⟩ | ⟨k, rfl, hrest⟩
      · obtain ⟨spot, hspot, howns⟩ := Expr.owned start hfirst hitem
        exact .inl ⟨spot, List.mem_append_left _ hspot, howns⟩
      · refine .inr ⟨0, Nat.succ_pos _, rfl, ?_⟩
        simp [Expr.emitActuals_cons, Expr.emitActuals_nil]
      · rcases Expr.ownedActuals (start + ((e.emit formals t).1.length + 1)) (index + 1) hrest hitem
          with ⟨spot, hspot, howns⟩ | ⟨i, hi, rfl, hj⟩
        · refine .inl ⟨spot, List.mem_append_right _ hspot, ?_⟩
          rwa [Nat.add_assoc start] at howns
        · refine .inr ⟨i + 1, Nat.succ_lt_succ hi, by rw [Nat.add_right_comm, Nat.add_assoc], ?_⟩
          rw [List.take_succ_cons, Expr.emitActuals_cons]
          simp only [List.length_append, List.length_cons, ← hj]
          omega

end

/-- The code for some actuals up to the store of one of them. -/
theorem Expr.emitActuals_upTo (formals : List String) (t : Tables) (first : Nat) {es : List Expr}
    {index : Nat} (h : index < es.length) :
    ∃ inner after, Balanced inner ∧
      (Expr.emitActuals formals first es t).1 = inner ++ storeActual (first + index) :: after ∧
      (Expr.emitActuals formals first (es.take (index + 1)) t).1.length = inner.length + 1 := by
  induction es generalizing t first index with
  | nil => cases h
  | cons e es ih =>
      cases index with
      | zero =>
          refine ⟨_, _, e.balanced formals t, by rw [Expr.emitActuals_cons]; rfl, ?_⟩
          simp [Expr.emitActuals_cons, Expr.emitActuals_nil]
      | succ index =>
          obtain ⟨inner, after, hinner, hcode, hlength⟩ :=
            ih (e.emit formals t).2 (first + 1) (Nat.lt_of_succ_lt_succ h)
          have hstore : Balanced [storeActual first] := .still rfl
          refine ⟨(e.emit formals t).1 ++ ([storeActual first] ++ inner), after,
            (e.balanced formals t).append (hstore.append hinner), ?_, ?_⟩
          · rw [Expr.emitActuals_cons, hcode, Nat.add_right_comm, Nat.add_assoc first]
            simp
          · rw [List.take_succ_cons, Expr.emitActuals_cons]
            simp [hlength, Nat.add_assoc]

/-! ### The discipline -/

/-- How code with the given spots treats the stack. -/
structure Disciplined (formals : List String) (code : List Item) (spots : List Spot) : Prop where
  labels : labels code = []
  jumps : jumps code = []
  nonneg : ∀ n, 0 ≤ depth (code.take n)
  total : depth code = 0
  /-- Only operators pop, and only their left operands. -/
  pops : ∀ j r, code[j]? = some (.instr (.pop r)) →
    r = .rcx ∧ ∃ spot ∈ spots, ∃ i, spot.TakesBack formals i j
  /-- The word that an operator pops is the one that it has pushed. -/
  operands : ∀ spot ∈ spots, ∀ i j, spot.TakesBack formals i j →
    code[i]? = some (.instr (.push .rax)) ∧ code[j]? = some (.instr (.pop .rcx)) ∧ OnTop code i j
  /-- Only calls store by the distance from the stack pointer, and only their actuals. -/
  stores : ∀ j source offset, code[j]? = some (.instr (.mov source (.stack offset .rsp))) →
    source = .register .rax ∧
      ∃ spot ∈ spots, ∃ index, offset = 8 * (index : Nat) ∧ spot.Passes formals index j
  /-- An actual is stored in the area of its own call, which is on top of the stack then,
  and away from all else that is on the stack. -/
  actuals : ∀ spot ∈ spots, ∀ index j, spot.Passes formals index j →
    ∃ bytes, code[spot.start]? = some (.instr (.sub (.immediate bytes) Register.rsp)) ∧
      code[j]? = some (storeActual index) ∧ OnTop code spot.start j ∧ 8 * index + 8 ≤ bytes ∧
      ∀ i item, code[i]? = some item → 0 < item.growth → Kept code i j → i ≠ spot.start →
        depth (code.take (i + 1)) ≤ depth (code.take j) - (8 * index + 8)

theorem Lies.getElem?_self {code piece : List Item} {k : Nat} {item : Item}
    (h : Lies code k (item :: piece)) : code[k]? = some item := by
  simpa using h.getElem? []

/-- An operator finds its left operand on top of the stack. -/
theorem Spot.TakesBack.onTop {formals : List String} {code : List Item} {spot : Spot} {i j : Nat}
    (h : spot.TakesBack formals i j) (hlies : Lies code spot.start (spot.code formals)) :
    code[i]? = some (.instr (.push .rax)) ∧ code[j]? = some (.instr (.pop .rcx)) ∧
      OnTop code i j := by
  obtain ⟨op, left, right, t, start⟩ := h
  have hpush : Lies code (start + (left.emit formals t).1.length)
      (.instr (.push .rax) :: (right.emit formals (left.emit formals t).2).1 ++
        .instr (.pop .rcx) :: operatorCode op) := by
    rw [Spot.code, Expr.emit_binary, List.append_assoc] at hlies
    exact hlies.right
  exact ⟨hpush.left.getElem?_self, hpush.tail.right.getElem?_self,
    .of_balanced (right.balanced formals _) hpush.left⟩

/-- A call finds the area that it has reserved on top of the stack. -/
theorem Spot.Passes.onTop {formals : List String} {code : List Item} {spot : Spot}
    {index j : Nat} (h : spot.Passes formals index j)
    (hlies : Lies code spot.start (spot.code formals)) :
    ∃ bytes, code[spot.start]? = some (.instr (.sub (.immediate bytes) Register.rsp)) ∧
      code[j]? = some (storeActual index) ∧ OnTop code spot.start j ∧ 8 * index + 8 ≤ bytes := by
  obtain ⟨callee, actuals, t, start, hindex⟩ := h
  cases actuals with
  | nil => cases hindex
  | cons e es =>
      obtain ⟨inner, after, hinner, hcode, hlength⟩ := Expr.emitActuals_upTo formals t 0 hindex
      rw [Spot.code, Expr.code_call_cons, hcode, Nat.zero_add, List.append_assoc,
        ← List.cons_append] at hlies
      rw [hlength, Nat.add_comm inner.length, ← Nat.add_assoc]
      refine ⟨_, hlies.left.getElem?_self, hlies.tail.right.getElem?_self,
        .of_balanced hinner hlies.left, ?_⟩
      simp only [List.length_cons] at hindex
      simp only [reservedBytes]
      omega

/-- The code of an expression keeps to the stack discipline, whatever it calls and with
whatever actuals, and its spots are all its subexpressions. -/
theorem Expr.emit_disciplined (formals : List String) (t : Tables) (e : Expr) :
    (e.spots formals t 0).map (fun spot => Node.expr spot.expr) = e.walk ∧
      Disciplined formals (e.emit formals t).1 (e.spots formals t 0) := by
  have hlies := Expr.lies_spots (show Lies _ 0 (e.emit formals t).1 from List.prefix_refl _)
  have howned : ∀ {j item}, (e.emit formals t).1[j]? = some item → item.reaches = true →
      ∃ spot ∈ e.spots formals t 0, spot.Owns formals item j := by
    intro j item hj hitem
    simpa using Expr.owned 0 hj hitem
  refine ⟨e.spots_walk formals t 0, ?_⟩
  constructor
  case labels => exact e.labels_code formals t
  case jumps => exact e.jumps_code formals t
  case nonneg => exact (e.balanced formals t).nonneg
  case total => exact (e.balanced formals t).total
  case pops =>
    intro j r hj
    obtain ⟨spot, hspot, howns⟩ := howned hj rfl
    cases howns with
    | operand h => exact ⟨rfl, spot, hspot, _, h⟩
  case operands => exact fun spot hspot i j h => h.onTop (hlies spot hspot)
  case stores =>
    intro j source offset hj
    obtain ⟨spot, hspot, howns⟩ := howned hj rfl
    generalize hitem : Item.instr (.mov source (.stack offset .rsp)) = item at howns
    cases howns with
    | operand h => cases hitem
    | actual h =>
        cases hitem
        exact ⟨rfl, spot, hspot, _, rfl, h⟩
  case actuals =>
    intro spot hspot index j h
    obtain ⟨bytes, hsub, hstore, htop, hbytes⟩ := h.onTop (hlies spot hspot)
    refine ⟨bytes, hsub, hstore, htop, hbytes, fun i item hitem hgrowth hkept hne => ?_⟩
    have hbelow := htop.below hkept hitem hgrowth hne
    have harea := depth_take_succ hsub
    rw [htop.top, harea]
    simp only [Item.growth]
    omega

end FunCompiler
