import Mathlib.Data.Set.Card
import FunCompiler.Proofs.Accepted

/-!
What the checks of a program report. A node is found by its address, the way
down from the root with a child's number for every step; the address of a node
comes before those of the nodes below it, and these come in the order of the
children. A walk meets the nodes of a tree by increasing address, each once, so
the checks report every call that has a problem once, under the function that
holds it, and an outer call before the calls in its actuals.
-/

namespace FunCompiler

/-! ### Addresses -/

namespace Node

/-- The nodes right below a node, in the order in which they are written. -/
def children : Node → List Node
  | .program p => p.functions.map .function
  | .function f => [.stmt f.body]
  | .stmt (.assign _ value) => [.expr value]
  | .stmt (.print value) => [.expr value]
  | .stmt (.ifThen cond yes) => [.expr cond, .stmt yes]
  | .stmt (.ifElse cond yes no) => [.expr cond, .stmt yes, .stmt no]
  | .stmt (.loop cond body) => [.expr cond, .stmt body]
  | .stmt (.block body) => body.map .stmt
  | .stmt (.ret value) => [.expr value]
  | .expr (.var _) => []
  | .expr (.lit _) => []
  | .expr (.call _ actuals) => actuals.map .expr
  | .expr (.binary _ left right) => [.expr left, .expr right]

/-- The node at an address below a node. -/
def at? : Node → List Nat → Option Node
  | n, [] => some n
  | n, i :: a => n.children[i]?.bind (·.at? a)

def walk : Node → List Node
  | .program p => p.walk
  | .function f => f.walk
  | .stmt s => s.walk
  | .expr e => e.walk

end Node

theorem Expr.walkAll_eq (es : List Expr) : Expr.walkAll es = es.flatMap Expr.walk := by
  induction es with
  | nil => rfl
  | cons e es ih => rw [Expr.walkAll, ih, List.flatMap_cons]

theorem Stmt.walkAll_eq (ss : List Stmt) : Stmt.walkAll ss = ss.flatMap Stmt.walk := by
  induction ss with
  | nil => rfl
  | cons s ss ih => rw [Stmt.walkAll, ih, List.flatMap_cons]

namespace Node

/-- A walk meets a node first and then, child by child, what is below it. -/
theorem walk_eq (n : Node) : n.walk = n :: n.children.flatMap walk := by
  cases n with
  | program p => simp [walk, children, Program.walk, List.flatMap_map]
  | function f => simp [walk, children, Function.walk]
  | stmt s => cases s <;> simp [walk, children, Stmt.walk, Stmt.walkAll_eq, List.flatMap_map]
  | expr e => cases e <;> simp [walk, children, Expr.walk, Expr.walkAll_eq, List.flatMap_map]

theorem sizeOf_lt_of_mem_children {n child : Node} (h : child ∈ n.children) :
    sizeOf child < sizeOf n := by
  cases n with
  | program p =>
      obtain ⟨f, hf, rfl⟩ := List.mem_map.1 h
      have hlt := List.sizeOf_lt_of_mem hf
      have hp : sizeOf p = 1 + sizeOf p.functions := rfl
      simp only [program.sizeOf_spec, function.sizeOf_spec]
      omega
  | function f =>
      obtain rfl := List.mem_singleton.1 h
      have hf : sizeOf f = 1 + sizeOf f.name + sizeOf f.formals + sizeOf f.body := rfl
      simp only [function.sizeOf_spec, stmt.sizeOf_spec]
      omega
  | stmt s =>
      cases s with
      | block body =>
          obtain ⟨s, hs, rfl⟩ := List.mem_map.1 h
          have hlt := List.sizeOf_lt_of_mem hs
          simp only [stmt.sizeOf_spec, Stmt.block.sizeOf_spec]
          omega
      | _ =>
          simp only [children, List.mem_cons, List.not_mem_nil, or_false] at h
          grind
  | expr e =>
      cases e with
      | var name => cases h
      | lit value => cases h
      | call callee actuals =>
          obtain ⟨e, he, rfl⟩ := List.mem_map.1 h
          have hlt := List.sizeOf_lt_of_mem he
          simp only [expr.sizeOf_spec, Expr.call.sizeOf_spec]
          omega
      | binary op left right =>
          simp only [children, List.mem_cons, List.not_mem_nil, or_false] at h
          grind

end Node

/-! ### What is found at addresses -/

section

variable {ι α β γ : Type} [LT ι]

/-- The values that are found at all addresses, by increasing address. -/
def Listed (find? : ι → Option α) (values : List α) : Prop :=
  ∃ addresses : List ι, addresses.Pairwise (· < ·) ∧ (∀ a, a ∈ addresses ↔ (find? a).isSome) ∧
    addresses.filterMap find? = values

namespace Listed

theorem filterMap {find? : ι → Option α} {values : List α} (h : Listed find? values)
    (f : α → Option β) : Listed (fun a => (find? a).bind f) (values.filterMap f) := by
  obtain ⟨addresses, hsorted, hmem, rfl⟩ := h
  refine ⟨addresses.filter fun a => ((find? a).bind f).isSome, hsorted.filter _, fun a => ?_, ?_⟩
  · rw [List.mem_filter, hmem]
    cases hfind : find? a <;> simp [hfind]
  · rw [List.filterMap_filter, List.filterMap_filterMap]
    congr 1
    funext a
    cases (find? a).bind f <;> rfl

/-- The next child of a node has a number that is greater by one. -/
def bump : List Nat → List Nat
  | [] => []
  | i :: a => (i + 1) :: a

theorem bump_lt_bump {a b : List Nat} (h : a < b) : bump a < bump b := by
  cases b with
  | nil => exact absurd h (List.not_lt_nil a)
  | cons j b =>
      cases a with
      | nil => exact List.nil_lt_cons ..
      | cons i a =>
          rw [List.cons_lt_cons_iff] at h
          rcases h with hlt | ⟨rfl, hlt⟩
          · exact List.cons_lt_cons_iff.2 (.inl (Nat.succ_lt_succ hlt))
          · exact List.cons_lt_cons_iff.2 (.inr ⟨rfl, hlt⟩)

/-- What is found below the elements of a list: the first step of an address says which
element. -/
def below (find? : γ → List Nat → Option α) (xs : List γ) : List Nat → Option α
  | [] => none
  | i :: a => xs[i]?.bind (find? · a)

theorem below_cons (find? : γ → List Nat → Option α) (x : γ) (xs : List γ) (a : List Nat) :
    below find? (x :: xs) (bump a) = below find? xs a := by
  cases a <;> rfl

theorem flatMap {find? : γ → List Nat → Option α} {values : γ → List α} {xs : List γ}
    (h : ∀ x ∈ xs, Listed (find? x) (values x)) :
    Listed (below find? xs) (xs.flatMap values) := by
  induction xs with
  | nil => exact ⟨[], .nil, fun a => by cases a <;> simp [below], rfl⟩
  | cons x xs ih =>
      obtain ⟨first, hfirst, hmemFirst, hvalues⟩ := h x (List.mem_cons_self ..)
      obtain ⟨rest, hrest, hmemRest, hmore⟩ := ih fun y hy => h y (List.mem_cons_of_mem _ hy)
      refine ⟨first.map (0 :: ·) ++ rest.map bump, ?_, fun a => ?_, ?_⟩
      · rw [List.pairwise_append, List.pairwise_map, List.pairwise_map]
        refine ⟨hfirst.imp fun hab => List.cons_lt_cons_iff.2 (.inr ⟨rfl, hab⟩),
          hrest.imp bump_lt_bump, ?_⟩
        simp only [List.forall_mem_map]
        intro a _ b hb
        cases b with
        | nil => cases (hmemRest []).1 hb
        | cons j b => exact List.cons_lt_cons_iff.2 (.inl (Nat.succ_pos j))
      · rw [List.mem_append, List.mem_map, List.mem_map]
        constructor
        · rintro (⟨a, ha, rfl⟩ | ⟨a, ha, rfl⟩)
          · exact (hmemFirst a).1 ha
          · rw [below_cons]
            exact (hmemRest a).1 ha
        · intro hfound
          match a with
          | [] => cases hfound
          | 0 :: a => exact .inl ⟨a, (hmemFirst a).2 hfound, rfl⟩
          | (i + 1) :: a => exact .inr ⟨i :: a, (hmemRest (i :: a)).2 hfound, rfl⟩
      · rw [List.filterMap_append, List.filterMap_map, List.filterMap_map, List.flatMap_cons,
          ← hvalues, ← hmore]
        congr 1
        exact congrArg (List.filterMap · rest) (funext (below_cons find? x xs))

end Listed

end

/-- A walk meets the nodes of a tree by increasing address. -/
theorem Node.listed_walk (n : Node) : Listed n.at? n.walk := by
  obtain ⟨addresses, hsorted, hmem, hwalk⟩ :=
    Listed.flatMap fun child (_ : child ∈ n.children) => child.listed_walk
  have hsteps : ∀ a ∈ addresses, [] < a ∧ Listed.below at? n.children a = n.at? a := by
    intro a ha
    cases a with
    | nil => cases (hmem []).1 ha
    | cons i a => exact ⟨List.nil_lt_cons .., rfl⟩
  refine ⟨[] :: addresses, List.pairwise_cons.2 ⟨fun a ha => (hsteps a ha).1, hsorted⟩,
    fun a => ?_, ?_⟩
  · cases a with
    | nil => simp [at?]
    | cons i a =>
        rw [List.mem_cons, hmem]
        exact ⟨fun h => h.resolve_left nofun, .inr⟩
  · rw [walk_eq, ← hwalk, List.filterMap_congr fun a ha => (hsteps a ha).2]
    rfl
termination_by sizeOf n
decreasing_by exact sizeOf_lt_of_mem_children ‹_›

/-! ### What is reported -/

section

variable {ι α : Type}

theorem forall₂_filterMap {find? : ι → Option α} {addresses : List ι}
    (h : ∀ a ∈ addresses, (find? a).isSome) :
    List.Forall₂ (fun a v => find? a = some v) addresses (addresses.filterMap find?) := by
  induction addresses with
  | nil => exact .nil
  | cons a addresses ih =>
      obtain ⟨v, hv⟩ := Option.isSome_iff_exists.1 (h a (List.mem_cons_self ..))
      rw [List.filterMap_cons_some hv]
      exact .cons hv (ih fun b hb => h b (List.mem_cons_of_mem _ hb))

variable [LT ι]

/-- One value for every address that has one, by increasing address. -/
def InOrder (relation : ι → α → Prop) (values : List α) : Prop :=
  ∃ addresses : List ι, addresses.Pairwise (· < ·) ∧
    (∀ a, a ∈ addresses ↔ ∃ v, relation a v) ∧ List.Forall₂ relation addresses values

theorem Listed.inOrder {find? : ι → Option α} {relation : ι → α → Prop} {values : List α}
    (h : Listed find? values) (hrelation : ∀ a v, find? a = some v ↔ relation a v) :
    InOrder relation values := by
  obtain ⟨addresses, hsorted, hmem, rfl⟩ := h
  refine ⟨addresses, hsorted, fun a => ?_, ?_⟩
  · simp only [hmem, Option.isSome_iff_exists, hrelation]
  · simpa only [hrelation] using forall₂_filterMap fun a ha => (hmem a).1 ha

theorem InOrder.ncard_eq [Std.Irrefl fun a b : ι => a < b] {relation : ι → α → Prop}
    {values : List α} (h : InOrder relation values) :
    {a | ∃ v, relation a v}.ncard = values.length := by
  classical
  obtain ⟨addresses, hsorted, hmem, hvalues⟩ := h
  have hnodup : addresses.Nodup := by
    refine List.Pairwise.imp ?_ hsorted
    rintro a _ hlt rfl
    exact Std.Irrefl.irrefl a hlt
  have hset : {a | ∃ v, relation a v} = (addresses.toFinset : Set ι) := by
    ext a
    simp [hmem]
  rw [hset, Set.ncard_coe_finset, List.toFinset_card_of_nodup hnodup, hvalues.length_eq]

theorem InOrder.eq_nil_iff {relation : ι → α → Prop} {values : List α}
    (h : InOrder relation values) : values = [] ↔ ∀ a v, ¬relation a v := by
  obtain ⟨addresses, -, hmem, hvalues⟩ := h
  constructor
  · rintro rfl a v hv
    cases hvalues
    exact absurd ((hmem a).2 ⟨v, hv⟩) List.not_mem_nil
  · intro hnone
    cases hvalues with
    | nil => rfl
    | cons hv _ => exact absurd hv (hnone _ _)

end

theorem Listed.cons {α : Type} {find? : Nat → Option α} {values : List α}
    (h : Listed (fun i => find? (i + 1)) values) :
    Listed find? ((find? 0).toList ++ values) := by
  obtain ⟨addresses, hsorted, hmem, rfl⟩ := h
  have hlater : (addresses.map (· + 1)).Pairwise (· < ·) :=
    List.pairwise_map.2 (hsorted.imp Nat.succ_lt_succ)
  have hvalues : (addresses.map (· + 1)).filterMap find? =
      addresses.filterMap fun i => find? (i + 1) := List.filterMap_map ..
  have hmemLater : ∀ i, i + 1 ∈ addresses.map (· + 1) ↔ (find? (i + 1)).isSome := by
    simp [hmem]
  cases hzero : find? 0 with
  | none =>
      refine ⟨addresses.map (· + 1), hlater, fun i => ?_, hvalues⟩
      cases i with
      | zero => simp [hzero]
      | succ i => exact hmemLater i
  | some v =>
      refine ⟨0 :: addresses.map (· + 1), List.pairwise_cons.2 ⟨by simp, hlater⟩, fun i => ?_, ?_⟩
      · cases i with
        | zero => simp [hzero]
        | succ i => simpa using hmemLater i
      · rw [List.filterMap_cons_some hzero, hvalues]
        rfl

/-- The diagnostic of the function of that index, if its name is an earlier one's. -/
def duplicate? (earlier : List String) (fs : List Function) (i : Nat) : Option Diagnostic :=
  fs[i]?.bind fun f =>
    if f.name ∈ earlier ++ (fs.take i).map (·.name) then some ⟨.duplicate f.name, none⟩ else none

theorem listed_duplicates (earlier : List String) (fs : List Function) :
    Listed (duplicate? earlier fs) (duplicates earlier fs) := by
  induction fs generalizing earlier with
  | nil => exact ⟨[], .nil, by simp [duplicate?], rfl⟩
  | cons f fs ih =>
      have hlater : (fun i => duplicate? earlier (f :: fs) (i + 1)) =
          duplicate? (f.name :: earlier) fs := by
        funext i
        simp [duplicate?, or_left_comm]
      unfold duplicates
      split
      · rename_i hmem
        -- a name that is repeated once more is no news for the functions behind
        have hsame : duplicate? (f.name :: earlier) fs = duplicate? earlier fs := by
          funext i
          simp only [duplicate?, List.cons_append, List.mem_cons, List.mem_append]
          grind
        have hzero : duplicate? earlier (f :: fs) 0 = some ⟨.duplicate f.name, none⟩ := by
          simp [duplicate?, hmem]
        have h := ih earlier
        rw [← hsame, ← hlater] at h
        simpa [hzero] using h.cons
      · rename_i hnew
        have hzero : duplicate? earlier (f :: fs) 0 = none := by
          simp [duplicate?, hnew]
        have h := ih (f.name :: earlier)
        rw [← hlater] at h
        simpa [hzero] using h.cons

namespace Program

/-- The function is the first of that name. -/
def Defines (p : Program) (name : String) (f : Function) : Prop :=
  ∃ before after, p.functions = before ++ f :: after ∧ f.name = name ∧
    ∀ g ∈ before, g.name ≠ name

/-- The function of that index has the name of an earlier one. -/
inductive Repeats (p : Program) : Nat → Diagnostic → Prop
  | mk {i : Nat} {f : Function} (function : p.functions[i]? = some f)
      (earlier : f.name ∈ (p.functions.take i).map (·.name)) :
      Repeats p i ⟨.duplicate f.name, none⟩

/-- The function of the first index holds a call, at the rest of the address in its body, to a
function that does not exist or whose first definition takes another number of actuals. -/
inductive Miscalls (p : Program) : List Nat → Diagnostic → Prop
  | undefined {i : Nat} {a : List Nat} {f : Function} {callee : String} {actuals : List Expr}
      (function : p.functions[i]? = some f)
      (call : (Node.stmt f.body).at? a = some (.expr (.call callee actuals)))
      (missing : ∀ g ∈ p.functions, g.name ≠ callee) :
      Miscalls p (i :: a) ⟨.undefined callee, some f.name⟩
  | arity {i : Nat} {a : List Nat} {f g : Function} {callee : String} {actuals : List Expr}
      (function : p.functions[i]? = some f)
      (call : (Node.stmt f.body).at? a = some (.expr (.call callee actuals)))
      (first : p.Defines callee g) (differs : g.formals.length ≠ actuals.length) :
      Miscalls p (i :: a) ⟨.arity callee g.formals.length actuals.length, some f.name⟩

variable {p : Program}

theorem find?_eq_some_iff {name : String} {f : Function} :
    p.find? name = some f ↔ p.Defines name f := by
  rw [Program.find?, List.find?_eq_some_iff_append]
  simp only [Defines, beq_iff_eq, Bool.not_eq_true', beq_eq_false_iff_ne]
  grind

theorem inOrder_duplicates (p : Program) : InOrder p.Repeats (duplicates [] p.functions) := by
  refine (listed_duplicates [] p.functions).inOrder fun i d => ?_
  rw [duplicate?, Option.bind_eq_some_iff]
  constructor
  · rintro ⟨f, hf, hd⟩
    split at hd
    · rename_i hearlier
      cases hd
      exact .mk hf (by simpa using hearlier)
    · cases hd
  · rintro ⟨hf, hearlier⟩
    exact ⟨_, hf, if_pos (by simpa using hearlier)⟩

/-- The diagnostic of a node of that function. -/
def diagnostic? (p : Program) (f : Function) (n : Node) : Option Diagnostic :=
  (p.callProblem? n).map (⟨·, some f.name⟩)

theorem functionDiagnostics_eq (p : Program) (f : Function) :
    p.functionDiagnostics f = (Node.stmt f.body).walk.filterMap (p.diagnostic? f) :=
  List.map_filterMap ..

theorem diagnostic?_call {f : Function} {callee : String} {actuals : List Expr}
    {d : Diagnostic} :
    p.diagnostic? f (.expr (.call callee actuals)) = some d ↔
      (p.find? callee = none ∧ d = ⟨.undefined callee, some f.name⟩) ∨
      ∃ g, p.find? callee = some g ∧ g.formals.length ≠ actuals.length ∧
        d = ⟨.arity callee g.formals.length actuals.length, some f.name⟩ := by
  unfold diagnostic? callProblem?
  cases hfind : p.find? callee with
  | none => simp [hfind, eq_comm]
  | some g => by_cases h : g.formals.length = actuals.length <;> simp [hfind, h, eq_comm]

theorem exists_call_of_diagnostic? {f : Function} {n : Node} {d : Diagnostic}
    (h : p.diagnostic? f n = some d) : ∃ callee actuals, n = .expr (.call callee actuals) := by
  unfold diagnostic? callProblem? at h
  split at h
  · exact ⟨_, _, rfl⟩
  · cases h

theorem inOrder_miscalls (p : Program) :
    InOrder p.Miscalls (p.functions.flatMap p.functionDiagnostics) := by
  have hfunctions : ∀ f ∈ p.functions,
      Listed (fun a => ((Node.stmt f.body).at? a).bind (p.diagnostic? f))
        (p.functionDiagnostics f) := by
    intro f _
    rw [functionDiagnostics_eq]
    exact (Node.stmt f.body).listed_walk.filterMap _
  refine (Listed.flatMap hfunctions).inOrder fun o d => ?_
  cases o with
  | nil => exact ⟨nofun, nofun⟩
  | cons i a =>
      simp only [Listed.below, Option.bind_eq_some_iff]
      constructor
      · rintro ⟨f, hf, n, hn, hd⟩
        obtain ⟨callee, actuals, rfl⟩ := exists_call_of_diagnostic? hd
        rcases diagnostic?_call.1 hd with ⟨hnone, rfl⟩ | ⟨g, hg, hdiffers, rfl⟩
        · refine .undefined hf hn ?_
          simpa [Program.find?] using hnone
        · exact .arity hf hn (find?_eq_some_iff.1 hg) hdiffers
      · intro h
        cases h with
        | undefined function call missing =>
            exact ⟨_, function, _, call,
              diagnostic?_call.2 (.inl ⟨by simpa [Program.find?] using missing, rfl⟩)⟩
        | arity function call first differs =>
            exact ⟨_, function, _, call,
              diagnostic?_call.2 (.inr ⟨_, find?_eq_some_iff.2 first, differs, rfl⟩)⟩

theorem isNone_find?_entry : (p.find? entryName).isNone ↔ ¬∃ f ∈ p.functions, f.name = "main" := by
  simp [Program.find?, entryName]

/-- The checks report duplicates first, then a missing entry function, then the calls. -/
theorem diagnostics_eq (p : Program) :
    p.diagnostics = duplicates [] p.functions ++
      (if ∃ f ∈ p.functions, f.name = "main" then [] else [⟨.noEntry, none⟩]) ++
      p.functions.flatMap p.functionDiagnostics := by
  rw [diagnostics]
  by_cases hmain : ∃ f ∈ p.functions, f.name = "main"
  · rw [if_pos hmain, if_neg fun h => isNone_find?_entry.1 h hmain]
  · rw [if_neg hmain, if_pos (isNone_find?_entry.2 hmain)]

/-- Every call of the program, however deep it stands, is to a function that exists and takes
that many actuals. -/
def CallsFit (p : Program) : Prop :=
  ∀ f ∈ p.functions, ∀ a callee actuals,
    (Node.stmt f.body).at? a = some (.expr (.call callee actuals)) →
    ∃ g ∈ p.functions, g.name = callee ∧ g.formals.length = actuals.length

theorem not_repeats (hnodup : (p.functions.map (·.name)).Nodup) (i : Nat) (d : Diagnostic) :
    ¬p.Repeats i d := by
  intro h
  cases h with
  | mk function earlier =>
      obtain ⟨hlt, rfl⟩ := List.getElem?_eq_some_iff.1 function
      have hsplit : p.functions =
          p.functions.take i ++ p.functions[i] :: p.functions.drop (i + 1) := by
        rw [← List.drop_eq_getElem_cons hlt, List.take_append_drop]
      rw [hsplit, List.map_append, List.map_cons, List.nodup_append] at hnodup
      exact hnodup.2.2 _ earlier _ (List.mem_cons_self ..) rfl

/-- Where names are not repeated, the first definition of a name is the only one. -/
theorem not_miscalls (hnodup : (p.functions.map (·.name)).Nodup) (hfit : p.CallsFit)
    (o : List Nat) (d : Diagnostic) : ¬p.Miscalls o d := by
  intro h
  cases h with
  | undefined function call missing =>
      obtain ⟨g, hg, hname, -⟩ := hfit _ (List.mem_of_getElem? function) _ _ _ call
      exact missing g hg hname
  | arity function call first differs =>
      obtain ⟨g, hg, hname, hlength⟩ := hfit _ (List.mem_of_getElem? function) _ _ _ call
      obtain ⟨hfirst, hfirstName⟩ := find?_name (find?_eq_some_iff.2 first)
      rw [List.inj_on_of_nodup_map hnodup hfirst hg (hfirstName.trans hname.symm)] at differs
      exact differs hlength

theorem callsFit_of_not_miscalls (h : ∀ o d, ¬p.Miscalls o d) : p.CallsFit := by
  intro f hf a callee actuals hcall
  obtain ⟨i, hi⟩ := List.mem_iff_getElem?.1 hf
  cases hfind : p.find? callee with
  | none =>
      have hmissing : ∀ g ∈ p.functions, g.name ≠ callee := by simpa [Program.find?] using hfind
      exact absurd (.undefined hi hcall hmissing) (h _ _)
  | some g =>
      obtain ⟨hg, hname⟩ := find?_name hfind
      refine ⟨g, hg, hname, ?_⟩
      by_contra hdiffers
      exact h _ _ (.arity hi hcall (find?_eq_some_iff.1 hfind) hdiffers)

end Program

/-- The checks report nothing if and only if the functions have different names, one of them is
the entry function and every call fits. In general they report each function whose name is an
earlier one's, a missing entry function, and each call that does not fit, once, under the function
that holds it and by increasing address. -/
theorem diagnostics_exact (p : Program) :
    (p.diagnostics = [] ↔ (p.functions.map (·.name)).Nodup ∧
      (∃ f ∈ p.functions, f.name = "main") ∧ p.CallsFit) ∧
    p.diagnostics.length = {i | ∃ d, p.Repeats i d}.ncard +
      (if ∃ f ∈ p.functions, f.name = "main" then 0 else 1) + {o | ∃ d, p.Miscalls o d}.ncard ∧
    ∃ repeats miscalls, InOrder p.Repeats repeats ∧ InOrder p.Miscalls miscalls ∧
      p.diagnostics = repeats ++
        (if ∃ f ∈ p.functions, f.name = "main" then [] else [⟨.noEntry, none⟩]) ++ miscalls := by
  have hrepeats := p.inOrder_duplicates
  have hmiscalls := p.inOrder_miscalls
  refine ⟨⟨fun h => ?_, fun ⟨hnodup, hmain, hfit⟩ => ?_⟩, ?_, _, _, hrepeats, hmiscalls,
    p.diagnostics_eq⟩
  · have hnodup := Program.nodup_names h
    obtain ⟨f, hf⟩ := Program.exists_entry h
    obtain ⟨hmem, hname⟩ := Program.find?_name hf
    rw [p.diagnostics_eq, List.append_eq_nil_iff] at h
    exact ⟨hnodup, ⟨f, hmem, hname⟩,
      Program.callsFit_of_not_miscalls (hmiscalls.eq_nil_iff.1 h.2)⟩
  · rw [p.diagnostics_eq, if_pos hmain, hrepeats.eq_nil_iff.2 (Program.not_repeats hnodup),
      hmiscalls.eq_nil_iff.2 (Program.not_miscalls hnodup hfit)]
    rfl
  · rw [p.diagnostics_eq, List.length_append, List.length_append, hrepeats.ncard_eq,
      hmiscalls.ncard_eq]
    split <;> rfl

end FunCompiler
