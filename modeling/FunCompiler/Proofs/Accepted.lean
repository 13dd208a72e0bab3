import FunCompiler.Program.Check

/-!
What a program promises that is accepted without a diagnostic: its functions
have different names, there is an entry function, and every call in it finds a
function that takes as many actuals as it is given.
-/

namespace FunCompiler

theorem nodup_of_duplicates {earlier : List String} {fs : List Function}
    (h : duplicates earlier fs = []) :
    (fs.map (·.name)).Nodup ∧ ∀ f ∈ fs, f.name ∉ earlier := by
  induction fs generalizing earlier with
  | nil => exact ⟨List.nodup_nil, fun _ hf => absurd hf List.not_mem_nil⟩
  | cons f fs ih =>
      simp only [duplicates] at h
      split at h
      · cases h
      · rename_i hnew
        obtain ⟨hnodup, hlater⟩ := ih h
        refine ⟨List.nodup_cons.2 ⟨?_, hnodup⟩, ?_⟩
        · intro hmem
          obtain ⟨g, hg, hname⟩ := List.mem_map.1 hmem
          exact hlater g hg (hname ▸ List.mem_cons_self ..)
        · intro g hg
          rcases List.mem_cons.1 hg with rfl | hg
          · exact hnew
          · exact fun hmem => hlater g hg (List.mem_cons_of_mem _ hmem)

/-- No call among the nodes has a problem. -/
def Program.Links (p : Program) (nodes : List Node) : Prop :=
  ∀ node ∈ nodes, p.callProblem? node = none

namespace Program

variable {p : Program}

@[simp] theorem links_append {nodes more : List Node} :
    p.Links (nodes ++ more) ↔ p.Links nodes ∧ p.Links more := by
  simp only [Links, List.mem_append, or_imp, forall_and]

@[simp] theorem links_stmt {s : Stmt} {nodes : List Node} :
    p.Links (.stmt s :: nodes) ↔ p.Links nodes := by
  simp [Links, callProblem?]

@[simp] theorem links_binary {op : Operator} {left right : Expr} {nodes : List Node} :
    p.Links (.expr (.binary op left right) :: nodes) ↔ p.Links nodes := by
  simp [Links, callProblem?]

theorem links_call {callee : String} {actuals : List Expr} {nodes : List Node} :
    p.Links (.expr (.call callee actuals) :: nodes) ↔
      (∃ f, p.find? callee = some f ∧ f.formals.length = actuals.length) ∧ p.Links nodes := by
  simp only [Links, List.mem_cons, forall_eq_or_imp, callProblem?]
  refine and_congr_left' ?_
  cases p.find? callee with
  | none => simp
  | some f => simp

theorem find?_name {name : String} {f : Function} (h : p.find? name = some f) :
    f ∈ p.functions ∧ f.name = name :=
  ⟨List.mem_of_find?_eq_some h, by simpa using List.find?_some h⟩

variable (h : p.diagnostics = [])

include h

theorem nodup_names : (p.functions.map (·.name)).Nodup := by
  simp only [diagnostics, List.append_eq_nil_iff] at h
  exact (nodup_of_duplicates h.1.1).1

theorem exists_entry : ∃ f, p.find? entryName = some f := by
  simp only [diagnostics, List.append_eq_nil_iff] at h
  have hentry := h.1.2
  cases hfind : p.find? entryName with
  | none => simp [hfind] at hentry
  | some f => exact ⟨f, rfl⟩

theorem links_body {f : Function} (hf : f ∈ p.functions) : p.Links f.body.walk := by
  simp only [diagnostics, List.append_eq_nil_iff, List.flatMap_eq_nil_iff] at h
  have hbody := h.2 f hf
  simp only [functionDiagnostics, List.map_eq_nil_iff, List.filterMap_eq_nil_iff] at hbody
  exact hbody

end Program

end FunCompiler
