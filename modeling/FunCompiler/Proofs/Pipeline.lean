import FunCompiler.Compile

/-!
What the stages of compilation return, whatever the log holds before them. The
log is only ever added to and nothing looks at it, so a stage that fails can
only do so by itself: parsing does for a faulty text, and generation never does.
-/

namespace FunCompiler.Pipeline

variable {α β : Type}

/-- The stage returns the value. -/
def Returns (m : Pipeline α) (a : α) : Prop := ∀ log, (m.run.run log).1 = .ok a

theorem returns_pure (a : α) : Returns (pure a) a := fun _ => rfl

theorem returns_note {stage : Stage} {text : String} : Returns (note stage text) () := fun _ => rfl

theorem Returns.bind {m : Pipeline α} {next : α → Pipeline β} {a : α} {b : β} (h : Returns m a)
    (hnext : Returns (next a) b) : Returns (m >>= next) b := by
  intro log
  have hm := h log
  show ((ExceptT.bindCont next (m.run.run log).1).run (m.run.run log).2).1 = .ok b
  rw [hm]
  exact hnext _

theorem returns_noteFunctions (target : Target) (t : Code.Tables) (fs : List Function) :
    Returns (noteFunctions target t fs) () := by
  induction fs generalizing t with
  | nil => exact returns_pure ()
  | cons f fs ih =>
      have hglobals (names : List String) :
          Returns (forIn names PUnit.unit fun name _ => do
            note .symbols s!"Registering global {name}"
            pure (ForInStep.yield PUnit.unit)) PUnit.unit := by
        induction names with
        | nil => exact returns_pure _
        | cons name names ih =>
            rw [List.forIn_cons]
            refine Returns.bind (a := ForInStep.yield PUnit.unit) ?_ ih
            exact returns_note.bind (returns_pure _)
      exact returns_note.bind ((hglobals _).bind (ih _))

theorem returns_generate (target : Target) (p : Program) :
    Returns (generate target p) (p.generate target) :=
  returns_note.bind ((returns_noteFunctions target {} _).bind (returns_note.bind (returns_pure _)))

theorem returns_parse {source : String} {p : Program} (h : Source.parse source = .ok p) :
    Returns (parse source) p := by
  unfold parse
  rw [h]
  exact returns_note.bind (returns_pure _)

theorem returns_compile {source : String} {p : Program} (h : Source.parse source = .ok p)
    (target : Target) : Returns (compile target false source) (p.generate target).text :=
  (returns_parse h).bind ((returns_generate target p).bind fun _ => rfl)

theorem returns_stats {source : String} {p : Program} (h : Source.parse source = .ok p)
    (target : Target) : Returns (stats target source) (Asm.tally (p.generate target).lines) :=
  (returns_parse h).bind ((returns_generate target p).bind fun _ => rfl)

/-! ### Failures -/

/-- The stage fails with the error. -/
def Fails (m : Pipeline α) (e : CompileError) : Prop := ∀ log, (m.run.run log).1 = .error e

theorem Fails.bind {m : Pipeline α} {e : CompileError} (h : Fails m e) (next : α → Pipeline β) :
    Fails (m >>= next) e := by
  intro log
  have hm := h log
  show ((ExceptT.bindCont next (m.run.run log).1).run (m.run.run log).2).1 = .error e
  rw [hm]
  rfl

theorem Returns.bind_fails {m : Pipeline α} {next : α → Pipeline β} {a : α} {e : CompileError}
    (h : Returns m a) (hnext : Fails (next a) e) : Fails (m >>= next) e := by
  intro log
  have hm := h log
  show ((ExceptT.bindCont next (m.run.run log).1).run (m.run.run log).2).1 = .error e
  rw [hm]
  exact hnext _

theorem fails_parse {source : String} {e : Source.ParseError} (h : Source.parse source = .error e) :
    Fails (parse source) (.parse e) := by
  unfold parse
  rw [h]
  exact fun _ => rfl

theorem returns_check {p : Program} (h : p.diagnostics = []) : Returns (check p) () := by
  unfold check
  rw [h]
  exact returns_note.bind (returns_pure ())

theorem fails_check {p : Program} (h : p.diagnostics ≠ []) :
    Fails (check p) (.rejected p.diagnostics) := by
  unfold check
  refine returns_note.bind_fails fun log => ?_
  rw [if_neg (by simpa using h)]
  rfl

/-- A source is compiled if it can be parsed and, where that is asked for, has no
diagnostics. -/
theorem compile_cases (target : Target) (validate : Bool) {source : String} {p : Program}
    (h : Source.parse source = .ok p) :
    (validate = false ∨ p.diagnostics = []) ∧
      Returns (compile target validate source) (p.generate target).text ∨
    (validate = true ∧ p.diagnostics ≠ []) ∧
      Fails (compile target validate source) (.rejected p.diagnostics) := by
  cases validate with
  | false => exact .inl ⟨.inl rfl, returns_compile h target⟩
  | true =>
      by_cases hchecked : p.diagnostics = []
      · exact .inl ⟨.inr hchecked, (returns_parse h).bind ((returns_check hchecked).bind
          ((returns_generate target p).bind fun _ => rfl))⟩
      · exact .inr ⟨⟨rfl, hchecked⟩,
          (returns_parse h).bind_fails ((fails_check hchecked).bind _)⟩

end FunCompiler.Pipeline
