import FunCompiler.Cli.Run
import FunCompiler.Proofs.Pipeline

/-!
What a run of the command line leaves behind. A run first makes one text, the
program as a tree, the counts of its mnemonics or its assembly, and nothing
leaves the program while it does so (`make`). Only then is the text printed,
written to a file or handed to the C compiler, and each of these is the last
thing that a run does. Main statement: a run that fails has printed nothing and
written no file, one that succeeds has delivered its text in one of the three
ways, and the C compiler is run only on the assembly of a program that was to
be linked and passed the checks that were asked for.
-/

namespace FunCompiler.Cli

/-! ### What a run is asked for -/

/-- The bytes of a file, or of standard input. -/
def World.bytes (w : World) (file : String) : Except OsError (List UInt8) :=
  if file = "-" then .ok w.stdin else w.read (Path.ofString file)

/-- The file holds the source text. -/
def World.Holds (w : World) (file source : String) : Prop :=
  ∃ bytes, w.bytes file = .ok bytes ∧ sourceOfBytes bytes = .ok source

/-- The object-file convention, that of the host if none is named. -/
def World.convention (w : World) (o : Options) : Target := o.target.getD w.host

namespace Options

/-- Assembly is asked for, and not only a report on the source. -/
def compiles (o : Options) : Bool := !o.astOnly && !o.stats

/-- An executable is asked for. -/
def links (o : Options) : Bool := o.link && o.compiles

/-- The file that is named as the output; an empty name is none. -/
def destination? (o : Options) : Option Path :=
  match o.output with
  | none | some "" => none
  | some output => some (Path.ofString output)

/-- The text that is asked for of a program. -/
def product (o : Options) (target : Target) (p : Program) : String :=
  if o.astOnly then p.dump ++ "\n"
  else if o.stats then (tallyJson (Asm.tally (p.generate target).lines)).text ++ "\n"
  else (p.generate target).text

end Options

/-- The text can be made of the source: it can be parsed and, if it is to be compiled and
the checks are not left out, passes them. -/
def Options.Renders (o : Options) (target : Target) (source text : String) : Prop :=
  ∃ p, Source.parse source = .ok p ∧
    (o.compiles = true → o.validate = true → p.diagnostics = []) ∧ text = o.product target p

/-- The text can be made of what the file holds. -/
def Makes (w : World) (o : Options) (text : String) : Prop :=
  ∃ source, w.Holds o.file source ∧ o.Renders (w.convention o) source text

/-- A product begins with a character, so whether a text was printed can be seen. -/
theorem Options.product_ne_empty (o : Options) (target : Target) (p : Program) :
    o.product target p ≠ "" := by
  unfold product
  split
  · simp
  split
  · simp
  · intro hempty
    have hfirst := (String.append_eq_empty_iff.1 (String.join_cons.symm.trans hempty)).1
    simp at hfirst

/-! ### Making the text -/

/-- Makes the text that is asked for of a source. -/
def render (o : Options) (target : Target) (source : String) : Action String :=
  if o.astOnly then return (← stage (Pipeline.parse source)).dump ++ "\n"
  else if o.stats then
    return (tallyJson (← stage (Pipeline.stats target source))).text ++ "\n"
  else stage (Pipeline.compile target o.validate source)

/-- Hands out the text, or the assembly to the C compiler. -/
def finish (w : World) (o : Options) (text : String) : Action Unit :=
  if o.links then link w o (w.convention o) text else deliver w o.output text

/-- A run makes the text of what it has read, and hands it out at the end. -/
theorem act_eq (w : World) (o : Options) :
    act w o = readSource w o.file >>= render o (w.convention o) >>= finish w o := by
  rw [bind_assoc]
  unfold act render finish Options.links Options.compiles
  refine congrArg (readSource w o.file >>= ·) (funext fun source => ?_)
  cases o.astOnly with
  | true => simp
  | false =>
      cases o.stats with
      | true => simp [World.convention]
      | false => simp [World.convention]

/-- The action ends with the result and has changed nothing but the log. -/
def Quietly {α : Type} (m : Action α) (result : Except Failure α) : Prop :=
  ∀ e : Effects, ∃ log, m.run.run e = (result, { e with log })

theorem Quietly.bind {α β : Type} {m : Action α} {next : α → Action β} {a : α}
    {result : Except Failure β} (h : Quietly m (.ok a)) (hnext : Quietly (next a) result) :
    Quietly (m >>= next) result := by
  intro e
  obtain ⟨log, hm⟩ := h e
  obtain ⟨log', hnext⟩ := hnext { e with log }
  refine ⟨log', ?_⟩
  rw [ExceptT.run_bind, StateT.run_bind, hm]
  exact hnext

theorem Quietly.bind_error {α β : Type} {m : Action α} {failure : Failure}
    (h : Quietly m (.error failure)) (next : α → Action β) :
    Quietly (m >>= next) (.error failure) := by
  intro e
  obtain ⟨log, hm⟩ := h e
  refine ⟨log, ?_⟩
  rw [ExceptT.run_bind, StateT.run_bind, hm]
  rfl

theorem quietly_pure {α : Type} (a : α) : Quietly (pure a : Action α) (.ok a) :=
  fun e => ⟨e.log, rfl⟩

theorem quietly_throw {α : Type} (failure : Failure) :
    Quietly (throw failure : Action α) (.error failure) := fun e => ⟨e.log, rfl⟩

theorem stage_eq {α : Type} (m : Pipeline α) :
    stage m = (do
      let effects ← get
      set { effects with log := (m.run.run effects.log).2 }
      ofExcept ((m.run.run effects.log).1.mapError .compile)) := by
  unfold stage
  congr 1
  funext effects
  rcases m.run.run effects.log with ⟨_ | _, log⟩ <;> rfl

theorem run_stage {α : Type} (m : Pipeline α) (e : Effects) :
    (stage m).run.run e =
      ((m.run.run e.log).1.mapError .compile, { e with log := (m.run.run e.log).2 }) := by
  rw [stage_eq]
  show StateT.run (ExceptT.run (ofExcept ((m.run.run e.log).1.mapError .compile) : Action α)) _ = _
  cases (m.run.run e.log).1 <;> rfl

theorem quietly_stage {α : Type} {m : Pipeline α} {a : α} (h : m.Returns a) :
    Quietly (stage m) (.ok a) := by
  intro e
  refine ⟨(m.run.run e.log).2, ?_⟩
  rw [run_stage, h]
  rfl

theorem quietly_stage_error {α : Type} {m : Pipeline α} {x : CompileError} (h : m.Fails x) :
    Quietly (stage m) (.error (.compile x)) := by
  intro e
  refine ⟨(m.run.run e.log).2, ?_⟩
  rw [run_stage, h]
  rfl

theorem quietly_ofExcept {α : Type} (result : Except Failure α) :
    Quietly (ofExcept result) result := by
  cases result with
  | error failure => exact quietly_throw failure
  | ok a => exact quietly_pure a

theorem readSource_eq (w : World) (file : String) :
    readSource w file = (do
      let bytes ← ofExcept ((w.bytes file).mapError .os)
      ofExcept ((sourceOfBytes bytes).mapError .decode)) := by
  unfold readSource World.bytes
  dsimp only
  split
  · refine congrArg (pure w.stdin >>= ·) (funext fun bytes => ?_)
    cases sourceOfBytes bytes <;> rfl
  · cases w.read (Path.ofString file) with
    | error e => rfl
    | ok bytes =>
        refine congrArg (pure bytes >>= ·) (funext fun bytes => ?_)
        cases sourceOfBytes bytes <;> rfl

theorem readSource_cases (w : World) (file : String) :
    (∃ source, w.Holds file source ∧ Quietly (readSource w file) (.ok source)) ∨
    ∃ failure, (∀ source, ¬ w.Holds file source) ∧
      Quietly (readSource w file) (.error failure) := by
  unfold World.Holds
  rw [readSource_eq]
  cases w.bytes file with
  | error e => exact .inr ⟨.os e, by simp, (quietly_ofExcept (.error _)).bind_error _⟩
  | ok bytes =>
      have hbytes := quietly_ofExcept (.ok bytes)
      have hdecode := quietly_ofExcept ((sourceOfBytes bytes).mapError .decode)
      cases hsource : sourceOfBytes bytes with
      | error e =>
          rw [hsource] at hdecode
          refine .inr ⟨.decode e, ?_, hbytes.bind (by rwa [hsource])⟩
          rintro source ⟨_, ⟨⟩, hother⟩
          rw [hsource] at hother
          cases hother
      | ok source =>
          rw [hsource] at hdecode
          exact .inl ⟨source, ⟨bytes, rfl, hsource⟩, hbytes.bind (by rwa [hsource])⟩

theorem World.Holds.unique {w : World} {file source other : String} (h : w.Holds file source)
    (hother : w.Holds file other) : other = source := by
  obtain ⟨bytes, hbytes, hsource⟩ := h
  obtain ⟨_, hbytes', hsource'⟩ := hother
  rw [hbytes] at hbytes'
  cases hbytes'
  rw [hsource] at hsource'
  exact (Except.ok.inj hsource').symm

theorem render_ok {o : Options} {source : String} {p : Program} (target : Target)
    (hparse : Source.parse source = .ok p)
    (hchecked : o.compiles = true → o.validate = true → p.diagnostics = []) :
    Quietly (render o target source) (.ok (o.product target p)) := by
  unfold render Options.product
  unfold Options.compiles at hchecked
  cases hast : o.astOnly with
  | true => exact (quietly_stage (Pipeline.returns_parse hparse)).bind (quietly_pure _)
  | false =>
      cases hstats : o.stats with
      | true => exact (quietly_stage (Pipeline.returns_stats hparse _)).bind (quietly_pure _)
      | false =>
          simp only [hast, hstats, Bool.not_false, Bool.and_true, true_implies] at hchecked
          simp only [Bool.false_eq_true, if_false]
          obtain ⟨-, hreturns⟩ | ⟨⟨hvalidate, hrejected⟩, -⟩ :=
            Pipeline.compile_cases target o.validate hparse
          · exact quietly_stage hreturns
          · exact absurd (hchecked hvalidate) hrejected

theorem render_error {o : Options} {source : String} {e : Source.ParseError} (target : Target)
    (hparse : Source.parse source = .error e) :
    Quietly (render o target source) (.error (.compile (.parse e))) := by
  have hfails := Pipeline.fails_parse hparse
  unfold render
  split
  · exact (quietly_stage_error hfails).bind_error _
  split
  · exact (quietly_stage_error (hfails.bind _)).bind_error _
  · exact quietly_stage_error (hfails.bind _)

theorem render_rejected {o : Options} {source : String} {p : Program} (target : Target)
    (hparse : Source.parse source = .ok p) (hcompiles : o.compiles = true)
    (hvalidate : o.validate = true) (hrejected : p.diagnostics ≠ []) :
    Quietly (render o target source) (.error (.compile (.rejected p.diagnostics))) := by
  unfold Options.compiles at hcompiles
  simp only [Bool.and_eq_true, Bool.not_eq_true'] at hcompiles
  unfold render
  simp only [hcompiles.1, hcompiles.2, Bool.false_eq_true, if_false]
  obtain ⟨hnot | hnot, -⟩ | ⟨-, hfails⟩ :=
    Pipeline.compile_cases target o.validate hparse
  · rw [hvalidate] at hnot
    cases hnot
  · exact absurd hnot hrejected
  · exact quietly_stage_error hfails

/-- Nothing leaves the program while the text is made, and it is made if it can be. -/
theorem make_cases (w : World) (o : Options) :
    (∃ text, Makes w o text ∧
      Quietly (readSource w o.file >>= render o (w.convention o)) (.ok text)) ∨
    ∃ failure, (∀ text, ¬ Makes w o text) ∧
      Quietly (readSource w o.file >>= render o (w.convention o)) (.error failure) := by
  obtain ⟨source, hsource, hread⟩ | ⟨failure, hnone, hread⟩ := readSource_cases w o.file
  · cases hparse : Source.parse source with
    | error e =>
        refine .inr ⟨_, ?_, hread.bind (render_error _ hparse)⟩
        rintro text ⟨other, hother, p, hparsed, -⟩
        rw [hsource.unique hother, hparse] at hparsed
        cases hparsed
    | ok p =>
        by_cases hchecked : o.compiles = true → o.validate = true → p.diagnostics = []
        · exact .inl ⟨_, ⟨source, hsource, p, hparse, hchecked, rfl⟩,
            hread.bind (render_ok _ hparse hchecked)⟩
        · obtain ⟨hcompiles, hrest⟩ := Classical.not_imp.1 hchecked
          obtain ⟨hvalidate, hrejected⟩ := Classical.not_imp.1 hrest
          refine .inr ⟨_, ?_,
            hread.bind (render_rejected _ hparse hcompiles hvalidate hrejected)⟩
          rintro text ⟨other, hother, q, hparsed, hpassed, -⟩
          rw [hsource.unique hother, hparse] at hparsed
          cases hparsed
          exact hchecked hpassed
  · refine .inr ⟨failure, ?_, hread.bind_error _⟩
    rintro text ⟨source, hsource, -⟩
    exact hnone source hsource

/-! ### Handing it out -/

theorem destination?_eq_some {o : Options} {path : Path} (h : o.destination? = some path) :
    ∃ output, output ≠ "" ∧ o.output = some output ∧ Path.ofString output = path := by
  unfold Options.destination? at h
  split at h
  · cases h
  · cases h
  · rename_i output hne houtput
    exact ⟨output, hne, houtput, Option.some.inj h⟩

theorem destination?_eq_none {o : Options} (h : o.destination? = none) :
    o.output = none ∨ o.output = some "" := by
  unfold Options.destination? at h
  split at h
  · exact .inl ‹_›
  · exact .inr ‹_›
  · cases h

theorem run_deliver_none {o : Options} (h : o.destination? = none) (w : World) (text : String)
    (e : Effects) :
    (deliver w o.output text).run.run e = (.ok (), { e with stdout := e.stdout ++ text }) := by
  rcases destination?_eq_none h with houtput | houtput
  · rw [houtput]
    rfl
  · rw [houtput]
    rfl

theorem run_deliver_some {w : World} {o : Options} {path : Path} (h : o.destination? = some path)
    (text : String) (e : Effects) :
    (deliver w o.output text).run.run e =
      (w.writeFault? path).elim (.ok (), { e with written := some (path, text) })
        fun fault => (.error (.os fault), e) := by
  obtain ⟨output, hne, houtput, rfl⟩ := destination?_eq_some h
  rw [houtput, deliver]
  · cases w.writeFault? (Path.ofString output) <;> rfl
  · rintro ⟨⟩
    exact hne rfl

theorem run_link_none {o : Options} (h : o.destination? = none) (w : World) (target : Target)
    (text : String) (e : Effects) :
    (link w o target text).run.run e = (.error .outputRequired, e) := by
  unfold link
  rcases destination?_eq_none h with houtput | houtput
  · rw [houtput]
    rfl
  · rw [houtput]
    rfl

/-- Linking runs the C compiler once, if the assembly can be put where it looks for it. -/
theorem run_link_some {w : World} {o : Options} {path : Path} (h : o.destination? = some path)
    (target : Target) (text : String) (e : Effects) :
    (∃ fault, w.assemblyFault? = some fault ∧
      (link w o target text).run.run e = (.error (.os fault), e)) ∨
    w.assemblyFault? = none ∧ ∃ log, (link w o target text).run.run e =
      ((w.compiler.result o.cc).mapError .link,
        { e with runs := e.runs ++ [linkRun target o.cc path w.assemblyFile text], log }) := by
  obtain ⟨output, hne, houtput, rfl⟩ := destination?_eq_some h
  unfold link
  split
  · rename_i hnone
    rw [houtput] at hnone
    cases hnone
  · rename_i hempty
    rw [houtput] at hempty
    exact absurd (Option.some.inj hempty) hne
  · rename_i other _ hother
    rw [houtput] at hother
    cases hother
    cases w.assemblyFault? with
    | some fault => exact .inl ⟨fault, rfl, rfl⟩
    | none =>
        refine .inr ⟨rfl, ?_⟩
        cases w.compiler.result o.cc with
        | ok => exact ⟨_, rfl⟩
        | error e => exact ⟨_, rfl⟩

/-! ### Whole runs -/

/-- What a run leaves behind outside its log: what it has printed, the file that it has
written and its runs of the C compiler. -/
structure Traces where
  stdout : String
  written : Option (Path × String)
  runs : List LinkRun

def Effects.traces (e : Effects) : Traces := ⟨e.stdout, e.written, e.runs⟩

def Outcome.traces (r : Outcome) : Traces := ⟨r.stdout, r.written, r.runs⟩

/-- How a run ends, with success or not, and what it leaves behind then. -/
inductive Ends (w : World) (o : Options) : Bool → Traces → Prop
  | unmade (hmakes : ∀ text, ¬ Makes w o text) : Ends w o false ⟨"", none, []⟩
  | printed {text : String} (hmakes : Makes w o text) (hlinks : o.links = false)
      (hpath : o.destination? = none) : Ends w o true ⟨text, none, []⟩
  | written {text : String} {path : Path} (hmakes : Makes w o text) (hlinks : o.links = false)
      (hpath : o.destination? = some path) (hfault : w.writeFault? path = none) :
      Ends w o true ⟨"", some (path, text), []⟩
  | unwritten {path : Path} {fault : OsError} (hlinks : o.links = false)
      (hpath : o.destination? = some path) (hfault : w.writeFault? path = some fault) :
      Ends w o false ⟨"", none, []⟩
  | nowhere (hlinks : o.links = true) (hpath : o.destination? = none) :
      Ends w o false ⟨"", none, []⟩
  | unassembled {fault : OsError} (hlinks : o.links = true)
      (hfault : w.assemblyFault? = some fault) : Ends w o false ⟨"", none, []⟩
  | unlinked {text : String} {path : Path} (hmakes : Makes w o text) (hlinks : o.links = true)
      (hpath : o.destination? = some path) (hanswer : ∀ stderr, w.compiler ≠ .exited 0 stderr) :
      Ends w o false ⟨"", none, [linkRun (w.convention o) o.cc path w.assemblyFile text]⟩
  | linked {text stderr : String} {path : Path} (hmakes : Makes w o text)
      (hlinks : o.links = true) (hpath : o.destination? = some path)
      (hfault : w.assemblyFault? = none) (hanswer : w.compiler = .exited 0 stderr) :
      Ends w o true ⟨"", none, [linkRun (w.convention o) o.cc path w.assemblyFile text]⟩

/-- The action ends a run, whatever the log holds. -/
def FinishesRun (w : World) (o : Options) (m : Action Unit) : Prop :=
  ∀ log, Ends w o (m.run.run { log }).1.isOk (m.run.run { log }).2.traces

theorem finishesRun_deliver {w : World} {o : Options} {text : String} (hmakes : Makes w o text)
    (hlinks : o.links = false) : FinishesRun w o (deliver w o.output text) := by
  intro log
  cases hpath : o.destination? with
  | none =>
      rw [run_deliver_none hpath]
      have hstdout : "" ++ text = text := by simp
      exact hstdout.symm ▸ .printed hmakes hlinks hpath
  | some path =>
      rw [run_deliver_some hpath]
      cases hfault : w.writeFault? path with
      | none => exact .written hmakes hlinks hpath hfault
      | some fault => exact .unwritten hlinks hpath hfault

theorem finishesRun_link {w : World} {o : Options} {text : String} (hmakes : Makes w o text)
    (hlinks : o.links = true) : FinishesRun w o (link w o (w.convention o) text) := by
  intro log
  cases hpath : o.destination? with
  | none =>
      rw [run_link_none hpath]
      exact .nowhere hlinks hpath
  | some path =>
      obtain ⟨fault, hfault, hrun⟩ | ⟨hfault, log', hrun⟩ :=
        run_link_some (w := w) hpath (w.convention o) text { log }
      · rw [hrun]
        exact .unassembled hlinks hfault
      · rw [hrun]
        cases hanswer : w.compiler with
        | notStarted reason => exact .unlinked hmakes hlinks hpath (by simp [hanswer])
        | exited status stderr =>
            by_cases hstatus : status = 0
            · subst hstatus
              exact .linked hmakes hlinks hpath hfault hanswer
            · have hresult : (CompilerAnswer.exited status stderr).result o.cc =
                  .error (.failed o.cc status stderr) := by
                rw [CompilerAnswer.result]
                rintro ⟨⟩
                exact hstatus rfl
              rw [hresult]
              exact .unlinked hmakes hlinks hpath (by simp [hanswer, hstatus])

theorem finishesRun_act (w : World) (o : Options) : FinishesRun w o (act w o) := by
  intro log
  rw [act_eq]
  obtain ⟨text, hmakes, hmake⟩ | ⟨failure, hnone, hmake⟩ := make_cases w o
  · obtain ⟨log', hrun⟩ := hmake { log }
    have hfinish : FinishesRun w o (finish w o text) := by
      unfold finish
      split
      · exact finishesRun_link hmakes ‹_›
      · exact finishesRun_deliver hmakes (eq_false_of_ne_true ‹_›)
    rw [ExceptT.run_bind, StateT.run_bind, hrun]
    exact hfinish log'
  · obtain ⟨log', hrun⟩ := hmake.bind_error (finish w o) { log }
    rw [hrun]
    exact .unmade hnone

/-- A run succeeds with the status 0. One that fails reports its errors with the status 1,
or its failure escapes. -/
theorem ends_compile (w : World) (o : Options) :
    (compile w o).status = .exit 0 ∧ Ends w o true (compile w o).traces ∨
    ((compile w o).status = .exit 1 ∨ ∃ e, (compile w o).status = .escaped e) ∧
      Ends w o false (compile w o).traces := by
  have hends := finishesRun_act w o []
  unfold compile
  rcases hrun : (act w o).run.run {} with ⟨failure | _, effects⟩
  · rw [hrun] at hends
    dsimp only
    cases failure.report o.file with
    | ok errors => exact .inr ⟨.inl rfl, hends⟩
    | error e => exact .inr ⟨.inr ⟨e, rfl⟩, hends⟩
  · rw [hrun] at hends
    exact .inl ⟨rfl, hends⟩

/-! ### All or nothing -/

/-- What was asked for can be handed out: there is an output to link to, the assembly can be
put where the C compiler finds it, and the compiler ends with success; or else the output
can be written, if one is named. -/
def CanHandOut (w : World) (o : Options) : Prop :=
  (o.links = true → (∃ path, o.destination? = some path) ∧ w.assemblyFault? = none ∧
    ∃ stderr, w.compiler = .exited 0 stderr) ∧
  (o.links = false → ∀ path, o.destination? = some path → w.writeFault? path = none)

/-- An executable was asked for and an output was named, and the source could be parsed and
passed the checks, if these were not left out. -/
def MayLink (w : World) (o : Options) : Prop :=
  o.links = true ∧ (∃ path, o.destination? = some path) ∧
    ∃ source p, w.Holds o.file source ∧ Source.parse source = .ok p ∧
      (p.diagnostics = [] ∨ o.validate = false)

/-- The text was printed or written to the output file, but not both, and the C compiler
was not run. -/
structure Delivered (o : Options) (text : String) (t : Traces) : Prop where
  runs : t.runs = []
  once : o.destination? = none ∧ t.stdout = text ∧ text ≠ "" ∧ t.written = none ∨
    ∃ path, o.destination? = some path ∧ t.stdout = "" ∧ t.written = some (path, text)

/-- The C compiler was run once, on the text, and ended with success; nothing was printed or
written. -/
structure Linked (w : World) (o : Options) (text : String) (t : Traces) : Prop where
  stdout : t.stdout = ""
  written : t.written = none
  runs : ∃ path, o.destination? = some path ∧
    t.runs = [linkRun (w.convention o) o.cc path w.assemblyFile text]
  answer : ∃ stderr, w.compiler = .exited 0 stderr

theorem Makes.ne_empty {w : World} {o : Options} {text : String} (h : Makes w o text) :
    text ≠ "" := by
  obtain ⟨source, -, p, -, -, rfl⟩ := h
  exact o.product_ne_empty (w.convention o) p

theorem Makes.mayLink {w : World} {o : Options} {text : String} {path : Path}
    (h : Makes w o text) (hlinks : o.links = true) (hpath : o.destination? = some path) :
    MayLink w o := by
  obtain ⟨source, hsource, p, hparse, hchecked, -⟩ := h
  have hcompiles : o.compiles = true := by
    simp only [Options.links, Bool.and_eq_true] at hlinks
    exact hlinks.2
  refine ⟨hlinks, ⟨path, hpath⟩, source, p, hsource, hparse, ?_⟩
  cases hvalidate : o.validate with
  | false => exact .inr rfl
  | true => exact .inl (hchecked hcompiles hvalidate)

namespace Ends

variable {w : World} {o : Options} {success : Bool} {t : Traces}

theorem silent (h : Ends w o false t) : t.stdout = "" ∧ t.written = none := by
  cases h <;> exact ⟨rfl, rfl⟩

theorem handedOut (h : Ends w o true t) :
    ∃ text, Makes w o text ∧ (o.links = true → Linked w o text t) ∧
      (o.links = false → Delivered o text t) := by
  cases h with
  | printed hmakes hlinks hpath =>
      refine ⟨_, hmakes, fun hother => ?_, fun _ => ⟨rfl, .inl ⟨hpath, rfl, hmakes.ne_empty, rfl⟩⟩⟩
      rw [hlinks] at hother
      cases hother
  | written hmakes hlinks hpath _ =>
      refine ⟨_, hmakes, fun hother => ?_, fun _ => ⟨rfl, .inr ⟨_, hpath, rfl, rfl⟩⟩⟩
      rw [hlinks] at hother
      cases hother
  | linked hmakes hlinks hpath _ hanswer =>
      refine ⟨_, hmakes, fun _ => ⟨rfl, rfl, ⟨_, hpath, rfl⟩, _, hanswer⟩, fun hother => ?_⟩
      rw [hlinks] at hother
      cases hother

theorem mayLink (h : Ends w o success t) (hruns : t.runs ≠ []) : MayLink w o := by
  cases h with
  | unlinked hmakes hlinks hpath _ => exact hmakes.mayLink hlinks hpath
  | linked hmakes hlinks hpath _ _ => exact hmakes.mayLink hlinks hpath
  | unmade | printed | written | unwritten | nowhere | unassembled => exact absurd rfl hruns

theorem success_iff (h : Ends w o success t) :
    success = true ↔ (∃ text, Makes w o text) ∧ CanHandOut w o := by
  cases h with
  | printed hmakes hlinks hpath =>
      exact iff_of_true rfl ⟨⟨_, hmakes⟩, by simp [hlinks], by simp [hpath]⟩
  | written hmakes hlinks hpath hfault =>
      exact iff_of_true rfl ⟨⟨_, hmakes⟩, by simp [hlinks], by simp [hpath, hfault]⟩
  | linked hmakes hlinks hpath hfault hanswer =>
      exact iff_of_true rfl ⟨⟨_, hmakes⟩, fun _ => ⟨⟨_, hpath⟩, hfault, _, hanswer⟩, by simp [hlinks]⟩
  | unmade hmakes => exact iff_of_false (by simp) fun ⟨⟨text, hmade⟩, _⟩ => hmakes text hmade
  | unwritten hlinks hpath hfault =>
      refine iff_of_false (by simp) fun ⟨_, _, hcan⟩ => ?_
      rw [hcan hlinks _ hpath] at hfault
      cases hfault
  | nowhere hlinks hpath =>
      refine iff_of_false (by simp) fun ⟨_, hcan, _⟩ => ?_
      obtain ⟨⟨path, hsome⟩, -⟩ := hcan hlinks
      rw [hpath] at hsome
      cases hsome
  | unassembled hlinks hfault =>
      refine iff_of_false (by simp) fun ⟨_, hcan, _⟩ => ?_
      rw [(hcan hlinks).2.1] at hfault
      cases hfault
  | unlinked _ hlinks _ hanswer =>
      refine iff_of_false (by simp) fun ⟨_, hcan, _⟩ => ?_
      obtain ⟨-, -, stderr, hzero⟩ := hcan hlinks
      exact hanswer stderr hzero

end Ends

/-- A run ends with the status 0 just if the text that was asked for can be made and handed
out, and then it has been: the C compiler has linked it, and nothing was printed or
written, or it was either printed or written to the output file, and no compiler was run.
A run that ends with another status or whose failure escapes has printed nothing and
written no file. The C compiler is run only on what may be linked. -/
theorem run_all_or_nothing (w : World) {args : List String} {o : Options}
    (hargs : parseArgs args = .ok (.compile o)) :
    ((run w args).status ≠ .exit 0 → ((run w args).status = .exit 1 ∨
        ∃ e, (run w args).status = .escaped e) ∧
      (run w args).stdout = "" ∧ (run w args).written = none) ∧
    ((run w args).status = .exit 0 → ∃ text, Makes w o text ∧
      (o.links = true → Linked w o text (run w args).traces) ∧
      (o.links = false → Delivered o text (run w args).traces)) ∧
    ((run w args).runs ≠ [] → MayLink w o) ∧
    ((run w args).status = .exit 0 ↔ (∃ text, Makes w o text) ∧ CanHandOut w o) := by
  have hrun : run w args = compile w o := by
    rw [run, hargs]
  rw [hrun]
  obtain ⟨hstatus, hends⟩ | ⟨hstatus, hends⟩ := ends_compile w o
  · exact ⟨fun hother => absurd hstatus hother, fun _ => hends.handedOut, hends.mayLink,
      fun _ => hends.success_iff.1 rfl, fun _ => hstatus⟩
  · have hother : (compile w o).status ≠ .exit 0 := by
      rcases hstatus with hstatus | ⟨e, hstatus⟩ <;> simp [hstatus]
    exact ⟨fun _ => ⟨hstatus, hends.silent⟩, fun hzero => absurd hzero hother, hends.mayLink,
      fun hzero => absurd hzero hother, fun hcan => Bool.noConfusion (hends.success_iff.2 hcan)⟩

theorem eq_ok_of_toOption {ε α : Type} {x : Except ε α} {a : α} (h : x.toOption = some a) :
    x = .ok a := by
  cases x with
  | error e => cases h
  | ok b => rw [Option.some.inj h]

/-- A directory with one source file, and a C compiler with the given answer. -/
def oneSource (answer : CompilerAnswer) : World where
  host := .elf
  read := Directory.read ⟨[(⟨"", ["p.fun"]⟩, "fun main() print 1".toUTF8.data.toList)]⟩
  writeFault? _ := none
  stdin := []
  compiler := answer
  assemblyFile := "program.s"

/-- The same program is linked, and is not when the C compiler fails. -/
theorem oneSource_all_or_nothing :
    parseArgs ["--link", "p.fun", "-op"] =
      .ok (.compile { file := "p.fun", output := some "p", link := true }) ∧
    (run (oneSource (.exited 0 "")) ["--link", "p.fun", "-op"]).status = .exit 0 ∧
    (∃ text, Makes (oneSource (.exited 0 ""))
        { file := "p.fun", output := some "p", link := true } text ∧
      Linked (oneSource (.exited 0 "")) { file := "p.fun", output := some "p", link := true } text
        (run (oneSource (.exited 0 "")) ["--link", "p.fun", "-op"]).traces) ∧
    (run (oneSource (.exited 1 "no room")) ["--link", "p.fun", "-op"]).status = .exit 1 ∧
    (run (oneSource (.exited 1 "no room")) ["--link", "p.fun", "-op"]).stdout = "" ∧
    (run (oneSource (.exited 1 "no room")) ["--link", "p.fun", "-op"]).written = none ∧
    MayLink (oneSource (.exited 1 "no room"))
      { file := "p.fun", output := some "p", link := true } := by
  have hargs : parseArgs ["--link", "p.fun", "-op"] =
      .ok (.compile { file := "p.fun", output := some "p", link := true }) :=
    eq_ok_of_toOption (by decide +kernel)
  have hlinked : (run (oneSource (.exited 0 "")) ["--link", "p.fun", "-op"]).status = .exit 0 := by
    decide +kernel
  have hfailed : (run (oneSource (.exited 1 "no room")) ["--link", "p.fun", "-op"]).status =
      .exit 1 := by
    decide +kernel
  have hruns : (run (oneSource (.exited 1 "no room")) ["--link", "p.fun", "-op"]).runs ≠ [] := by
    decide +kernel
  obtain ⟨-, hsuccess, -⟩ := run_all_or_nothing (oneSource (.exited 0 "")) hargs
  obtain ⟨hsilent, -, hmayLink, -⟩ := run_all_or_nothing (oneSource (.exited 1 "no room")) hargs
  obtain ⟨text, hmakes, hlinks, -⟩ := hsuccess hlinked
  obtain ⟨-, hstdout, hwritten⟩ := hsilent (by simp [hfailed])
  exact ⟨hargs, hlinked, ⟨text, hmakes, hlinks rfl⟩, hfailed, hstdout, hwritten, hmayLink hruns⟩

end FunCompiler.Cli
