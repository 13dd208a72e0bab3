import FunCompiler.Target
import FunCompiler.Text.Numeral
import FunCompiler.Text.Quoted

/-!
The command line. Long options may be cut short as long as one option fits, and
take a value behind `=` or as the next argument; short options may be written
together, also behind `=`, and take a value right behind them too. `--` ends the options.
-/

namespace FunCompiler.Cli

inductive Opt where
  | help
  | output
  | target
  | noValidate
  | astOnly
  | stats
  | link
  | cc
  | verbose
  deriving DecidableEq, Repr

namespace Opt

def all : List Opt :=
  [.help, .output, .target, .noValidate, .astOnly, .stats, .link, .cc, .verbose]

def spellings : Opt → List String
  | .help => ["-h", "--help"]
  | .output => ["--output", "-o"]
  | .target => ["--target", "-t"]
  | .noValidate => ["--no-validate"]
  | .astOnly => ["--ast-only"]
  | .stats => ["--stats"]
  | .link => ["--link"]
  | .cc => ["--cc"]
  | .verbose => ["--verbose", "-v"]

def takesValue : Opt → Bool
  | .output => true
  | .target => true
  | .cc => true
  | _ => false

/-- The option as messages name it. -/
def title (o : Opt) : String := "/".intercalate o.spellings

/-- Every spelling and its option. -/
def table : List (String × Opt) := all.flatMap fun o => o.spellings.map (·, o)

def ofSpelling? (s : String) : Option Opt := table.lookup s

end Opt

inductive UsageError where
  | fileRequired
  | unrecognized (args : List String)
  | valueExpected (o : Opt)
  | invalidChoice (o : Opt) (value : String) (choices : List String)
  | valueIgnored (o : Opt) (value : String)
  | ambiguous (arg : String) (candidates : List String)
  deriving DecidableEq, Repr

def UsageError.message : UsageError → String
  | .fileRequired => "the following arguments are required: file"
  | .unrecognized args => "unrecognized arguments: " ++ " ".intercalate args
  | .valueExpected o => s!"argument {o.title}: expected one argument"
  | .invalidChoice o value choices =>
    s!"argument {o.title}: invalid choice: {Text.quoted value} (choose from " ++
    ", ".intercalate (choices.map Text.quoted) ++ ")"
  | .valueIgnored o value => s!"argument {o.title}: ignored explicit argument {Text.quoted value}"
  | .ambiguous arg candidates =>
    s!"ambiguous option: {arg} could match " ++ ", ".intercalate candidates

inductive Arg where
  | word (s : String)
  /-- An option, and the text that is attached to it in the same argument. -/
  | option (o : Opt) (short : Bool) (attached : Option (List Char))
  | unknown (s : String)
  /-- The argument that ends the options. -/
  | divider
  deriving DecidableEq, Repr

/-! ### One argument -/

/-- A negative number is no option. -/
def isNegativeNumber : List Char → Bool
  | '-' :: cs =>
    let cs := if cs.getLast? = some '\n' then cs.dropLast else cs
    let whole := cs.takeWhile Text.isDecimalDigit
    match cs.dropWhile Text.isDecimalDigit with
    | [] => !whole.isEmpty
    | '.' :: fraction => !fraction.isEmpty && fraction.all Text.isDecimalDigit
    | _ => false
  | _ => false

/-- The text before the first `=`, and the text behind it if there is one. -/
def splitAssigned (cs : List Char) : List Char × Option (List Char) :=
  match cs.dropWhile (· != '=') with
  | [] => (cs, none)
  | _ :: value => (cs.takeWhile (· != '='), some value)

def isShort (spelling : List Char) : Bool := spelling[1]? != some '-'

/-- The options that an argument, other than a whole option, may be meant for. -/
def candidates (cs : List Char) : List (String × Arg) :=
  if isShort cs then
    (Opt.table.filter fun (s, _) => s.toList == cs.take 2).map fun (s, o) =>
      (s, .option o true (some (cs.drop 2)))
  else
    let (start, value) := splitAssigned cs
    (Opt.table.filter fun (s, _) => start.isPrefixOf s.toList).map fun (s, o) =>
      (s, .option o false value)

def classify (arg : String) : Except UsageError Arg :=
  let cs := arg.toList
  if cs.head? ≠ some '-' then .ok (.word arg)
  else
    match Opt.ofSpelling? arg with
    | some o => .ok (.option o (isShort cs) none)
    | none =>
      if cs.length = 1 then .ok (.word arg)
      else
        let (start, value) := splitAssigned cs
        match Opt.ofSpelling? (String.ofList start), value with
        | some o, some value => .ok (.option o (isShort cs) (some value))
        | _, _ =>
          match candidates cs with
          | [(_, found)] => .ok found
          | [] => .ok (if isNegativeNumber cs || cs.contains ' ' then .word arg else .unknown arg)
          | several => .error (.ambiguous arg (several.map (·.1)))

/-- Classifies all arguments; behind the divider every argument is a word. -/
def classifyAll : List String → Except UsageError (List Arg)
  | [] => .ok []
  | arg :: args =>
    if arg = "--" then .ok (.divider :: args.map .word)
    else do
      let first ← classify arg
      let rest ← classifyAll args
      return first :: rest

/-! ### The whole line -/

structure Options where
  file : String
  output : Option String := none
  target : Option Target := none
  validate : Bool := true
  astOnly : Bool := false
  stats : Bool := false
  link : Bool := false
  cc : String := "cc"
  verbose : Bool := false
  deriving DecidableEq, Repr

inductive Request where
  | help
  | compile (o : Options)
  deriving DecidableEq, Repr

/-- An option and its value, empty if it takes none. -/
structure Setting where
  opt : Opt
  value : String
  deriving DecidableEq, Repr

/-- Options written together in one argument: those that are complete, and the one
behind them that waits for the next argument as its value. -/
structure Bundle where
  settings : List Setting := []
  waiting : Option Opt := none
  deriving DecidableEq, Repr

/-- Takes apart what is attached to a short option without a value: more options. -/
def unbundle (o : Opt) : List Char → Except UsageError Bundle
  | [] => .ok (if o.takesValue then { waiting := some o } else { settings := [⟨o, ""⟩] })
  | c :: cs =>
    if o.takesValue then .ok { settings := [⟨o, String.ofList (c :: cs)⟩] }
    else
      match Opt.ofSpelling? (String.ofList ['-', c]) with
      | none => .error (.valueIgnored o (String.ofList (c :: cs)))
      | some next => do
        let rest ← unbundle next cs
        return { rest with settings := ⟨o, ""⟩ :: rest.settings }

/-- What one option argument sets. -/
def bundleOf (o : Opt) (short : Bool) : Option (List Char) → Except UsageError Bundle
  | none => unbundle o []
  | some attached =>
    if o.takesValue then .ok { settings := [⟨o, String.ofList attached⟩] }
    else if short && !attached.isEmpty then unbundle o attached
    else .error (.valueIgnored o (String.ofList attached))

/-- The options so far, the file if it was given, and the arguments that fit nothing. -/
structure Progress where
  options : Options := { file := "" }
  file : Option String := none
  extra : List String := []
  deriving DecidableEq, Repr

/-- Applies one setting; `none` is a request for help. -/
def applySetting (o : Options) (s : Setting) : Except UsageError (Option Options) :=
  match s.opt with
  | .help => .ok none
  | .output => .ok (some { o with output := some s.value })
  | .target =>
    match Target.all.find? (·.name == s.value) with
    | some target => .ok (some { o with target := some target })
    | none => .error (.invalidChoice .target s.value (Target.all.map (·.name)))
  | .noValidate => .ok (some { o with validate := false })
  | .astOnly => .ok (some { o with astOnly := true })
  | .stats => .ok (some { o with stats := true })
  | .link => .ok (some { o with link := true })
  | .cc => .ok (some { o with cc := s.value })
  | .verbose => .ok (some { o with verbose := true })

def applySettings (o : Options) : List Setting → Except UsageError (Option Options)
  | [] => .ok (some o)
  | s :: ss => do
    match ← applySetting o s with
    | none => return none
    | some o => applySettings o ss

/-- The request of a line that has been read to its end. -/
def Progress.finish (p : Progress) : Except UsageError Request :=
  match p.file, p.extra with
  | none, _ => .error .fileRequired
  | some file, [] => .ok (.compile { p.options with file })
  | some _, extra => .error (.unrecognized extra)

/-- Reads the arguments from left to right. The first word is the file, and a divider
next to it belongs to it. -/
def readArgs (p : Progress) : List Arg → Except UsageError Request
  | [] => p.finish
  | .word file :: .divider :: args =>
    if p.file.isNone then readArgs { p with file := some file } args
    else readArgs { p with extra := p.extra ++ [file, "--"] } args
  | .word file :: args =>
    if p.file.isNone then readArgs { p with file := some file } args
    else readArgs { p with extra := p.extra ++ [file] } args
  | .divider :: .word file :: args =>
    if p.file.isNone then readArgs { p with file := some file } args
    else readArgs { p with extra := p.extra ++ ["--", file] } args
  | .divider :: args => readArgs { p with extra := p.extra ++ ["--"] } args
  | .unknown s :: args => readArgs { p with extra := p.extra ++ [s] } args
  | .option o short attached :: args => do
    let bundle ← bundleOf o short attached
    match bundle.waiting, args with
    | none, args =>
      match ← applySettings p.options bundle.settings with
      | none => return .help
      | some options => readArgs { p with options } args
    | some o, .word value :: args =>
      match ← applySettings p.options (bundle.settings ++ [⟨o, value⟩]) with
      | none => return .help
      | some options => readArgs { p with options } args
    | some o, _ => throw (.valueExpected o)

def parseArgs (args : List String) : Except UsageError Request := do
  readArgs {} (← classifyAll args)

/-! ### Texts -/

def usage : String :=
  "usage: funcc [-h] [--output OUTPUT] [--target \x7belf,macho\x7d] [--no-validate]\n" ++
  "             [--ast-only] [--stats] [--link] [--cc CC] [--verbose]\n" ++
  "             file\n"

def helpText : String :=
  usage ++
  "\nCompile fun programs to x86-64 assembly\n" ++
  "\npositional arguments:\n" ++
  "  file                  Source file to compile ('-' reads stdin)\n" ++
  "\noptions:\n" ++
  "  -h, --help            show this help message and exit\n" ++
  "  --output OUTPUT, -o OUTPUT\n" ++
  "                        Output file (default: stdout; required with --link)\n" ++
  "  --target \x7belf,macho\x7d, -t \x7belf,macho\x7d\n" ++
  "                        Object-file convention (default: host)\n" ++
  "  --no-validate         Skip arity/undefined-function/main checks\n" ++
  "  --ast-only            Only print the parsed AST as JSON\n" ++
  "  --stats               Only print instruction mnemonic counts\n" ++
  "  --link                Assemble and link into an executable\n" ++
  "  --cc CC               C compiler used by --link (default: cc)\n" ++
  "  --verbose, -v         Log pipeline stages\n"

def UsageError.text (e : UsageError) : String := s!"{usage}funcc: error: {e.message}\n"

end FunCompiler.Cli
