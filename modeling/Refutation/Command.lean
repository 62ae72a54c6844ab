import Refutation.Solver

/-!
# The command line

The arguments select the input, the limit, a time limit and the form of the report.  They are read
from left to right, and the first fault among them, or the first request for help, settles the
matter.  The exit status tells the cases apart: 0 for an answer or help, 1 for input that cannot be
read or is faulty, 2 for a misuse, and 3 if the time ran out.

## Main definitions

* `Options`, `UsageError`, `Command` — what the arguments ask for.
* `Command.parse` — reading the arguments.
* `Input` — where the source text comes from.
* `Exit` — what the program prints and returns.
* `Answer` — what a call comes to, short of being printed.
-/

namespace Refutation

/-- How to call the program. -/
def usage : String := "\n".intercalate
  ["Usage: folres [OPTIONS] [FILE]",
   "",
   "Reads CNF clauses from FILE (or stdin when FILE is absent or `-`) and",
   "reports whether the empty clause can be derived by resolution.",
   "",
   "Options:",
   "  --max-predicates N   keep only resolvents with fewer than N literals",
   "                       (N <= 0 or `unlimited` disables the limit)",
   "  --timeout-ms N       stop after N milliseconds and report no result",
   "  --json               print statistics as JSON",
   "  --trace              log every clause pair and kept resolvent",
   "  --help               print this message"]

/-! ### Arguments -/

/-- What the arguments have set. -/
structure Options where
  /-- The input file, or a dash. -/
  input : Option String := none
  /-- The value of the limit, not read yet. -/
  maxPredicates : Option String := none
  /-- The time limit in milliseconds. -/
  timeout : Option Nat := none
  /-- Whether the report is printed as JSON. -/
  json : Bool := false
  /-- Whether the events of the run are logged. -/
  trace : Bool := false
  deriving DecidableEq, Repr

/-- What is wrong with the arguments. -/
inductive UsageError where
  /-- An option stands last and lacks its value. -/
  | missingValue (option : String)
  /-- The time limit is not a number of milliseconds. -/
  | invalidTimeout (value : String)
  /-- There is no such option. -/
  | unknownOption (option : String)
  /-- A second input file is given. -/
  | unexpectedArgument (arg : String)
  deriving DecidableEq, Repr

/-- The wording of a misuse. -/
def UsageError.message : UsageError → String
  | .missingValue option => option ++ " needs a value"
  | .invalidTimeout value => "invalid --timeout-ms value: " ++ value
  | .unknownOption option => "unknown option: " ++ option
  | .unexpectedArgument arg => "unexpected argument: " ++ arg

/-- What the arguments ask for. -/
inductive Command where
  /-- To print the usage. -/
  | help
  /-- To solve a problem. -/
  | solve (options : Options)
  deriving DecidableEq, Repr

/-- Read the arguments, given what those before them have set. -/
def Command.parseFrom (options : Options) : List String → Except UsageError Command
  | [] => .ok (.solve options)
  | arg :: rest =>
    if arg = "--help" ∨ arg = "-h" then .ok .help
    else if arg = "--json" then parseFrom { options with json := true } rest
    else if arg = "--trace" then parseFrom { options with trace := true } rest
    else if arg = "--max-predicates" then
      match rest with
      | [] => .error (.missingValue arg)
      | value :: rest => parseFrom { options with maxPredicates := some value } rest
    else if arg = "--timeout-ms" then
      match rest with
      | [] => .error (.missingValue arg)
      | value :: rest =>
        match Text.readNat64 value.toList with
        | .ok millis => parseFrom { options with timeout := some millis } rest
        | .error _ => .error (.invalidTimeout value)
    else if arg.startsWith "--" then .error (.unknownOption arg)
    else if options.input.isSome then .error (.unexpectedArgument arg)
    else parseFrom { options with input := some arg } rest

/-- Read the arguments. -/
def Command.parse (args : List String) : Except UsageError Command := parseFrom {} args

/-! ### What the options mean -/

/-- Where a source text comes from. -/
inductive Input where
  /-- Standard input. -/
  | stdin
  /-- A file. -/
  | file (path : String)
  deriving DecidableEq, Repr

namespace Options

/-- Where the source text comes from: standard input if no file is named, or a dash. -/
def source (options : Options) : Input :=
  match options.input with
  | none => .stdin
  | some path => if path = "-" then .stdin else .file path

/-- The configuration the options set. -/
def config (options : Options) : Except SolveError Config :=
  match options.maxPredicates with
  | none => .ok {}
  | some value => Config.set {} "max_predicates" value

end Options

/-! ### Exits -/

/-- What the program prints and returns. -/
structure Exit where
  /-- The exit status. -/
  code : Nat
  /-- What goes to standard output. -/
  out : String
  /-- What goes to standard error. -/
  err : String
  deriving DecidableEq, Repr

/-- What a call comes to. -/
inductive Answer where
  /-- The usage was asked for. -/
  | help
  /-- The arguments are wrong. -/
  | misuse (e : UsageError)
  /-- The input cannot be read, for the reason the system gives. -/
  | unreadable (reason : String)
  /-- The problem cannot be posed. -/
  | unsolvable (e : SolveError)
  /-- There is a report, with or without an answer. -/
  | reported (options : Options) (report : Report)
  deriving Repr

/-- What the program prints and returns for each case. -/
def Answer.exit : Answer → Exit
  | .help => ⟨0, usage ++ "\n", ""⟩
  | .misuse e => ⟨2, "", "Error: " ++ e.message ++ "\n\n" ++ usage ++ "\n"⟩
  | .unreadable reason => ⟨1, "", "Error: cannot read input: " ++ reason ++ "\n"⟩
  | .unsolvable (.source e) => ⟨1, "", e.message ++ "\n"⟩
  | .unsolvable e => ⟨2, "", "Error: " ++ e.message ++ "\n"⟩
  | .reported options report =>
    ⟨if report.result.isSome then 0 else 3,
      (if options.json then report.json else report.text) ++ "\n", ""⟩

end Refutation
