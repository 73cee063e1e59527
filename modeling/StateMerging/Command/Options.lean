/-!
# Command line options

An argument that starts with a dash and is longer than the dash is an option: `--name`,
`--name=value` or a cluster of letters such as `-n3`.  Everything else is a sentence, and so is
everything behind the argument `--`.  A value that an option needs may follow as an argument of its
own, if it does not look like an option itself.  No option may be given twice.
-/

namespace StateMerging.Command

/-! ## What can be asked for -/

inductive Verbosity
  | info
  | debug
  | trace
  deriving DecidableEq

/-- What is done with the automaton of the sentences. -/
inductive Mode
  /-- A step for each line of the input. -/
  | interactive
  | steps (n : Nat)
  | fixpoint (bound : Nat)
  deriving DecidableEq

/-- What a command line asks for. -/
structure Options where
  verbosity : Option Verbosity := none
  file : Option String := none
  keepEmpty : Bool := false
  mode : Mode := .interactive
  sentences : List String := []
  deriving DecidableEq

inductive OptionName
  | verbosity
  | file
  | keepEmpty
  | steps
  | fixpoint
  | maxSteps
  deriving DecidableEq

/-- Whether an option has a value. -/
inductive Arity
  | flag
  /-- A value may stand behind an equals sign, and not in an argument of its own. -/
  | optional
  | required
  deriving DecidableEq

/-- What is wrong with a command line. -/
inductive UsageError
  | unknownOption (text : String)
  | missingValue (o : OptionName)
  | unexpectedValue (o : OptionName)
  | invalidValue (o : OptionName)
  | repeatedOption (o : OptionName)
  | conflict (o p : OptionName)
  deriving DecidableEq

namespace OptionName

def ofLong? : String → Option OptionName
  | "verbosity" => some verbosity
  | "file" => some file
  | "keep-empty" => some keepEmpty
  | "steps" => some steps
  | "fixpoint" => some fixpoint
  | "max-steps" => some maxSteps
  | _ => none

def ofShort? : Char → Option OptionName
  | 'v' => some verbosity
  | 'f' => some file
  | 'n' => some steps
  | _ => none

def text : OptionName → String
  | verbosity => "--verbosity"
  | file => "--file"
  | keepEmpty => "--keep-empty"
  | steps => "--steps"
  | fixpoint => "--fixpoint"
  | maxSteps => "--max-steps"

def arity : OptionName → Arity
  | verbosity => .optional
  | keepEmpty | fixpoint => .flag
  | file | steps | maxSteps => .required

end OptionName

def UsageError.message : UsageError → String
  | unknownOption t => "there is no option " ++ t
  | missingValue o => o.text ++ " needs a value"
  | unexpectedValue o => o.text ++ " takes no value"
  | invalidValue o => "the value of " ++ o.text ++ " cannot be read"
  | repeatedOption o => o.text ++ " is given twice"
  | conflict o p => o.text ++ " cannot be used with " ++ p.text

/-! ## Splitting the arguments -/

/-- An option as it was given, with its value. -/
abbrev Given := OptionName × Option String

/-- A dash alone is a sentence. -/
def looksLikeOption (arg : String) : Bool :=
  match arg.toList with
  | '-' :: _ :: _ => true
  | _ => false

/-- The name and the value of a long option, cut at the first equals sign. -/
def cutLong (cs : List Char) : String × Option String :=
  let name := cs.takeWhile (· ≠ '=')
  (String.ofList name,
    match cs.drop name.length with
    | [] => none
    | _ :: value => some (String.ofList value))

/-- The options in a cluster of letters, and the one that still needs a value. -/
def cluster : List Char → Except UsageError (List Given × Option OptionName)
  | [] => .ok ([], none)
  | c :: cs =>
    match OptionName.ofShort? c with
    | none => .error (.unknownOption (String.ofList ['-', c]))
    | some o =>
      match o.arity, cs with
      | .required, [] => .ok ([], some o)
      | .required, '=' :: value => .ok ([(o, some (String.ofList value))], none)
      | .required, value => .ok ([(o, some (String.ofList value))], none)
      | .optional, '=' :: value => .ok ([(o, some (String.ofList value))], none)
      | _, cs => (cluster cs).map fun (given, rest?) => ((o, none) :: given, rest?)

/-- The options in one argument that looks like an option, and the one that still needs a value. -/
def readOption (arg : String) : Except UsageError (List Given × Option OptionName) :=
  match arg.toList with
  | '-' :: '-' :: cs =>
    let (name, value?) := cutLong cs
    match OptionName.ofLong? name with
    | none => .error (.unknownOption arg)
    | some o =>
      match o.arity, value? with
      | .flag, some _ => .error (.unexpectedValue o)
      | .required, none => .ok ([], some o)
      | _, value? => .ok ([(o, value?)], none)
  | '-' :: cs => cluster cs
  | _ => .ok ([], none)

/-- The options and the sentences among the arguments, in their order. -/
def scan : List String → Except UsageError (List Given × List String)
  | [] => .ok ([], [])
  | arg :: args =>
    if arg = "--" then .ok ([], args)
    else if looksLikeOption arg then
      match readOption arg with
      | .error e => .error e
      | .ok (given, none) => (scan args).map fun (more, sentences) => (given ++ more, sentences)
      | .ok (given, some o) =>
        match args with
        | [] => .error (.missingValue o)
        | value :: args =>
          if looksLikeOption value then .error (.missingValue o)
          else
            (scan args).map fun (more, sentences) =>
              (given ++ (o, some value) :: more, sentences)
    else (scan args).map fun (given, sentences) => (given, arg :: sentences)

/-! ## Reading values -/

/-- The number that decimal digits write. -/
def digits? (cs : List Char) : Option Nat :=
  if cs ≠ [] ∧ cs.all Char.isDigit then
    some (cs.foldl (fun n c => 10 * n + (c.toNat - '0'.toNat)) 0)
  else none

/-- The first number that a machine word cannot hold, `2 ^ 64`. -/
def countLimit : Nat := 0x10000000000000000

/-- The number that a text writes, if it is below the limit. -/
def parseCount? (s : String) : Option Nat :=
  let n? :=
    match s.toList with
    | '+' :: cs => digits? cs
    | cs => digits? cs
  n?.filter (· < countLimit)

/-- The verbosity that the value of its option names. -/
def Verbosity.parse? : Option String → Option Verbosity
  | none => some info
  | some "info" => some info
  | some "debug" => some debug
  | some "trace" => some trace
  | some _ => none

/-- The value of the option `o`, if it was given once, and nothing if it was not given. -/
def lookup (o : OptionName) (given : List Given) : Except UsageError (Option (Option String)) :=
  match given.filter (·.1 = o) with
  | [] => .ok none
  | [(_, value)] => .ok (some value)
  | _ => .error (.repeatedOption o)

def lookupWith {α : Type} (o : OptionName) (read : Option String → Option α) (given : List Given) :
    Except UsageError (Option α) :=
  (lookup o given).bind fun value? =>
    match value? with
    | none => .ok none
    | some value =>
      match read value with
      | none => .error (.invalidValue o)
      | some x => .ok (some x)

def nonempty? (s : String) : Option String := if s.isEmpty then none else some s

def defaultBound : Nat := 10000

/-- The mode that its three options ask for. -/
def Mode.choose (steps : Option Nat) (fixpoint : Bool) (maxSteps : Option Nat) :
    Except UsageError Mode :=
  match steps, fixpoint with
  | some _, true => .error (.conflict .steps .fixpoint)
  | some n, false => .ok (.steps n)
  | none, true => .ok (.fixpoint (maxSteps.getD defaultBound))
  | none, false => .ok .interactive

def Options.parse (args : List String) : Except UsageError Options := do
  let (given, sentences) ← scan args
  let verbosity ← lookupWith .verbosity Verbosity.parse? given
  let file ← lookupWith .file (·.bind nonempty?) given
  let keepEmpty ← lookup .keepEmpty given
  let steps ← lookupWith .steps (·.bind parseCount?) given
  let fixpoint ← lookup .fixpoint given
  let maxSteps ← lookupWith .maxSteps (·.bind parseCount?) given
  let mode ← Mode.choose steps fixpoint.isSome maxSteps
  return { verbosity, file, keepEmpty := keepEmpty.isSome, mode, sentences }

end StateMerging.Command
