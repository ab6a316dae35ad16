set_option autoImplicit false

/-! # Command line arguments

One input file and a few options, read from left to right. The first error ends the reading, and
so does the first request for the version or the help text: what follows it is not looked at.

    -o FILE, --output FILE    also -oFILE, -o=FILE, --output=FILE; at most once
    --annotate                at most once
    -v, --verbose             any number of times
    -V, --version             -h, --help
    --                        all arguments after it are inputs

Short options without a value can be joined (`-vvo FILE`). A value that is an argument of its own
does not begin with `-`, except for `-` alone. No value and no input is empty.
-/

namespace HackStack.CommandLine

/-- What a compilation is asked for. -/
structure Options where
  input : String
  output : Option String := none
  annotate : Bool := false
  verbosity : Nat := 0
  deriving DecidableEq, Repr

inductive Request
  | compile (options : Options)
  | version
  | help
  deriving DecidableEq, Repr

/-- Why arguments are refused. -/
inductive UsageError
  | unexpected (argument : String)
  | unexpectedValue (value option : String)
  | missingValue (option : String)
  | emptyValue (place : String)
  | repeated (option : String)
  | missingInput
  deriving DecidableEq, Repr

namespace UsageError

def message : UsageError → String
  | .unexpected argument => "unexpected argument '" ++ argument ++ "' found"
  | .unexpectedValue value option =>
      "unexpected value '" ++ value ++ "' for '" ++ option ++ "' found; no more were expected"
  | .missingValue option =>
      "a value is required for '" ++ option ++ "' but none was supplied"
  | .emptyValue place => "a value is required for '" ++ place ++ "' but none was supplied"
  | .repeated option => "the argument '" ++ option ++ "' cannot be used multiple times"
  | .missingInput => "the following required arguments were not provided:\n  <INPUT>"

end UsageError

/-- The options read so far. -/
structure Draft where
  input : Option String := none
  output : Option String := none
  annotate : Bool := false
  verbosity : Nat := 0

/-- How the reading goes on after an argument. -/
inductive Step
  /-- with the next argument -/
  | next (draft : Draft)
  /-- with the next argument, which is the output file -/
  | outputNext (draft : Draft)
  /-- not at all: the request is known -/
  | stop (request : Request)

namespace Draft

def outputOption : String := "--output <FILE>"

def setOutput (d : Draft) (value : String) : Except UsageError Draft :=
  if value.isEmpty then .error (.emptyValue outputOption)
  else if d.output.isSome then .error (.repeated outputOption)
  else .ok { d with output := some value }

def setInput (d : Draft) (value : String) : Except UsageError Draft :=
  if d.input.isSome then .error (.unexpected value)
  else if value.isEmpty then .error (.emptyValue "<INPUT>")
  else .ok { d with input := some value }

def moreVerbose (d : Draft) : Draft := { d with verbosity := d.verbosity + 1 }

/-- The request, if nothing is missing. -/
def finish (d : Draft) : Except UsageError Request :=
  match d.input with
  | some input => .ok (.compile ⟨input, d.output, d.annotate, d.verbosity⟩)
  | none => .error .missingInput

/-- Reads short options that are joined in one argument. -/
def readShort (d : Draft) : List Char → Except UsageError Step
  | [] => .ok (.next d)
  | 'v' :: rest => d.moreVerbose.readShort rest
  | 'V' :: _ => .ok (.stop .version)
  | 'h' :: _ => .ok (.stop .help)
  | ['o'] => .ok (.outputNext d)
  | 'o' :: '=' :: value => (d.setOutput (String.ofList value)).map .next
  | 'o' :: value => (d.setOutput (String.ofList value)).map .next
  | c :: _ => .error (.unexpected ("-" ++ String.singleton c))

/-- Reads a long option, given with or without a value. -/
def readLong (d : Draft) (name : String) (value : Option String) : Except UsageError Step :=
  if name = "output" then
    match value with
    | some value => (d.setOutput value).map .next
    | none => .ok (.outputNext d)
  else if name = "annotate" ∨ name = "verbose" ∨ name = "version" ∨ name = "help" then
    match value with
    | some value => .error (.unexpectedValue value ("--" ++ name))
    | none =>
        if name = "version" then .ok (.stop .version)
        else if name = "help" then .ok (.stop .help)
        else if name = "verbose" then .ok (.next d.moreVerbose)
        else if d.annotate then .error (.repeated "--annotate")
        else .ok (.next { d with annotate := true })
  else .error (.unexpected ("--" ++ name))

/-- Reads an argument other than `--`. -/
def read (d : Draft) (argument : String) : Except UsageError Step :=
  match argument.toList with
  | '-' :: '-' :: text =>
      let name := String.ofList (text.takeWhile (· != '='))
      let value :=
        match text.dropWhile (· != '=') with
        | [] => none
        | _ :: value => some (String.ofList value)
      d.readLong name value
  | '-' :: c :: flags => d.readShort (c :: flags)
  | _ => (d.setInput argument).map .next

/-- Reads arguments that are all inputs. -/
def readInputs (d : Draft) : List String → Except UsageError Request
  | [] => d.finish
  | argument :: rest =>
      match d.setInput argument with
      | .ok d' => d'.readInputs rest
      | .error error => .error error

end Draft

/-- Whether an argument is read as an option wherever it stands. -/
def isOption (argument : String) : Bool :=
  match argument.toList with
  | '-' :: _ :: _ => true
  | _ => false

/-- Goes on reading arguments; `awaitsValue` says that the next one is the output file. -/
def Draft.readAll (d : Draft) (awaitsValue : Bool) : List String → Except UsageError Request
  | [] => if awaitsValue then .error (.missingValue outputOption) else d.finish
  | argument :: rest =>
      if awaitsValue then
        if isOption argument then .error (.missingValue outputOption)
        else
          match d.setOutput argument with
          | .ok d' => d'.readAll false rest
          | .error error => .error error
      else if argument = "--" then d.readInputs rest
      else
        match d.read argument with
        | .ok (.next d') => d'.readAll false rest
        | .ok (.outputNext d') => d'.readAll true rest
        | .ok (.stop request) => .ok request
        | .error error => .error error

/-- Reads the arguments of a command line. -/
def readArguments (arguments : List String) : Except UsageError Request :=
  Draft.readAll {} false arguments

example : readArguments ["-vvo", "b.asm", "a.vm"] = .ok (.compile ⟨"a.vm", some "b.asm", false, 2⟩) :=
  rfl

example : readArguments ["a.vm", "-o", "-v"] = .error (.missingValue "--output <FILE>") := rfl

end HackStack.CommandLine
