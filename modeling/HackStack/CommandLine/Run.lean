import HackStack.CommandLine.Arguments
import HackStack.CommandLine.FileTree
import HackStack.CommandLine.Log

set_option autoImplicit false

/-! # The command line program

Compiles one file to another. The output file is not touched before the whole input has been
compiled. The program reaches files through two operations (`FileAccess`), so that it runs on the
files of the system as well as on a `FileTree`.
-/

namespace HackStack.CommandLine

/-- How files are opened for reading and written as a whole. -/
structure FileAccess (m : Type → Type) where
  read : String → m (Except IoError ByteSource)
  write : String → ByteArray → m (Except IoError Unit)

/-- What the program leaves behind, files apart. -/
structure Report where
  code : UInt32 := 0
  output : String := ""
  log : List String := []
  errors : String := ""
  deriving DecidableEq, Repr

def versionText : String := "vm-translator 0.1.0\n"

def usageText : String := "Usage: vm-translator [OPTIONS] <INPUT>\n"

def helpText : String :=
  "Translate VM commands into Hack assembly\n\n" ++ usageText ++ "\n" ++
  "Arguments:\n" ++
  "  <INPUT>  VM source file (`.vm`)\n\n" ++
  "Options:\n" ++
  "  -o, --output <FILE>  Output file, defaults to the input with an `.asm` extension\n" ++
  "      --annotate       Echo each VM command as a comment above its code\n" ++
  "  -v, --verbose...     Log more (-v info, -vv debug)\n" ++
  "  -h, --help           Print help\n" ++
  "  -V, --version        Print version\n"

/-- The report for arguments that are refused. -/
def Report.usage (error : UsageError) : Report :=
  { code := 2
    errors := "error: " ++ error.message ++ "\n\n" ++ usageText
      ++ "\nFor more information, try '--help'.\n" }

/-- The lines for the causes of a failure; they are numbered if there are several. -/
def causeLines (causes : List String) : List String :=
  match causes with
  | [cause] => ["    " ++ cause]
  | causes => causes.mapIdx fun i cause => "    " ++ toString i ++ ": " ++ cause

/-- The report for a failure, with what the program was doing and why that failed. -/
def Report.failure (log : List String) (context : String) (causes : List String) : Report :=
  { code := 1
    log := log
    errors := "Error: " ++ context ++ "\n"
      ++ (if causes.isEmpty then ""
        else
          "\nCaused by:\n"
            ++ String.join ((causeLines causes).map fun line => line ++ "\n")) }

/-- The chain of causes of a compile error. -/
def causesOf (error : CompileError) : List String :=
  match error with
  | .io ioError => [error.message, ioError.message]
  | _ => [error.message]

namespace Options

/-- The file that is written. -/
def outputPath (options : Options) : String :=
  options.output.getD (Path.replaceExtension options.input "asm")

/-- The log entry for a finished compilation. -/
def completed (options : Options) (summary : Summary) : LogEntry :=
  ⟨.info, "vm_translator", "translation complete",
    [("input", options.input), ("output", options.outputPath),
      ("lines", toString summary.lines), ("commands", toString summary.commands),
      ("instructions", toString summary.instructions)]⟩

end Options

section Program

variable {m : Type → Type} [Monad m]

/-- Compiles the input file to the output file. -/
def compileFile (files : FileAccess m) (options : Options) : m Report := do
  if Path.hasExtension options.input "vm" then
    match ← files.read options.input with
    | .error error =>
        return .failure [] ("File not found: " ++ options.input) [error.message]
    | .ok source =>
        let result := Stream.compile options.annotate source {}
        let entries := result.diagnostics.toList.map LogEntry.ofDiagnostic
        let log := LogEntry.lines options.verbosity entries
        match result.outcome with
        | .error error =>
            return .failure log ("Error while translating " ++ options.input) (causesOf error)
        | .ok summary =>
            match ← files.write options.outputPath result.sink.written with
            | .error error =>
                return .failure log ("Error while writing " ++ options.outputPath) [error.message]
            | .ok () =>
                return { log := log ++ LogEntry.lines options.verbosity [options.completed summary] }
  else
    return .failure [] "Usage: vm-translator <codefile.vm>" []

/-- Runs the program with the given arguments. -/
def run (files : FileAccess m) (arguments : List String) : m Report :=
  match readArguments arguments with
  | .error error => return .usage error
  | .ok .version => return { output := versionText }
  | .ok .help => return { output := helpText }
  | .ok (.compile options) => compileFile files options

end Program

/-- Access to the files of a tree. -/
def treeAccess : FileAccess (StateM FileTree) where
  read path := return (← get).open? path
  write path content := do
    match (← get).write path content with
    | .error error => return .error error
    | .ok tree =>
        set tree
        return .ok ()

/-- Runs the program on the files of a tree: its report, and the tree after it. -/
def runOnTree (arguments : List String) (tree : FileTree) : Report × FileTree :=
  (run treeAccess arguments).run tree

end HackStack.CommandLine
