import Mila.Code.Listing
import Mila.CommandLine.Arguments
import Mila.CommandLine.FileTree
import Mila.Compile
import Mila.Token.Dump
import Mila.Tree.Outline

/-! # The command line

A command reads one source, takes it as far as the stage that was asked for, and writes the result to
standard output or to a file. Nothing is written if any part of this fails; the failure is then the only
thing reported.
-/

namespace Mila

/-- What a command leaves behind, files apart. -/
structure Report where
  exitCode : UInt32
  stdout : String
  stderr : String
  deriving DecidableEq, Repr

namespace Report

def success (output : String) : Report := ⟨0, output, ""⟩

def failure (message : String) : Report := ⟨1, "", "error: " ++ message ++ "\n"⟩

/-- How commands are called. -/
def usageLine : String := "Usage: milac [OPTIONS] [FILE]\n"

def misuse (e : UsageError) : Report :=
  ⟨2, "", String.join [
    "error: ", e.message, "\n\n", usageLine, "\nFor more information, try '--help'.\n"]⟩

def version : Report := success "milac 0.0.1\n"

def help : Report :=
  success (String.join [
    "Compiles Mila programs into a basic-block IR\n\n",
    usageLine,
    "\nArguments:\n",
    "  [FILE]  Source file to compile; stdin when absent or `-`\n",
    "\nOptions:\n",
    "      --emit <EMIT>              Stage whose output is printed [default: ir] ",
    "[possible values: tokens, ast, ir, run]\n",
    "  -o, --output <OUTPUT>          Write the output to a file instead of stdout\n",
    "      --input <INPUT>            Integers consumed by `readln` when running\n",
    "      --step-limit <STEP_LIMIT>  Instructions the interpreter may execute [default: 10000000]\n",
    "  -h, --help                     Print help\n",
    "  -V, --version                  Print version\n"])

end Report

/-- An error of a compilation is shown together with its cause, which reads the same. -/
def CompileError.withCause (e : CompileError) : String := e.message ++ ": " ++ e.message

/-- The words of the output on lines of their own, and then the exit code. -/
def Outcome.text (o : Outcome) : String :=
  String.join (o.output.map fun w => toString w ++ "\n") ++ "exit " ++ toString o.exitCode ++ "\n"

namespace Options

def limits (o : Options) : Limits :=
  match o.stepLimit with
  | none => {}
  | some steps => { steps }

/-- The text to write for a source, or the message of what is wrong with it. -/
def result (o : Options) (source : String) : Except String String :=
  match o.stage.getD .code with
  | .tokens => .ok (String.join ((tokens source).map fun t => t.dump ++ "\n"))
  | .tree => ((parseProgram source).map Program.outlineText).mapError ParseError.message
  | .code => ((compile source).map Code.listing).mapError CompileError.withCause
  | .run => do
    let code ← (compile source).mapError CompileError.withCause
    let outcome ← (code.run o.input o.limits).mapError Fault.message
    return outcome.text

/-- The source file, unless the source comes from standard input. A dash stands for standard input, also
where steps that lead nowhere else follow it. -/
def sourceFile (o : Options) : Option String :=
  o.file.filter fun path =>
    match path.splitOn "/" with
    | "-" :: rest => !rest.all fun part => part == "" || part == "."
    | _ => true

/-- The source text, or the message of why it cannot be read. -/
def source {m : Type → Type} [Monad m] (o : Options) (host : Host m) : m (Except String String) := do
  match o.sourceFile with
  | some path =>
    return (← host.readFile path).mapError fun e => "reading " ++ path ++ ": " ++ e.message
  | none => return (← host.readStdin).mapError fun e => "reading stdin: " ++ e.message

/-- Writes a result to where it belongs. -/
def deliver {m : Type → Type} [Monad m] (o : Options) (host : Host m) (text : String) : m Report := do
  match o.output with
  | none => return .success text
  | some path =>
    match ← host.writeFile path text with
    | .ok () => return .success ""
    | .error e => return .failure ("writing " ++ path ++ ": " ++ e.message)

/-- Carries out a request to process a source. -/
def process {m : Type → Type} [Monad m] (o : Options) (host : Host m) : m Report := do
  match (← o.source host) >>= o.result with
  | .ok text => o.deliver host text
  | .error message => return .failure message

end Options

/-- Carries out the command that the arguments describe. -/
def command {m : Type → Type} [Monad m] (host : Host m) (arguments : List String) : m Report := do
  match Request.ofArguments arguments with
  | .error e => return .misuse e
  | .ok .help => return .help
  | .ok .version => return .version
  | .ok (.process options) => options.process host

/-- Carries out a command on a file tree, and gives what it leaves behind. -/
def FileTree.command (t : FileTree) (arguments : List String) : Report × FileTree :=
  let (report, after) := (Mila.command FileTree.host arguments).run t
  (⟨report.exitCode, after.stdout ++ report.stdout, after.stderr ++ report.stderr⟩, after)

end Mila
