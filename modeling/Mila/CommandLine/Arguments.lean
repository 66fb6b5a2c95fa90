import Mila.Machine

/-! # Arguments of the command line

At most one source file, and settings that each take a value. The value follows as the next argument
or after an equals sign; after the short name of a setting it may also follow at once. An argument `--`
makes everything behind it a file. Arguments are read from left to right, and the first one that is wrong,
or that asks for the help or the version, decides.
-/

namespace Mila

/-- The stage whose result is written. -/
inductive Stage where
  | tokens
  | tree
  | code
  | run
  deriving DecidableEq, Repr

def Stage.ofText? : String → Option Stage
  | "tokens" => some .tokens
  | "ast" => some .tree
  | "ir" => some .code
  | "run" => some .run
  | _ => none

/-- A setting that takes a value. -/
inductive Setting where
  | emit
  | output
  | input
  | stepLimit
  deriving DecidableEq, Repr

namespace Setting

def name : Setting → String
  | emit => "emit"
  | output => "output"
  | input => "input"
  | stepLimit => "step-limit"

def all : List Setting := [emit, output, input, stepLimit]

def ofName? (name : String) : Option Setting := all.find? fun s => s.name == name

end Setting

/-- What the arguments have settled. -/
structure Options where
  file : Option String := none
  stage : Option Stage := none
  output : Option String := none
  input : List Word := []
  stepLimit : Option Nat := none
  deriving DecidableEq, Repr

/-- What the command line is asked to do. -/
inductive Request where
  | help
  | version
  | process (options : Options)
  deriving DecidableEq, Repr

/-- Why arguments make no request. -/
inductive UsageError where
  | unexpectedArgument (text : String)
  | missingValue (setting : Setting)
  | invalidValue (setting : Setting) (value : String)
  | repeatedSetting (setting : Setting)
  | emptyFile
  deriving DecidableEq, Repr

def UsageError.message : UsageError → String
  | unexpectedArgument text => "unexpected argument '" ++ text ++ "' found"
  | missingValue setting =>
    "a value is required for '--" ++ setting.name ++ "' but none was supplied"
  | invalidValue setting value => "invalid value '" ++ value ++ "' for '--" ++ setting.name ++ "'"
  | repeatedSetting setting =>
    "the argument '--" ++ setting.name ++ "' cannot be used multiple times"
  | emptyFile => "a value is required for '[FILE]' but none was supplied"

/-! ## Numbers -/

/-- The number that a run of decimal digits stands for. -/
def decimal? (digits : List Char) : Option Nat :=
  if digits.isEmpty || !digits.all Char.isDigit then none
  else some (digits.foldl (fun n c => 10 * n + (c.toNat - '0'.toNat)) 0)

/-- The number of a run of digits that may have a sign. -/
def signedDecimal? : List Char → Option Int
  | '-' :: digits => (decimal? digits).map fun n => -(n : Int)
  | '+' :: digits => (decimal? digits).map fun n => (n : Int)
  | digits => (decimal? digits).map fun n => (n : Int)

/-- The word that a text stands for, if the number fits. -/
def Word.ofText? (text : String) : Option Word := do
  let n ← signedDecimal? text.toList
  if Int32.minValue.toInt ≤ n ∧ n ≤ Int32.maxValue.toInt then some (Int32.ofInt n) else none

/-- The words of a list that is divided by commas. -/
def Word.listOfText? (text : String) : Option (List Word) := (text.splitOn ",").mapM Word.ofText?

/-- The step limit that a text stands for: an unsigned number of 64 bits, which may have a plus sign. -/
def stepLimitOfText? (text : String) : Option Nat := do
  let n ← match text.toList with
    | '+' :: digits => decimal? digits
    | digits => decimal? digits
  if n < UInt64.size then some n else none

/-- A path is any text that is not empty. -/
def pathOfText? (text : String) : Option String := if text.isEmpty then none else some text

/-! ## Single arguments -/

/-- One argument by its form. -/
inductive Argument where
  | separator
  | plain (text : String)
  | help
  | version
  | setting (setting : Setting) (value : Option String)
  | unknown (text : String)
  deriving DecidableEq, Repr

namespace Argument

/-- The part behind the first equals sign. -/
def attached? (body : List Char) : Option String :=
  match body.dropWhile (· != '=') with
  | [] => none
  | _ :: value => some (String.ofList value)

/-- An argument that starts with two dashes. Only settings take a value. -/
def long (body : List Char) : Argument :=
  let name := String.ofList (body.takeWhile (· != '='))
  match Setting.ofName? name, attached? body with
  | some s, value => .setting s value
  | none, none =>
    if name == "help" then .help
    else if name == "version" then .version
    else .unknown ("--" ++ name)
  | none, some _ => .unknown ("--" ++ String.ofList body)

/-- An argument that starts with one dash, by the letter and what follows it. -/
def short (letter : Char) (body : List Char) : Argument :=
  match letter, body with
  | 'h', _ => .help
  | 'V', _ => .version
  | 'o', [] => .setting .output none
  | 'o', '=' :: value => .setting .output (some (String.ofList value))
  | 'o', value => .setting .output (some (String.ofList value))
  | _, _ => .unknown ("-" ++ letter.toString)

/-- A dash alone is a file, as is everything that does not start with a dash. -/
def ofText (text : String) : Argument :=
  match text.toList with
  | ['-', '-'] => .separator
  | '-' :: '-' :: body => long body
  | '-' :: letter :: body => short letter body
  | _ => .plain text

end Argument

/-- Whether a text behind a setting is its value. A text that starts with a dash is none, except for the
dash alone and for one negative number as the input. -/
def Setting.takes (setting : Setting) (text : String) : Bool :=
  match text.toList with
  | ['-'] => true
  | '-' :: digits => setting == .input && (decimal? digits).isSome
  | _ => true

/-! ## All arguments -/

namespace Options

/-- The value of a setting that may be given once. -/
def once {α : Type} (setting : Setting) (value : String) (old read : Option α) :
    Except UsageError (Option α) :=
  match old, read with
  | some _, _ => .error (.repeatedSetting setting)
  | none, none => .error (.invalidValue setting value)
  | none, some a => .ok (some a)

/-- Gives a setting its value. Only the input may be given again, and then it grows. -/
def set (o : Options) (setting : Setting) (value : String) : Except UsageError Options :=
  match setting with
  | .emit => do
    let stage ← once setting value o.stage (Stage.ofText? value)
    return { o with stage }
  | .output => do
    let output ← once setting value o.output (pathOfText? value)
    return { o with output }
  | .stepLimit => do
    let stepLimit ← once setting value o.stepLimit (stepLimitOfText? value)
    return { o with stepLimit }
  | .input =>
    match Word.listOfText? value with
    | some words => .ok { o with input := o.input ++ words }
    | none => .error (.invalidValue setting value)

/-- Settles the source file, which may be given once. -/
def setFile (o : Options) (text : String) : Except UsageError Options :=
  match o.file, pathOfText? text with
  | some _, _ => .error (.unexpectedArgument text)
  | none, none => .error .emptyFile
  | none, some path => .ok { o with file := some path }

/-- Reads arguments on top of what is settled already. -/
def read (o : Options) : List String → Except UsageError Request
  | [] => .ok (.process o)
  | text :: rest =>
    match Argument.ofText text, rest with
    | .separator, rest => do return .process (← rest.foldlM setFile o)
    | .plain path, rest => do (← o.setFile path).read rest
    | .help, _ => .ok .help
    | .version, _ => .ok .version
    | .setting s (some value), rest => do (← o.set s value).read rest
    | .setting s none, value :: rest =>
      if s.takes value then do (← o.set s value).read rest else .error (.missingValue s)
    | .setting s none, [] => .error (.missingValue s)
    | .unknown text, _ => .error (.unexpectedArgument text)

end Options

/-- What the arguments ask for. -/
def Request.ofArguments (arguments : List String) : Except UsageError Request :=
  Options.read {} arguments

end Mila
