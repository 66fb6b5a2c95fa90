import Mila.CommandLine.Host

/-! # File trees

A tree of named texts, in which paths are followed step by step: every step but the last has to reach a
directory. Apart from the texts, the tree holds the directories above the working directory, those that
every system has, and a few devices.
-/

namespace Mila

/-- A place in a tree: the names on the way from the root to it. -/
abbrev Place := List String

namespace Place

def root : Place := []

/-- The working directory. Its own name is empty, so that no path can spell it. -/
def working : Place := ["tmp", ""]

/-- The place that one step of a path leads to. -/
def step (p : Place) (name : String) : Place :=
  if name == "" || name == "." then p
  else if name == ".." then p.dropLast
  else p ++ [name]

/-- Where a path starts, and its steps. -/
def ofPath (path : String) : Place × List String :=
  match path.splitOn "/" with
  | "" :: steps => (root, steps)
  | steps => (working, steps)

/-- Where a path leads if everything on its way is there. -/
def follow (path : String) : Place := (ofPath path).2.foldl step (ofPath path).1

end Place

/-- What stands in a tree without being a text. -/
inductive Device where
  | null
  | full
  | stdin
  | stdout
  | stderr
  deriving DecidableEq, Repr

/-- The places of the devices. -/
def Device.places : List (Place × Device) :=
  [(["dev", "null"], .null), (["dev", "full"], .full),
    (["dev", "stdin"], .stdin), (["dev", "stdout"], .stdout), (["dev", "stderr"], .stderr),
    (["dev", "fd", "0"], .stdin), (["dev", "fd", "1"], .stdout), (["dev", "fd", "2"], .stderr),
    (["proc", "self", "fd", "0"], .stdin), (["proc", "self", "fd", "1"], .stdout),
    (["proc", "self", "fd", "2"], .stderr)]

/-- What is found at a place. -/
inductive Entry where
  | directory
  | text (content : String)
  | device (device : Device)
  deriving DecidableEq, Repr

/-- Texts by their places, what is read from standard input, and what devices have been given to write. -/
structure FileTree where
  stdin : ByteArray
  stdout : String
  stderr : String
  files : List (Place × String)

namespace FileTree

/-- The directories right under the root that every system has. -/
def systemDirectories : List String :=
  ["bin", "boot", "dev", "etc", "home", "lib", "media", "mnt", "opt", "proc", "root", "run", "sbin",
    "srv", "sys", "tmp", "usr", "var"]

/-- The tree with the given files, whose paths start at the working directory. -/
def ofFiles (stdin : ByteArray) (files : List (String × String)) : FileTree :=
  ⟨stdin, "", "", files.map fun (path, text) => (Place.follow path, text)⟩

/-- Whether a place lies above some file, or is a directory without any. -/
def isDirectory (t : FileTree) (p : Place) : Bool :=
  p.isPrefixOf Place.working || systemDirectories.any (fun name => p == [name]) ||
    Device.places.any (fun entry => p.isPrefixOf entry.1.dropLast) ||
    t.files.any (fun entry => p.isPrefixOf entry.1.dropLast)

/-- What is found at a place. -/
def entry? (t : FileTree) (p : Place) : Option Entry :=
  if t.isDirectory p then some .directory
  else
    match Device.places.lookup p, t.files.lookup p with
    | some device, _ => some (.device device)
    | none, some text => some (.text text)
    | none, none => none

/-- The greatest number of bytes in a path. -/
def maxPathSize : Nat := 4095

/-- The greatest number of bytes in one name. -/
def maxNameSize : Nat := 255

/-- Takes the steps of a path from a place on. -/
def walk (t : FileTree) (p : Place) : List String → Except FileError Place
  | [] => .ok p
  | name :: rest =>
    match t.entry? p with
    | none => .error .notFound
    | some .directory =>
      if maxNameSize < name.utf8ByteSize then .error .nameTooLong else t.walk (p.step name) rest
    | some _ => .error .notADirectory

/-- The place of a path. -/
def resolve (t : FileTree) (path : String) : Except FileError Place :=
  if maxPathSize < path.utf8ByteSize then .error .nameTooLong
  else t.walk (Place.ofPath path).1 (Place.ofPath path).2

/-- The text that a path leads to. -/
def read (t : FileTree) (path : String) : Except FileError String := do
  match t.entry? (← t.resolve path) with
  | none => .error .notFound
  | some .directory => .error .isADirectory
  | some (.text content) => .ok content
  | some (.device .stdin) => textOfBytes t.stdin
  | some (.device _) => .ok ""

/-- Replaces the text at a place, or adds one. -/
def put (t : FileTree) (p : Place) (text : String) : FileTree :=
  { t with files := (p, text) :: t.files.filter fun entry => entry.1 != p }

/-- Gives a device a text to write. -/
def feed (t : FileTree) (text : String) : Device → Except FileError FileTree
  | .null | .stdin => .ok t
  | .full => if text.isEmpty then .ok t else .error .noSpaceLeft
  | .stdout => .ok { t with stdout := t.stdout ++ text }
  | .stderr => .ok { t with stderr := t.stderr ++ text }

/-- A path without the slashes at its end. -/
def trimSlashes (path : String) : String :=
  String.ofList (path.toList.reverse.dropWhile (· == '/')).reverse

/-- Writes a text to where a path leads. A path with a slash at its end means a directory, whatever is
there. -/
def write (t : FileTree) (path text : String) : Except FileError FileTree := do
  if maxPathSize < path.utf8ByteSize then .error .nameTooLong
  else if path.endsWith "/" then
    let _ ← t.resolve (trimSlashes path)
    .error .isADirectory
  else
    let p ← t.resolve path
    match t.entry? p with
    | some .directory => .error .isADirectory
    | some (.device device) => t.feed text device
    | _ => .ok (t.put p text)

/-- Runs commands on a tree. -/
def host : Host (StateM FileTree) where
  readStdin := do return textOfBytes (← get).stdin
  readFile path := do return (← get).read path
  writeFile path text := do
    match (← get).write path text with
    | .error e => return .error e
    | .ok t =>
      set t
      return .ok ()

end FileTree

end Mila
