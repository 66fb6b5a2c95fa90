/-! # Where a command runs

A command reads a source and may write a file. It does so through a `Host`, so that the same command runs
on the files of a system and on a `FileTree`, which is a value.
-/

namespace Mila

/-- Why a file cannot be read or written. -/
inductive FileError where
  | system (text : String) (code : Nat)
  | notUtf8
  | other (text : String)
  deriving DecidableEq, Repr

namespace FileError

def notFound : FileError := system "No such file or directory" 2

def notADirectory : FileError := system "Not a directory" 20

def isADirectory : FileError := system "Is a directory" 21

def noSpaceLeft : FileError := system "No space left on device" 28

def nameTooLong : FileError := system "File name too long" 36

def message : FileError → String
  | system text code => text ++ " (os error " ++ toString code ++ ")"
  | notUtf8 => "stream did not contain valid UTF-8"
  | other text => text

end FileError

/-- The text that bytes encode. -/
def textOfBytes (bytes : ByteArray) : Except FileError String :=
  match String.fromUTF8? bytes with
  | some text => .ok text
  | none => .error .notUtf8

/-- What a command needs of its surroundings. -/
structure Host (m : Type → Type) where
  readStdin : m (Except FileError String)
  readFile : String → m (Except FileError String)
  writeFile : String → String → m (Except FileError Unit)

end Mila
