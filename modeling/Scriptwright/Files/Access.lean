/-
What the program asks of a file system, whichever it is: an actual one, or a
tree of files held as a value (`FileTree.access`).
-/
import Scriptwright.Files.Path

namespace Scriptwright

/-- Why a file cannot be read or written. -/
inductive FileError where
  | notFound
  | isDirectory
  | notDirectory
  /-- A name in the path, or the path as a whole, has more bytes than the system takes. -/
  | nameTooLong
  /-- The bytes of the file are no text. -/
  | notText
  /-- What else may go wrong, as the system tells it. -/
  | other (text : String)
  deriving DecidableEq, Repr

/-- The message of a file error. -/
def FileError.message : FileError → String
  | notFound => "No such file or directory (os error 2)"
  | isDirectory => "Is a directory (os error 21)"
  | notDirectory => "Not a directory (os error 20)"
  | nameTooLong => "File name too long (os error 36)"
  | notText => "stream did not contain valid UTF-8"
  | other text => text

/-- Access to files by the spelling of their paths. -/
structure FileAccess (m : Type → Type) where
  /-- Whether there is a file of that path that is no directory. -/
  isFile : Path → m Bool
  /-- Whether there is a directory of that path. -/
  isDirectory : Path → m Bool
  /-- Whether there is anything of that path. -/
  isThere : Path → m Bool
  /-- The text of a file. -/
  read : Path → m (Except FileError String)
  /-- Makes a text the whole of a file, which may be new. -/
  write : Path → String → m (Except FileError Unit)

end Scriptwright
