/-
Where the document is when no file is named. It has a fixed name and is looked
for in the working directory and then in one parent after another, up to the
first that has it; the search does not leave the home directory once it is
there. A path given for it takes the place of the search.
-/
import Scriptwright.Family
import Scriptwright.Files.Access

namespace Scriptwright

/-- The name of the document that is looked for. -/
def documentName : String := "Scriptfile.json"

/-- The environment of the program: the variables it reads and the directory it runs in. -/
structure Environment where
  home : Option String := none
  userProfile : Option String := none
  familyName : Option String := none
  directory : Path

/-- The home directory. -/
def Environment.homeDirectory? (env : Environment) : Option String :=
  env.home <|> env.userProfile

/-- The family that is meant when none is asked for: the one the environment names, or the
host's if it names none. -/
def Environment.family (env : Environment) : Family :=
  (env.familyName.bind Family.ofName?).getD .host

namespace Search

variable {m : Type → Type} [Monad m]

/-- The document nearest in some directories, taken in order and up to the home directory. -/
def nearest (files : FileAccess m) (home : Option Path) : List Path → m (Option Path)
  | [] => return none
  | dir :: rest => do
    if ← files.isFile (dir.join documentName) then return some (dir.join documentName)
    else if home.any dir.same then return none
    else nearest files home rest

/-- The document of a given path: in it, if it is a directory. -/
def given (files : FileAccess m) (path : Path) : m (Option Path) := do
  let candidate := if ← files.isDirectory path then path.join documentName else path
  if ← files.isThere candidate then return some candidate else return none

/-- The document to use, from a start, a home directory and a given path. -/
def find (files : FileAccess m) (start : Path) (home custom : Option Path) : m (Option Path) :=
  match custom with
  | some path => given files path
  | none => nearest files home start.chain

end Search
end Scriptwright
