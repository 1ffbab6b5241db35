/-
What the program does with its options: reads a document, makes a script of it
and writes that out, on standard output or to a file. The script is finished
before anything is written, so a document that is refused leaves no trace.
-/
import Scriptwright.Command.Options
import Scriptwright.Document
import Scriptwright.Files.Search
import Scriptwright.Script.Render

namespace Scriptwright.Command

/-- What is left of a run for its caller: its exit code and what it has printed. -/
structure Outcome where
  code : Nat
  output : String := ""
  errors : String := ""
  deriving DecidableEq, Repr

/-- A run that has failed. -/
def Outcome.failure (message : String) : Outcome :=
  ⟨1, "", "Error: " ++ message ++ "\n"⟩

/-- A run that has done what was asked. -/
def Outcome.success (output : String) : Outcome :=
  ⟨0, output, ""⟩

/-- What is said when no document is found. -/
def noDocument : String :=
  "No " ++ documentName ++ " found. Pass a document path or create ./" ++ documentName ++ "."

/-- What the program prints for its version. -/
def versionText : String := "scriptbuilder 0.1.0\n"

/-- What the program prints as help. -/
def helpText : String :=
  "Render a JSON script document as a shell script or batch file\n\n"
    ++ "Usage: scriptbuilder [OPTIONS] [FILE]\n\n"
    ++ "Arguments:\n"
    ++ "  [FILE]  Script document to render (defaults to the nearest " ++ documentName ++ ")\n\n"
    ++ "Options:\n"
    ++ "      --os <FAMILY>         Target dialect (defaults to $SCRIPTBUILDER_OS, then the host platform) "
    ++ "[possible values: unix, windows]\n"
    ++ "  -o, --output <PATH>       Write the script to this file instead of stdout\n"
    ++ "      --working-dir <PATH>  Directory containing the Scriptfile (alias: --scriptfile)\n"
    ++ "  -v, --verbose             Log rendering decisions to stderr\n"
    ++ "  -h, --help                Print help\n"
    ++ "  -V, --version             Print version\n"

/-- The script of the document in a text, or what is wrong with it; the path is for the message. -/
def scriptOf (family : Family) (path source : String) : Except String String :=
  match Document.parse source with
  | .error fault => .error (path ++ ": " ++ fault.report source)
  | .ok document =>
    match document.toScript with
    | .error refusal => .error (path ++ ": " ++ refusal.message)
    | .ok script =>
      match script.render family with
      | .error refusal =>
        .error ("cannot render " ++ path ++ " for " ++ family.display ++ ": " ++ refusal.message)
      | .ok text => .ok text

section

variable {m : Type → Type} [Monad m]

/-- The path and the text of the document to use: the file that is named, or the one found. -/
def source (files : FileAccess m) (env : Environment) (options : Options) :
    m (Except String (String × String)) :=
  match options.file with
  | some path => do
    match ← files.read (.ofString path) with
    | .ok text => return .ok (path, text)
    | .error error => return .error ("failed to read " ++ path ++ ": " ++ error.message)
  | none => do
    match ← Search.find files env.directory (env.homeDirectory?.map Path.ofString)
        (options.workingDirectory.map Path.ofString) with
    | none => return .error noDocument
    | some path =>
      match ← files.read path with
      | .ok text => return .ok (path.text, text)
      | .error error => return .error error.message

/-- Writes a finished script out. -/
def deliver (files : FileAccess m) (output : Option String) (script : String) : m Outcome :=
  match output with
  | none => return .success script
  | some path => do
    match ← files.write (.ofString path) script with
    | .ok () => return .success ""
    | .error error => return .failure ("failed to write " ++ path ++ ": " ++ error.message)

/-- Makes the script that some options ask for. -/
def make (files : FileAccess m) (env : Environment) (options : Options) : m Outcome := do
  match ← source files env options with
  | .error message => return .failure message
  | .ok (path, text) =>
    match scriptOf (options.family.getD env.family) path text with
    | .error message => return .failure message
    | .ok script => deliver files options.output script

/-- Runs the program with some arguments. -/
def run (files : FileAccess m) (env : Environment) (arguments : List String) : m Outcome :=
  match Options.ofArguments arguments with
  | .error .help => return .success helpText
  | .error .version => return .success versionText
  | .error (.usage message) => return ⟨2, "", "error: " ++ message ++ "\n"⟩
  | .ok options => make files env options

end

end Scriptwright.Command
