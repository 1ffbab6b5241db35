/-
The program itself: the environment, the files and the standard streams of an
actual system, handed to `Command.run`.
-/
import Scriptwright.Command.Run

namespace Scriptwright

/-- The number of a system's error, which some calls report negated. -/
def errorNumber (code : UInt32) : Nat :=
  min code.toNat (-code).toNat

/-- What went wrong with a file, from what the system says. -/
def FileError.ofSystem : IO.Error → FileError
  | .noFileOrDirectory .. | .noSuchThing .. => .notFound
  | .inappropriateType _ code details | .invalidArgument _ code details =>
    if errorNumber code = 20 then .notDirectory
    else if errorNumber code = 21 then .isDirectory
    else if errorNumber code = 36 then .nameTooLong
    else .other (details ++ " (os error " ++ toString (errorNumber code) ++ ")")
  | error => .other error.toString

/-- Access to the files of the system, from the working directory. -/
def systemFiles : FileAccess IO where
  isFile path := do
    match ← ((← IO.currentDir) / path.text).metadata.toBaseIO with
    | .ok found => return found.type == .file
    | .error _ => return false
  isDirectory path := do ((← IO.currentDir) / path.text).isDir
  isThere path := do ((← IO.currentDir) / path.text).pathExists
  read path := do
    if ← ((← IO.currentDir) / path.text).isDir then return .error .isDirectory
    match ← (IO.FS.readBinFile path.text).toBaseIO with
    | .ok bytes =>
      match String.fromUTF8? bytes with
      | some text => return .ok text
      | none => return .error .notText
    | .error error => return .error (.ofSystem error)
  write path text := do
    match ← (IO.FS.writeFile path.text text).toBaseIO with
    | .ok () => return .ok ()
    | .error error => return .error (.ofSystem error)

/-- The environment of the process. -/
def systemEnvironment : IO Environment := do
  return {
    home := ← IO.getEnv "HOME"
    userProfile := ← IO.getEnv "USERPROFILE"
    familyName := ← IO.getEnv "SCRIPTBUILDER_OS"
    directory := .ofString (← IO.currentDir).toString }

end Scriptwright

/-- Runs the program and prints what it has to say. -/
def main (arguments : List String) : IO UInt32 := do
  let env ← Scriptwright.systemEnvironment
  let outcome ← Scriptwright.Command.run Scriptwright.systemFiles env arguments
  (← IO.getStdout).putStr outcome.output
  (← IO.getStdout).flush
  (← IO.getStderr).putStr outcome.errors
  return UInt32.ofNat outcome.code
