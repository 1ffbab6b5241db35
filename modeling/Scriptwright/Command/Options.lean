/-
The options of the command line. The arguments are first cut into single
settings, from left to right, and these are then applied one after another; the
first that asks for something else, or that is wrong, decides.
-/
import Scriptwright.Family

namespace Scriptwright.Command

/-- The options that take a value. -/
inductive Valued where
  | family
  | output
  | workingDirectory
  deriving DecidableEq, Repr

/-- What one argument, or an option and its value, says. -/
inductive Setting where
  | file (path : String)
  | valued (option : Valued) (value : String)
  | verbose
  | help
  | version
  /-- An option that there is not, or one that is not written right. -/
  | wrong (argument : String)
  deriving DecidableEq, Repr

/-! ## Cutting arguments into settings -/

/-- Whether an argument is the value of the option before it: it does not look like an option. -/
def isValue (argument : String) : Bool :=
  argument == "-" || argument.toList.head? != some '-'

/-- The options of a group of letters: settings, and an option whose value comes next. -/
def letters : List Char → List Setting × Option Valued
  | [] => ([], none)
  | 'v' :: cs => let (settings, pending) := letters cs; (.verbose :: settings, pending)
  | 'h' :: cs => let (settings, pending) := letters cs; (.help :: settings, pending)
  | 'V' :: cs => let (settings, pending) := letters cs; (.version :: settings, pending)
  | ['o'] => ([], some .output)
  | 'o' :: '=' :: cs => ([.valued .output (String.ofList cs)], none)
  | 'o' :: cs => ([.valued .output (String.ofList cs)], none)
  | c :: _ => ([.wrong ("-" ++ c.toString)], none)

/-- The option of a long name that takes a value. -/
def valuedOf? (name : String) : Option Valued :=
  if name = "os" then some .family
  else if name = "output" then some .output
  else if name = "working-dir" ∨ name = "scriptfile" then some .workingDirectory
  else none

/-- The setting of a long name that takes no value. -/
def plainOf (name : String) : Setting :=
  if name = "verbose" then .verbose
  else if name = "help" then .help
  else if name = "version" then .version
  else .wrong ("--" ++ name)

/-- A long option: its name, and its value after an equals sign. -/
def long (text : List Char) : List Setting × Option Valued :=
  let name := String.ofList (text.takeWhile (· != '='))
  match text.dropWhile (· != '='), valuedOf? name with
  | _ :: value, some option => ([.valued option (String.ofList value)], none)
  | _ :: _, none => ([.wrong ("--" ++ String.ofList text)], none)
  | [], some option => ([], some option)
  | [], none => ([plainOf name], none)

/-- The settings of one argument, and an option whose value comes next. -/
def settingsOf (argument : String) : List Setting × Option Valued :=
  match argument.toList with
  | '-' :: '-' :: text => long text
  | '-' :: c :: cs => letters (c :: cs)
  | _ => ([.file argument], none)

/-- The settings of arguments, from an option whose value comes next. After two dashes every
argument is a file. -/
def settings (pending : Option Valued) : List String → List Setting
  | [] =>
    match pending with
    | none => []
    | some _ => [.wrong ""]
  | argument :: rest =>
    match pending with
    | some option =>
      if isValue argument then .valued option argument :: settings none rest else [.wrong argument]
    | none =>
      if argument = "--" then rest.map .file
      else
        let (found, pending) := settingsOf argument
        found ++ settings pending rest

/-! ## Applying settings -/

/-- What a script is to be made of, and where it goes. -/
structure Options where
  file : Option String := none
  family : Option Family := none
  output : Option String := none
  workingDirectory : Option String := none
  verbose : Bool := false
  deriving DecidableEq, Repr

/-- What else than a script arguments can ask for. -/
inductive Stop where
  | help
  | version
  /-- The arguments are wrong. -/
  | usage (message : String)
  deriving DecidableEq, Repr

/-- The family of the value of an option. -/
def familyOf? (value : String) : Option Family :=
  if value = "unix" then some .unix else if value = "windows" then some .windows else none

/-- A value for something that must not have one yet, and must not be empty. -/
def once (what : String) (present : Option String) (value : String) : Except Stop (Option String) :=
  if present.isSome then .error (.usage (what ++ " cannot be given twice"))
  else if value.isEmpty then .error (.usage (what ++ " needs a value"))
  else .ok (some value)

/-- The options after a setting. -/
def Options.apply (options : Options) : Setting → Except Stop Options
  | .file path => do return { options with file := ← once "[FILE]" options.file path }
  | .valued .output path => do return { options with output := ← once "--output" options.output path }
  | .valued .workingDirectory path => do
    return { options with workingDirectory := ← once "--working-dir" options.workingDirectory path }
  | .valued .family name =>
    if options.family.isSome then .error (.usage "--os cannot be given twice")
    else match familyOf? name with
      | some family => .ok { options with family := some family }
      | none => .error (.usage ("invalid value for --os: " ++ name))
  | .verbose =>
    if options.verbose then .error (.usage "--verbose cannot be given twice")
    else .ok { options with verbose := true }
  | .help => .error .help
  | .version => .error .version
  | .wrong argument => .error (.usage ("unexpected argument: " ++ argument))

/-- The options after some settings. -/
def Options.applyAll (options : Options) : List Setting → Except Stop Options
  | [] => .ok options
  | setting :: rest => do
    let options ← options.apply setting
    options.applyAll rest

/-- The options of a command line. -/
def Options.ofArguments (arguments : List String) : Except Stop Options :=
  Options.applyAll {} (settings none arguments)

end Scriptwright.Command
