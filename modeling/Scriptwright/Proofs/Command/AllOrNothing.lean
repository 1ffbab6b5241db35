/-
A run of the program is all or nothing. Finding and reading the document leaves
the files alone (`ReadsOnly`), so until the script is finished nothing has been
written anywhere: a document that is not found, not read or refused leaves every
file as it was and prints nothing, and any other one is written out whole, to
one place (`all_or_nothing`).
-/
import Scriptwright.Command.Run
import Scriptwright.Proofs.Files.Search
import Scriptwright.Proofs.Files.Tree

namespace Scriptwright.Command

/-! ## What a run is asked for -/

/-- The path of the document: of the file that is named, or else of the one that is found. -/
def documentPath? (tree : FileTree) (here : List String) (env : Environment) (options : Options) : Option Path :=
  match options.file with
  | some path => some (.ofString path)
  | none => ((Search.find (FileTree.access here) env.directory (env.homeDirectory?.map Path.ofString)
      (options.workingDirectory.map Path.ofString)).run tree).1

/-- The text of the document, if there is one and it can be read. -/
def documentText? (tree : FileTree) (here : List String) (env : Environment) (options : Options) : Option String :=
  (documentPath? tree here env options).bind fun path => (tree.readText here path).toOption

/-- The family of the script: the one that is asked for, or else the one that the environment names, or else that of
the host. -/
def familyOf (env : Environment) (options : Options) : Family :=
  (options.family <|> env.familyName.bind Family.ofName?).getD .host

/-- The script of a document for a family, if nothing in it is refused. -/
def scriptText? (family : Family) (source : String) : Option String := do
  let document ← (Document.parse source).toOption
  let script ← document.toScript.toOption
  (script.render family).toOption

/-- The script that a run is asked for, if it can be made. -/
def asked? (tree : FileTree) (here : List String) (env : Environment) (options : Options) : Option String :=
  (documentText? tree here env options).bind (scriptText? (familyOf env options))

variable {tree : FileTree} {here : List String} {env : Environment} {options : Options}

theorem getD_family : options.family.getD env.family = familyOf env options := by
  rw [familyOf, Environment.family]
  cases options.family <;> rfl

theorem toOption_scriptOf (family : Family) (path source : String) :
    (scriptOf family path source).toOption = scriptText? family source := by
  rw [scriptOf, scriptText?]
  cases Document.parse source with
  | error fault => rfl
  | ok document =>
    simp only [Except.toOption, Option.bind_eq_bind, Option.bind_some]
    cases document.toScript with
    | error refusal => rfl
    | ok script =>
      simp only [Option.bind_some]
      cases script.render family <;> rfl

theorem readsOnly_source : ReadsOnly (source (FileTree.access here) env options) := by
  unfold source
  split
  · refine (ReadsOnly.read here _).bind fun text => ?_
    split <;> exact ReadsOnly.pure _
  · refine (ReadsOnly.find here _ _ _).bind fun found => ?_
    split
    · exact ReadsOnly.pure _
    · refine (ReadsOnly.read here _).bind fun text => ?_
      split <;> exact ReadsOnly.pure _

/-- What is read is the text of the document. -/
theorem toOption_source :
    ((source (FileTree.access here) env options).run tree).1.toOption.map Prod.snd
      = documentText? tree here env options := by
  have hread : ∀ path, (((FileTree.access here).read path).run tree).1 = tree.readText here path := fun _ => rfl
  rw [documentText?, documentPath?, source]
  cases options.file with
  | some path =>
    simp only [(ReadsOnly.read here _).run_bind, hread, Option.bind_some]
    cases tree.readText here (.ofString path) <;> rfl
  | none =>
    simp only [(ReadsOnly.find here _ _ _).run_bind]
    cases ((Search.find (FileTree.access here) env.directory (env.homeDirectory?.map Path.ofString)
      (options.workingDirectory.map Path.ofString)).run tree).1 with
    | none => rfl
    | some path =>
      simp only [(ReadsOnly.read here _).run_bind, hread, Option.bind_some]
      cases tree.readText here path <;> rfl

/-! ## The run -/

/-- A run that cannot make its script fails, and one that can comes to writing it. -/
theorem make_run (tree : FileTree) (here : List String) (env : Environment) (options : Options) :
    (asked? tree here env options = none ∧
        ∃ message, (make (FileTree.access here) env options).run tree = (Outcome.failure message, tree)) ∨
      ∃ script, asked? tree here env options = some script ∧
        (make (FileTree.access here) env options).run tree
          = (deliver (FileTree.access here) options.output script).run tree := by
  rw [asked?, ← toOption_source, make, readsOnly_source.run_bind]
  cases hsource : ((source (FileTree.access here) env options).run tree).1 with
  | error message => exact .inl ⟨rfl, message, rfl⟩
  | ok found =>
    obtain ⟨path, text⟩ := found
    rw [getD_family]
    have hscript := toOption_scriptOf (familyOf env options) path text
    simp only [Except.toOption, Option.map_some, Option.bind_some, ← hscript]
    cases scriptOf (familyOf env options) path text with
    | error message => exact .inl ⟨rfl, message, rfl⟩
    | ok script => exact .inr ⟨script, rfl, rfl⟩

/-- A file is written into the tree, or the tree stays as it is. -/
theorem write_run (tree : FileTree) (here : List String) (path : Path) (text : String) :
    ((FileTree.access here).write path text).run tree =
      match tree.writeText here path text with
      | .ok after => (.ok (), after)
      | .error error => (.error error, tree) := by
  have hget : ((FileTree.access here).write path text).run tree = StateT.run (m := Id)
      (match tree.writeText here path text with
        | .ok after => do set after; return .ok ()
        | .error error => return .error error) tree := rfl
  rw [hget]
  cases tree.writeText here path text <;> rfl

/-- A finished script goes into the file at a path, or nowhere if none can be written there. -/
theorem deliver_run (tree : FileTree) (here : List String) (path script : String) :
    (∃ after, tree.writeText here (.ofString path) script = .ok after ∧
        (deliver (FileTree.access here) (some path) script).run tree = (Outcome.success "", after)) ∨
      ∃ error message, tree.target here (.ofString path) = .error error ∧
        (deliver (FileTree.access here) (some path) script).run tree = (Outcome.failure message, tree) := by
  have hwrite := write_run tree here (.ofString path) script
  cases htree : tree.writeText here (.ofString path) script with
  | ok after =>
    rw [htree] at hwrite
    refine .inl ⟨after, rfl, ?_⟩
    rw [deliver, StateT.run_bind, hwrite]
    rfl
  | error error =>
    rw [htree] at hwrite
    refine .inr ⟨error, "failed to write " ++ path ++ ": " ++ error.message,
      FileTree.target_of_writeText_eq_error htree, ?_⟩
    rw [deliver, StateT.run_bind, hwrite]
    rfl

/-- Whatever options a run has, whatever is in its environment and among the files: if the script that it is asked for
cannot be made, it ends with code 1, prints nothing and leaves every file as it was. Otherwise that script, whole, is
all that it prints, no file being changed; or else, when it is sent to a path, it prints nothing and the script, byte
for byte, is what the file there holds, every other file being as it was, unless no file can be written there. -/
theorem all_or_nothing (tree : FileTree) (here : List String) (env : Environment) {arguments : List String}
    (h : Options.ofArguments arguments = .ok options) :
    let outcome := ((run (FileTree.access here) env arguments).run tree).1
    let after := ((run (FileTree.access here) env arguments).run tree).2
    (asked? tree here env options = none → outcome.code = 1 ∧ outcome.output = "" ∧ after = tree) ∧
      ∀ script, asked? tree here env options = some script →
        (options.output = none → outcome.code = 0 ∧ outcome.output = script ∧ after = tree) ∧
          ∀ path, options.output = some path → outcome.output = "" ∧
            ((∃ place, tree.target here (.ofString path) = .ok place ∧ outcome.code = 0 ∧
                after.get? place = some (.file script.toUTF8) ∧ after.readText here (.ofString path) = .ok script ∧
                ∀ other ≠ place, after.get? other = tree.get? other) ∨
              ∃ error, tree.target here (.ofString path) = .error error ∧ outcome.code = 1 ∧ after = tree) := by
  have hrun : run (FileTree.access here) env arguments = make (FileTree.access here) env options := by
    rw [run, h]
  simp only [hrun]
  rcases make_run tree here env options with ⟨hnone, message, hmake⟩ | ⟨script, hsome, hmake⟩
  · rw [hmake]
    refine ⟨fun _ => ⟨rfl, rfl, rfl⟩, fun script hscript => ?_⟩
    rw [hnone] at hscript
    cases hscript
  · rw [hmake]
    refine ⟨fun hnone => absurd (hsome.symm.trans hnone) (by simp), fun other hother => ?_⟩
    obtain rfl : script = other := Option.some.inj (hsome.symm.trans hother)
    refine ⟨fun hprint => ?_, fun path hpath => ?_⟩
    · rw [hprint]
      exact ⟨rfl, rfl, rfl⟩
    · rw [hpath]
      rcases deliver_run tree here path script with ⟨after, hwritten, hdeliver⟩ |
        ⟨error, message, htarget, hdeliver⟩
      · rw [hdeliver]
        obtain ⟨place, htarget, hplace, hothers⟩ := FileTree.get?_writeText hwritten
        exact ⟨rfl, .inl ⟨place, htarget, rfl, hplace, FileTree.readText_writeText hwritten, hothers⟩⟩
      · rw [hdeliver]
        exact ⟨rfl, .inr ⟨error, htarget, rfl, rfl⟩⟩

/-- A document with nothing in it, made into a batch file. -/
theorem all_or_nothing_of_empty :
    let tree : FileTree := ⟨[(["s.json"], .file "\x7b\x7d".toUTF8)]⟩
    let env : Environment := ⟨none, none, some " Windows", ⟨true, []⟩⟩
    let script := "@echo off\r\nexit /b 0\r\n:abort\r\n   echo aborting: %EXCEPTION%\r\n   exit /b 1\r\n"
    let after := ((run (FileTree.access []) env ["s.json", "-oout.bat"]).run tree).2
    asked? tree [] env ⟨some "s.json", none, some "out.bat", none, false⟩ = some script ∧
      after.readText [] (.ofString "out.bat") = .ok script := by
  intro tree env script after
  have hoptions : Options.ofArguments ["s.json", "-oout.bat"]
      = .ok ⟨some "s.json", none, some "out.bat", none, false⟩ := by decide
  have hread : tree.readText [] (.ofString "s.json") = .ok "\x7b\x7d" := by
    have hfind : tree.find [] (.ofString "s.json") = .ok (.file "\x7b\x7d".toUTF8) := by rfl
    rw [FileTree.readText, hfind]
    simp only [bind, Except.bind, FileTree.fromUTF8?_toUTF8]
    rfl
  have hscript : scriptText? .windows "\x7b\x7d" = some script := by decide +kernel
  have hfamily : familyOf env ⟨some "s.json", none, some "out.bat", none, false⟩ = .windows := by decide
  have hasked : asked? tree [] env ⟨some "s.json", none, some "out.bat", none, false⟩ = some script := by
    rw [asked?, hfamily, documentText?, documentPath?, Option.bind_some, hread]
    exact hscript
  obtain ⟨-, hdelivered⟩ := (all_or_nothing tree [] env hoptions).2 script hasked
  obtain ⟨-, ⟨-, -, -, -, htext, -⟩ | ⟨error, htarget, -⟩⟩ := hdelivered "out.bat" rfl
  · exact ⟨hasked, htext⟩
  · have hplace : tree.target [] (.ofString "out.bat") = .ok ["out.bat"] := by rfl
    rw [hplace] at htarget
    cases htarget

end Scriptwright.Command
