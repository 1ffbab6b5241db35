/-
The families run the same program. A shell script and a batch file of one script
meet the statements of its course (`Shell.run_script`, `Batch.runs_script`), and
the courses are the same as soon as every switch of the statements has a case for
its argument (`Script.same_steps`).
-/
import Scriptwright.Proofs.Batch.Course
import Scriptwright.Proofs.Script.Labels
import Scriptwright.Proofs.Shell.Course

namespace Scriptwright

open Scriptwright.Part Statement

namespace Script

variable {script : Script} {args : Nat → String}

/-- What running a script amounts to: its variables are exported, and then its statements take their course. -/
def steps (family : Family) (args : Nat → String) (script : Script) : List Statement :=
  script.exportStatements ++ ((Statement.list script.statements).course family args).steps

/-- What a batch file has behind its statements. -/
def behindParts (script : Script) : List Part :=
  .own 0 "exit /b 0" :: (handlerParts ++ functionsParts .windows script.functions)

theorem partsList_exportStatements (family : Family) (script : Script) :
    partsList family script.exportStatements = script.exportStatements.map fun t => .leaf t (t.written family) := by
  rw [exportStatements]
  induction script.exports with
  | nil => rfl
  | cons e exports ih => rw [List.map_cons, partsList, ih, parts_of_isLeaf rfl, List.map_cons, List.singleton_append]

theorem kind_of_mem_exportStatements {s : Statement} (h : s ∈ script.exportStatements) : s.kind ≠ .leave := by
  obtain ⟨e, -, rfl⟩ := List.mem_map.1 h
  nofun

/-- The statements of a script that renders render as one list. -/
theorem lines_list_of_render {family : Family} {text : String} (h : script.render family = .ok text) :
    ∃ ls, (Statement.list script.statements).lines family = .ok ls := by
  rw [Statement.lines]
  exact ⟨_, linesList_of_forall fun s hs => ⟨_, (lines_of_render h).1 s hs⟩⟩

theorem switchCount_list_le (script : Script) : (Statement.list script.statements).switchCount ≤ script.switchCount := by
  rw [Script.switchCount, Statement.switchCount]
  exact Nat.le_add_left _ _

theorem returns_list (h : ∀ s ∈ script.statements, s.returns = false) :
    (Statement.list script.statements).returns = false := by
  rw [returns, returnsList_eq_any, List.any_eq_false]
  simpa using h

end Script

/-! ## One family at a time -/

section

variable {script : Script} {args : Nat → String} {text : String}

/-- A shell script meets what its course holds, up to its end. -/
theorem Shell.run_script (h : script.render .unix = .ok text) (hc : script.switchCount ≤ 1)
    (hr : ∀ s ∈ script.statements, s.returns = false) :
    Shell.run args .running (script.parts .unix) = some ((script.steps .unix args).filter (writes .unix)) := by
  obtain ⟨-, hfunctions⟩ := Script.lines_of_render h
  obtain ⟨ls, hls⟩ := Script.lines_list_of_render h
  have hexit : Shell.read "exit $?" = .leave := by decide
  have hmain : Shell.run args .running ((Statement.list script.statements).parts .unix ++ [.own 0 "exit $?"])
      = (some []).map (((Statement.list script.statements).course .unix args).steps.filter (writes .unix) ++ ·) := by
    rw [Shell.run_parts hls (Script.returns_list hr) (Nat.le_trans (Script.switchCount_list_le script) hc), Shell.run_leave hexit]
  rw [Statement.parts] at hmain
  rw [Script.parts, Shell.run_headerParts, Shell.run_functionsParts hfunctions, Script.mainParts,
    Script.partsList_exportStatements, List.append_assoc,
    Shell.run_leaves (fun _ => rfl) fun s => Script.kind_of_mem_exportStatements, hmain, Script.steps, List.filter_append]
  simp

/-- From the jump of a guard a batch file comes to its handler and leaves there. -/
theorem Batch.runs_abort {before after : List Part} {file : List Part}
    (hfile : file = before ++ (Script.handlerParts ++ after)) (hn : ((Batch.labels file).map labelKey).Nodup)
    (rest : List Part) : Batch.Runs file args (.own 1 ("goto " ++ Batch.abortLabel) :: rest) [] "exit /b 1" := by
  have hjump : Batch.afterLabel? Batch.abortLabel file = some
      (.own 1 ("echo aborting: %" ++ Batch.exceptionVariable ++ "%") :: .own 1 "exit /b 1" :: after) := by
    exact Batch.afterLabel?_of_nodup hfile hn
  have hecho : (Batch.read args ("echo aborting: %" ++ Batch.exceptionVariable ++ "%")).flow = .next := by
    rw [Batch.read_aborting, Batch.Command.flow]
  have hexit : (Batch.read args "exit /b 1").flow = .leave := by
    rw [Batch.read_exit (.inr rfl), Batch.Command.flow]
  have hpass : Batch.Passes file args (.own 1 ("goto " ++ Batch.abortLabel) :: rest) (.own 1 "exit /b 1" :: after) :=
    .head ⟨(Batch.step_of_jump Batch.flow_goto_abort).trans hjump, rfl⟩ (.single ⟨Batch.step_of_next hecho, rfl⟩)
  exact hpass.runs (.leave hexit)

/-- A batch file meets what its course holds. It leaves behind its statements, or in the handler if the course
does not go on. -/
theorem Batch.runs_script (hv : script.Valid) (h : script.render .windows = .ok text)
    (hr : ∀ s ∈ script.statements, s.returns = false) (ha : ∀ n, isQuoteUnsafe (args n) = false) :
    Batch.Runs (script.parts .windows) args (script.parts .windows)
      ((script.steps .windows args).filter (writes .windows))
      (if ((Statement.list script.statements).course .windows args).goesOn then "exit /b 0" else "exit /b 1") := by
  obtain ⟨-, hcount⟩ := Script.text_of_render h
  have hcount : script.switchCount ≤ 1 := by simpa using hcount
  obtain ⟨ls, hls⟩ := Script.lines_list_of_render h
  have hn : ((Batch.labels (script.parts .windows)).map labelKey).Nodup := by
    rw [Script.labels_parts]
    exact hv.nodup_labels hcount
  have hmade : (Statement.list script.statements).Made := .list hv.statements
  have hecho : (Batch.read args "@echo off").flow = .next := by
    rw [Batch.read_echo_off, Batch.Command.flow]
  have hexit : (Batch.read args "exit /b 0").flow = .leave := by
    rw [Batch.read_exit (.inl rfl), Batch.Command.flow]
  have hfirst : ∀ rest, Batch.Passes (script.parts .windows) args (.own 0 "@echo off" :: rest) rest :=
    fun rest => .single ⟨Batch.step_of_next hecho, rfl⟩
  have hshape : script.parts .windows
      = (.own 0 "@echo off" :: script.exportStatements.map fun t => .leaf t (t.written .windows)) ++
        ((Statement.list script.statements).parts .windows ++ script.behindParts) := by
    rw [Script.parts, Script.mainParts, Script.partsList_exportStatements, List.append_assoc, List.cons_append,
      Statement.parts, Script.behindParts]
  have hhandler : script.parts .windows = (.own 0 "@echo off" :: (script.mainParts .windows ++ [.own 0 "exit /b 0"]))
      ++ (Script.handlerParts ++ Script.functionsParts .windows script.functions) := by
    simp [Script.parts]
  have hleads := Batch.leads_parts hmade hls (Script.returns_list hr)
    (Nat.le_trans (Script.switchCount_list_le script) hcount) ha hn (Batch.runs_abort hhandler hn) hshape
  have hmain : Batch.Runs (script.parts .windows) args
      ((Statement.list script.statements).parts .windows ++ script.behindParts)
      (((Statement.list script.statements).course .windows args).steps.filter (writes .windows))
      (if ((Statement.list script.statements).course .windows args).goesOn then "exit /b 0" else "exit /b 1") := by
    rw [Batch.Leads] at hleads
    split
    · next hgoes =>
      rw [if_pos hgoes] at hleads
      simpa using hleads [] "exit /b 0" (.leave hexit)
    · next hgoes =>
      rwa [if_neg hgoes] at hleads
  have hexports := Batch.runs_leaves (fun _ => rfl)
    (fun s (hs : s ∈ script.exportStatements) => Script.kind_of_mem_exportStatements hs) hmain
  have hstart := (hfirst _).runs hexports
  rw [← List.cons_append, ← hshape] at hstart
  rw [Script.steps, List.filter_append]
  exact hstart

end

/-! ## Both families -/

namespace Script

/-- Take any script that operations lead to, refused operations included, that renders for both families and whose
statements hold no return, and arguments without a double quote or a line break. The shell script runs to its end
and the batch file, in the one way it can, until it leaves. If every switch of the statements has a case for its
argument, both meet the same statements in the same order: the exports, and then the statements with the case of
each switch; statements that write nothing but blank lines for one of the families are left out. If not, the batch
file ends in the handler, and what it has met by then is how the shell script starts. -/
theorem same_steps {ops : List Operation} {unix windows : String} (hops : ∀ op ∈ ops, op.Made)
    (hu : (after ops).render .unix = .ok unix) (hw : (after ops).render .windows = .ok windows)
    (hr : ∀ s ∈ (after ops).statements, s.returns = false) (args : Nat → String)
    (ha : ∀ n, isQuoteUnsafe (args n) = false) :
    let script := after ops
    let both := fun s => writes .unix s && writes .windows s
    unix = Line.join .unix (allLines (script.parts .unix)) ∧
      windows = Line.join .windows (allLines (script.parts .windows)) ∧
      ∃ seen seen' last,
        Shell.run args .running (script.parts .unix) = some seen ∧
        Batch.Runs (script.parts .windows) args (script.parts .windows) seen' last ∧
        (∀ other last', Batch.Runs (script.parts .windows) args (script.parts .windows) other last' →
          other = seen' ∧ last' = last) ∧
        ((∀ choice ∈ switchesList script.statements, args choice.1 ∈ choice.2) →
          seen.filter (writes .windows) = (script.steps .unix args).filter both ∧
            seen'.filter (writes .unix) = (script.steps .unix args).filter both ∧ last = "exit /b 0") ∧
        (¬ (∀ choice ∈ switchesList script.statements, args choice.1 ∈ choice.2) →
          seen'.filter (writes .unix) <+: seen.filter (writes .windows) ∧ last = "exit /b 1") := by
  intro script both
  obtain ⟨hunix, -⟩ := text_of_render hu
  obtain ⟨hwindows, hcount⟩ := text_of_render hw
  have hcount : script.switchCount ≤ 1 := by simpa using hcount
  have hgoes : ((Statement.list script.statements).course .windows args).goesOn = true ↔
      ∀ choice ∈ switchesList script.statements, args choice.1 ∈ choice.2 :=
    goesOn_iff (Nat.le_trans (switchCount_list_le script) hcount)
  obtain ⟨hstart, hsame⟩ : ((Statement.list script.statements).course .windows args).steps <+:
      ((Statement.list script.statements).course .unix args).steps ∧ _ := steps_prefix
  have hboth : ∀ ts : List Statement, (ts.filter (writes .unix)).filter (writes .windows) = ts.filter both ∧
      (ts.filter (writes .windows)).filter (writes .unix) = ts.filter both := by
    intro ts
    rw [List.filter_filter, List.filter_filter]
    exact ⟨List.filter_congr fun s _ => Bool.and_comm _ _, rfl⟩
  have hruns := Batch.runs_script (valid_after ops hops) hw hr ha
  refine ⟨hunix, hwindows, _, _, _, Shell.run_script hu hcount hr, hruns, fun other last' h => h.det hruns,
    fun hm => ?_, fun hm => ?_⟩
  · have hsteps : script.steps .windows args = script.steps .unix args := by
      rw [steps, steps, hsame (hgoes.2 hm)]
    rw [(hboth _).1, (hboth _).2, hsteps, if_pos (hgoes.2 hm)]
    exact ⟨rfl, rfl, rfl⟩
  · have hsteps : script.steps .windows args <+: script.steps .unix args := by
      rw [steps, steps]
      exact (List.prefix_append_right_inj _).2 hstart
    rw [(hboth _).1, (hboth _).2, if_neg fun hg => hm (hgoes.1 hg)]
    exact ⟨hsteps.filter both, rfl⟩

/-- An exported variable, and a switch whose second case is met by both families. -/
theorem same_steps_of_switch :
    let body := Statement.switchArg 1 [("up", .exec "start" false), ("stop all", .interpret "stop")]
    let script := after [.exportVariable "MODE" "fast", .addStatement body]
    let args := fun _ => "stop all"
    ∃ seen seen', Shell.run args .running (script.parts .unix) = some seen ∧
      Batch.Runs (script.parts .windows) args (script.parts .windows) seen' "exit /b 0" ∧
      seen.filter (writes .windows) = seen'.filter (writes .unix) := by
  intro body script args
  have hmake : makeSwitch 1 [("up", .exec "start" false), ("stop all", .interpret "stop")] = .ok body := by decide
  have hbody : body.Made := by
    refine Made.switchArg (fun c hc => ?_) hmake
    simp only [List.mem_cons, List.not_mem_nil, or_false] at hc
    rcases hc with rfl | rfl
    · exact .exec _ _
    · exact .interpret _
  have hops : ∀ op ∈ [Operation.exportVariable "MODE" "fast", .addStatement body], op.Made := by
    simp only [List.forall_mem_cons]
    exact ⟨trivial, hbody, nofun⟩
  obtain ⟨unix, hu⟩ : ∃ text, script.render .unix = .ok text := exists_ok_of_isOk (by decide)
  obtain ⟨windows, hw⟩ : ∃ text, script.render .windows = .ok text := exists_ok_of_isOk (by decide)
  obtain ⟨-, -, seen, seen', last, hunix, hwindows, -, hsame, -⟩ :=
    same_steps hops hu hw (by decide) args (fun _ => by decide)
  obtain ⟨hseen, hseen', rfl⟩ := hsame (by decide)
  exact ⟨seen, seen', hunix, hwindows, hseen.trans hseen'.symm⟩

end Script
end Scriptwright
