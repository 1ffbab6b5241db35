/-
The names in a script, through every run of operations: variables and functions
have names that both families can use, none of which is there twice or taken by
the layout. An operation is refused exactly where it would break this
(`exportVariable_eq_ok_iff_wellNamed`, `defineFunction_eq_ok_iff_wellNamed`), so
the invariant needs no argument of its own. A refused operation changes nothing,
and a run comes to the same script as the operations of it that are let through
(`foldlM_accepted`).
-/
import Mathlib.Data.List.Nodup
import Scriptwright.Proofs.Script.Reachable
import Scriptwright.Script.Render

namespace Scriptwright

/-- Whether a name begins with another, to a batch file. -/
def StartsLabel (start name : String) : Prop :=
  (labelKey start).toList <+: (labelKey name).toList

/-- The start of a name is told by as many of its characters. -/
theorem sameLabel_take_iff {start name : String} :
    sameLabel (String.ofList (name.toList.take start.length)) start = true ↔ StartsLabel start name := by
  have hlength : (labelKey start).toList.length = start.length := by simp [labelKey, String.length_toList]
  rw [sameLabel, beq_iff_eq, StartsLabel, List.prefix_iff_eq_take, hlength, ← String.toList_inj]
  simp only [labelKey, Text.toList_lowerAscii, String.toList_ofList, List.map_take]
  exact eq_comm

namespace Script

/-- A name that the layout leaves to functions. -/
structure Unreserved (name : String) : Prop where
  not_abort : sameLabel name Batch.abortLabel = false
  not_end : sameLabel name Batch.endLabel = false
  not_case : ¬ StartsLabel caseLabelStart name

theorem isReserved_eq_false_iff {name : String} : isReserved name = false ↔ Unreserved name := by
  rw [isReserved, Bool.or_eq_false_iff, Bool.or_eq_false_iff, ← Bool.not_eq_true (sameLabel (String.ofList _) _),
    sameLabel_take_iff]
  constructor
  · rintro ⟨⟨habort, hend⟩, hcase⟩
    exact ⟨habort, hend, hcase⟩
  · intro h
    exact ⟨⟨h.not_abort, h.not_end⟩, h.not_case⟩

/-- What holds of the names of every script: both families can use them, and none is taken. -/
structure WellNamed (script : Script) : Prop where
  exports : ∀ e ∈ script.exports, isIdentifier e.1 = true ∧ Text.hasBreak e.2 = false
  exports_distinct : (script.exports.map Prod.fst).Nodup
  functions : ∀ f ∈ script.functions, isIdentifier f.1 = true ∧ Unreserved f.1
  functions_distinct : script.functions.Pairwise fun f g => sameLabel f.1 g.1 = false

theorem wellNamed_empty : WellNamed {} :=
  ⟨fun _ he => absurd he List.not_mem_nil, List.nodup_nil, fun _ hf => absurd hf List.not_mem_nil, List.Pairwise.nil⟩

variable {script next : Script} {name : String}

/-- A variable is exported exactly if the names then still hold. -/
theorem exportVariable_eq_ok_iff_wellNamed (h : script.WellNamed) {value : String} :
    script.exportVariable name value = .ok next ↔ next = script.withVariable name value ∧ next.WellNamed := by
  rw [exportVariable_eq_ok_iff]
  refine and_congr_right fun hnext => ?_
  subst hnext
  constructor
  · rintro ⟨hfit, hnew⟩
    refine ⟨?_, ?_, h.functions, h.functions_distinct⟩
    · intro e he
      rcases List.mem_append.1 he with he | he
      · exact h.exports e he
      · rw [List.mem_singleton.1 he]
        exact hfit
    · rw [withVariable, List.map_append, List.map_singleton, ← List.concat_eq_append]
      exact h.exports_distinct.concat hnew
  · intro hnext
    refine ⟨hnext.exports (name, value) (List.mem_append_right _ List.mem_cons_self), ?_⟩
    have hdistinct := hnext.exports_distinct
    rw [withVariable, List.map_append, List.nodup_append] at hdistinct
    exact fun hm => hdistinct.2.2 name hm name List.mem_cons_self rfl

/-- A function is defined exactly if the names then still hold. -/
theorem defineFunction_eq_ok_iff_wellNamed (h : script.WellNamed) {body : Statement} :
    script.defineFunction name body = .ok next ↔ next = script.withFunction name body ∧ next.WellNamed := by
  rw [defineFunction_eq_ok_iff, isReserved_eq_false_iff]
  refine and_congr_right fun hnext => ?_
  subst hnext
  constructor
  · rintro ⟨hfit, hnew⟩
    refine ⟨h.exports, h.exports_distinct, ?_, ?_⟩
    · intro f hf
      rcases List.mem_append.1 hf with hf | hf
      · exact h.functions f hf
      · rw [List.mem_singleton.1 hf]
        exact hfit
    · rw [withFunction, List.pairwise_append]
      refine ⟨h.functions_distinct, List.pairwise_singleton _ _, fun f hf g hg => ?_⟩
      rw [List.mem_singleton.1 hg]
      exact hnew f hf
  · intro hnext
    refine ⟨hnext.functions (name, body) (List.mem_append_right _ List.mem_cons_self), fun f hf => ?_⟩
    have hdistinct := hnext.functions_distinct
    rw [withFunction, List.pairwise_append] at hdistinct
    exact hdistinct.2.2 f hf (name, body) List.mem_cons_self

end Script

/-! ## Runs -/

namespace Operation

/-- A script after an operation, or why the operation is refused. -/
def attempt (script : Script) : Operation → Except Refusal Script
  | exportVariable name value => script.exportVariable name value
  | defineFunction name body => script.defineFunction name body
  | addStatement s => .ok (script.addStatement s)
  | addStatements body => .ok (script.addStatements body)

variable {script next : Script} {op : Operation}

theorem run_of_attempt_ok (h : op.attempt script = .ok next) : op.run script = next := by
  cases op with
  | exportVariable name value => rw [attempt] at h; rw [run, h]
  | defineFunction name body => rw [attempt] at h; rw [run, h]
  | addStatement s => cases h; rfl
  | addStatements body => cases h; rfl

/-- A refused operation leaves the script as it was. -/
theorem run_of_attempt_error {refusal : Refusal} (h : op.attempt script = .error refusal) : op.run script = script := by
  cases op with
  | exportVariable name value => rw [attempt] at h; rw [run, h]
  | defineFunction name body => rw [attempt] at h; rw [run, h]
  | addStatement s => cases h
  | addStatements body => cases h

/-- Every operation that is let through keeps the names. -/
theorem wellNamed_of_attempt_ok (hw : script.WellNamed) (h : op.attempt script = .ok next) : next.WellNamed := by
  cases op with
  | exportVariable name value => exact ((Script.exportVariable_eq_ok_iff_wellNamed hw).1 h).2
  | defineFunction name body => exact ((Script.defineFunction_eq_ok_iff_wellNamed hw).1 h).2
  | addStatement s => cases h; exact ⟨hw.exports, hw.exports_distinct, hw.functions, hw.functions_distinct⟩
  | addStatements body => cases h; exact ⟨hw.exports, hw.exports_distinct, hw.functions, hw.functions_distinct⟩

theorem wellNamed_run (hw : script.WellNamed) (op : Operation) : (op.run script).WellNamed := by
  cases h : op.attempt script with
  | error refusal => rwa [run_of_attempt_error h]
  | ok next => rw [run_of_attempt_ok h]; exact wellNamed_of_attempt_ok hw h

/-- The operations of a run that are not refused where they stand. -/
def accepted (script : Script) : List Operation → List Operation
  | [] => []
  | op :: ops =>
    match op.attempt script with
    | .ok next => op :: accepted next ops
    | .error _ => accepted script ops

/-- Without the refused operations a run comes to the same script, and none of the others is refused then. -/
theorem foldlM_accepted (script : Script) (ops : List Operation) :
    (accepted script ops).foldlM attempt script = .ok (ops.foldl run script) := by
  induction ops generalizing script with
  | nil => rfl
  | cons op ops ih =>
    rw [accepted, List.foldl_cons]
    cases h : op.attempt script with
    | error refusal => simp only [run_of_attempt_error h, ih]
    | ok next => simp only [List.foldlM_cons, h, run_of_attempt_ok h]; exact ih next

/-- Operations of which none is refused come to the script that a run of them comes to. -/
theorem foldl_run_of_foldlM {ops : List Operation} (h : ops.foldlM attempt script = .ok next) :
    ops.foldl run script = next := by
  induction ops generalizing script with
  | nil => cases h; rfl
  | cons op ops ih =>
    rw [List.foldlM_cons] at h
    cases hop : op.attempt script with
    | error refusal => rw [hop] at h; cases h
    | ok middle =>
      rw [hop] at h
      rw [List.foldl_cons, run_of_attempt_ok hop]
      exact ih h

end Operation

namespace Script

open Operation

theorem wellNamed_after (ops : List Operation) : (after ops).WellNamed :=
  List.foldlRecOn ops run wellNamed_empty fun _ hw op _ => wellNamed_run hw op

theorem after_append (ops more : List Operation) : after (ops ++ more) = more.foldl run (after ops) :=
  List.foldl_append

/-- What is not let through is refused. -/
theorem exists_error_iff {ε α : Type} {x : Except ε α} : (∃ e, x = .error e) ↔ ¬ ∃ a, x = .ok a := by
  cases x <;> simp

/-- After every run of operations the names of the script hold. A variable or a function is refused exactly if
they would not hold with it, and whatever is refused leaves the script as it was. So a run in which some are
refused comes to the same script as the run without those, in which none is, and whatever follows renders alike. -/
theorem wellNamed_runs (ops : List Operation) :
    (after ops).WellNamed ∧
      (∀ name value, (∃ refusal, (after ops).exportVariable name value = .error refusal) ↔
        ¬ ((after ops).withVariable name value).WellNamed) ∧
      (∀ name body, (∃ refusal, (after ops).defineFunction name body = .error refusal) ↔
        ¬ ((after ops).withFunction name body).WellNamed) ∧
      (∀ op refusal, op.attempt (after ops) = .error refusal → after (ops ++ [op]) = after ops) ∧
      (accepted {} ops).foldlM attempt {} = .ok (after ops) ∧
      ∀ more family, (after (accepted {} ops ++ more)).render family = (after (ops ++ more)).render family := by
  have hnamed := wellNamed_after ops
  refine ⟨hnamed, fun name value => ?_, fun name body => ?_, fun op refusal h => ?_, foldlM_accepted {} ops,
    fun more family => ?_⟩
  · rw [exists_error_iff]
    simp [exportVariable_eq_ok_iff_wellNamed hnamed]
  · rw [exists_error_iff]
    simp [defineFunction_eq_ok_iff_wellNamed hnamed]
  · rw [after_append, List.foldl_cons, List.foldl_nil, run_of_attempt_error h]
  · have hsame : after (accepted {} ops) = after ops := foldl_run_of_foldlM (foldlM_accepted {} ops)
    rw [after_append, after_append, hsame]

/-- A run in which a variable, a function of a name that is taken and one of a label of the layout are refused. -/
theorem wellNamed_runs_of_refusals :
    let run := [.exportVariable "A" "1", .exportVariable "A" "2", .defineFunction "go" (.comment "x"),
      .defineFunction "GO" (.comment "y"), .defineFunction "case_1" (.comment "z")]
    (after run).WellNamed ∧ after run = ⟨[("A", "1")], [("go", .comment "x")], []⟩ ∧
      after (run ++ [.defineFunction "Abort" (.comment "w")]) = after run :=
  have hruns := wellNamed_runs [.exportVariable "A" "1", .exportVariable "A" "2", .defineFunction "go" (.comment "x"),
    .defineFunction "GO" (.comment "y"), .defineFunction "case_1" (.comment "z")]
  ⟨hruns.1, by decide, hruns.2.2.2.1 _ (.functionReserved "Abort") (by decide)⟩

end Script
end Scriptwright
