/-
The scripts that the operations lead to from an empty one, refused operations
changing nothing, and what holds of them all: functions have names that are no
label of the layout and differ from each other even without regard to case,
every statement was built by the constructors, and variables are such as the
statement that sets one allows.
-/
import Scriptwright.Proofs.Statement.Made
import Scriptwright.Script

namespace Scriptwright

/-- One operation on a script in the making. -/
inductive Operation where
  | exportVariable (name value : String)
  | defineFunction (name : String) (body : Statement)
  | addStatement (s : Statement)
  | addStatements (body : List Statement)

namespace Operation

/-- The statements of an operation were built by the constructors. -/
def Made : Operation → Prop
  | exportVariable .. => True
  | defineFunction _ body => body.Made
  | addStatement s => s.Made
  | addStatements body => ∀ s ∈ body, s.Made

/-- A script after an operation; one that is refused leaves it as it was. -/
def run (script : Script) : Operation → Script
  | exportVariable name value =>
    match script.exportVariable name value with
    | .ok next => next
    | .error _ => script
  | defineFunction name body =>
    match script.defineFunction name body with
    | .ok next => next
    | .error _ => script
  | addStatement s => script.addStatement s
  | addStatements body => script.addStatements body

end Operation

namespace Script

/-- The script that some operations lead to. -/
def after (ops : List Operation) : Script :=
  ops.foldl Operation.run {}

/-- What holds of every script that can be reached. -/
structure Valid (script : Script) : Prop where
  named : ∀ f ∈ script.functions, isIdentifier f.1 = true ∧ isReserved f.1 = false
  distinct : (script.functions.map fun f => labelKey f.1).Nodup
  bodies : ∀ f ∈ script.functions, f.2.Made
  statements : ∀ s ∈ script.statements, s.Made

/-- A script with one more variable. -/
def withVariable (script : Script) (name value : String) : Script :=
  { script with exports := script.exports ++ [(name, value)] }

/-- A script with one more function. -/
def withFunction (script : Script) (name : String) (body : Statement) : Script :=
  { script with functions := script.functions ++ [(name, body)] }

variable {script next : Script} {name : String}

/-- A variable is exported if both families can write it and its name is new. -/
theorem exportVariable_eq_ok_iff {value : String} :
    script.exportVariable name value = .ok next ↔ next = script.withVariable name value ∧
      (isIdentifier name = true ∧ Text.hasBreak value = false) ∧ name ∉ script.exports.map Prod.fst := by
  have hany : (script.exports.any fun e => e.1 == name) = true ↔ name ∈ script.exports.map Prod.fst := by
    simp [List.any_eq_true]
  rw [exportVariable, ← hany]
  cases hm : Statement.makeExport name value with
  | error refusal =>
    have hnot : ¬ (isIdentifier name = true ∧ Text.hasBreak value = false) := fun h => by
      rw [Statement.makeExport_eq_ok_iff.2 ⟨rfl, h⟩] at hm
      cases hm
    simp [bind, Except.bind, hnot]
  | ok s =>
    have hfit := (Statement.makeExport_eq_ok_iff.1 hm).2
    cases script.exports.any fun e => e.1 == name <;>
      simp [bind, Except.bind, pure, Except.pure, hfit, withVariable, eq_comm]

/-- A function is defined if both families can call it, the layout leaves its name to it and no other has it. -/
theorem defineFunction_eq_ok_iff {body : Statement} :
    script.defineFunction name body = .ok next ↔ next = script.withFunction name body ∧
      (isIdentifier name = true ∧ isReserved name = false) ∧ ∀ f ∈ script.functions, sameLabel f.1 name = false := by
  have hany : (script.functions.any fun f => sameLabel f.1 name) = false ↔
      ∀ f ∈ script.functions, sameLabel f.1 name = false := by
    simp [List.any_eq_false]
  rw [defineFunction, ← hany]
  cases isIdentifier name <;> cases isReserved name <;> cases script.functions.any fun f => sameLabel f.1 name <;>
    simp [withFunction, eq_comm]

theorem Valid.defineFunction {body : Statement} (h : script.Valid) (hb : body.Made)
    (hd : script.defineFunction name body = .ok next) : next.Valid := by
  obtain ⟨rfl, hnamed, hother⟩ := defineFunction_eq_ok_iff.1 hd
  refine ⟨?_, ?_, ?_, h.statements⟩
  · intro f hf
    rcases List.mem_append.1 hf with hf | hf
    · exact h.named f hf
    · rw [List.mem_singleton.1 hf]
      exact hnamed
  · rw [withFunction, List.map_append, List.nodup_append]
    refine ⟨h.distinct, by simp, ?_⟩
    intro key hkey other ho he
    obtain ⟨f, hf, rfl⟩ := List.mem_map.1 hkey
    rw [List.map_singleton, List.mem_singleton] at ho
    have hne := hother f hf
    rw [ho] at he
    simp [sameLabel, he] at hne
  · intro f hf
    rcases List.mem_append.1 hf with hf | hf
    · exact h.bodies f hf
    · rw [List.mem_singleton.1 hf]
      exact hb

theorem Valid.addStatements {body : List Statement} (h : script.Valid) (hb : ∀ s ∈ body, s.Made) :
    (script.addStatements body).Valid := by
  refine ⟨h.named, h.distinct, h.bodies, fun s hs => ?_⟩
  rcases List.mem_append.1 hs with hs | hs
  · exact h.statements s hs
  · exact hb s hs

/-- Every operation keeps a script valid. -/
theorem Valid.run {op : Operation} (h : script.Valid) (hop : op.Made) : (op.run script).Valid := by
  cases op with
  | exportVariable name value =>
    simp only [Operation.run]
    split
    · next hok => rw [(exportVariable_eq_ok_iff.1 hok).1]; exact ⟨h.named, h.distinct, h.bodies, h.statements⟩
    · exact h
  | defineFunction name body =>
    simp only [Operation.run]
    split
    · next hok => exact h.defineFunction hop hok
    · exact h
  | addStatement s => exact h.addStatements fun t ht => List.mem_singleton.1 ht ▸ hop
  | addStatements body => exact h.addStatements hop

/-- What holds of an empty script and is kept by every operation holds of every script that can be reached. -/
theorem after_induction {motive : Script → Prop} (empty : motive {})
    (step : ∀ (script : Script) (op : Operation), op.Made → motive script → motive (op.run script))
    (ops : List Operation) (h : ∀ op ∈ ops, op.Made) : motive (after ops) :=
  List.foldlRecOn ops Operation.run empty fun script hscript op hop => step script op (h op hop) hscript

/-- Every script that operations lead to is valid. -/
theorem valid_after (ops : List Operation) (h : ∀ op ∈ ops, op.Made) : (after ops).Valid :=
  after_induction ⟨fun _ hf => absurd hf List.not_mem_nil, List.nodup_nil, fun _ hf => absurd hf List.not_mem_nil,
    fun _ hs => absurd hs List.not_mem_nil⟩ (fun _ _ hop hv => hv.run hop) ops h

/-- Every variable of a script has a name and a value that its statement allows. -/
def Exporting (script : Script) : Prop :=
  ∀ e ∈ script.exports, isIdentifier e.1 = true ∧ Text.hasBreak e.2 = false

theorem Exporting.run (h : script.Exporting) (op : Operation) : (op.run script).Exporting := by
  cases op with
  | exportVariable name value =>
    simp only [Operation.run]
    split
    · next hok =>
      obtain ⟨rfl, hmade, -⟩ := exportVariable_eq_ok_iff.1 hok
      intro e he
      rcases List.mem_append.1 he with he | he
      · exact h e he
      · rw [List.mem_singleton.1 he]
        exact hmade
    · exact h
  | defineFunction name body =>
    simp only [Operation.run]
    split
    · next hok => rw [(defineFunction_eq_ok_iff.1 hok).1]; exact h
    · exact h
  | addStatement s => exact h
  | addStatements body => exact h

theorem exporting_after (ops : List Operation) (h : ∀ op ∈ ops, op.Made) : (after ops).Exporting :=
  after_induction (fun _ he => absurd he List.not_mem_nil) (fun _ op _ hv => hv.run op) ops h

end Script
end Scriptwright
