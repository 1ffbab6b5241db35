/-
How a batch file runs, as far as its layout goes: a place is what is left of
the file, a line sends the reader on, past a block, or behind the first label of
a name, and a statement is one step that goes on with the next line. A run
(`Runs`) tells which statements were met until a line leaves the script. With
labels that differ from each other a jump has one place to go
(`afterLabel?_of_nodup`).
-/
import Mathlib.Data.List.Nodup
import Mathlib.Logic.Relation
import Scriptwright.Proofs.Batch.Reading

namespace Scriptwright.Batch

/-- Where a line sends the reader. -/
inductive Flow where
  | next
  | jump (name : String)
  | leave
  /-- Past the block that the line opens. -/
  | skip
  deriving DecidableEq

namespace Command

/-- Whether a command opens a block once its comparisons hold. -/
def opens : Command → Bool
  | opening => true
  | test _ _ _ next => next.opens
  | _ => false

def flow : Command → Flow
  | jump name => .jump name
  | leave => .leave
  | test expected left right next =>
    if (left == right) = expected then next.flow else if next.opens then .skip else .next
  | label _ | opening | closing | other => .next

/-- The label that a command may jump to. -/
def target? : Command → Option String
  | jump name => some name
  | test _ _ _ next => next.target?
  | _ => none

end Command

theorem flow_goto_abort {args : Nat → String} : (read args ("goto " ++ abortLabel)).flow = .jump abortLabel := by
  rw [read_goto (.inl rfl) (by decide), Command.flow]

theorem target?_label {args : Nat → String} (name : String) : (read args (":" ++ name)).target? = none := by
  obtain ⟨shown, hshown⟩ : ∃ shown, read args (":" ++ name) = .label shown := read_label name
  rw [hshown]
  rfl

/-- A line without percent signs, and without an `if` at its start, is read as it stands. -/
theorem read_plain {args : Nat → String} {text : String} {c : Char} {cs : List Char} (ht : text.toList = c :: cs)
    (hp : '%' ∉ c :: cs) (hs : c ≠ ' ') (hi : c.toLower ≠ 'i') : read args text = simple (c :: cs) := by
  rw [List.mem_cons, not_or] at hp
  rw [read_cons ht (Ne.symm hp.1) hs hi, expandArguments_of_not_mem hp.2]

theorem read_echo_off {args : Nat → String} : read args "@echo off" = .other := by
  have htext : "@echo off".toList = '@' :: "echo off".toList := by decide
  have hsimple : simple ('@' :: "echo off".toList) = .other := by decide
  rw [read_plain htext (by decide) (by decide) (by decide), hsimple]

theorem read_exit {args : Nat → String} {text : String} (h : text = "exit /b 0" ∨ text = "exit /b 1") :
    read args text = .leave := by
  obtain ⟨cs, htext, hpercent, hsimple⟩ :
      ∃ cs, text.toList = 'e' :: cs ∧ '%' ∉ 'e' :: cs ∧ simple ('e' :: cs) = .leave := by
    rcases h with rfl | rfl
    · exact ⟨"xit /b 0".toList, by decide, by decide, by decide⟩
    · exact ⟨"xit /b 1".toList, by decide, by decide, by decide⟩
  rw [read_plain htext hpercent (by decide) (by decide), hsimple]

theorem read_aborting {args : Nat → String} :
    read args ("echo aborting: %" ++ exceptionVariable ++ "%") = .other := by
  have htext : ("echo aborting: %" ++ exceptionVariable ++ "%").toList = 'e' :: 'c' :: "ho aborting: %EXCEPTION%".toList := by
    decide
  rw [read_cons htext (by decide) (by decide) (by decide), expandArguments_cons (by decide)]
  simp [simple, afterWord?, List.isPrefixOf]

/-! ## Labels -/

/-- The label that a part of a script is. A line of a statement is not looked at. -/
def partLabel? : Part → Option String
  | .own depth text | .arm depth _ text => label? (Part.indentation depth ++ text)
  | .leaf .. => none

/-- The labels of a script, in order. -/
def labels (file : List Part) : List String :=
  file.filterMap partLabel?

/-- What follows the first label of a name, its case ignored. -/
def afterLabel? (name : String) : List Part → Option (List Part)
  | [] => none
  | p :: ps => if (partLabel? p).any (sameLabel name) then some ps else afterLabel? name ps

@[simp] theorem labels_nil : labels [] = [] := rfl

@[simp] theorem labels_append (a b : List Part) : labels (a ++ b) = labels a ++ labels b := by
  simp [labels]

theorem labels_cons_of_none {p : Part} (h : partLabel? p = none) (ps : List Part) : labels (p :: ps) = labels ps := by
  simp [labels, h]

theorem labels_cons_of_some {p : Part} {name : String} (h : partLabel? p = some name) (ps : List Part) :
    labels (p :: ps) = name :: labels ps := by
  simp [labels, h]

theorem partLabel?_colon (depth : Nat) (name : String) : partLabel? (.own depth (":" ++ name)) = some name := by
  rw [partLabel?, label?_indentation, label?_colon]

@[simp] theorem partLabel?_indent (p : Part) : partLabel? p.indent = partLabel? p := by
  cases p <;> simp [Part.indent, partLabel?]

@[simp] theorem labels_map_indent (ps : List Part) : labels (ps.map Part.indent) = labels ps := by
  simp [labels, List.filterMap_map]

theorem afterLabel?_append {name : String} {a : List Part} (h : ∀ other ∈ labels a, labelKey other ≠ labelKey name)
    (b : List Part) : afterLabel? name (a ++ b) = afterLabel? name b := by
  induction a with
  | nil => rfl
  | cons p a ih =>
    have ha : ∀ other ∈ labels a, labelKey other ≠ labelKey name := by
      intro other ho
      refine h other ?_
      rw [← List.singleton_append, labels_append]
      exact List.mem_append_right _ ho
    rw [List.cons_append, afterLabel?, ih ha, if_neg]
    cases hp : partLabel? p with
    | none => simp
    | some other =>
      have hne := h other (by rw [labels_cons_of_some hp]; exact List.mem_cons_self)
      simp [sameLabel, Ne.symm hne]

/-- Where no two labels are the same, a jump goes behind the one label of its name. -/
theorem afterLabel?_of_nodup {file a b : List Part} {depth : Nat} {name : String}
    (hfile : file = a ++ .own depth (":" ++ name) :: b) (hn : ((labels file).map labelKey).Nodup) :
    afterLabel? name file = some b := by
  subst hfile
  rw [labels_append, labels_cons_of_some (partLabel?_colon depth name), List.map_append, List.map_cons] at hn
  have hne : ∀ other ∈ labels a, labelKey other ≠ labelKey name := by
    intro other ho he
    exact (List.nodup_append.1 hn).2.2 _ (List.mem_map_of_mem ho) _ List.mem_cons_self he
  rw [afterLabel?_append hne, afterLabel?, partLabel?_colon]
  simp [sameLabel]

theorem countP_sameLabel (name : String) (names : List String) :
    names.countP (sameLabel name) = (names.map labelKey).count (labelKey name) := by
  rw [List.count, List.countP_map]
  congr 1
  funext other
  rw [sameLabel, Function.comp_apply, BEq.comm]

theorem countP_sameLabel_le_one {names : List String} (hn : (names.map labelKey).Nodup) (name : String) :
    names.countP (sameLabel name) ≤ 1 := by
  rw [countP_sameLabel]
  exact List.nodup_iff_count_le_one.1 hn _

theorem countP_sameLabel_of_mem {names : List String} (hn : (names.map labelKey).Nodup) {name : String}
    (h : name ∈ names) : names.countP (sameLabel name) = 1 := by
  rw [countP_sameLabel]
  exact List.count_eq_one_of_mem hn (List.mem_map_of_mem h)

/-! ## Steps -/

/-- What follows the line that closes a block. -/
def afterBlock (args : Nat → String) : List Part → List Part
  | [] => []
  | .own depth text :: rest =>
    match read args (Part.indentation depth ++ text) with
    | .closing => rest
    | _ => afterBlock args rest
  | _ :: rest => afterBlock args rest

/-- One step from a place in a file. A statement goes on with the next line, unless it leaves. -/
def step (file : List Part) (args : Nat → String) : List Part → Option (List Part)
  | [] => none
  | .own depth text :: rest =>
    match (read args (Part.indentation depth ++ text)).flow with
    | .next => some rest
    | .jump name => afterLabel? name file
    | .leave => none
    | .skip => some (afterBlock args rest)
  | .arm .. :: _ => none
  | .leaf s _ :: rest => if s.kind = .leave then none else some rest

section

variable {file rest : List Part} {args : Nat → String} {depth : Nat} {text name : String}

theorem step_of_next (h : (read args text).flow = .next) : step file args (.own depth text :: rest) = some rest := by
  simp only [step, read_indentation, h]

theorem step_of_jump (h : (read args text).flow = .jump name) :
    step file args (.own depth text :: rest) = afterLabel? name file := by
  simp only [step, read_indentation, h]

theorem step_of_leave (h : (read args text).flow = .leave) : step file args (.own depth text :: rest) = none := by
  simp only [step, read_indentation, h]

theorem step_of_skip (h : (read args text).flow = .skip) :
    step file args (.own depth text :: rest) = some (afterBlock args rest) := by
  simp only [step, read_indentation, h]

end

/-- The places that can be reached from a place. -/
def Reaches (file : List Part) (args : Nat → String) : List Part → List Part → Prop :=
  Relation.ReflTransGen fun place next => step file args place = some next

/-- The statement met at a place, if it writes anything that is not blank. -/
def met : List Part → List Statement
  | .leaf s lines :: _ => if lines.all fun l => Text.isBlank l.text then [] else [s]
  | _ => []

/-- The statements met from a place on, in order, until a line leaves the script. -/
inductive Runs (file : List Part) (args : Nat → String) : List Part → List Statement → String → Prop
  | leave {depth : Nat} {text : String} {rest : List Part} (h : (read args text).flow = .leave) :
      Runs file args (.own depth text :: rest) [] text
  | step {place next : List Part} {seen : List Statement} {last : String} (h : step file args place = some next)
      (hr : Runs file args next seen last) : Runs file args place (met place ++ seen) last

/-- From a place there is one run at most. -/
theorem Runs.det {file : List Part} {args : Nat → String} {place : List Part} {seen seen' : List Statement}
    {last last' : String} (h : Runs file args place seen last) (h' : Runs file args place seen' last') :
    seen = seen' ∧ last = last' := by
  induction h generalizing seen' last' with
  | leave hl =>
    cases h' with
    | leave _ => exact ⟨rfl, rfl⟩
    | step hs _ => rw [step_of_leave hl] at hs; cases hs
  | step hs _ ih =>
    cases h' with
    | leave hl => rw [step_of_leave hl] at hs; cases hs
    | step hs' hr =>
      rw [hs] at hs'
      cases hs'
      obtain ⟨rfl, rfl⟩ := ih hr
      exact ⟨rfl, rfl⟩

/-- The places that can be reached from a place without meeting a statement. -/
def Passes (file : List Part) (args : Nat → String) : List Part → List Part → Prop :=
  Relation.ReflTransGen fun place next => step file args place = some next ∧ met place = []

/-- What is run behind a stretch of layout is run from its start. -/
theorem Passes.runs {file : List Part} {args : Nat → String} {place place' : List Part} {seen : List Statement}
    {last : String} (h : Passes file args place place') (hr : Runs file args place' seen last) :
    Runs file args place seen last := by
  induction h using Relation.ReflTransGen.head_induction_on with
  | refl => exact hr
  | head hs _ ih =>
    have := Runs.step hs.1 ih
    rwa [hs.2] at this

end Scriptwright.Batch
