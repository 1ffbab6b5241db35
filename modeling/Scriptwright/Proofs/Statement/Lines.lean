/-
What the lines of a leaf are if it is not refused, how the lines of a tree are
made of the lines of its parts, and the walk over a tree on which proofs about
its lines follow: leaves, lists, switches.
-/
import Mathlib.Data.List.Forall2
import Scriptwright.Proofs.Results
import Scriptwright.Proofs.Statement.Made
import Scriptwright.Statement.Lines

namespace Scriptwright

/-! ## Leaves -/

section

variable {family : Family} {ls : List Line}

theorem execLines_eq_ok_iff {command : String} {replacing : Bool} :
    execLines family command replacing = .ok ls ↔
      Text.hasBreak (Token.expand family command) = false ∧ Text.isBlank (Token.expand family command) = false ∧
        ¬ (family = .windows ∧ replacing = true) ∧
        ls = [.code (if replacing then "exec " ++ Token.expand family command else Token.expand family command)] := by
  simp only [execLines]
  generalize Token.expand family command = expanded
  cases Text.hasBreak expanded with
  | true => simp
  | false =>
    cases Text.isBlank expanded with
    | true => simp
    | false => cases replacing <;> cases family <;> simp [eq_comm (a := ls)]

theorem exportLines_eq_ok_iff {name value : String} :
    exportLines family name value = .ok ls ↔
      Text.hasBreak (Token.expand family (exportTemplate family name value)) = false ∧
        ls = [.code (Token.expand family (exportTemplate family name value))] := by
  simp only [exportLines]
  generalize Token.expand family (exportTemplate family name value) = expanded
  cases Text.hasBreak expanded <;> simp [eq_comm (a := ls)]

theorem appendFileLines_unix_eq_ok_iff {path : String} {payload : List String} :
    appendFileLines .unix path payload = .ok ls ↔
      hereDelimiter ∉ payloadLines .unix payload ∧
        ls = Shell.hereDocument (Token.expand .unix (Shell.argument path)) (payloadLines .unix payload) := by
  rw [← delimiterPlace?_eq_none_iff]
  simp only [appendFileLines]
  generalize payloadLines .unix payload = written
  cases delimiterPlace? written <;> simp [eq_comm (a := ls)]

end

/-! ## Trees -/

namespace Statement

/-- Whether a statement holds no others. -/
def isLeaf : Statement → Bool
  | list _ | switchArg .. => false
  | _ => true

/-- A tree is a leaf, a list of trees, or a switch over trees. -/
@[elab_as_elim]
theorem induction {motive : Statement → Prop} (leaf : ∀ s, s.isLeaf = true → motive s)
    (list : ∀ body, (∀ s ∈ body, motive s) → motive (.list body))
    (switchArg : ∀ index cases, (∀ c ∈ cases, motive c.2) → motive (.switchArg index cases)) :
    ∀ s, motive s
  | .list body => list body fun s _ => induction leaf list switchArg s
  | .switchArg index cases => switchArg index cases fun c _ => induction leaf list switchArg c.2
  | .exec .. | .interpret _ | .appendFile .. | .exportVar .. | .call .. | .comment _ | .leave _ => leaf _ rfl
termination_by s => sizeOf s
decreasing_by
  · have := List.sizeOf_lt_of_mem ‹_ ∈ body›
    simp only [Statement.list.sizeOf_spec]
    omega
  · have := List.sizeOf_lt_of_mem ‹_ ∈ cases›
    obtain ⟨v, s⟩ := c
    simp only [Statement.switchArg.sizeOf_spec, Prod.mk.sizeOf_spec] at this ⊢
    omega

/-- The same walk with lists taken apart, as the functions on trees do it. -/
@[elab_as_elim]
theorem induction_cons {motive : Statement → Prop} (leaf : ∀ s, s.isLeaf = true → motive s) (nil : motive (.list []))
    (cons : ∀ s ss, motive s → motive (.list ss) → motive (.list (s :: ss)))
    (switchArg : ∀ index cases, (∀ c ∈ cases, motive c.2) → motive (.switchArg index cases)) (s : Statement) :
    motive s := by
  induction s using induction with
  | leaf s hleaf => exact leaf s hleaf
  | list body ih =>
    induction body with
    | nil => exact nil
    | cons s ss ihss => exact cons s ss (ih s List.mem_cons_self) (ihss fun t ht => ih t (List.mem_cons_of_mem _ ht))
  | switchArg index cases ih => exact switchArg index cases ih

theorem switchCount_list_cons (s : Statement) (ss : List Statement) :
    (list (s :: ss)).switchCount = s.switchCount + (list ss).switchCount := rfl

variable {family : Family} {ls : List Line}

theorem linesList_eq_ok_iff {body : List Statement} :
    linesList family body = .ok ls ↔
      ∃ parts, List.Forall₂ (fun s own => s.lines family = .ok own) body parts ∧ ls = parts.flatten := by
  induction body generalizing ls with
  | nil => simp [linesList, eq_comm]
  | cons s ss ih =>
    simp only [linesList, bind_ok_iff, pure_ok_iff, ih, List.forall₂_cons_left_iff]
    constructor
    · rintro ⟨first, hf, -, ⟨parts, hp, rfl⟩, rfl⟩
      exact ⟨first :: parts, ⟨first, parts, hf, hp, rfl⟩, rfl⟩
    · rintro ⟨-, ⟨first, parts, hf, hp, rfl⟩, rfl⟩
      exact ⟨first, hf, _, ⟨parts, hp, rfl⟩, rfl⟩

theorem lines_list_cons_eq_ok_iff {s : Statement} {ss : List Statement} :
    (list (s :: ss)).lines family = .ok ls ↔
      ∃ first rest, s.lines family = .ok first ∧ (list ss).lines family = .ok rest ∧ ls = first ++ rest := by
  simp only [lines, linesList, bind_ok_iff, pure_ok_iff]
  constructor
  · rintro ⟨first, hf, rest, hr, rfl⟩
    exact ⟨first, rest, hf, hr, rfl⟩
  · rintro ⟨first, rest, hf, hr, rfl⟩
    exact ⟨first, hf, rest, hr, rfl⟩

theorem linesCases_eq_ok_iff {cases : List (String × Statement)} {written : List (String × List Line)} :
    linesCases family cases = .ok written ↔
      List.Forall₂ (fun c w => w.1 = c.1 ∧ c.2.lines family = .ok w.2) cases written := by
  induction cases generalizing written with
  | nil => simp [linesCases, eq_comm]
  | cons c cs ih =>
    obtain ⟨value, s⟩ := c
    simp only [linesCases, bind_ok_iff, pure_ok_iff, ih, List.forall₂_cons_left_iff]
    constructor
    · rintro ⟨body, hb, rest, hr, rfl⟩
      exact ⟨(value, body), rest, ⟨rfl, hb⟩, hr, rfl⟩
    · rintro ⟨⟨v, body⟩, rest, ⟨rfl, hb⟩, hr, rfl⟩
      exact ⟨body, hb, rest, hr, rfl⟩

theorem lines_switchArg_eq_ok_iff {index : Nat} {cases : List (String × Statement)} :
    (switchArg index cases).lines family = .ok ls ↔
      ∃ argument written, family.argumentRef? index = some argument ∧ linesCases family cases = .ok written ∧
        ls = switchLines family argument written := by
  rw [lines]
  cases family.argumentRef? index with
  | none => simp
  | some argument =>
    simp only [bind_ok_iff, pure_ok_iff, Option.some.injEq]
    constructor
    · rintro ⟨written, hw, rfl⟩
      exact ⟨argument, written, rfl, hw, rfl⟩
    · rintro ⟨-, written, rfl, hw, rfl⟩
      exact ⟨written, hw, rfl⟩

/-- A rendered statement is the lines of its tree, in a batch file of one switch at most. -/
theorem render_eq_ok_iff {s : Statement} {text : String} :
    s.render family = .ok text ↔
      ¬ (family = .windows ∧ 1 < s.switchCount) ∧ ∃ ls, s.lines family = .ok ls ∧ text = Line.join family ls := by
  unfold render checkSwitchCount
  split
  · next h => simp [h, bind, Except.bind]
  · next h =>
    simp only [bind_ok_iff, pure_ok_iff, h, not_false_eq_true, true_and]
    constructor
    · rintro ⟨-, ls, hl, rfl⟩
      exact ⟨ls, hl, rfl⟩
    · rintro ⟨ls, hl, rfl⟩
      exact ⟨(), ls, hl, rfl⟩

/-- Where switches are not counted, or there is one at most, a statement is rendered as its lines are. -/
theorem render_eq_map {s : Statement} (h : ¬ (family = .windows ∧ 1 < s.switchCount)) :
    s.render family = Line.join family <$> s.lines family := by
  rw [render, checkSwitchCount, if_neg h]
  cases s.lines family with
  | error refusal => rfl
  | ok ls => rfl

theorem render_of_one_lt {s : Statement} (h : 1 < s.switchCount) :
    s.render .windows = .error (.tooManySwitches s.switchCount) := by
  rw [render, checkSwitchCount, if_pos ⟨rfl, h⟩]
  rfl

end Statement
end Scriptwright
