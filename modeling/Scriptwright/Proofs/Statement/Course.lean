/-
What running a tree amounts to, given the arguments: which of its leaves are
run, in order, and whether what follows the tree is reached. The families differ
on one point only: a switch without a case for its argument does nothing in a
shell script and ends a batch file. Where every switch has one they agree
(`Statement.steps_prefix`, `Statement.goesOn_iff`).
-/
import Scriptwright.Proofs.Statement.Labels

namespace Scriptwright

open Scriptwright.Part

/-- The leaves that are run, and whether what comes next is run too. -/
structure Course where
  steps : List Statement
  goesOn : Bool

/-- One course and then, if it goes on, another. -/
def Course.andThen (a b : Course) : Course :=
  if a.goesOn then ⟨a.steps ++ b.steps, b.goesOn⟩ else a

theorem Course.andThen_goesOn (a b : Course) : (a.andThen b).goesOn = (a.goesOn && b.goesOn) := by
  unfold andThen
  cases h : a.goesOn <;> simp [h]

namespace Statement

mutual

/-- The course of a statement for some arguments. -/
def course (family : Family) (args : Nat → String) : Statement → Course
  | list body => courseList family args body
  | switchArg index cases => courseCases family args (args index) cases
  | s => ⟨[s], true⟩
  termination_by structural s => s

def courseList (family : Family) (args : Nat → String) : List Statement → Course
  | [] => ⟨[], true⟩
  | s :: ss => (s.course family args).andThen (courseList family args ss)
  termination_by structural ss => ss

/-- The course of the first case of a value. A batch file does not go on without one. -/
def courseCases (family : Family) (args : Nat → String) (value : String) : List (String × Statement) → Course
  | [] => ⟨[], family == .unix⟩
  | (other, s) :: cs => if other = value then s.course family args else courseCases family args value cs
  termination_by structural cs => cs

end

/-- Whether a statement writes a line that is not blank. -/
def writes (family : Family) (s : Statement) : Bool :=
  !(s.written family).all fun l => Text.isBlank l.text

mutual

/-- Whether a statement leaves the script anywhere. -/
def returns : Statement → Bool
  | list body => returnsList body
  | switchArg _ cases => returnsCases cases
  | leave _ => true
  | exec .. | interpret _ | appendFile .. | exportVar .. | call .. | comment _ => false
  termination_by structural s => s

def returnsList : List Statement → Bool
  | [] => false
  | s :: ss => s.returns || returnsList ss
  termination_by structural ss => ss

def returnsCases : List (String × Statement) → Bool
  | [] => false
  | (_, s) :: cs => s.returns || returnsCases cs
  termination_by structural cs => cs

end

variable {family : Family} {args : Nat → String}

theorem course_of_isLeaf {s : Statement} (h : s.isLeaf = true) (family : Family) (args : Nat → String) :
    s.course family args = ⟨[s], true⟩ := by
  cases s <;> first | rfl | cases h

theorem course_list_cons (family : Family) (args : Nat → String) (s : Statement) (ss : List Statement) :
    (list (s :: ss)).course family args = (s.course family args).andThen ((list ss).course family args) := rfl

theorem returns_list_cons (s : Statement) (ss : List Statement) :
    (list (s :: ss)).returns = (s.returns || (list ss).returns) := rfl

theorem returnsList_eq_any (body : List Statement) : returnsList body = body.any returns := by
  induction body with
  | nil => rfl
  | cons s ss ih => rw [returnsList, ih, List.any_cons]

theorem returnsCases_eq_any (cases : List (String × Statement)) : returnsCases cases = cases.any fun c => c.2.returns := by
  induction cases with
  | nil => rfl
  | cons c cs ih => rw [returnsCases, ih, List.any_cons]

theorem returns_of_mem {index : Nat} {cases : List (String × Statement)} (h : (switchArg index cases).returns = false)
    {c : String × Statement} (hc : c ∈ cases) : c.2.returns = false := by
  rw [returns, returnsCases_eq_any, List.any_eq_false] at h
  simpa using h c hc

/-- The course of a switch is that of a case, or empty. -/
theorem courseCases_eq (family : Family) (args : Nat → String) (value : String) (cases : List (String × Statement)) :
    (∃ c ∈ cases, c.1 = value ∧ courseCases family args value cases = c.2.course family args) ∨
      (value ∉ cases.map Prod.fst ∧ courseCases family args value cases = ⟨[], family == .unix⟩) := by
  induction cases with
  | nil => exact .inr ⟨List.not_mem_nil, rfl⟩
  | cons c cs ih =>
    rw [courseCases]
    by_cases hv : c.1 = value
    · exact .inl ⟨c, List.mem_cons_self, hv, if_pos hv⟩
    · rw [if_neg hv]
      rcases ih with ⟨d, hd, hvalue, hcourse⟩ | ⟨hnot, hcourse⟩
      · exact .inl ⟨d, List.mem_cons_of_mem _ hd, hvalue, hcourse⟩
      · refine .inr ⟨?_, hcourse⟩
        rw [List.map_cons, List.mem_cons, not_or]
        exact ⟨Ne.symm hv, hnot⟩

/-- Every step of a course is a leaf of a tree without returns, and so is no return. -/
theorem kind_of_mem_steps {s t : Statement} (h : s.returns = false) (ht : t ∈ (s.course family args).steps) :
    t.kind ≠ .leave := by
  induction s using induction_cons with
  | leaf s hleaf =>
    rw [course_of_isLeaf hleaf, List.mem_singleton] at ht
    rw [ht]
    intro hk
    cases s with
    | leave => cases h
    | list | switchArg => cases hleaf
    | _ => simp [kind] at hk
  | nil => exact absurd ht List.not_mem_nil
  | cons s ss ihs ihss =>
    rw [returns_list_cons, Bool.or_eq_false_iff] at h
    rw [course_list_cons, Course.andThen] at ht
    split at ht
    · rcases List.mem_append.1 ht with ht | ht
      · exact ihs h.1 ht
      · exact ihss h.2 ht
    · exact ihs h.1 ht
  | switchArg index cases ih =>
    rw [course] at ht
    rcases courseCases_eq family args (args index) cases with ⟨c, hc, -, hcourse⟩ | ⟨-, hcourse⟩
    · rw [hcourse] at ht
      exact ih c hc (returns_of_mem h hc) ht
    · rw [hcourse] at ht
      cases ht

/-- Without a switch a tree is its leaves one after another, in either family. -/
theorem parts_of_switchCount_eq_zero {s : Statement} (h : s.switchCount = 0) (family family' : Family)
    (args : Nat → String) : (s.course family args).goesOn = true ∧
      s.parts family' = (s.course family args).steps.map fun t => .leaf t (t.written family') := by
  induction s using induction_cons with
  | leaf s hleaf =>
    rw [course_of_isLeaf hleaf, parts_of_isLeaf hleaf]
    exact ⟨rfl, rfl⟩
  | nil => exact ⟨rfl, rfl⟩
  | cons s ss ihs ihss =>
    rw [switchCount_list_cons] at h
    obtain ⟨hgoes, hparts⟩ := ihs (by omega)
    obtain ⟨hgoes', hparts'⟩ := ihss (by omega)
    rw [course_list_cons, Course.andThen, if_pos hgoes, parts_list_cons, hparts, hparts', List.map_append]
    exact ⟨hgoes', rfl⟩
  | switchArg index cases ih =>
    rw [switchCount] at h
    omega

/-! ## Where the families agree -/

theorem switchCount_eq_zero_of_mem {cases : List (String × Statement)} (h : switchCountCases cases = 0)
    {c : String × Statement} (hc : c ∈ cases) : c.2.switchCount = 0 := by
  induction cases with
  | nil => cases hc
  | cons d ds ih =>
    rw [switchCountCases] at h
    rcases List.mem_cons.1 hc with rfl | hc
    · omega
    · exact ih (by omega) hc

theorem switches_of_isLeaf {s : Statement} (h : s.isLeaf = true) : s.switches = [] := by
  cases s <;> first | rfl | cases h

theorem switches_eq_nil {s : Statement} (h : s.switchCount = 0) : s.switches = [] :=
  eq_nil_of_switchCount (fun _ => switches_of_isLeaf) rfl switches_list_cons h

/-- A batch file goes on behind a tree of one switch at most exactly when the switch has a case for its
argument. -/
theorem goesOn_iff {s : Statement} (h : s.switchCount ≤ 1) :
    (s.course .windows args).goesOn = true ↔ ∀ choice ∈ s.switches, args choice.1 ∈ choice.2 := by
  induction s using induction_cons with
  | leaf s hleaf =>
    rw [course_of_isLeaf hleaf, switches_of_isLeaf hleaf]
    exact ⟨fun _ choice hc => absurd hc List.not_mem_nil, fun _ => rfl⟩
  | nil => exact ⟨fun _ choice hc => absurd hc List.not_mem_nil, fun _ => rfl⟩
  | cons s ss ihs ihss =>
    rw [switchCount_list_cons] at h
    rw [course_list_cons, Course.andThen_goesOn, Bool.and_eq_true, ihs (by omega), ihss (by omega), switches_list_cons,
      List.forall_mem_append]
  | switchArg index cases ih =>
    rw [switchCount] at h
    have hzero : switchCountCases cases = 0 := by omega
    have hnone : switchesCases cases = [] := by
      rw [switchesCases_eq_flatMap, List.flatMap_eq_nil_iff]
      exact fun c hc => switches_eq_nil (switchCount_eq_zero_of_mem hzero hc)
    rw [course, switches, hnone, List.forall_mem_singleton]
    rcases courseCases_eq .windows args (args index) cases with ⟨c, hc, hvalue, hcourse⟩ | ⟨hnot, hcourse⟩
    · rw [hcourse, (parts_of_switchCount_eq_zero (switchCount_eq_zero_of_mem hzero hc) .windows .windows args).1]
      exact ⟨fun _ => hvalue ▸ List.mem_map_of_mem hc, fun _ => rfl⟩
    · rw [hcourse]
      exact ⟨fun hgoes => (by cases hgoes), fun hm => absurd hm hnot⟩

/-- A shell script goes on behind every tree. -/
theorem goesOn_unix (s : Statement) : (s.course .unix args).goesOn = true := by
  induction s using induction_cons with
  | leaf s hleaf => rw [course_of_isLeaf hleaf]
  | nil => rfl
  | cons s ss ihs ihss =>
    rw [course_list_cons, Course.andThen_goesOn, ihs, ihss]
    rfl
  | switchArg index cases ih =>
    rw [course]
    rcases courseCases_eq .unix args (args index) cases with ⟨c, hc, -, hcourse⟩ | ⟨-, hcourse⟩
    · rw [hcourse, ih c hc]
    · rw [hcourse]
      rfl

/-- As far as a batch file goes, a shell script takes the same steps. -/
theorem steps_prefix {s : Statement} : (s.course .windows args).steps <+: (s.course .unix args).steps ∧
    ((s.course .windows args).goesOn = true → (s.course .windows args).steps = (s.course .unix args).steps) := by
  induction s using induction_cons with
  | leaf s hleaf =>
    rw [course_of_isLeaf hleaf, course_of_isLeaf hleaf]
    exact ⟨List.prefix_refl _, fun _ => rfl⟩
  | nil => exact ⟨List.prefix_refl _, fun _ => rfl⟩
  | cons s ss ihs ihss =>
    obtain ⟨hstart, hsame⟩ := ihs
    obtain ⟨hstart', hsame'⟩ := ihss
    rw [course_list_cons, course_list_cons, Course.andThen, Course.andThen, if_pos (goesOn_unix s)]
    split
    · next hgoes =>
      rw [hsame hgoes]
      exact ⟨(List.prefix_append_right_inj _).2 hstart', fun hgoes' => by rw [hsame' hgoes']⟩
    · next hgoes =>
      exact ⟨hstart.trans (List.prefix_append _ _), fun hgoes' => absurd hgoes' hgoes⟩
  | switchArg index cases ih =>
    rw [course, course]
    induction cases with
    | nil => exact ⟨List.prefix_refl _, fun _ => rfl⟩
    | cons c cs ihs =>
      rw [courseCases, courseCases]
      by_cases hv : c.1 = args index
      · rw [if_pos hv, if_pos hv]
        exact ih c List.mem_cons_self
      · rw [if_neg hv, if_neg hv]
        exact ihs fun d hd => ih d (List.mem_cons_of_mem _ hd)

end Statement
end Scriptwright
