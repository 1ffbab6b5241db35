/-
The nodes of a tree in the order in which they are written: a statement stands
before all it holds, and what a list or a switch holds stands in its order. The
count of switches is a count of nodes (`switchCount_eq_countP`).
-/
import Scriptwright.Proofs.Statement.Lines

namespace Scriptwright.Statement

mutual

/-- A statement and all it holds, each before its own parts. -/
def nodes : Statement → List Statement
  | list body => list body :: nodesList body
  | switchArg index cases => switchArg index cases :: nodesCases cases
  | s => [s]
  termination_by structural s => s

/-- The nodes of statements one after another. -/
def nodesList : List Statement → List Statement
  | [] => []
  | s :: ss => s.nodes ++ nodesList ss
  termination_by structural ss => ss

/-- The nodes of the statements of some cases. -/
def nodesCases : List (String × Statement) → List Statement
  | [] => []
  | (_, s) :: cs => s.nodes ++ nodesCases cs
  termination_by structural cs => cs

end

/-- Whether a statement is a switch, whatever it holds. -/
def isSwitch (s : Statement) : Bool :=
  s.kind == .switchArg

theorem nodes_of_isLeaf {s : Statement} (h : s.isLeaf = true) : s.nodes = [s] := by
  cases s <;> first | rfl | cases h

theorem nodesList_eq_flatMap (body : List Statement) : nodesList body = body.flatMap nodes := by
  induction body with
  | nil => rfl
  | cons s ss ih => rw [nodesList, ih, List.flatMap_cons]

theorem nodesCases_eq_flatMap (cases : List (String × Statement)) :
    nodesCases cases = cases.flatMap fun c => c.2.nodes := by
  induction cases with
  | nil => rfl
  | cons c cs ih => rw [nodesCases, ih, List.flatMap_cons]

theorem self_mem_nodes (s : Statement) : s ∈ s.nodes := by
  cases s <;> exact List.mem_cons_self

theorem mem_nodes_list {s node : Statement} {body : List Statement} (hs : s ∈ body) (h : node ∈ s.nodes) :
    node ∈ (list body).nodes := by
  rw [nodes, nodesList_eq_flatMap]
  exact List.mem_cons_of_mem _ (List.mem_flatMap.2 ⟨s, hs, h⟩)

theorem mem_nodes_case {arm : String × Statement} {node : Statement} {index : Nat} {cases : List (String × Statement)}
    (ha : arm ∈ cases) (h : node ∈ arm.2.nodes) : node ∈ (switchArg index cases).nodes := by
  rw [nodes, nodesCases_eq_flatMap]
  exact List.mem_cons_of_mem _ (List.mem_flatMap.2 ⟨arm, ha, h⟩)

theorem switchCountCases_eq {cases : List (String × Statement)}
    (h : ∀ c ∈ cases, c.2.switchCount = c.2.nodes.countP isSwitch) :
    switchCountCases cases = (nodesCases cases).countP isSwitch := by
  induction cases with
  | nil => rfl
  | cons c cs ih =>
    rw [switchCountCases, nodesCases, List.countP_append, h c List.mem_cons_self,
      ih fun d hd => h d (List.mem_cons_of_mem _ hd)]

theorem switchCount_eq_countP (s : Statement) : s.switchCount = s.nodes.countP isSwitch := by
  induction s using induction_cons with
  | leaf s hleaf =>
    rw [nodes_of_isLeaf hleaf]
    cases s <;> first | rfl | cases hleaf
  | nil => rfl
  | cons s ss ihs ihss =>
    have hlist : ∀ body, (list body).nodes.countP isSwitch = (nodesList body).countP isSwitch := fun body => by
      simp [nodes, isSwitch, kind]
    rw [switchCount_list_cons, ihs, ihss, hlist, hlist, nodesList, List.countP_append]
  | switchArg index cases ih =>
    rw [switchCount, switchCountCases_eq ih]
    simp [nodes, isSwitch, kind, Nat.add_comm]

end Scriptwright.Statement
