/-
A tree with a gap in it, into which any statement can be put. What the tree
writes around the gap does not depend on the statement there (`Frame.around`);
the lines of the statement come whole between the two, moved right by one step
for each switch around the gap (`lines_fill`). Every node of a tree stands in such
a gap (`exists_fill_eq_of_mem_nodes`).
-/
import Scriptwright.Proofs.Statement.Splicing

namespace Scriptwright

/-- Lines moved right by a number of steps. -/
def Line.indentBy : Nat → List Line → List Line
  | 0, ls => ls
  | depth + 1, ls => indent (indentBy depth ls)

/-- The lines before a gap and the lines behind it. -/
structure Around where
  before : List Line
  behind : List Line

namespace Around

/-- Both parts, moved right by one step. -/
def indent (around : Around) : Around :=
  ⟨Line.indent around.before, Line.indent around.behind⟩

/-- More lines before and more behind. -/
def widen (first : List Line) (around : Around) (last : List Line) : Around :=
  ⟨first ++ around.before, around.behind ++ last⟩

/-- The lines with those of the gap in their place. -/
def enclose (around : Around) (own : List Line) : List Line :=
  around.before ++ own ++ around.behind

theorem enclose_widen (first : List Line) (around : Around) (last own : List Line) :
    (widen first around last).enclose own = first ++ around.enclose own ++ last := by
  simp [widen, enclose, List.append_assoc]

theorem enclose_indent (around : Around) (own : List Line) :
    around.indent.enclose (Line.indent own) = Line.indent (around.enclose own) := by
  simp [indent, enclose]

end Around

/-! ## Switches -/

/-- What a switch writes around the statement of one of its cases, from the lines of the cases before and behind. -/
def switchAround (family : Family) (argument : String) (start : List (String × List Line)) (value : String)
    (rest : List (String × List Line)) : Around :=
  match family with
  | .unix =>
    ⟨.code ("case " ++ argument ++ " in") :: start.flatMap (fun c => Shell.arm c.1 c.2)
        ++ [.code (Shell.pattern value ++ ")")],
      .code (Line.step ++ ";;") :: rest.flatMap (fun c => Shell.arm c.1 c.2) ++ [.code "esac"]⟩
  | .windows =>
    let values := start.map Prod.fst ++ value :: rest.map Prod.fst
    ⟨Batch.guard argument values ++ Batch.dispatch argument values ++ start.flatMap (fun c => Batch.caseBlock c.1 c.2)
        ++ [.code (":" ++ Batch.caseLabel value)],
      .code (Line.step ++ "GOTO " ++ Batch.endLabel) :: rest.flatMap (fun c => Batch.caseBlock c.1 c.2)
        ++ [.code (":" ++ Batch.endLabel)]⟩

theorem switchLines_eq_enclose (family : Family) (argument : String) (start : List (String × List Line))
    (value : String) (body : List Line) (rest : List (String × List Line)) :
    switchLines family argument (start ++ (value, body) :: rest)
      = (switchAround family argument start value rest).enclose (Line.indent body) := by
  cases family with
  | unix => simp [switchLines, switchAround, Around.enclose, Shell.caseBlock, Shell.arm]
  | windows => simp [switchLines, switchAround, Around.enclose, Batch.switch, Batch.caseBlock]

namespace Statement

/-- A tree with a gap in it. -/
inductive Frame where
  /-- Nothing but the gap. -/
  | gap
  /-- A list with the gap in one of its statements. -/
  | list (before : List Statement) (inner : Frame) (behind : List Statement)
  /-- A switch with the gap in the statement of one of its cases. -/
  | switchArg (index : Nat) (before : List (String × Statement)) (value : String) (inner : Frame)
      (behind : List (String × Statement))

namespace Frame

/-- The tree with a statement in the gap. -/
def fill : Frame → Statement → Statement
  | gap, s => s
  | list before inner behind, s => .list (before ++ inner.fill s :: behind)
  | switchArg index before value inner behind, s => .switchArg index (before ++ (value, inner.fill s) :: behind)

/-- How many switches are around the gap. -/
def depth : Frame → Nat
  | gap => 0
  | list _ inner _ => inner.depth
  | switchArg _ _ _ inner _ => inner.depth + 1

/-- What is written around the gap, or the first refusal there. -/
def around (family : Family) : Frame → Except Refusal Around
  | gap => .ok ⟨[], []⟩
  | list before inner behind => do
    let first ← linesList family before
    let near ← inner.around family
    let last ← linesList family behind
    return near.widen first last
  | switchArg index before value inner behind =>
    match family.argumentRef? index with
    | none => .error (.argumentOutOfReach index)
    | some argument => do
      let start ← linesCases family before
      let near ← inner.around family
      let rest ← linesCases family behind
      let own := switchAround family argument start value rest
      return near.indent.widen own.before own.behind

end Frame

variable {family : Family} {s t : Statement} {own : List Line}

theorem linesCases_append (family : Family) (a b : List (String × Statement)) :
    linesCases family (a ++ b) = (do return (← linesCases family a) ++ (← linesCases family b)) := by
  induction a with
  | nil => exact (bind_pure _).symm
  | cons c cs ih => simp only [List.cons_append, linesCases, ih, bind_assoc, pure_bind]

/-- The lines of a statement in the gap come whole, moved right, between what is written around the gap. -/
theorem lines_fill (h : s.lines family = .ok own) (frame : Frame) :
    (frame.fill s).lines family
      = (fun around => around.enclose (Line.indentBy frame.depth own)) <$> frame.around family := by
  -- Both sides do the same in the same order: the monad laws leave where the lines are put.
  induction frame with
  | gap => simpa [Frame.fill, Frame.around, Frame.depth, Line.indentBy, Around.enclose] using h
  | list before inner behind ih =>
    rw [Frame.fill, lines, linesList_append, linesList, ih, Frame.around, Frame.depth]
    simp only [map_eq_pure_bind, bind_assoc, pure_bind, Around.enclose_widen, List.append_assoc]
  | switchArg index before value inner behind ih =>
    rw [Frame.fill, lines, Frame.around, Frame.depth, linesCases_append, linesCases, ih]
    cases family.argumentRef? index with
    | none => rfl
    | some argument =>
      simp only [map_eq_pure_bind, bind_assoc, pure_bind, switchLines_eq_enclose, Line.indentBy, Around.enclose_widen,
        Around.enclose_indent]
      rfl

theorem switchCount_fill (h : s.switchCount = t.switchCount) (frame : Frame) :
    (frame.fill s).switchCount = (frame.fill t).switchCount := by
  induction frame with
  | gap => exact h
  | list before inner behind ih =>
    simp only [Frame.fill, switchCount, switchCountList_append, switchCountList, ih]
  | switchArg index before value inner behind ih =>
    rw [Frame.fill, Frame.fill, switchCount, switchCount, switchCountCases_congr before behind value ih]

/-- Every node of a tree stands in a gap of the tree. -/
theorem exists_fill_eq_of_mem_nodes {node : Statement} (h : node ∈ s.nodes) : ∃ frame : Frame, frame.fill node = s := by
  induction s using Statement.induction with
  | leaf s hleaf =>
    rw [nodes_of_isLeaf hleaf, List.mem_singleton] at h
    exact ⟨.gap, h⟩
  | list body ih =>
    rw [nodes, nodesList_eq_flatMap, List.mem_cons, List.mem_flatMap] at h
    rcases h with rfl | ⟨s, hs, h⟩
    · exact ⟨.gap, rfl⟩
    · obtain ⟨inner, rfl⟩ := ih s hs h
      obtain ⟨before, behind, rfl⟩ := List.append_of_mem hs
      exact ⟨.list before inner behind, rfl⟩
  | switchArg index cases ih =>
    rw [nodes, nodesCases_eq_flatMap, List.mem_cons, List.mem_flatMap] at h
    rcases h with rfl | ⟨⟨value, s⟩, hc, h⟩
    · exact ⟨.gap, rfl⟩
    · obtain ⟨inner, rfl⟩ := ih (value, s) hc h
      obtain ⟨before, behind, rfl⟩ := List.append_of_mem hc
      exact ⟨.switchArg index before value inner behind, rfl⟩

end Statement
end Scriptwright
