/-
The parts of a statement: every statement that holds no others is one part, and
what a switch writes around its cases is layout. Written out they are the lines
of the statement (`Statement.allLines_parts`), so what is shown of parts is
shown of the text.
-/
import Scriptwright.Proofs.Part
import Scriptwright.Proofs.Statement.Lines

namespace Scriptwright

open Scriptwright.Part

/-! ## Switches -/

namespace Batch

/-- What tells the handler that the argument is none of the values. -/
def complaint (argument : String) (values : List String) : String :=
  "set " ++ exceptionVariable ++ "=bad argument: " ++ argument ++ " not in "
    ++ " ".intercalate (values.map escapeEcho)

def guardBlock (argument : String) (values : List String) : List Part :=
  [.own 1 (complaint argument values), .own 1 ("goto " ++ abortLabel), .own 0 ")"]

def branch (argument value : String) : Part :=
  .own 0 ("if " ++ comparison argument value ++ " goto " ++ caseLabel value)

def dispatchParts (argument : String) (values : List String) : List Part :=
  if values.all isLabelSafe then [.own 0 ("goto " ++ caseLabelStart ++ argument)] else values.map (branch argument)

def caseParts (value : String) (body : List Part) : List Part :=
  .own 0 (":" ++ caseLabel value) :: body.map Part.indent ++ [.own 1 ("GOTO " ++ endLabel)]

/-- The labelled blocks of the cases, and the label behind them. -/
def blocks (cases : List (String × List Part)) : List Part :=
  cases.flatMap (fun c => caseParts c.1 c.2) ++ [.own 0 (":" ++ endLabel)]

def switchParts (argument : String) (cases : List (String × List Part)) : List Part :=
  .own 0 (guardLine argument (cases.map Prod.fst)) :: (guardBlock argument (cases.map Prod.fst)
    ++ (dispatchParts argument (cases.map Prod.fst) ++ blocks cases))

end Batch

namespace Shell

def armParts (value : String) (body : List Part) : List Part :=
  .arm 0 value (pattern value ++ ")") :: body.map Part.indent ++ [.own 1 ";;"]

def caseParts (argument : String) (cases : List (String × List Part)) : List Part :=
  .own 0 ("case " ++ argument ++ " in") :: cases.flatMap (fun c => armParts c.1 c.2) ++ [.own 0 "esac"]

end Shell

/-- The parts of a switch, from those of its cases. -/
def switchParts (family : Family) (argument : String) (cases : List (String × List Part)) : List Part :=
  match family with
  | .unix => Shell.caseParts argument cases
  | .windows => Batch.switchParts argument cases

theorem isBlank_append_of_right {a b : String} (h : Text.isBlank b = false) : Text.isBlank (a ++ b) = false := by
  rw [Text.isBlank_append, h, Bool.and_false]

theorem isBlank_append_of_left {a b : String} (h : Text.isBlank a = false) : Text.isBlank (a ++ b) = false := by
  rw [Text.isBlank_append, h, Bool.false_and]

variable {argument : String} {cases : List (String × List Part)}

theorem notBlank_map_indent {ps : List Part} (h : ∀ p ∈ ps, p.NotBlank) : ∀ p ∈ ps.map Part.indent, p.NotBlank := by
  intro p hp
  obtain ⟨q, hq, rfl⟩ := List.mem_map.1 hp
  exact notBlank_indent.2 (h q hq)

theorem Shell.notBlank_caseParts (h : ∀ c ∈ cases, ∀ p ∈ c.2, p.NotBlank) :
    ∀ p ∈ Shell.caseParts argument cases, p.NotBlank := by
  have hcase : Text.isBlank "case " = false := by decide
  have hparen : Text.isBlank ")" = false := by decide
  have harm : ∀ c ∈ cases, ∀ p ∈ Shell.armParts c.1 c.2, p.NotBlank := by
    intro c hc p hp
    simp only [Shell.armParts, List.cons_append, List.mem_cons, List.mem_append, List.not_mem_nil, or_false] at hp
    rcases hp with rfl | hp | rfl
    · exact isBlank_append_of_right hparen
    · exact notBlank_map_indent (h c hc) p hp
    · exact (by decide : Text.isBlank ";;" = false)
  intro p hp
  simp only [Shell.caseParts, List.cons_append, List.mem_cons, List.mem_append, List.mem_flatMap, List.not_mem_nil,
    or_false] at hp
  rcases hp with rfl | ⟨c, hc, hp⟩ | rfl
  · exact isBlank_append_of_left (isBlank_append_of_left hcase)
  · exact harm c hc p hp
  · exact (by decide : Text.isBlank "esac" = false)

theorem Batch.notBlank_switchParts (h : ∀ c ∈ cases, ∀ p ∈ c.2, p.NotBlank) :
    ∀ p ∈ Batch.switchParts argument cases, p.NotBlank := by
  have hparen : Text.isBlank "(" = false := by decide
  have hset : Text.isBlank "set " = false := by decide
  have hgoto : Text.isBlank "goto " = false := by decide
  have hgotoCase : Text.isBlank ("goto " ++ caseLabelStart) = false := by decide
  have hif : Text.isBlank "if " = false := by decide
  have hcolon : Text.isBlank ":" = false := by decide
  have hdispatch : ∀ p ∈ dispatchParts argument (cases.map Prod.fst), p.NotBlank := by
    intro p hp
    unfold dispatchParts at hp
    split at hp
    · rw [List.mem_singleton.1 hp]
      exact isBlank_append_of_left hgotoCase
    · obtain ⟨value, -, rfl⟩ := List.mem_map.1 hp
      exact isBlank_append_of_left (isBlank_append_of_left (isBlank_append_of_left hif))
  have hcase : ∀ c ∈ cases, ∀ p ∈ Batch.caseParts c.1 c.2, p.NotBlank := by
    intro c hc p hp
    simp only [Batch.caseParts, List.cons_append, List.mem_cons, List.mem_append, List.not_mem_nil, or_false] at hp
    rcases hp with rfl | hp | rfl
    · exact isBlank_append_of_left hcolon
    · exact notBlank_map_indent (h c hc) p hp
    · exact (by decide : Text.isBlank ("GOTO " ++ endLabel) = false)
  intro p hp
  simp only [Batch.switchParts, guardBlock, blocks, List.cons_append, List.nil_append, List.mem_cons, List.mem_append,
    List.mem_flatMap, List.not_mem_nil, or_false] at hp
  rcases hp with rfl | rfl | rfl | rfl | hp | ⟨c, hc, hp⟩ | rfl
  · exact isBlank_append_of_right hparen
  · exact isBlank_append_of_left (isBlank_append_of_left (isBlank_append_of_left (isBlank_append_of_left
      (isBlank_append_of_left hset))))
  · exact isBlank_append_of_left hgoto
  · exact (by decide : Text.isBlank ")" = false)
  · exact hdispatch p hp
  · exact hcase c hc p hp
  · exact isBlank_append_of_left hcolon

theorem Shell.allLines_caseParts (h : ∀ c ∈ cases, ∀ p ∈ c.2, p.NotBlank) :
    allLines (Shell.caseParts argument cases)
      = Shell.caseBlock argument (cases.map fun c => (c.1, allLines c.2)) := by
  have harms : allLines (cases.flatMap fun c => Shell.armParts c.1 c.2)
      = (cases.map fun c => (c.1, allLines c.2)).flatMap fun c => Shell.arm c.1 c.2 := by
    induction cases with
    | nil => rfl
    | cons c cs ih =>
      rw [List.flatMap_cons, List.map_cons, List.flatMap_cons, allLines_append,
        ih fun d hd => h d (List.mem_cons_of_mem _ hd)]
      simp [Shell.armParts, Shell.arm, lines, indentation, allLines_indent (h c List.mem_cons_self)]
  simp [Shell.caseParts, Shell.caseBlock, lines, indentation, harms]

theorem Batch.allLines_dispatchParts (values : List String) :
    allLines (dispatchParts argument values) = dispatch argument values := by
  have hbranches : allLines (values.map (branch argument))
      = values.map fun value => .code ("if " ++ comparison argument value ++ " goto " ++ caseLabel value) := by
    simp only [allLines, List.flatMap_map, branch, lines, indentation, String.empty_append]
    exact List.map_eq_flatMap.symm
  unfold dispatchParts dispatch
  split
  · rfl
  · exact hbranches

theorem Batch.allLines_switchParts (h : ∀ c ∈ cases, ∀ p ∈ c.2, p.NotBlank) :
    allLines (Batch.switchParts argument cases)
      = Batch.switch argument (cases.map fun c => (c.1, allLines c.2)) := by
  have hblocks : allLines (cases.flatMap fun c => Batch.caseParts c.1 c.2)
      = (cases.map fun c => (c.1, allLines c.2)).flatMap fun c => Batch.caseBlock c.1 c.2 := by
    induction cases with
    | nil => rfl
    | cons c cs ih =>
      rw [List.flatMap_cons, List.map_cons, List.flatMap_cons, allLines_append,
        ih fun d hd => h d (List.mem_cons_of_mem _ hd)]
      simp [Batch.caseParts, Batch.caseBlock, lines, indentation, String.append_assoc,
        allLines_indent (h c List.mem_cons_self)]
  have hvalues : (cases.map fun c => (c.1, allLines c.2)).map Prod.fst = cases.map Prod.fst := by simp
  simp [Batch.switchParts, Batch.switch, hvalues, guard, guardBlock, blocks, complaint, lines, indentation, hblocks,
    allLines_dispatchParts, String.append_assoc]

theorem notBlank_switchParts {family : Family} (h : ∀ c ∈ cases, ∀ p ∈ c.2, p.NotBlank) :
    ∀ p ∈ switchParts family argument cases, p.NotBlank := by
  cases family with
  | unix => exact Shell.notBlank_caseParts h
  | windows => exact Batch.notBlank_switchParts h

theorem allLines_switchParts {family : Family} (h : ∀ c ∈ cases, ∀ p ∈ c.2, p.NotBlank) :
    allLines (switchParts family argument cases)
      = switchLines family argument (cases.map fun c => (c.1, allLines c.2)) := by
  cases family with
  | unix => exact Shell.allLines_caseParts h
  | windows => exact Batch.allLines_switchParts h

/-! ## Trees -/

namespace Statement

/-- The lines of a statement that renders, none for one that does not. -/
def written (family : Family) (s : Statement) : List Line :=
  match s.lines family with
  | .ok ls => ls
  | .error _ => []

theorem lines_eq_written {family : Family} {s : Statement} {ls : List Line} (h : s.lines family = .ok ls) :
    s.lines family = .ok (s.written family) := by
  rw [written, h]

/-- Statements that render one after another render each on its own. -/
theorem linesList_eq_written {family : Family} {body : List Statement} {ls : List Line}
    (h : linesList family body = .ok ls) : ∀ s ∈ body, s.lines family = .ok (s.written family) := by
  obtain ⟨owns, howns, -⟩ := linesList_eq_ok_iff.1 h
  clear h
  induction howns with
  | nil => exact fun s hs => absurd hs List.not_mem_nil
  | cons hfirst _ ih =>
    intro s hs
    rcases List.mem_cons.1 hs with rfl | hs
    · exact lines_eq_written hfirst
    · exact ih s hs

/-- The lines of statements one after another are the lines of each. -/
theorem mem_linesList_iff {family : Family} {body : List Statement} {ls : List Line}
    (h : linesList family body = .ok ls) {l : Line} : l ∈ ls ↔ ∃ s ∈ body, l ∈ s.written family := by
  obtain ⟨owns, howns, rfl⟩ := linesList_eq_ok_iff.1 h
  clear h
  induction howns with
  | nil => simp
  | cons hfirst _ ih => rw [List.flatten_cons, List.mem_append, ih, List.exists_mem_cons_iff, written, hfirst]

theorem any_congr_of_mem {α : Type} {p q : α → Bool} {xs : List α} (h : ∀ x ∈ xs, p x = q x) : xs.any p = xs.any q := by
  rw [Bool.eq_iff_iff, List.any_eq_true, List.any_eq_true]
  exact exists_congr fun x => and_congr_right fun hx => by rw [h x hx]

/-- A line of statements one after another passes a test where a line of one of them does. -/
theorem any_linesList {family : Family} {body : List Statement} {ls : List Line} (h : linesList family body = .ok ls)
    (test : Line → Bool) : ls.any test = body.any fun s => (s.written family).any test := by
  rw [Bool.eq_iff_iff, List.any_eq_true, List.any_eq_true]
  simp only [mem_linesList_iff h, List.any_eq_true]
  constructor
  · rintro ⟨l, ⟨s, hs, hl⟩, hpass⟩
    exact ⟨s, hs, l, hl, hpass⟩
  · rintro ⟨s, hs, l, hl, hpass⟩
    exact ⟨l, ⟨s, hs, hl⟩, hpass⟩

/-- A list renders if each of its statements does. -/
theorem linesList_of_forall {family : Family} {body : List Statement} (h : ∀ s ∈ body, ∃ ls, s.lines family = .ok ls) :
    linesList family body = .ok (body.map (written family)).flatten := by
  refine linesList_eq_ok_iff.2 ⟨_, ?_, rfl⟩
  rw [List.forall₂_map_right_iff, List.forall₂_same]
  intro s hs
  obtain ⟨ls, hls⟩ := h s hs
  exact lines_eq_written hls

/-- The cases of a switch render if each of them does. -/
theorem linesCases_of_forall {family : Family} {cases : List (String × Statement)}
    (h : ∀ c ∈ cases, ∃ ls, c.2.lines family = .ok ls) :
    linesCases family cases = .ok (cases.map fun c => (c.1, c.2.written family)) := by
  rw [linesCases_eq_ok_iff, List.forall₂_map_right_iff, List.forall₂_same]
  intro c hc
  obtain ⟨ls, hls⟩ := h c hc
  exact ⟨rfl, lines_eq_written hls⟩

/-- The cases of a switch that renders render each on its own. -/
theorem linesCases_eq_written {family : Family} {cases : List (String × Statement)} {ws : List (String × List Line)}
    (h : linesCases family cases = .ok ws) :
    (∀ c ∈ cases, c.2.lines family = .ok (c.2.written family)) ∧ ws = cases.map fun c => (c.1, c.2.written family) := by
  rw [linesCases_eq_ok_iff] at h
  induction h with
  | nil => exact ⟨fun c hc => absurd hc List.not_mem_nil, rfl⟩
  | cons hc _ ih =>
    obtain ⟨hlines, hws⟩ := ih
    refine ⟨?_, ?_⟩
    · intro d hd
      rcases List.mem_cons.1 hd with rfl | hd
      · exact lines_eq_written hc.2
      · exact hlines d hd
    · rw [List.map_cons, ← hws, written, hc.2, ← hc.1]

mutual

/-- The parts of a statement that renders. -/
def parts (family : Family) : Statement → List Part
  | list body => partsList family body
  | switchArg index cases => switchParts family ((family.argumentRef? index).getD "") (partsCases family cases)
  | s => [.leaf s (s.written family)]
  termination_by structural s => s

def partsList (family : Family) : List Statement → List Part
  | [] => []
  | s :: ss => s.parts family ++ partsList family ss
  termination_by structural ss => ss

def partsCases (family : Family) : List (String × Statement) → List (String × List Part)
  | [] => []
  | (value, s) :: cs => (value, s.parts family) :: partsCases family cs
  termination_by structural cs => cs

end

theorem parts_of_isLeaf {s : Statement} (h : s.isLeaf = true) (family : Family) :
    s.parts family = [.leaf s (s.written family)] := by
  cases s <;> first | rfl | cases h

theorem parts_list_cons (family : Family) (s : Statement) (ss : List Statement) :
    (list (s :: ss)).parts family = s.parts family ++ (list ss).parts family := rfl

theorem partsList_eq_flatMap (family : Family) (body : List Statement) :
    partsList family body = body.flatMap (parts family) := by
  induction body with
  | nil => rfl
  | cons s ss ih => rw [partsList, ih, List.flatMap_cons]

theorem partsCases_eq_map (family : Family) (cases : List (String × Statement)) :
    partsCases family cases = cases.map fun c => (c.1, c.2.parts family) := by
  induction cases with
  | nil => rfl
  | cons c cs ih => rw [partsCases, ih, List.map_cons]

theorem notBlank_parts (family : Family) (s : Statement) : ∀ p ∈ s.parts family, p.NotBlank := by
  induction s using Statement.induction with
  | leaf s hleaf =>
    intro p hp
    rw [parts_of_isLeaf hleaf, List.mem_singleton] at hp
    rw [hp]
    trivial
  | list body ih =>
    intro p hp
    rw [parts, partsList_eq_flatMap, List.mem_flatMap] at hp
    obtain ⟨s, hs, hp⟩ := hp
    exact ih s hs p hp
  | switchArg index cases ih =>
    rw [parts, partsCases_eq_map]
    refine notBlank_switchParts fun c hc => ?_
    obtain ⟨d, hd, rfl⟩ := List.mem_map.1 hc
    exact ih d hd

/-- The parts of a statement, written out, are its lines. -/
theorem allLines_parts {family : Family} {s : Statement} {ls : List Line} (h : s.lines family = .ok ls) :
    allLines (s.parts family) = ls := by
  induction s using induction_cons generalizing ls with
  | leaf s hleaf =>
    rw [parts_of_isLeaf hleaf]
    simp [Part.lines, written, h]
  | nil =>
    cases h
    rfl
  | cons s ss ihs ihss =>
    obtain ⟨first, rest, hfirst, hrest, rfl⟩ := lines_list_cons_eq_ok_iff.1 h
    rw [parts_list_cons, allLines_append, ihs hfirst, ihss hrest]
  | switchArg index cases ih =>
    obtain ⟨argument, ws, hargument, hws, rfl⟩ := lines_switchArg_eq_ok_iff.1 h
    obtain ⟨hlines, rfl⟩ := linesCases_eq_written hws
    have hbodies : (partsCases family cases).map (fun c => (c.1, allLines c.2))
        = cases.map fun c => (c.1, c.2.written family) := by
      rw [partsCases_eq_map, List.map_map]
      exact List.map_congr_left fun c hc => by rw [Function.comp_apply, ih c hc (hlines c hc)]
    have hnotBlank : ∀ c ∈ partsCases family cases, ∀ p ∈ c.2, p.NotBlank := by
      intro c hc
      rw [partsCases_eq_map] at hc
      obtain ⟨d, -, rfl⟩ := List.mem_map.1 hc
      exact notBlank_parts family d.2
    rw [parts, hargument, Option.getD_some, allLines_switchParts hnotBlank, hbodies]

end Statement
end Scriptwright
