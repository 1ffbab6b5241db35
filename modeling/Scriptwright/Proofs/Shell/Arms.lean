/-
The `case` block of a switch, read back: its arms in order, each with the value
of its label and the lines of its body, up to the word that ends the block. The
blocks of switches inside a body are passed over whole; the lines of a leaf are
its own business and not looked into. A tree is read back as it was written
exactly when no value in it is the word that ends a block (`arms?_parts`), since
a value of letters is written bare (`arms_read_iff`).
-/
import Mathlib.Logic.Function.Iterate
import Scriptwright.Proofs.Shell.Course
import Scriptwright.Proofs.Shell.Label
import Scriptwright.Proofs.Statement.Nodes

namespace Scriptwright.Shell

open Scriptwright.Part Statement

/-! ## Reading a block -/

/-- Where the reader of a block stands, and how many blocks inside it are open there. -/
inductive Place where
  | body (depth : Nat)
  /-- Where an arm may start. -/
  | label (depth : Nat)

/-- What was read up to the end of a block. -/
structure Reading where
  /-- What was left of the arm in which the reader stood. -/
  body : List Part
  /-- The arms after it. -/
  arms : List (String × List Part)
  /-- What follows the block. -/
  rest : List Part

namespace Reading

/-- The reading from some parts of a body on. -/
def keep (ps : List Part) (r : Reading) : Reading :=
  { r with body := ps ++ r.body }

/-- The reading from the label of an arm on; an arm of a block inside belongs to the body around it. -/
def enter (value : String) (p : Part) : Nat → Reading → Reading
  | 0, r => { r with body := [], arms := (value, r.body) :: r.arms }
  | _ + 1, r => r.keep [p]

/-- The reading from the end of an arm on. -/
def leave (p : Part) : Nat → Reading → Reading
  | 0, r => r
  | _ + 1, r => r.keep [p]

end Reading

/-- What the line of a part says where an arm may start. -/
def headingOf? : Part → Option Heading
  | .own depth text | .arm depth _ text => heading? (indentation depth ++ text)
  | .leaf .. => none

/-- The arms of a block, up to its end. -/
def arms? : Place → List Part → Option Reading
  | _, [] => none
  | .body depth, .leaf s ls :: rest => (arms? (.body depth) rest).map (.keep [.leaf s ls])
  | .body depth, .own indent text :: rest =>
    match read (indentation indent ++ text) with
    | .choice _ => (arms? (.label (depth + 1)) rest).map (.keep [.own indent text])
    | .endArm => (arms? (.label depth) rest).map (.leave (.own indent text) depth)
    | _ => none
  | .body _, .arm .. :: _ => none
  | .label depth, p :: rest =>
    match headingOf? p with
    | some (.label value) => (arms? (.body depth) rest).map (.enter value p depth)
    | some .close =>
      match depth with
      | 0 => some ⟨[], [], rest⟩
      | depth + 1 => (arms? (.body depth) rest).map (.keep [p])
    | none => none

/-- The block at the start of a script: the number of the argument that it is on, the label and the lines of
each arm, and what follows the block. -/
def block? : List Part → Option (Nat × List (String × List Line) × List Part)
  | .own depth text :: rest =>
    match read (indentation depth ++ text) with
    | .choice index =>
      (arms? (.label 0) rest).map fun r => (index, r.arms.map fun a => (a.1, allLines a.2), r.rest)
    | _ => none
  | _ => none

/-- The arm that is run for an argument: the first whose label it is. -/
def selected? (argument : String) (arms : List (String × List Line)) : Option Nat :=
  arms.findIdx? fun a => a.1 == argument

/-! ## What a tree holds -/

/-- The values of the cases of a switch. -/
def caseValues : Statement → List String
  | .switchArg _ cases => cases.map Prod.fst
  | _ => []

/-- The values of all cases in a tree. -/
def values (s : Statement) : List String :=
  s.nodes.flatMap caseValues

/-- Whether no case in a tree is for the word that ends a block. -/
def plain (s : Statement) : Bool :=
  !(values s).contains "esac"

theorem plain_eq_true_iff {s : Statement} : plain s = true ↔ "esac" ∉ values s := by
  simp [plain]

theorem plain_of_isLeaf {s : Statement} (h : s.isLeaf = true) : plain s = true := by
  rw [plain, values, nodes_of_isLeaf h]
  cases s <;> first | rfl | cases h

theorem plain_list_cons (s : Statement) (ss : List Statement) :
    plain (.list (s :: ss)) = (plain s && plain (.list ss)) := by
  simp [plain, values, nodes, nodesList, caseValues]

theorem plain_switchArg (index : Nat) (cases : List (String × Statement)) :
    plain (.switchArg index cases) = cases.all fun c => c.1 != "esac" && plain c.2 := by
  have hvalues : values (.switchArg index cases) = cases.map Prod.fst ++ cases.flatMap fun c => values c.2 := by
    simp only [values, nodes, nodesCases_eq_flatMap, List.flatMap_cons, caseValues, List.flatMap_assoc]
  rw [Bool.eq_iff_iff, plain_eq_true_iff, hvalues]
  simp only [List.mem_append, List.mem_map, List.mem_flatMap, List.all_eq_true, Bool.and_eq_true, bne_iff_ne,
    plain_eq_true_iff, not_or, not_exists, not_and, ne_eq]
  exact ⟨fun h c hc => ⟨h.1 c hc, h.2 c hc⟩, fun h => ⟨fun c hc => (h c hc).1, fun c hc => (h c hc).2⟩⟩

/-! ## Parts moved right -/

/-- A part of the layout keeps all but its depth. -/
theorem indent_iterate (place : Nat → Part) (h : ∀ depth, (place depth).indent = place (depth + 1)) (k depth : Nat) :
    Part.indent^[k] (place depth) = place (depth + k) := by
  induction k generalizing depth with
  | zero => rfl
  | succ k ih => rw [Function.iterate_succ_apply, h, ih, Nat.add_assoc, Nat.add_comm 1]

theorem indent_iterate_own (k depth : Nat) (text : String) :
    Part.indent^[k] (.own depth text) = .own (depth + k) text :=
  indent_iterate (.own · text) (fun _ => rfl) k depth

theorem indent_iterate_arm (k depth : Nat) (value text : String) :
    Part.indent^[k] (.arm depth value text) = .arm (depth + k) value text :=
  indent_iterate (.arm · value text) (fun _ => rfl) k depth

theorem indent_iterate_leaf (k : Nat) (s : Statement) (ls : List Line) :
    Part.indent^[k] (.leaf s ls) = .leaf s (Line.indent^[k] ls) := by
  induction k generalizing ls with
  | zero => rfl
  | succ k ih => rw [Function.iterate_succ_apply, Part.indent, ih, Function.iterate_succ_apply]

/-- The parts of a statement in a script, moved right some steps. -/
def shifted (k : Nat) (s : Statement) : List Part :=
  (s.parts .unix).map Part.indent^[k]

/-- The parts of an arm, moved right some steps. -/
def shiftedArm (k : Nat) (c : String × Statement) : List Part :=
  .arm k c.1 (pattern c.1 ++ ")") :: shifted (k + 1) c.2 ++ [.own (k + 1) ";;"]

theorem shifted_list_cons (k : Nat) (s : Statement) (ss : List Statement) :
    shifted k (.list (s :: ss)) = shifted k s ++ shifted k (.list ss) := by
  rw [shifted, parts_list_cons, List.map_append]
  rfl

theorem map_armParts (k : Nat) (c : String × Statement) :
    (armParts c.1 (c.2.parts .unix)).map Part.indent^[k] = shiftedArm k c := by
  simp only [armParts, shiftedArm, shifted, List.cons_append, List.map_cons, List.map_append, List.map_map,
    List.map_nil, indent_iterate_arm, indent_iterate_own, Nat.zero_add, Nat.add_comm 1]
  rfl

theorem shifted_switchArg {index : Nat} {argument : String} (h : Family.unix.argumentRef? index = some argument)
    (k : Nat) (cases : List (String × Statement)) : shifted k (.switchArg index cases)
      = .own k ("case " ++ argument ++ " in") :: cases.flatMap (shiftedArm k) ++ [.own k "esac"] := by
  have harms : (cases.flatMap fun c => armParts c.1 (c.2.parts .unix)).map Part.indent^[k]
      = cases.flatMap (shiftedArm k) := by
    rw [List.map_flatMap]
    simp only [map_armParts]
  simp only [shifted, parts, switchParts, h, Option.getD_some, caseParts, partsCases_eq_map, List.flatMap_map,
    List.cons_append, List.map_cons, List.map_append, List.map_nil, harms, indent_iterate_own, Nat.zero_add]

/-! ## Arms -/

namespace Reading

theorem keep_nil : keep [] = id := rfl

theorem keep_keep (ps qs : List Part) (r : Reading) : (r.keep qs).keep ps = r.keep (ps ++ qs) := by
  simp [keep]

/-- The reading from an arm on, when so many blocks are open. -/
def arm (k depth : Nat) (c : String × Statement) (r : Reading) : Reading :=
  (((r.leave (.own (k + 1) ";;") depth).keep (shifted (k + 1) c.2)).enter c.1 (.arm k c.1 (pattern c.1 ++ ")")) depth)

/-- The arms of a block inside belong to the body around it. -/
theorem foldr_arm_succ (k depth : Nat) (cases : List (String × Statement)) (r : Reading) :
    cases.foldr (arm k (depth + 1)) r = r.keep (cases.flatMap (shiftedArm k)) := by
  induction cases with
  | nil => rfl
  | cons c cs ih => simp [ih, arm, leave, enter, keep, shiftedArm]

/-- The arms of the block itself are told apart. -/
theorem foldr_arm_zero (k : Nat) (cases : List (String × Statement)) (rest : List Part) :
    cases.foldr (arm k 0) ⟨[], [], rest⟩ = ⟨[], cases.map fun c => (c.1, shifted (k + 1) c.2), rest⟩ := by
  induction cases with
  | nil => rfl
  | cons c cs ih => simp [ih, arm, leave, enter, keep]

end Reading

theorem headingOf?_arm (k : Nat) (value : String) :
    headingOf? (.arm k value (pattern value ++ ")")) = if value = "esac" then none else some (.label value) := by
  rw [headingOf?, heading?_indentation, heading?_pattern]

theorem headingOf?_close (k : Nat) : headingOf? (.own k "esac") = some .close := by
  rw [headingOf?, heading?_indentation]
  decide

theorem arms?_label {p : Part} {value : String} (h : headingOf? p = some (.label value)) (depth : Nat)
    (rest : List Part) : arms? (.label depth) (p :: rest) = (arms? (.body depth) rest).map (.enter value p depth) := by
  cases depth <;> simp only [arms?, h]

/-- An arm is read as such if its value is not the word that ends a block and its body is read whole. -/
theorem arms?_arm {c : String × Statement} {k depth : Nat} {rest : List Part}
    (hbody : ∀ rest, arms? (.body depth) (shifted (k + 1) c.2 ++ rest)
      = if plain c.2 then (arms? (.body depth) rest).map (.keep (shifted (k + 1) c.2)) else none) :
    arms? (.label depth) (shiftedArm k c ++ rest)
      = if c.1 != "esac" && plain c.2 then (arms? (.label depth) rest).map (.arm k depth c) else none := by
  by_cases hvalue : c.1 = "esac"
  · simp [shiftedArm, arms?, headingOf?_arm, hvalue]
  · have hend : arms? (.body depth) (.own (k + 1) ";;" :: rest)
        = (arms? (.label depth) rest).map (.leave (.own (k + 1) ";;") depth) := by
      simp only [arms?, read_indentation, read_endArm]
    have hne : (c.1 != "esac") = true := bne_iff_ne.2 hvalue
    rw [shiftedArm, List.cons_append, List.cons_append, arms?_label (by rw [headingOf?_arm, if_neg hvalue]),
      List.append_assoc, hbody, List.singleton_append, hend, hne, Bool.true_and]
    split
    · rw [Option.map_map, Option.map_map]
      rfl
    · rfl

theorem arms?_arms {cases : List (String × Statement)} {k depth : Nat} {rest : List Part}
    (hbody : ∀ c ∈ cases, ∀ rest, arms? (.body depth) (shifted (k + 1) c.2 ++ rest)
      = if plain c.2 then (arms? (.body depth) rest).map (.keep (shifted (k + 1) c.2)) else none) :
    arms? (.label depth) (cases.flatMap (shiftedArm k) ++ rest)
      = if cases.all fun c => c.1 != "esac" && plain c.2 then
          (arms? (.label depth) rest).map fun r => cases.foldr (.arm k depth) r
        else none := by
  induction cases with
  | nil => simp
  | cons c cs ih =>
    rw [List.flatMap_cons, List.append_assoc, arms?_arm (hbody c List.mem_cons_self),
      ih fun d hd => hbody d (List.mem_cons_of_mem _ hd), List.all_cons]
    cases c.1 != "esac" && plain c.2 with
    | false => simp
    | true =>
      simp only [Bool.true_and, if_true]
      split
      · rw [Option.map_map]
        rfl
      · rfl

/-! ## Trees -/

/-- In a body a tree is passed over whole, unless a switch in it has a case for the word that ends a block. -/
theorem arms?_parts (s : Statement) (k depth : Nat) (rest : List Part) :
    arms? (.body depth) (shifted k s ++ rest)
      = if plain s then (arms? (.body depth) rest).map (.keep (shifted k s)) else none := by
  induction s using induction_cons generalizing k depth rest with
  | leaf s hleaf =>
    have hshape : shifted k s = [.leaf s (Line.indent^[k] (s.written .unix))] := by
      rw [shifted, parts_of_isLeaf hleaf, List.map_singleton, indent_iterate_leaf]
    rw [plain_of_isLeaf hleaf, if_pos rfl, hshape, List.singleton_append, arms?]
  | nil =>
    have hplain : plain (.list []) = true := by decide
    simp [shifted, parts, partsList, hplain, Reading.keep_nil]
  | cons s ss ihs ihss =>
    rw [shifted_list_cons, List.append_assoc, ihs, ihss, plain_list_cons]
    cases plain s with
    | false => simp
    | true =>
      simp only [Bool.true_and, if_true]
      split
      · rw [Option.map_map]
        congr 1
        funext r
        exact Reading.keep_keep _ _ r
      · rfl
  | switchArg index cases ih =>
    obtain ⟨argument, hargument⟩ := Option.isSome_iff_exists.1 (Family.argumentRef?_unix_isSome index)
    have hclose : arms? (.label (depth + 1)) (.own k "esac" :: rest)
        = (arms? (.body depth) rest).map (.keep [.own k "esac"]) := by
      simp only [arms?, headingOf?_close]
    rw [shifted_switchArg hargument, List.cons_append, List.cons_append, arms?, read_indentation, read_case hargument,
      List.append_assoc, List.singleton_append]
    simp only [arms?_arms fun c hc => ih c hc (k + 1) (depth + 1), hclose, plain_switchArg]
    split
    · simp only [Option.map_map]
      congr 1
      funext r
      simp only [Function.comp_apply, Reading.foldr_arm_succ, Reading.keep_keep, List.cons_append, List.nil_append]
    · rfl

/-! ## The block of a switch -/

/-- What the block of a switch is read as. -/
theorem block?_parts (index : Nat) (cases : List (String × Statement)) (rest : List Part) :
    block? ((Statement.switchArg index cases).parts .unix ++ rest)
      = if plain (.switchArg index cases) then
          some (index, cases.map fun c => (c.1, Line.indent (allLines (c.2.parts .unix))), rest)
        else none := by
  obtain ⟨argument, hargument⟩ := Option.isSome_iff_exists.1 (Family.argumentRef?_unix_isSome index)
  have hshape : (Statement.switchArg index cases).parts .unix
      = .own 0 ("case " ++ argument ++ " in") :: cases.flatMap (shiftedArm 0) ++ [.own 0 "esac"] := by
    rw [← shifted_switchArg hargument, shifted, Function.iterate_zero, List.map_id]
  have hclose : arms? (.label 0) (.own 0 "esac" :: rest) = some ⟨[], [], rest⟩ := by
    simp only [arms?, headingOf?_close]
  have hlines : ∀ c : String × Statement, allLines (shifted 1 c.2) = Line.indent (allLines (c.2.parts .unix)) :=
    fun c => allLines_indent (notBlank_parts .unix c.2)
  rw [hshape, List.cons_append, List.cons_append, List.append_assoc, List.singleton_append, block?, read_indentation,
    read_case hargument]
  simp only [arms?_arms fun c _ => arms?_parts c.2 1 0, hclose, plain_switchArg, Option.map_some,
    Reading.foldr_arm_zero]
  split
  · rw [Option.map_some, List.map_map]
    simp only [Function.comp_def, hlines]
  · rfl

/-- Among arms for different values the arm of a value is selected by that value alone. -/
theorem selected?_eq_some_iff {arms : List (String × List Line)} (hn : (arms.map Prod.fst).Nodup) (argument : String)
    (i : Nat) (hi : i < arms.length) : selected? argument arms = some i ↔ argument = arms[i].1 := by
  simp only [selected?, List.findIdx?_eq_some_iff_getElem, beq_iff_eq]
  constructor
  · rintro ⟨_, he, -⟩
    exact he.symm
  · intro he
    refine ⟨hi, he.symm, fun j hj hsame => ?_⟩
    have hi' : i < (arms.map Prod.fst).length := by rwa [List.length_map]
    have hj' : j < (arms.map Prod.fst).length := by omega
    have hji : (arms.map Prod.fst)[j] = (arms.map Prod.fst)[i] := by
      rw [List.getElem_map, List.getElem_map, ← he, hsame]
    exact absurd ((List.Nodup.getElem_inj_iff hn).1 hji) (by omega)

theorem selected?_eq_none_iff {arms : List (String × List Line)} {argument : String} :
    selected? argument arms = none ↔ argument ∉ arms.map Prod.fst := by
  simp only [selected?, List.findIdx?_eq_none_iff, beq_eq_false_iff_ne, List.mem_map, not_exists, not_and]

/-- A shell reads the block of a switch back as it was meant, if and only if no case in it is for the bare word that
ends a block; else it reads no block at all. The arms are those of the cases, in order, each with the lines of its
case and no others, and for every argument the arm of the case of that value is run, or none. -/
theorem arms_read_iff {index : Nat} {cases : List (String × Statement)} {s : Statement} {ls : List Line}
    (hs : makeSwitch index cases = .ok s) (hl : s.lines .unix = .ok ls) (rest : List Part) :
    let arms := cases.map fun c => (c.1, Line.indent (c.2.written .unix))
    ls = allLines (s.parts .unix) ∧
      (block? (s.parts .unix ++ rest) = some (index, arms, rest) ↔ "esac" ∉ values s) ∧
      (block? (s.parts .unix ++ rest) = none ↔ "esac" ∈ values s) ∧
      ∀ argument,
        (∀ i (hi : i < cases.length), selected? argument arms = some i ↔ argument = cases[i].1) ∧
        (selected? argument arms = none ↔ argument ∉ cases.map Prod.fst) := by
  intro arms
  obtain ⟨rfl, -, -, -, hkeys⟩ := makeSwitch_eq_ok_iff.1 hs
  obtain ⟨argument, ws, -, hws, -⟩ := lines_switchArg_eq_ok_iff.1 hl
  have hbodies : (cases.map fun c => (c.1, Line.indent (allLines (c.2.parts .unix)))) = arms :=
    List.map_congr_left fun c hc => by rw [allLines_parts ((linesCases_eq_written hws).1 c hc)]
  have hnames : arms.map Prod.fst = cases.map Prod.fst := by simp [arms]
  have hdistinct : (arms.map Prod.fst).Nodup := by
    rw [hnames]
    refine List.Nodup.of_map caseKey ?_
    rwa [List.map_map]
  have hread := block?_parts index cases rest
  rw [hbodies] at hread
  refine ⟨(allLines_parts hl).symm, ?_, ?_, fun argument => ⟨fun i hi => ?_, ?_⟩⟩
  · rw [hread, ← plain_eq_true_iff]
    cases plain (.switchArg index cases) <;> simp
  · rw [hread, ← not_iff_not, ← plain_eq_true_iff]
    cases plain (.switchArg index cases) <;> simp
  · rw [selected?_eq_some_iff hdistinct argument i (by simpa [arms] using hi)]
    simp [arms]
  · rw [selected?_eq_none_iff, hnames]

/-- A quote and a star in the values of a switch are read as themselves. -/
theorem arms_read_of_quote :
    let cases := [("it\x27s", leaveWith 0), ("*", leaveWith 1)]
    block? ((Statement.switchArg 1 cases).parts .unix)
      = some (1, cases.map (fun c => (c.1, Line.indent (c.2.written .unix))), []) := by
  intro cases
  have hs : makeSwitch 1 cases = .ok (.switchArg 1 cases) := by decide
  obtain ⟨ls, hl⟩ : ∃ ls, (Statement.switchArg 1 cases).lines .unix = .ok ls := by
    simp [cases, leaveWith, Statement.lines, linesCases, Family.argumentRef?, bind, Except.bind, pure, Except.pure]
  have hread := (arms_read_iff hs hl []).2.1.2 (by decide)
  rwa [List.append_nil] at hread

/-- The value that is the word at the end of a block passes the constructor, is written bare, and leaves a block
that a shell does not read. -/
theorem bare_end_word_unread :
    let s := Statement.switchArg 1 [("esac", .interpret "echo x")]
    makeSwitch 1 [("esac", .interpret "echo x")] = .ok s ∧
      s.lines .unix = .ok [.code "case $1 in", .code "esac)", .code "   echo x", .code "   ;;", .code "esac"] ∧
      block? (s.parts .unix) = none := by
  refine ⟨by decide, by decide, by rfl⟩

end Scriptwright.Shell
