/-
A shell script follows the course of its statements: it meets the leaves of a
tree in order and enters the arm of a value or none (`run_parts`), and it skips
the bodies of the functions that it defines (`run_functionsParts`).
-/
import Scriptwright.Proofs.Shell.Flow

namespace Scriptwright.Shell

open Scriptwright.Part Statement

variable {args : Nat → String} {rest : List Part}

/-! ## Leaves -/

/-- Leaves are met one after another. -/
theorem run_leaves {lines : Statement → List Line} {ts : List Statement}
    (hlines : ∀ t, ((lines t).all fun l => Text.isBlank l.text) = (t.written .unix).all fun l => Text.isBlank l.text)
    (hk : ∀ t ∈ ts, t.kind ≠ .leave) :
    run args .running (ts.map (fun t => .leaf t (lines t)) ++ rest)
      = (run args .running rest).map (ts.filter (writes .unix) ++ ·) := by
  induction ts with
  | nil =>
    cases h : run args .running rest with
    | none => simp [h]
    | some seen => simp [h]
  | cons t ts ih =>
    rw [List.map_cons, List.cons_append, run, if_neg (hk t List.mem_cons_self),
      ih fun u hu => hk u (List.mem_cons_of_mem _ hu), hlines, List.filter_cons, writes, Option.map_map]
    congr 1
    funext seen
    cases (t.written .unix).all fun l => Text.isBlank l.text <;> rfl

theorem run_passing_leaves {lines : Statement → List Line} (ts : List Statement) (wanted : Option String) (depth : Nat) :
    run args (.passing wanted depth) (ts.map (fun t => .leaf t (lines t)) ++ rest)
      = run args (.passing wanted depth) rest := by
  induction ts with
  | nil => rfl
  | cons t ts ih => rw [List.map_cons, List.cons_append, run, ih]

/-! ## Arms -/

theorem read_endArm : read ";;" = .endArm := by decide

theorem read_endChoice : read "esac" = .endChoice := by decide

/-- The body of an arm whose tree holds no switch. -/
theorem indent_parts {s : Statement} (hc : s.switchCount = 0) (args : Nat → String) : (s.parts .unix).map Part.indent
    = (s.course .unix args).steps.map fun t => .leaf t (Line.indent (t.written .unix)) := by
  rw [(parts_of_switchCount_eq_zero hc .unix .unix args).2, List.map_map]
  rfl

/-- An arm is passed over unless it is the one that is looked for. -/
theorem run_passing_arm {c : String × Statement} {wanted : Option String} (hc : c.2.switchCount = 0)
    (hw : wanted ≠ some c.1) : run args (.passing wanted 0) (armParts c.1 (c.2.parts .unix) ++ rest)
      = run args (.passing wanted 0) rest := by
  rw [armParts, List.cons_append, List.cons_append, run, if_neg fun h => hw h.2, indent_parts hc args, List.append_assoc,
    run_passing_leaves, List.singleton_append, run]
  simp only [read_indentation, read_endArm]

theorem run_passing_arms {cases : List (String × Statement)} {wanted : Option String} (hc : ∀ c ∈ cases, c.2.switchCount = 0)
    (hw : ∀ c ∈ cases, wanted ≠ some c.1) :
    run args (.passing wanted 0) (cases.flatMap (fun c => armParts c.1 (c.2.parts .unix)) ++ .own 0 "esac" :: rest)
      = run args .running rest := by
  induction cases with
  | nil =>
    rw [List.flatMap_nil, List.nil_append, run]
    simp only [read_indentation, read_endChoice]
  | cons c cs ih =>
    rw [List.flatMap_cons, List.append_assoc, run_passing_arm (hc c List.mem_cons_self) (hw c List.mem_cons_self),
      ih (fun d hd => hc d (List.mem_cons_of_mem _ hd)) fun d hd => hw d (List.mem_cons_of_mem _ hd)]

/-- Of the arms of a `case` block the first for the value is run, or none. -/
theorem run_arms {cases : List (String × Statement)} {value : String} (hc : ∀ c ∈ cases, c.2.switchCount = 0)
    (hr : ∀ c ∈ cases, c.2.returns = false) :
    run args (.passing (some value) 0)
        (cases.flatMap (fun c => armParts c.1 (c.2.parts .unix)) ++ .own 0 "esac" :: rest)
      = (run args .running rest).map ((courseCases .unix args value cases).steps.filter (writes .unix) ++ ·) := by
  induction cases with
  | nil =>
    rw [List.flatMap_nil, List.nil_append, run]
    simp only [read_indentation, read_endChoice, courseCases]
    cases run args .running rest <;> rfl
  | cons c cs ih =>
    rw [List.flatMap_cons, List.append_assoc, courseCases]
    by_cases hv : c.1 = value
    · have hkind : ∀ t ∈ (c.2.course .unix args).steps, t.kind ≠ .leave := fun t ht =>
        kind_of_mem_steps (hr c List.mem_cons_self) ht
      have hothers : run args (.passing none 0)
          (cs.flatMap (fun c => armParts c.1 (c.2.parts .unix)) ++ .own 0 "esac" :: rest) = run args .running rest :=
        run_passing_arms (fun d hd => hc d (List.mem_cons_of_mem c hd)) fun d _ he => by cases he
      rw [if_pos hv, armParts, List.cons_append, List.cons_append, run, if_pos ⟨rfl, by rw [hv]⟩,
        indent_parts (hc c List.mem_cons_self) args, List.append_assoc,
        run_leaves (fun t => all_isBlank_indent _) hkind, List.singleton_append, run]
      simp only [read_indentation, read_endArm]
      rw [hothers]
    · have hw : some value ≠ some c.1 := fun he => hv (Option.some.inj he).symm
      rw [if_neg hv, run_passing_arm (hc c List.mem_cons_self) hw,
        ih (fun d hd => hc d (List.mem_cons_of_mem _ hd)) fun d hd => hr d (List.mem_cons_of_mem _ hd)]

/-! ## Trees -/

/-- From the parts of a tree on, a shell script meets the leaves of the course of the tree and goes on. -/
theorem run_parts {s : Statement} {ls : List Line} (hl : s.lines .unix = .ok ls) (hr : s.returns = false)
    (hc : s.switchCount ≤ 1) : run args .running (s.parts .unix ++ rest)
      = (run args .running rest).map ((s.course .unix args).steps.filter (writes .unix) ++ ·) := by
  induction s using induction_cons generalizing ls rest with
  | leaf s hleaf =>
    have hkind : ∀ t ∈ (s.course .unix args).steps, t.kind ≠ .leave := fun t ht => kind_of_mem_steps hr ht
    rw [course_of_isLeaf hleaf] at hkind ⊢
    rw [parts_of_isLeaf hleaf]
    exact run_leaves (fun _ => rfl) hkind
  | nil =>
    rw [parts, partsList, course, courseList, List.nil_append]
    cases run args .running rest <;> rfl
  | cons s ss ihs ihss =>
    obtain ⟨first, others, hfirst, hothers, -⟩ := lines_list_cons_eq_ok_iff.1 hl
    rw [returns_list_cons, Bool.or_eq_false_iff] at hr
    rw [switchCount_list_cons] at hc
    rw [parts_list_cons, List.append_assoc, ihs hfirst hr.1 (by omega), ihss hothers hr.2 (by omega),
      course_list_cons, Course.andThen, if_pos (goesOn_unix s), Option.map_map, List.filter_append]
    congr 1
    funext seen
    rw [Function.comp_apply, List.append_assoc]
  | switchArg index cases ih =>
    obtain ⟨argument, ws, hargument, -, -⟩ := lines_switchArg_eq_ok_iff.1 hl
    rw [switchCount] at hc
    have hshape : (Statement.switchArg index cases).parts .unix ++ rest = .own 0 ("case " ++ argument ++ " in") ::
        (cases.flatMap (fun c => armParts c.1 (c.2.parts .unix)) ++ .own 0 "esac" :: rest) := by
      simp [parts, switchParts, hargument, caseParts, partsCases_eq_map, List.flatMap_map]
    rw [hshape, run, course]
    simp only [read_indentation, read_case hargument]
    exact run_arms (fun c hmem => switchCount_eq_zero_of_mem (by omega) hmem) fun c hmem => returns_of_mem hr hmem

/-! ## Functions -/

section

variable {depth : Nat} {text : String}

theorem run_other (h : read text = .other) : run args .running (.own depth text :: rest) = run args .running rest := by
  simp only [run, read_indentation, h]

theorem run_function (h : read text = .function) :
    run args .running (.own depth text :: rest) = run args .defining rest := by
  simp only [run, read_indentation, h]

theorem run_endFunction (h : read text = .endFunction) :
    run args .defining (.own depth text :: rest) = run args .running rest := by
  simp only [run, read_indentation, h]

theorem run_defining_own (h : read text ≠ .endFunction) :
    run args .defining (.own depth text :: rest) = run args .defining rest := by
  simp only [run, read_indentation]

theorem run_leave (h : read text = .leave) : run args .running (.own depth text :: rest) = some [] := by
  simp only [run, read_indentation, h]

end

/-- What holds no line that closes a function is skipped inside one. -/
theorem run_defining {ps : List Part} (h : ∀ depth text, Part.own depth text ∈ ps → read text ≠ .endFunction) :
    run args .defining (ps ++ rest) = run args .defining rest := by
  induction ps with
  | nil => rfl
  | cons p ps ih =>
    have ih := ih fun depth text hp => h depth text (List.mem_cons_of_mem _ hp)
    cases p with
    | own depth text => rw [List.cons_append, run_defining_own (h depth text List.mem_cons_self), ih]
    | arm depth value text => exact ih
    | leaf s ls => exact ih

/-- No line that a tree writes around its leaves closes a function. -/
theorem read_of_mem_parts {s : Statement} {ls : List Line} {depth : Nat} {text : String} (hl : s.lines .unix = .ok ls)
    (hp : Part.own depth text ∈ s.parts .unix) : read text ≠ .endFunction := by
  induction s using Statement.induction generalizing ls depth with
  | leaf s hleaf =>
    rw [parts_of_isLeaf hleaf, List.mem_singleton] at hp
    cases hp
  | list body ih =>
    rw [Statement.lines] at hl
    rw [parts, partsList_eq_flatMap, List.mem_flatMap] at hp
    obtain ⟨s, hs, hp⟩ := hp
    exact ih s hs (linesList_eq_written hl s hs) hp
  | switchArg index cases ih =>
    obtain ⟨argument, ws, hargument, hws, -⟩ := lines_switchArg_eq_ok_iff.1 hl
    obtain ⟨hlines, -⟩ := linesCases_eq_written hws
    simp only [parts, switchParts, hargument, Option.getD_some, caseParts, partsCases_eq_map, List.flatMap_map,
      List.cons_append, List.mem_cons, List.mem_append, List.mem_flatMap, List.not_mem_nil, or_false] at hp
    rcases hp with hp | ⟨c, hc, hp⟩ | hp
    · cases hp
      rw [read_case hargument]
      exact fun he => by cases he
    · simp only [armParts, List.cons_append, List.mem_cons, List.mem_append, List.not_mem_nil, or_false] at hp
      rcases hp with hp | hp | hp
      · cases hp
      · obtain ⟨depth', hp⟩ := own_mem_of_mem_indent hp
        exact ih c hc (hlines c hc) hp
      · cases hp
        rw [read_endArm]
        decide
    · cases hp
      rw [read_endChoice]
      decide

theorem read_function (name : String) : read ("function " ++ name ++ " \x7b") = .function := by
  have hcs : ("function " ++ name ++ " \x7b").toList = 'f' :: ("unction ".toList ++ (name.toList ++ " \x7b".toList)) := by
    simp
  have hstart : "function ".toList.isPrefixOf ('f' :: ("unction ".toList ++ (name.toList ++ " \x7b".toList))) = true :=
    List.isPrefixOf_iff_prefix.2 (List.prefix_append "function ".toList _)
  rw [read, hcs, List.dropWhile_cons_of_neg (by decide)]
  simp only [hstart]
  simp

/-- A function that is defined is not run. -/
theorem run_functionParts {name : String} {s : Statement} {ls : List Line} (hl : s.lines .unix = .ok ls) :
    run args .running (Script.functionParts .unix name (s.parts .unix) ++ rest) = run args .running rest := by
  have hbody : ∀ depth text, Part.own depth text ∈ (s.parts .unix).map Part.indent → read text ≠ .endFunction := by
    intro depth text hp
    obtain ⟨depth', hp⟩ := own_mem_of_mem_indent hp
    exact read_of_mem_parts hl hp
  have hreturn : read "return 0" ≠ .endFunction := by decide
  have hclose : read "\x7d" = .endFunction := by decide
  rw [Script.functionParts, List.cons_append, run_function (read_function name), List.append_assoc, run_defining hbody,
    List.cons_append, run_defining_own hreturn, List.singleton_append, run_endFunction hclose]

theorem run_functionsParts {functions : List (String × Statement)}
    (hl : ∀ f ∈ functions, f.2.lines .unix = .ok (f.2.written .unix)) :
    run args .running (Script.functionsParts .unix functions ++ rest) = run args .running rest := by
  rw [Script.functionsParts]
  induction functions with
  | nil => rfl
  | cons f functions ih =>
    rw [List.flatMap_cons, List.append_assoc, run_functionParts (hl f List.mem_cons_self),
      ih fun g hg => hl g (List.mem_cons_of_mem _ hg)]

/-- The layout before the functions of a script leads to them. -/
theorem run_headerParts : run args .running (Script.headerParts ++ rest) = run args .running rest := by
  have hother : ∀ text ∈ ["#!/bin/bash", "set +u", "shopt -s xpg_echo", "shopt -s expand_aliases"],
      read text = .other := by decide
  have habort : ∀ text ∈ ["echo \"aborting: $@\" 1>&2", "exit 1"], read text ≠ .endFunction := by decide
  have hfunction : read ("function " ++ Batch.abortLabel ++ " \x7b") = .function := read_function _
  have hclose : read "\x7d" = .endFunction := by decide
  simp only [List.forall_mem_cons] at hother habort
  obtain ⟨hbang, hset, hecho, haliases, -⟩ := hother
  obtain ⟨haborting, hexit, -⟩ := habort
  simp only [Script.headerParts, List.cons_append, List.nil_append]
  rw [run_other hbang, run_other hset, run_other hecho, run_other haliases, run_function hfunction,
    run_defining_own haborting, run_defining_own hexit, run_endFunction hclose]

end Scriptwright.Shell
