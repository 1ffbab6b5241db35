/-
The labels of a whole batch file: those of the statements, that of the handler
and those of the functions with what their bodies write. In every script that
can be reached and that renders no two of them are the same, and every jump of
the layout goes to exactly one (`labels_unique`).
-/
import Mathlib.Data.List.Perm.Basic
import Scriptwright.Proofs.Script.Parts
import Scriptwright.Proofs.Script.Reachable
import Scriptwright.Proofs.Statement.Labels

namespace Scriptwright.Script

open Scriptwright.Part Statement

/-- The labels of a script, in the order of the file. -/
def labels (script : Script) : List String :=
  labelsList script.statements ++ Batch.abortLabel :: script.functions.flatMap fun f => f.1 :: f.2.labels

/-- The switches of a script, in its statements and its functions. -/
def switches (script : Script) : List (Nat × List String) :=
  switchesList script.statements ++ switchesCases script.functions

theorem labels_partsList (body : List Statement) : Batch.labels (partsList .windows body) = labelsList body := by
  have hlist := Statement.labels_parts (.list body)
  rwa [Statement.parts, Statement.labels] at hlist

theorem labels_functionParts (name : String) (s : Statement) :
    Batch.labels (functionParts .windows name (s.parts .windows)) = name :: s.labels := by
  have hexit : Batch.labels [.own 1 "exit /b 0"] = [] := by decide
  rw [functionParts, Batch.labels_cons_of_some (Batch.partLabel?_colon 0 name), Batch.labels_append,
    Batch.labels_map_indent, Statement.labels_parts, hexit, List.append_nil]

/-- The label lines of the layout of a script are its labels. -/
theorem labels_parts (script : Script) : Batch.labels (script.parts .windows) = script.labels := by
  have hecho : Batch.partLabel? (.own 0 "@echo off") = none := by decide
  have hexit : Batch.partLabel? (.own 0 "exit /b 0") = none := by decide
  have hhandler : Batch.labels handlerParts = [Batch.abortLabel] := by decide
  have hexports : labelsList script.exportStatements = [] := by
    rw [labelsList_eq_flatMap, exportStatements, List.flatMap_map]
    simp [Statement.labels]
  have hfunctions : Batch.labels (functionsParts .windows script.functions)
      = script.functions.flatMap fun f => f.1 :: f.2.labels := by
    rw [functionsParts]
    induction script.functions with
    | nil => rfl
    | cons f functions ih => rw [List.flatMap_cons, Batch.labels_append, labels_functionParts, ih, List.flatMap_cons]
  rw [parts, Batch.labels_cons_of_none hecho, Batch.labels_append, mainParts, Batch.labels_append, labels_partsList,
    labels_partsList, hexports, Batch.labels_cons_of_none hexit, Batch.labels_append, hhandler, hfunctions, labels]
  rfl

/-! ## Reserved names -/

theorem isReserved_congr {a b : String} (h : labelKey a = labelKey b) : isReserved a = isReserved b := by
  have htake : ∀ n, labelKey (String.ofList (a.toList.take n)) = labelKey (String.ofList (b.toList.take n)) := by
    intro n
    have hlist := congrArg String.toList h
    simp only [labelKey, Text.toList_lowerAscii] at hlist
    apply String.toList_injective
    simp only [labelKey, Text.toList_lowerAscii, String.toList_ofList, List.map_take, hlist]
  simp only [isReserved, sameLabel, h, htake]

theorem isReserved_caseLabel (value : String) : isReserved (Batch.caseLabel value) = true := by
  have htake : (Batch.caseLabel value).toList.take caseLabelStart.length = caseLabelStart.toList := by
    rw [Batch.caseLabel, String.toList_append]
    exact List.take_left
  simp [isReserved, htake, sameLabel]

/-- Every label that statements write is reserved. -/
theorem isReserved_of_mem_labels {s : Statement} {label : String} (h : label ∈ s.labels) :
    isReserved label = true ∧ labelKey label ≠ labelKey Batch.abortLabel := by
  have habort : ∀ value, labelKey (Batch.caseLabel value) ≠ labelKey Batch.abortLabel := by
    intro value he
    have hlist := congrArg String.toList he
    rw [Batch.labelKey_caseLabel, String.toList_append] at hlist
    exact absurd (List.cons.inj hlist).1 (by decide)
  induction s using Statement.induction with
  | leaf s hleaf =>
    rw [labels_of_isLeaf hleaf] at h
    cases h
  | list body ih =>
    rw [Statement.labels, labelsList_eq_flatMap, List.mem_flatMap] at h
    obtain ⟨s, hs, h⟩ := h
    exact ih s hs h
  | switchArg index cases ih =>
    rw [Statement.labels, labelsCases_eq_flatMap, List.mem_append, List.mem_flatMap, List.mem_singleton] at h
    rcases h with ⟨c, hc, h⟩ | rfl
    · rcases List.mem_cons.1 h with rfl | h
      · exact ⟨isReserved_caseLabel c.1, habort c.1⟩
      · exact ih c hc h
    · exact ⟨by decide, by decide⟩

/-! ## No label twice -/

/-- All statements of a script as one list, its functions' bodies last. -/
def whole (script : Script) : Statement :=
  .list (script.statements ++ script.functions.map Prod.snd)

theorem labels_whole (script : Script) :
    script.whole.labels = labelsList script.statements ++ script.functions.flatMap fun f => f.2.labels := by
  rw [whole, Statement.labels, labelsList_eq_flatMap, List.flatMap_append, labelsList_eq_flatMap, List.flatMap_map]

theorem switchCount_whole (script : Script) : script.whole.switchCount = script.switchCount := by
  have hfunctions : switchCountCases script.functions = switchCountList (script.functions.map Prod.snd) := by
    induction script.functions with
    | nil => rfl
    | cons f functions ih => rw [switchCountCases, ih, List.map_cons, switchCountList]
  rw [whole, Statement.switchCount, switchCountList_append, Script.switchCount, hfunctions, Nat.add_comm]

theorem Valid.made_whole {script : Script} (h : script.Valid) : script.whole.Made := by
  refine Made.list fun s hs => ?_
  rcases List.mem_append.1 hs with hs | hs
  · exact h.statements s hs
  · obtain ⟨f, hf, rfl⟩ := List.mem_map.1 hs
    exact h.bodies f hf

/-- No two labels of a valid script of one switch at most are the same. -/
theorem Valid.nodup_labels {script : Script} (h : script.Valid) (hcount : script.switchCount ≤ 1) :
    (script.labels.map labelKey).Nodup := by
  have hperm : script.labels.Perm
      (script.whole.labels ++ Batch.abortLabel :: script.functions.map Prod.fst) := by
    have hsplit := (List.map_append_flatMap_perm script.functions Prod.fst fun f => f.2.labels).symm
    have hcomm : (Batch.abortLabel :: (script.functions.map Prod.fst ++ script.functions.flatMap fun f => f.2.labels)).Perm
        ((script.functions.flatMap fun f => f.2.labels) ++ Batch.abortLabel :: script.functions.map Prod.fst) := by
      rw [← List.cons_append]
      exact List.perm_append_comm
    rw [labels, labels_whole, List.append_assoc]
    exact List.Perm.append_left _ ((hsplit.cons Batch.abortLabel).trans hcomm)
  have hwhole := Statement.nodup_labels h.made_whole (switchCount_whole script ▸ hcount)
  have hreserved : ∀ label ∈ script.whole.labels, isReserved label = true ∧ labelKey label ≠ labelKey Batch.abortLabel :=
    fun label hlabel => isReserved_of_mem_labels hlabel
  rw [(hperm.map labelKey).nodup_iff, List.map_append, List.map_cons, List.nodup_append, List.nodup_cons]
  have hnames : labelKey Batch.abortLabel ∉ (script.functions.map Prod.fst).map labelKey := by
    simp only [List.mem_map, not_exists, not_and]
    rintro name ⟨f, hf, rfl⟩ he
    have := isReserved_congr he
    rw [(h.named f hf).2] at this
    exact absurd this (by decide)
  refine ⟨hwhole, ⟨hnames, by rw [List.map_map]; exact h.distinct⟩, ?_⟩
  intro key hkey other hother he
  obtain ⟨label, hlabel, rfl⟩ := List.mem_map.1 hkey
  rcases List.mem_cons.1 hother with rfl | hother
  · exact (hreserved label hlabel).2 he
  · simp only [List.mem_map] at hother
    obtain ⟨name, ⟨f, hf, rfl⟩, rfl⟩ := hother
    have := isReserved_congr he
    rw [(hreserved label hlabel).1, (h.named f hf).2] at this
    cases this

/-! ## Jumps -/

variable {script : Script} {args : Nat → String} {depth : Nat} {line name : String}

theorem target_of_mem_functionParts {f : String × Statement} (hm : f.2.Made)
    (hl : f.2.lines .windows = .ok (f.2.written .windows)) (ha : ∀ n, isQuoteUnsafe (args n) = false)
    (hp : Part.own depth line ∈ functionParts .windows f.1 (f.2.parts .windows))
    (ht : (Batch.read args line).target? = some name) : Aims args f.2.labels f.2.switches line name := by
  simp only [functionParts, List.mem_cons, List.mem_append, List.not_mem_nil, or_false] at hp
  rcases hp with hp | hp | hp
  · cases hp; rw [Batch.target?_label] at ht; cases ht
  · obtain ⟨depth', hp⟩ := own_mem_of_mem_indent hp
    exact target_of_mem_parts hm hl ha hp ht
  · cases hp; rw [Batch.read_exit (.inl rfl)] at ht; cases ht

theorem target_of_mem_mainParts (hv : script.Valid)
    (hl : ∀ s ∈ script.statements, s.lines .windows = .ok (s.written .windows))
    (ha : ∀ n, isQuoteUnsafe (args n) = false) (hp : Part.own depth line ∈ script.mainParts .windows)
    (ht : (Batch.read args line).target? = some name) :
    Aims args (labelsList script.statements) (switchesList script.statements) line name := by
  rw [mainParts, List.mem_append, partsList_eq_flatMap, partsList_eq_flatMap, List.mem_flatMap, List.mem_flatMap] at hp
  rcases hp with ⟨s, hs, hp⟩ | ⟨s, hs, hp⟩
  · obtain ⟨e, -, rfl⟩ := List.mem_map.1 hs
    rw [parts_of_isLeaf rfl, List.mem_singleton] at hp
    cases hp
  · refine (target_of_mem_parts (hv.statements s hs) (hl s hs) ha hp ht).mono ?_ ?_
    · intro label hlabel
      rw [labelsList_eq_flatMap]
      exact List.mem_flatMap.2 ⟨s, hs, hlabel⟩
    · intro choice hchoice
      rw [switchesList_eq_flatMap]
      exact List.mem_flatMap.2 ⟨s, hs, hchoice⟩

/-- Each jump of the layout of a script goes where it should. -/
theorem target_of_mem_parts (hv : script.Valid) {text : String} (h : script.render .windows = .ok text)
    (ha : ∀ n, isQuoteUnsafe (args n) = false) (hp : Part.own depth line ∈ script.parts .windows)
    (ht : (Batch.read args line).target? = some name) : Aims args script.labels script.switches line name := by
  obtain ⟨hstatements, hfunctions⟩ := lines_of_render h
  rw [parts, List.mem_cons, List.mem_append, List.mem_cons, List.mem_append] at hp
  rcases hp with hp | hp | hp | hp | hp
  · cases hp; rw [Batch.read_echo_off] at ht; cases ht
  · refine (target_of_mem_mainParts hv hstatements ha hp ht).mono ?_ ?_
    · exact fun label hlabel => List.mem_append_left _ hlabel
    · exact fun choice hchoice => List.mem_append_left _ hchoice
  · cases hp; rw [Batch.read_exit (.inl rfl)] at ht; cases ht
  · simp only [handlerParts, List.mem_cons, List.not_mem_nil, or_false] at hp
    rcases hp with hp | hp | hp
    · cases hp; rw [Batch.target?_label] at ht; cases ht
    · cases hp; rw [Batch.read_aborting] at ht; cases ht
    · cases hp; rw [Batch.read_exit (.inr rfl)] at ht; cases ht
  · obtain ⟨f, hf, hp⟩ := List.mem_flatMap.1 hp
    refine (target_of_mem_functionParts (hv.bodies f hf) (hfunctions f hf) ha hp ht).mono ?_ ?_
    · intro label hlabel
      refine List.mem_append_right _ (List.mem_cons_of_mem _ (List.mem_flatMap.2 ⟨f, hf, ?_⟩))
      exact List.mem_cons_of_mem _ hlabel
    · intro choice hchoice
      rw [switches, switchesCases_eq_flatMap]
      exact List.mem_append_right _ (List.mem_flatMap.2 ⟨f, hf, hchoice⟩)

/-- In every script that operations lead to and that renders for a batch file, refused operations included, the
label lines of the layout are those of the handler, the functions and the cases of the switches and the one behind
them; no two are the same without regard to case, the last is there once at most, and every jump of the layout
names exactly one of them. Only the single jump by the text of an argument names none, when the argument is no
value of the switch. -/
theorem labels_unique {ops : List Operation} {text : String} (hops : ∀ op ∈ ops, op.Made)
    (h : (after ops).render .windows = .ok text) :
    let script := after ops
    let file := script.parts .windows
    text = Line.join .windows (allLines file) ∧
      Batch.labels file = script.labels ∧
      ((Batch.labels file).map labelKey).Nodup ∧
      (Batch.labels file).countP (sameLabel Batch.endLabel) ≤ 1 ∧
      ∀ args : Nat → String, (∀ n, isQuoteUnsafe (args n) = false) →
        ∀ depth line, Part.own depth line ∈ file → ∀ name, (Batch.read args line).target? = some name →
          (Batch.labels file).countP (sameLabel name) = 1 ∨
            ∃ choice ∈ script.switches, args choice.1 ∉ choice.2 ∧
              line = "goto " ++ caseLabelStart ++ "%" ++ toString choice.1 ∧
              name = caseLabelStart ++ args choice.1 := by
  intro script file
  obtain ⟨htext, hcount⟩ := text_of_render h
  have hvalid : script.Valid := valid_after ops hops
  have hnodup : ((Batch.labels file).map labelKey).Nodup := by
    rw [labels_parts]
    exact hvalid.nodup_labels (by simp only [true_and, Nat.not_lt] at hcount; exact hcount)
  refine ⟨htext, labels_parts script, hnodup, Batch.countP_sameLabel_le_one hnodup _, ?_⟩
  intro args ha depth line hp name ht
  have habort : Batch.abortLabel ∈ script.labels := List.mem_append_right _ List.mem_cons_self
  rw [labels_parts] at hnodup ⊢
  rcases target_of_mem_parts hvalid h ha hp ht with rfl | hname | hchoice
  · exact .inl (Batch.countP_sameLabel_of_mem hnodup habort)
  · exact .inl (Batch.countP_sameLabel_of_mem hnodup hname)
  · exact .inr hchoice

/-- A script with a function and a switch in its statements, where defining the function a second time is
refused. -/
theorem labels_unique_of_switch :
    let body := Statement.switchArg 1 [("up", .leave "0"), ("stop all", .leave "1")]
    let ops := [Operation.defineFunction "greet" (.exec "hello" false),
      Operation.defineFunction "GREET" (.exec "bye" false), Operation.addStatement body]
    ((Batch.labels ((after ops).parts .windows)).map labelKey).Nodup := by
  intro body ops
  have hleave : ∀ code ∈ ["0", "1"], Made (.leave code) := by
    intro code hcode
    have hok : makeLeave code = .ok (.leave code) := by
      simp only [List.mem_cons, List.not_mem_nil, or_false] at hcode
      rcases hcode with rfl | rfl <;> decide
    exact Made.leave hok
  have hswitch : makeSwitch 1 [("up", .leave "0"), ("stop all", .leave "1")] = .ok body := by decide
  have hbody : body.Made := by
    refine Made.switchArg (fun c hc => ?_) hswitch
    simp only [List.mem_cons, List.not_mem_nil, or_false] at hc
    rcases hc with rfl | rfl
    · exact hleave "0" (by decide)
    · exact hleave "1" (by decide)
  have hops : ∀ op ∈ ops, op.Made := by
    intro op hop
    simp only [ops, List.mem_cons, List.not_mem_nil, or_false] at hop
    rcases hop with rfl | rfl | rfl
    · exact Made.exec _ _
    · exact Made.exec _ _
    · exact hbody
  obtain ⟨text, htext⟩ : ∃ text, (after ops).render .windows = .ok text := exists_ok_of_isOk (by decide)
  exact (labels_unique hops htext).2.2.1

end Scriptwright.Script
