/-
The labels and jumps that a tree writes into a batch file. Only switches write
any, and all switches would share the label behind their cases; so a tree of
one switch at most writes no label twice (`Statement.nodup_labels`), and each
jump goes to a label of its own switch or to the handler
(`Statement.target_of_mem_parts`).
-/
import Scriptwright.Proofs.Batch.Switch
import Scriptwright.Script

namespace Scriptwright

open Scriptwright.Part

namespace Statement

mutual

/-- The labels that a statement writes, in order. -/
def labels : Statement → List String
  | list body => labelsList body
  | switchArg _ cases => labelsCases cases ++ [Batch.endLabel]
  | _ => []
  termination_by structural s => s

def labelsList : List Statement → List String
  | [] => []
  | s :: ss => s.labels ++ labelsList ss
  termination_by structural ss => ss

def labelsCases : List (String × Statement) → List String
  | [] => []
  | (value, s) :: cs => Batch.caseLabel value :: (s.labels ++ labelsCases cs)
  termination_by structural cs => cs

end

mutual

/-- The switches of a statement: the number of the argument, and the values that have a case. -/
def switches : Statement → List (Nat × List String)
  | list body => switchesList body
  | switchArg index cases => (index, cases.map Prod.fst) :: switchesCases cases
  | _ => []
  termination_by structural s => s

def switchesList : List Statement → List (Nat × List String)
  | [] => []
  | s :: ss => s.switches ++ switchesList ss
  termination_by structural ss => ss

def switchesCases : List (String × Statement) → List (Nat × List String)
  | [] => []
  | (_, s) :: cs => s.switches ++ switchesCases cs
  termination_by structural cs => cs

end

theorem labelsList_eq_flatMap (body : List Statement) : labelsList body = body.flatMap labels := by
  induction body with
  | nil => rfl
  | cons s ss ih => rw [labelsList, ih, List.flatMap_cons]

theorem labelsCases_eq_flatMap (cases : List (String × Statement)) :
    labelsCases cases = cases.flatMap fun c => Batch.caseLabel c.1 :: c.2.labels := by
  induction cases with
  | nil => rfl
  | cons c cs ih => rw [labelsCases, ih, List.flatMap_cons, List.cons_append]

theorem switchesList_eq_flatMap (body : List Statement) : switchesList body = body.flatMap switches := by
  induction body with
  | nil => rfl
  | cons s ss ih => rw [switchesList, ih, List.flatMap_cons]

theorem switchesCases_eq_flatMap (cases : List (String × Statement)) :
    switchesCases cases = cases.flatMap fun c => c.2.switches := by
  induction cases with
  | nil => rfl
  | cons c cs ih => rw [switchesCases, ih, List.flatMap_cons]

theorem labels_list_cons (s : Statement) (ss : List Statement) :
    (list (s :: ss)).labels = s.labels ++ (list ss).labels := rfl

theorem switches_list_cons (s : Statement) (ss : List Statement) :
    (list (s :: ss)).switches = s.switches ++ (list ss).switches := rfl

theorem labels_of_isLeaf {s : Statement} (h : s.isLeaf = true) : s.labels = [] := by
  cases s <;> first | rfl | cases h

/-- The label lines among the parts of a statement are its labels. -/
theorem labels_parts (s : Statement) : Batch.labels (s.parts .windows) = s.labels := by
  induction s using induction_cons with
  | leaf s hleaf =>
    rw [parts_of_isLeaf hleaf, labels_of_isLeaf hleaf]
    rfl
  | nil => rfl
  | cons s ss ihs ihss => rw [parts_list_cons, Batch.labels_append, ihs, ihss, labels_list_cons]
  | switchArg index cases ih =>
    rw [parts, switchParts, Batch.labels_switchParts, partsCases_eq_map, List.flatMap_map, labels,
      labelsCases_eq_flatMap]
    congr 1
    exact List.flatMap_congr fun c hc => by rw [ih c hc]

/-! ## No label twice -/

/-- What only switches have, a tree without switches has not. -/
theorem eq_nil_of_switchCount {α : Type} {found : Statement → List α} (leaf : ∀ s, s.isLeaf = true → found s = [])
    (nil : found (list []) = []) (cons : ∀ s ss, found (list (s :: ss)) = found s ++ found (list ss)) {s : Statement}
    (h : s.switchCount = 0) : found s = [] := by
  induction s using induction_cons with
  | leaf s hleaf => exact leaf s hleaf
  | nil => exact nil
  | cons s ss ihs ihss =>
    rw [switchCount_list_cons] at h
    rw [cons, ihs (by omega), ihss (by omega), List.append_nil]
  | switchArg index cases ih =>
    rw [switchCount] at h
    omega

theorem labels_eq_nil {s : Statement} (h : s.switchCount = 0) : s.labels = [] :=
  eq_nil_of_switchCount (fun _ => labels_of_isLeaf) rfl labels_list_cons h

theorem labelsCases_eq_map {cases : List (String × Statement)} (h : switchCountCases cases = 0) :
    labelsCases cases = cases.map fun c => Batch.caseLabel c.1 := by
  induction cases with
  | nil => rfl
  | cons c cs ih =>
    rw [switchCountCases] at h
    rw [labelsCases, labels_eq_nil (by omega), ih (by omega)]
    rfl

/-- A tree of one switch at most writes no label twice. -/
theorem nodup_labels {s : Statement} (hm : s.Made) (h : s.switchCount ≤ 1) : (s.labels.map labelKey).Nodup := by
  induction s using induction_cons with
  | leaf s hleaf =>
    rw [labels_of_isLeaf hleaf]
    exact List.nodup_nil
  | nil => exact List.nodup_nil
  | cons s ss ihs ihss =>
    obtain ⟨hs, hss⟩ := hm.of_list_cons
    rw [switchCount_list_cons] at h
    rw [labels_list_cons]
    -- one of the two sides holds no switch
    by_cases h0 : s.switchCount = 0
    · rw [labels_eq_nil h0, List.nil_append]
      exact ihss hss (by omega)
    · rw [labels_eq_nil (by omega : (list ss).switchCount = 0), List.append_nil]
      exact ihs hs (by omega)
  | switchArg index cases ih =>
    obtain ⟨-, -, -, hkeys, -⟩ := hm.sound
    rw [switchCount] at h
    have hvalues : ((cases.map Prod.fst).map caseKey).Nodup := by
      rw [List.map_map]
      exact hkeys
    have hnodup := Batch.nodup_switchLabels hvalues
    rw [labels, labelsCases_eq_map (by omega)]
    rwa [List.map_map] at hnodup

/-! ## Jumps -/

/-- Where a line of a switch may send the reader: to the handler, to a label of the tree, or, in one jump by the
text of the argument, to a label that is not there because the argument is no value. -/
def Aims (args : Nat → String) (names : List String) (choices : List (Nat × List String)) (text name : String) : Prop :=
  name = Batch.abortLabel ∨ name ∈ names ∨ ∃ choice ∈ choices, args choice.1 ∉ choice.2 ∧
    text = "goto " ++ caseLabelStart ++ "%" ++ toString choice.1 ∧ name = caseLabelStart ++ args choice.1

variable {args : Nat → String}

theorem Aims.mono {names names' : List String} {choices choices' : List (Nat × List String)} {text name : String}
    (h : Aims args names choices text name) (hn : ∀ name ∈ names, name ∈ names')
    (hc : ∀ choice ∈ choices, choice ∈ choices') : Aims args names' choices' text name := by
  rcases h with h | h | ⟨choice, hchoice, h⟩
  · exact .inl h
  · exact .inr (.inl (hn name h))
  · exact .inr (.inr ⟨choice, hc choice hchoice, h⟩)

theorem target?_guard (left : String) (values : List String) :
    (values.foldr (fun value next => Batch.Command.test false left value next) .opening).target? = none := by
  induction values with
  | nil => rfl
  | cons value values ih => exact ih

/-- Indentation changes no text of the layout. -/
theorem own_mem_of_mem_indent {ps : List Part} {depth : Nat} {text : String}
    (h : Part.own depth text ∈ ps.map Part.indent) : ∃ depth', Part.own depth' text ∈ ps := by
  obtain ⟨p, hp, he⟩ := List.mem_map.1 h
  cases p with
  | own d t => cases he; exact ⟨d, hp⟩
  | arm d v t => cases he
  | leaf s ls => cases he

theorem target_of_mem_dispatchParts {index depth : Nat} {values : List String} {text name : String}
    (hi : Family.windows.argumentRef? index = some ("%" ++ toString index)) (ha : '\x22' ∉ (args index).toList)
    (hv : ∀ value ∈ values, '\x22' ∉ value.toList)
    (hp : Part.own depth text ∈ Batch.dispatchParts ("%" ++ toString index) values)
    (ht : (Batch.read args text).target? = some name) :
    Aims args (values.map Batch.caseLabel) [(index, values)] text name := by
  unfold Batch.dispatchParts at hp
  split at hp
  · next hall =>
    cases List.mem_singleton.1 hp
    rw [Batch.read_goto_argument hi] at ht
    obtain rfl := Option.some.inj ht
    by_cases hm : args index ∈ values
    · have hsafe : isLabelSafe (args index) = true := List.all_eq_true.1 hall _ hm
      have hlabel : Batch.caseLabel (args index) = caseLabelStart ++ args index := by
        rw [Batch.caseLabel, labelOf_of_isLabelSafe hsafe]
      exact .inr (.inl (hlabel ▸ List.mem_map_of_mem hm))
    · refine .inr (.inr ⟨_, List.mem_singleton.2 rfl, hm, ?_, rfl⟩)
      simp [String.append_assoc]
  · obtain ⟨value, hvalue, he⟩ := List.mem_map.1 hp
    cases he
    rw [Batch.read_branch hi ha (hv value hvalue)] at ht
    obtain rfl := Option.some.inj ht
    exact .inr (.inl (List.mem_map_of_mem hvalue))

/-- Each jump that a switch writes goes where it should, if those of its cases do. -/
theorem target_of_mem_switchParts {index depth : Nat} {bodies : List (String × List Part)} {text name : String}
    {names : List String} {choices : List (Nat × List String)}
    (hi : Family.windows.argumentRef? index = some ("%" ++ toString index)) (ha : '\x22' ∉ (args index).toList)
    (hv : ∀ value ∈ bodies.map Prod.fst, '\x22' ∉ value.toList)
    (hnames : ∀ value ∈ bodies.map Prod.fst, Batch.caseLabel value ∈ names) (hend : Batch.endLabel ∈ names)
    (hchoices : (index, bodies.map Prod.fst) ∈ choices)
    (hbodies : ∀ c ∈ bodies, ∀ depth', Part.own depth' text ∈ c.2 → Aims args names choices text name)
    (hp : Part.own depth text ∈ Batch.switchParts ("%" ++ toString index) bodies)
    (ht : (Batch.read args text).target? = some name) : Aims args names choices text name := by
  rw [Batch.switchParts, List.mem_cons, List.mem_append, List.mem_append] at hp
  rcases hp with hp | hp | hp | hp
  · cases hp
    rw [Batch.read_guardLine hi ha hv, target?_guard] at ht
    cases ht
  · simp only [Batch.guardBlock, List.mem_cons, List.not_mem_nil, or_false] at hp
    rcases hp with hp | hp | hp
    · cases hp; rw [Batch.read_complaint] at ht; cases ht
    · cases hp
      rw [Batch.read_goto (.inl rfl) (by decide)] at ht
      exact .inl (Option.some.inj ht).symm
    · cases hp; rw [Batch.read_close] at ht; cases ht
  · refine (target_of_mem_dispatchParts hi ha hv hp ht).mono ?_ ?_
    · intro label hlabel
      obtain ⟨value, hvalue, rfl⟩ := List.mem_map.1 hlabel
      exact hnames value hvalue
    · intro choice hchoice
      rw [List.mem_singleton.1 hchoice]
      exact hchoices
  · rw [Batch.blocks, List.mem_append, List.mem_flatMap, List.mem_singleton] at hp
    rcases hp with ⟨c, hc, hp⟩ | hp
    · simp only [Batch.caseParts, List.cons_append, List.mem_cons, List.mem_append, List.not_mem_nil, or_false] at hp
      rcases hp with hp | hp | hp
      · cases hp; rw [Batch.target?_label] at ht; cases ht
      · obtain ⟨depth', hp⟩ := own_mem_of_mem_indent hp
        exact hbodies c hc depth' hp
      · cases hp
        rw [Batch.read_goto (.inr rfl) (by decide)] at ht
        exact .inr (.inl ((Option.some.inj ht) ▸ hend))
    · cases hp; rw [Batch.target?_label] at ht; cases ht

theorem argumentRef?_windows {index : Nat} {argument : String} (h : Family.windows.argumentRef? index = some argument) :
    argument = "%" ++ toString index := by
  simp only [Family.argumentRef?] at h
  split at h
  · exact (Option.some.inj h).symm
  · cases h

/-- Each jump that a statement writes goes where it should. -/
theorem target_of_mem_parts {s : Statement} {ls : List Line} {depth : Nat} {text name : String} (hm : s.Made)
    (hl : s.lines .windows = .ok ls) (ha : ∀ n, isQuoteUnsafe (args n) = false)
    (hp : Part.own depth text ∈ s.parts .windows) (ht : (Batch.read args text).target? = some name) :
    Aims args s.labels s.switches text name := by
  induction s using Statement.induction generalizing ls depth with
  | leaf s hleaf =>
    rw [parts_of_isLeaf hleaf, List.mem_singleton] at hp
    cases hp
  | list body ih =>
    rw [Statement.lines] at hl
    rw [parts, partsList_eq_flatMap, List.mem_flatMap] at hp
    obtain ⟨s, hs, hp⟩ := hp
    have hmade : ∀ s ∈ body, s.Made := hm.sound
    refine (ih s hs (hmade s hs) (linesList_eq_written hl s hs) hp).mono ?_ ?_
    · intro label hlabel
      rw [labels, labelsList_eq_flatMap, List.mem_flatMap]
      exact ⟨s, hs, hlabel⟩
    · intro choice hchoice
      rw [switches, switchesList_eq_flatMap, List.mem_flatMap]
      exact ⟨s, hs, hchoice⟩
  | switchArg index cases ih =>
    obtain ⟨argument, ws, hargument, hws, -⟩ := lines_switchArg_eq_ok_iff.1 hl
    obtain rfl := argumentRef?_windows hargument
    obtain ⟨hlines, -⟩ := linesCases_eq_written hws
    obtain ⟨-, -, hquotes, -, hmade⟩ := hm.sound
    have hvalues : (partsCases .windows cases).map Prod.fst = cases.map Prod.fst := by
      rw [partsCases_eq_map, List.map_map]
      rfl
    rw [parts, switchParts, hargument, Option.getD_some] at hp
    refine target_of_mem_switchParts hargument (isQuoteUnsafe_eq_false_iff.1 (ha index)).1 ?_ ?_ ?_ ?_ ?_ hp ht
    · rw [hvalues]
      exact doubleQuote_not_mem_of_values hquotes
    · intro value hvalue
      rw [hvalues] at hvalue
      obtain ⟨c, hc, rfl⟩ := List.mem_map.1 hvalue
      rw [labels, labelsCases_eq_flatMap]
      exact List.mem_append_left _ (List.mem_flatMap.2 ⟨c, hc, List.mem_cons_self⟩)
    · rw [labels]
      exact List.mem_append_right _ List.mem_cons_self
    · rw [hvalues, switches]
      exact List.mem_cons_self
    · intro b hb depth' hown
      rw [partsCases_eq_map] at hb
      obtain ⟨c, hc, rfl⟩ := List.mem_map.1 hb
      refine (ih c hc (hmade c hc) (hlines c hc) hown).mono ?_ ?_
      · intro label hlabel
        rw [labels, labelsCases_eq_flatMap]
        exact List.mem_append_left _ (List.mem_flatMap.2 ⟨c, hc, List.mem_cons_of_mem _ hlabel⟩)
      · intro choice hchoice
        rw [switches, switchesCases_eq_flatMap]
        exact List.mem_cons_of_mem _ (List.mem_flatMap.2 ⟨c, hc, hchoice⟩)

end Statement
end Scriptwright
