/-
How a batch file runs through a switch: the guard lets the values pass and no
other argument, the dispatch sends each value to its own label, and the label
after the last case is where every case goes on.
-/
import Scriptwright.Proofs.Batch.Flow

namespace Scriptwright.Batch

/-! ## The labels of a switch -/

theorem starts_append {c : Char} {a : String} (h : ∃ cs, a.toList = c :: cs) (b : String) :
    ∃ cs, (a ++ b).toList = c :: cs := by
  obtain ⟨cs, hcs⟩ := h
  exact ⟨cs ++ b.toList, by rw [String.toList_append, hcs, List.cons_append]⟩

theorem label?_eq_none {text : String} {c : Char} (h : ∃ cs, text.toList = c :: cs) (hs : c ≠ ' ') (hc : c ≠ ':') :
    label? text = none := by
  obtain ⟨cs, hcs⟩ := h
  simp only [label?, hcs, List.dropWhile_cons_of_neg (p := (· == ' ')) (by simpa using hs)]
  split
  · next he => exact absurd (List.cons.inj he).1 hc
  · rfl

variable {argument : String}

theorem starts_complaint (argument : String) (values : List String) : ∃ cs, (complaint argument values).toList = 's' :: cs := by
  have hset : ∃ cs, "set ".toList = 's' :: cs := ⟨_, rfl⟩
  exact starts_append (starts_append (starts_append (starts_append (starts_append hset _) _) _) _) _

theorem label?_guardLine (values : List String) : label? (guardLine argument values) = none := by
  cases values with
  | nil =>
    have hparen : ∃ cs, (guardLine argument []).toList = '(' :: cs := by
      simp [guardLine]
    exact label?_eq_none hparen (by decide) (by decide)
  | cons value values =>
    have hif : ∃ cs, (guardLine argument (value :: values)).toList = 'i' :: cs := by
      simp [guardLine]
    exact label?_eq_none hif (by decide) (by decide)

theorem labels_guardBlock (values : List String) : labels (guardBlock argument values) = [] := by
  have hcomplaint : label? (complaint argument values) = none :=
    label?_eq_none (starts_complaint argument values) (by decide) (by decide)
  have hgoto : label? ("goto " ++ abortLabel) = none := by decide
  have hclose : label? ")" = none := by decide
  simp [guardBlock, labels, partLabel?, hcomplaint, hgoto, hclose]

theorem labels_dispatchParts (values : List String) : labels (dispatchParts argument values) = [] := by
  have hgoto : label? ("goto " ++ caseLabelStart ++ argument) = none :=
    label?_eq_none (starts_append ⟨_, rfl⟩ _) (by decide) (by decide)
  have hbranch : ∀ value, partLabel? (branch argument value) = none := by
    intro value
    have hif : ∃ cs, ("if " ++ comparison argument value ++ " goto " ++ caseLabel value).toList = 'i' :: cs :=
      starts_append (starts_append (starts_append ⟨_, rfl⟩ _) _) _
    rw [branch, partLabel?, label?_indentation]
    exact label?_eq_none hif (by decide) (by decide)
  unfold dispatchParts
  split
  · rw [labels_cons_of_none (by rw [partLabel?, label?_indentation, hgoto]), labels_nil]
  · simp [labels, hbranch]

theorem labels_caseParts (value : String) (body : List Part) :
    labels (caseParts value body) = caseLabel value :: labels body := by
  have hgoto : partLabel? (.own 1 ("GOTO " ++ endLabel)) = none := by decide
  rw [caseParts, List.cons_append, labels_cons_of_some (partLabel?_colon 0 _), labels_append,
    labels_map_indent, labels_cons_of_none hgoto, labels_nil, List.append_nil]

theorem labels_switchParts (cases : List (String × List Part)) :
    labels (switchParts argument cases) = cases.flatMap (fun c => caseLabel c.1 :: labels c.2) ++ [endLabel] := by
  have hguard : ∀ values, partLabel? (.own 0 (guardLine argument values)) = none := by
    intro values
    rw [partLabel?, label?_indentation, label?_guardLine]
  have hblocks : labels (cases.flatMap fun c => caseParts c.1 c.2)
      = cases.flatMap fun c => caseLabel c.1 :: labels c.2 := by
    induction cases with
    | nil => rfl
    | cons c cs ih => rw [List.flatMap_cons, labels_append, labels_caseParts, ih, List.flatMap_cons]
  rw [switchParts, labels_cons_of_none (hguard _), labels_append, labels_append, labels_guardBlock,
    labels_dispatchParts, blocks, labels_append, hblocks, labels_cons_of_some (partLabel?_colon 0 _)]
  rfl

/-- Each case has its block in a switch: its label, what it does, and the jump past the others. -/
theorem exists_block (argument : String) {bodies : List (String × List Part)} {c : String × List Part}
    (hc : c ∈ bodies) : ∃ before after, switchParts argument bodies = before ++ .own 0 (":" ++ caseLabel c.1) ::
      (c.2.map Part.indent ++ .own 1 ("GOTO " ++ endLabel) :: after) := by
  obtain ⟨first, others, rfl⟩ := List.append_of_mem hc
  refine ⟨.own 0 (guardLine argument ((first ++ c :: others).map Prod.fst))
    :: (guardBlock argument ((first ++ c :: others).map Prod.fst)
    ++ (dispatchParts argument ((first ++ c :: others).map Prod.fst)
    ++ first.flatMap fun c => caseParts c.1 c.2)), blocks others, ?_⟩
  simp [switchParts, blocks, caseParts]

/-- The label behind the cases is the last line of a switch. -/
theorem exists_end (argument : String) (bodies : List (String × List Part)) :
    ∃ before, switchParts argument bodies = before ++ [.own 0 (":" ++ endLabel)] := by
  refine ⟨.own 0 (guardLine argument (bodies.map Prod.fst)) :: (guardBlock argument (bodies.map Prod.fst)
    ++ (dispatchParts argument (bodies.map Prod.fst) ++ bodies.flatMap fun c => caseParts c.1 c.2)), ?_⟩
  simp [switchParts, blocks]

/-! ## No two labels of a switch are the same -/

theorem labelKey_append (a b : String) : labelKey (a ++ b) = labelKey a ++ labelKey b := by
  apply String.toList_injective
  simp [labelKey]

theorem labelKey_caseLabel (value : String) : labelKey (caseLabel value) = "case_" ++ Statement.caseKey value := by
  have hstart : labelKey caseLabelStart = "case_" := by decide
  rw [caseLabel, labelKey_append, hstart, Statement.caseKey]

theorem labelKey_endLabel_ne (value : String) : labelKey (caseLabel value) ≠ labelKey endLabel := by
  have hend : (labelKey endLabel).toList = 'e' :: "nd_switch".toList := by decide
  intro h
  have hlist := congrArg String.toList h
  rw [labelKey_caseLabel, hend, String.toList_append] at hlist
  exact absurd (List.cons.inj hlist).1 (by decide)

theorem labelKey_caseLabel_inj {value other : String} (h : labelKey (caseLabel value) = labelKey (caseLabel other)) :
    Statement.caseKey value = Statement.caseKey other := by
  rw [labelKey_caseLabel, labelKey_caseLabel] at h
  have hlist := congrArg String.toList h
  rw [String.toList_append, String.toList_append] at hlist
  exact String.toList_injective (List.append_cancel_left hlist)

/-- The labels of values are told apart by what the constructor compares, and from the last label. -/
theorem nodup_switchLabels {values : List String} (h : (values.map Statement.caseKey).Nodup) :
    ((values.map caseLabel ++ [endLabel]).map labelKey).Nodup := by
  have hcases : ((values.map caseLabel).map labelKey).Nodup := by
    unfold List.Nodup at h ⊢
    rw [List.pairwise_map] at h
    rw [List.map_map, List.pairwise_map]
    exact h.imp fun hne he => hne (labelKey_caseLabel_inj he)
  rw [List.map_append, List.nodup_append]
  refine ⟨hcases, by simp, ?_⟩
  intro key hkey other hother
  simp only [List.map_map, List.mem_map, Function.comp_apply] at hkey
  obtain ⟨value, -, rfl⟩ := hkey
  rw [List.map_cons, List.map_nil, List.mem_singleton] at hother
  rw [hother]
  exact labelKey_endLabel_ne value

/-! ## The guard -/

section

variable {file rest : List Part} {args : Nat → String} {index : Nat} {values : List String}

theorem opens_guard (left : String) (values : List String) :
    (values.foldr (fun value next => Command.test false left value next) .opening).opens = true := by
  induction values with
  | nil => rfl
  | cons value values ih => exact ih

theorem flow_guard (left : String) (values : List String) :
    (values.foldr (fun value next => Command.test false left value next) .opening).flow
      = if left ∈ values then .skip else .next := by
  induction values with
  | nil => rfl
  | cons value values ih =>
    rw [List.foldr_cons, Command.flow, ih, opens_guard, if_pos rfl]
    by_cases hv : left = value
    · simp [hv]
    · simp [hv]

theorem read_complaint (argument : String) (values : List String) :
    read args (complaint argument values) = .other := by
  obtain ⟨cs, hcs⟩ := starts_complaint argument values
  rw [read_cons hcs (by decide) (by decide) (by decide)]
  simp [simple, afterWord?, List.isPrefixOf]

theorem flow_complaint (argument : String) (values : List String) :
    (read args (complaint argument values)).flow = .next := by
  rw [read_complaint, Command.flow]

theorem read_close : read args ")" = .closing := by
  have htext : ")".toList = [')'] := rfl
  exact read_cons htext (by decide) (by decide) (by decide)

theorem afterBlock_guardBlock (argument : String) (values : List String) (rest : List Part) :
    afterBlock args (guardBlock argument values ++ rest) = rest := by
  have hgoto : read args ("goto " ++ abortLabel) = .jump abortLabel :=
    read_goto (.inl rfl) (by decide)
  simp only [guardBlock, List.cons_append, List.nil_append, afterBlock, read_indentation, read_complaint, hgoto,
    read_close]

/-- The guard is entered for an argument that is none of the values, and passed for any other. -/
theorem step_guard (h : Family.windows.argumentRef? index = some argument) (ha : '\x22' ∉ (args index).toList)
    (hv : ∀ value ∈ values, '\x22' ∉ value.toList) :
    step file args (.own 0 (guardLine argument values) :: (guardBlock argument values ++ rest))
      = some (if args index ∈ values then rest else guardBlock argument values ++ rest) := by
  have hflow := flow_guard (args index) values
  rw [← read_guardLine h ha hv] at hflow
  by_cases hm : args index ∈ values
  · rw [if_pos hm] at hflow
    rw [step_of_skip hflow, afterBlock_guardBlock, if_pos hm]
  · rw [if_neg hm] at hflow
    rw [step_of_next hflow, if_neg hm]

/-! ## The dispatch -/

/-- One comparison jumps for its value and goes on for any other argument. -/
theorem step_branch (h : Family.windows.argumentRef? index = some argument) (ha : '\x22' ∉ (args index).toList)
    {value : String} (hv : '\x22' ∉ value.toList) :
    step file args (branch argument value :: rest)
      = if args index = value then afterLabel? (caseLabel value) file else some rest := by
  by_cases he : args index = value
  · have hflow : (read args ("if " ++ comparison argument value ++ " goto " ++ caseLabel value)).flow
        = .jump (caseLabel value) := by rw [read_branch h ha hv]; simp [Command.flow, he]
    rw [branch, step_of_jump hflow, if_pos he]
  · have hflow : (read args ("if " ++ comparison argument value ++ " goto " ++ caseLabel value)).flow = .next := by
      rw [read_branch h ha hv]; simp [Command.flow, he, Command.opens]
    rw [branch, step_of_next hflow, if_neg he]

/-- The single jump goes to the label of the argument, where that is a label as it stands. -/
theorem step_goto_argument (h : Family.windows.argumentRef? index = some argument)
    (hsafe : isLabelSafe (args index) = true) :
    step file args (.own 0 ("goto " ++ caseLabelStart ++ argument) :: rest)
      = afterLabel? (caseLabel (args index)) file := by
  have hflow : (read args ("goto " ++ caseLabelStart ++ argument)).flow = .jump (caseLabelStart ++ args index) := by
    rw [read_goto_argument h, Command.flow]
  rw [step_of_jump hflow, caseLabel, labelOf_of_isLabelSafe hsafe]

/-- The dispatch sends a value behind its label. -/
theorem passes_dispatch (h : Family.windows.argumentRef? index = some argument) (ha : '\x22' ∉ (args index).toList)
    (hv : ∀ value ∈ values, '\x22' ∉ value.toList) (hm : args index ∈ values) {place : List Part}
    (hlabel : afterLabel? (caseLabel (args index)) file = some place) :
    Passes file args (dispatchParts argument values ++ rest) place := by
  unfold dispatchParts
  split
  · next hall =>
    have hsafe : isLabelSafe (args index) = true := List.all_eq_true.1 hall _ hm
    exact .single ⟨(step_goto_argument h hsafe).trans hlabel, rfl⟩
  · -- along the comparisons up to the one with the argument
    clear * - h ha hv hm hlabel
    induction values with
    | nil => cases hm
    | cons value values ih =>
      have hstep : step file args (branch argument value :: (values.map (branch argument) ++ rest)) = _ :=
        step_branch h ha (hv value List.mem_cons_self)
      by_cases he : args index = value
      · rw [if_pos he, ← he, hlabel] at hstep
        rw [he] at hstep
        exact .single ⟨hstep, rfl⟩
      · rw [if_neg he] at hstep
        have hm' : args index ∈ values := (List.mem_cons.1 hm).resolve_left he
        exact .head ⟨hstep, rfl⟩ (ih (fun v hmem => hv v (List.mem_cons_of_mem _ hmem)) hm')

end

end Scriptwright.Batch
