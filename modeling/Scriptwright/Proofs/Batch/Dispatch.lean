/-
A switch of a batch file sends every argument where it belongs. The guard block
is entered for an argument that is none of the values; for any other the
dispatch goes behind the label of the case with that value, which is there once,
and never runs on into the first case (`dispatch_correct`). What the cases do
is not looked into here: each is taken as it is written.
-/
import Scriptwright.Proofs.Batch.Switch

namespace Scriptwright.Batch

open Scriptwright.Part Statement

/-- The cases of a switch, each as one part. -/
def taken (cases : List (String × Statement)) : List (String × List Part) :=
  cases.map fun c => (c.1, [.leaf c.2 (c.2.written .windows)])

theorem values_taken (cases : List (String × Statement)) : (taken cases).map Prod.fst = cases.map Prod.fst := by
  simp [taken]

theorem labels_switchParts_taken (argument : String) (cases : List (String × Statement)) :
    labels (switchParts argument (taken cases)) = (cases.map Prod.fst).map caseLabel ++ [endLabel] := by
  have hleaf : ∀ c : String × Statement, labels [.leaf c.2 (c.2.written .windows)] = [] := fun _ => rfl
  rw [labels_switchParts, taken, List.flatMap_map]
  simp only [hleaf, List.map_map, ← List.map_eq_flatMap]
  rfl

/-- The lines of a switch, from those of its cases taken as they are. -/
theorem lines_eq_allLines_taken {index : Nat} {cases : List (String × Statement)} {argument : String}
    (hargument : Family.windows.argumentRef? index = some argument)
    (hb : ∀ c ∈ cases, ∃ body, c.2.lines .windows = .ok body) :
    (Statement.switchArg index cases).lines .windows = .ok (allLines (switchParts argument (taken cases))) := by
  refine lines_switchArg_eq_ok_iff.2 ⟨argument, _, hargument, linesCases_of_forall hb, ?_⟩
  have hnotBlank : ∀ c ∈ taken cases, ∀ p ∈ c.2, p.NotBlank := by
    intro c hc p hp
    obtain ⟨d, -, rfl⟩ := List.mem_map.1 hc
    rw [List.mem_singleton.1 hp]
    trivial
  rw [allLines_switchParts hnotBlank, taken, List.map_map, switchLines]
  congr 1
  exact List.map_congr_left fun c _ => by simp [Part.lines]

/-! ## Where a jump can go -/

theorem length_afterLabel? {name : String} {file place : List Part} (h : afterLabel? name file = some place) :
    place.length < file.length := by
  induction file with
  | nil => cases h
  | cons p ps ih =>
    rw [afterLabel?] at h
    split at h
    · cases h; simp
    · have := ih h
      simp only [List.length_cons]
      omega

theorem length_afterBlock (args : Nat → String) (place : List Part) :
    (afterBlock args place).length ≤ place.length := by
  induction place with
  | nil => simp [afterBlock]
  | cons p ps ih =>
    cases p with
    | own depth text =>
      simp only [afterBlock]
      split <;> simp only [List.length_cons] <;> omega
    | arm => simp only [afterBlock, List.length_cons]; omega
    | leaf => simp only [afterBlock, List.length_cons]; omega

variable {index : Nat} {argument : String} {args : Nat → String} {bodies : List (String × List Part)}

/-- All labels of a switch stand in its blocks, so a jump goes behind one of them. -/
theorem length_jump {name : String} {place : List Part}
    (h : afterLabel? name (switchParts argument bodies) = some place) : place.length < (blocks bodies).length := by
  have hguard : labels [.own 0 (guardLine argument (bodies.map Prod.fst))] = [] := by
    simp [labels, partLabel?, label?_guardLine]
  have hhead : labels (.own 0 (guardLine argument (bodies.map Prod.fst)) ::
      (guardBlock argument (bodies.map Prod.fst) ++ dispatchParts argument (bodies.map Prod.fst))) = [] := by
    rw [← List.singleton_append, labels_append, labels_append, hguard, labels_guardBlock, labels_dispatchParts]
    rfl
  have hshape : switchParts argument bodies = (.own 0 (guardLine argument (bodies.map Prod.fst)) ::
      (guardBlock argument (bodies.map Prod.fst) ++ dispatchParts argument (bodies.map Prod.fst))) ++ blocks bodies := by
    simp [switchParts]
  rw [hshape, afterLabel?_append fun other ho => by rw [hhead] at ho; cases ho] at h
  exact length_afterLabel? h

/-- Every step goes down the file or behind a label. -/
theorem length_step {file place next : List Part} (h : step file args place = some next) :
    next.length < place.length ∨ ∃ name, afterLabel? name file = some next := by
  cases place with
  | nil => cases h
  | cons p rest =>
    cases p with
    | own depth text =>
      simp only [step] at h
      split at h
      · cases h; exact .inl (by simp)
      · next name _ => exact .inr ⟨name, h⟩
      · cases h
      · cases h
        have := length_afterBlock args rest
        exact .inl (by simp only [List.length_cons]; omega)
    | arm => cases h
    | leaf s ls =>
      simp only [step] at h
      split at h
      · cases h
      · cases h; exact .inl (by simp)

/-! ## Never on into the first case -/

/-- The places of a dispatch at which the argument is still among the values to come. -/
def Dispatching (argument : String) (args : Nat → String) (index : Nat) (bodies : List (String × List Part))
    (place : List Part) : Prop :=
  (isLabelSafe (args index) = true ∧ place = .own 0 ("goto " ++ caseLabelStart ++ argument) :: blocks bodies) ∨
    ∃ values : List String, args index ∈ values ∧ (∀ value ∈ values, '\x22' ∉ value.toList) ∧
      place = values.map (branch argument) ++ blocks bodies

theorem dispatching_dispatchParts {values : List String} (hm : args index ∈ values)
    (hv : ∀ value ∈ values, '\x22' ∉ value.toList) :
    Dispatching argument args index bodies (dispatchParts argument values ++ blocks bodies) := by
  unfold dispatchParts
  split
  · next hall => exact .inl ⟨List.all_eq_true.1 hall _ hm, rfl⟩
  · exact .inr ⟨values, hm, hv, rfl⟩

theorem Dispatching.length {place : List Part} (h : Dispatching argument args index bodies place) :
    (blocks bodies).length < place.length := by
  rcases h with ⟨-, rfl⟩ | ⟨values, hm, -, rfl⟩
  · simp
  · have := List.length_pos_of_mem hm
    simp only [List.length_append, List.length_map]
    omega

/-- From such a place the reader jumps, or goes on to another such place. -/
theorem Dispatching.step {place next file : List Part} (h : Dispatching argument args index bodies place)
    (hargument : Family.windows.argumentRef? index = some argument) (ha : '\x22' ∉ (args index).toList)
    (hs : Batch.step file args place = some next) :
    Dispatching argument args index bodies next ∨ ∃ name, afterLabel? name file = some next := by
  rcases h with ⟨hsafe, rfl⟩ | ⟨values, hm, hv, rfl⟩
  · rw [step_goto_argument hargument hsafe] at hs
    exact .inr ⟨_, hs⟩
  · cases values with
    | nil => cases hm
    | cons value values =>
      rw [List.map_cons, List.cons_append, step_branch hargument ha (hv value List.mem_cons_self)] at hs
      split at hs
      · exact .inr ⟨_, hs⟩
      · next hne =>
        obtain rfl := Option.some.inj hs
        have hm' : args index ∈ values := (List.mem_cons.1 hm).resolve_left hne
        exact .inl (.inr ⟨values, hm', fun v hmem => hv v (List.mem_cons_of_mem _ hmem), rfl⟩)

/-- What follows the guard of a switch. -/
def behindGuard (argument : String) (bodies : List (String × List Part)) : List Part :=
  dispatchParts argument (bodies.map Prod.fst) ++ blocks bodies

/-- The places that can be reached from the top of a switch: the first three lines, those of the dispatch that
the argument gets to, and those behind the first label. -/
def Placed (argument : String) (args : Nat → String) (index : Nat) (bodies : List (String × List Part))
    (place : List Part) : Prop :=
  place = switchParts argument bodies ∨
    place = guardBlock argument (bodies.map Prod.fst) ++ behindGuard argument bodies ∨
    place = .own 1 ("goto " ++ abortLabel) :: .own 0 ")" :: behindGuard argument bodies ∨
    Dispatching argument args index bodies place ∨ place.length < (blocks bodies).length

theorem Placed.step {place next : List Part} (h : Placed argument args index bodies place)
    (hargument : Family.windows.argumentRef? index = some argument) (ha : '\x22' ∉ (args index).toList)
    (hv : ∀ value ∈ bodies.map Prod.fst, '\x22' ∉ value.toList)
    (hs : Batch.step (switchParts argument bodies) args place = some next) :
    Placed argument args index bodies next := by
  have hjump : (∃ name, afterLabel? name (switchParts argument bodies) = some next) →
      Placed argument args index bodies next := fun ⟨_, hname⟩ => .inr (.inr (.inr (.inr (length_jump hname))))
  rcases h with rfl | rfl | rfl | hd | hlength
  · -- the guard
    rw [switchParts, step_guard hargument ha hv, Option.some.injEq] at hs
    split at hs
    · next hm =>
      rw [← hs]
      exact .inr (.inr (.inr (.inl (dispatching_dispatchParts hm hv))))
    · rw [← hs]
      exact .inr (.inl rfl)
  · -- the complaint
    rw [guardBlock, List.cons_append, step_of_next (flow_complaint _ _), Option.some.injEq] at hs
    rw [← hs]
    exact .inr (.inr (.inl rfl))
  · -- the jump to the handler
    rw [step_of_jump flow_goto_abort] at hs
    exact hjump ⟨_, hs⟩
  · rcases hd.step hargument ha hs with hd | hname
    · exact .inr (.inr (.inr (.inl hd)))
    · exact hjump hname
  · rcases length_step hs with hdown | hname
    · exact .inr (.inr (.inr (.inr (by omega))))
    · exact hjump hname

theorem Placed.of_reaches {place : List Part}
    (h : Reaches (switchParts argument bodies) args (switchParts argument bodies) place)
    (hargument : Family.windows.argumentRef? index = some argument) (ha : '\x22' ∉ (args index).toList)
    (hv : ∀ value ∈ bodies.map Prod.fst, '\x22' ∉ value.toList) : Placed argument args index bodies place := by
  induction h with
  | refl => exact .inl rfl
  | tail _ hs ih => exact ih.step hargument ha hv hs

theorem Placed.ne_blocks {place : List Part} (h : Placed argument args index bodies place) : place ≠ blocks bodies := by
  have hbehind : (blocks bodies).length ≤ (behindGuard argument bodies).length := by
    simp [behindGuard]
  rintro rfl
  rcases h with h | h | h | h | h
  · have := congrArg List.length h
    simp only [switchParts, List.length_cons, List.length_append] at this
    omega
  · have := congrArg List.length h
    simp only [guardBlock, List.length_append, List.length_cons, List.length_nil] at this
    omega
  · have := congrArg List.length h
    simp only [List.length_cons] at this
    omega
  · have := h.length
    omega
  · omega

/-! ## The case of the argument -/

/-- No two labels of a switch that the constructor lets through are the same. -/
theorem nodup_labels_taken (argument : String) {cases : List (String × Statement)}
    (hn : (cases.map fun c => caseKey c.1).Nodup) :
    ((labels (switchParts argument (taken cases))).map labelKey).Nodup := by
  have hkeys : ((cases.map Prod.fst).map caseKey).Nodup := by
    rw [List.map_map]
    exact hn
  rw [labels_switchParts_taken]
  exact nodup_switchLabels hkeys

/-- A switch of a batch file is entered and left as meant, for every argument without a double quote or a line
break: the guard block is entered exactly for an argument that is none of the values; for one that is, the
dispatch goes behind the label of its case, the only one of that name, where the lines of the case stand and
then the jump to the end; and no run comes to the first case but through its label. -/
theorem dispatch_correct {index : Nat} {cases : List (String × Statement)} {s : Statement}
    (hs : makeSwitch index cases = .ok s) (hi : index ≤ 9) (hb : ∀ c ∈ cases, ∃ body, c.2.lines .windows = .ok body)
    (args : Nat → String) (ha : isQuoteUnsafe (args index) = false) :
    let argument := "%" ++ toString index
    let file := switchParts argument (taken cases)
    let dispatch := behindGuard argument (taken cases)
    s.lines .windows = .ok (allLines file) ∧
      (step file args file = some (guardBlock argument (cases.map Prod.fst) ++ dispatch) ↔
        args index ∉ cases.map Prod.fst) ∧
      (step file args file = some dispatch ↔ args index ∈ cases.map Prod.fst) ∧
      (∀ c ∈ cases, c.1 = args index → ∃ before after body, c.2.lines .windows = .ok body ∧
        file = before ++ .own 0 (":" ++ caseLabel c.1) ::
          .leaf c.2 (Line.indent body) :: .own 1 ("GOTO " ++ endLabel) :: after ∧
        Passes file args dispatch (.leaf c.2 (Line.indent body) :: .own 1 ("GOTO " ++ endLabel) :: after) ∧
        (labels file).countP (sameLabel (caseLabel c.1)) = 1) ∧
      ∀ place, Reaches file args file place → place ≠ blocks (taken cases) := by
  intro argument file dispatch
  obtain ⟨rfl, hzero, -, hvalues, hkeys⟩ := makeSwitch_eq_ok_iff.1 hs
  have hargument : Family.windows.argumentRef? index = some argument := by
    rw [Family.argumentRef?, if_pos ⟨by omega, hi⟩]
  have hquote : '\x22' ∉ (args index).toList := (isQuoteUnsafe_eq_false_iff.1 ha).1
  have hquotes : ∀ value ∈ (taken cases).map Prod.fst, '\x22' ∉ value.toList := by
    rw [values_taken]
    exact doubleQuote_not_mem_of_values hvalues
  have hguard : step file args file
      = some (if args index ∈ cases.map Prod.fst then dispatch
          else guardBlock argument (cases.map Prod.fst) ++ dispatch) := by
    have hstep : step file args file = some (if args index ∈ (taken cases).map Prod.fst then dispatch
        else guardBlock argument ((taken cases).map Prod.fst) ++ dispatch) := step_guard hargument hquote hquotes
    rwa [values_taken] at hstep
  have hblock : guardBlock argument (cases.map Prod.fst) ++ dispatch ≠ dispatch := by
    intro he
    have := congrArg List.length he
    simp only [guardBlock, List.length_append, List.length_cons] at this
    omega
  refine ⟨lines_eq_allLines_taken hargument hb, ?_, ?_, ?_, ?_⟩
  · rw [hguard, Option.some.injEq]
    split
    · next hm => exact ⟨fun he => absurd he.symm hblock, fun hn => absurd hm hn⟩
    · next hm => exact ⟨fun _ => hm, fun _ => rfl⟩
  · rw [hguard, Option.some.injEq]
    split
    · next hm => exact ⟨fun _ => hm, fun _ => rfl⟩
    · next hm => exact ⟨fun he => absurd he hblock, fun h => absurd h hm⟩
  · intro c hc he
    obtain ⟨before, after, hshape⟩ := exists_block argument (List.mem_map_of_mem hc)
    have hfile : file = before ++ .own 0 (":" ++ caseLabel c.1) ::
        .leaf c.2 (Line.indent (c.2.written .windows)) :: .own 1 ("GOTO " ++ endLabel) :: after := hshape
    have hnodup : ((labels file).map labelKey).Nodup := nodup_labels_taken argument hkeys
    have hjump : afterLabel? (caseLabel (args index)) file
        = some (.leaf c.2 (Line.indent (c.2.written .windows)) :: .own 1 ("GOTO " ++ endLabel) :: after) := by
      rw [← he]
      exact afterLabel?_of_nodup hfile hnodup
    have hm : args index ∈ (taken cases).map Prod.fst := by
      rw [values_taken, ← he]
      exact List.mem_map_of_mem hc
    obtain ⟨body, hbody⟩ := hb c hc
    refine ⟨before, after, c.2.written .windows, lines_eq_written hbody, hfile,
      passes_dispatch hargument hquote hquotes hm hjump, countP_sameLabel_of_mem hnodup ?_⟩
    rw [labels_switchParts_taken]
    exact List.mem_append_left _ (List.mem_map_of_mem (List.mem_map_of_mem hc))
  · intro place hplace
    exact (Placed.of_reaches hplace hargument hquote hquotes).ne_blocks

/-- A value with a space in it passes the guard of a switch that holds it. -/
theorem dispatch_correct_of_value :
    let cases := [("start", leaveWith 0), ("stop all", leaveWith 1)]
    let file := switchParts ("%" ++ toString 1) (taken cases)
    step file (fun _ => "stop all") file = some (behindGuard ("%" ++ toString 1) (taken cases)) := by
  intro cases file
  have hs : makeSwitch 1 cases = .ok (.switchArg 1 cases) := by decide
  have hb : ∀ c ∈ cases, ∃ body, c.2.lines .windows = .ok body := by
    simp [cases, leaveWith, Statement.lines]
  exact (dispatch_correct hs (by decide) hb (fun _ => "stop all") (by decide)).2.2.1.2 (by decide)

end Scriptwright.Batch
