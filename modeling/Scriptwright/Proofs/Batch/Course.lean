/-
A batch file follows the course of its statements: from the parts of a tree,
wherever they stand in a file whose labels differ, the run meets the leaves of
the course and goes on behind the tree, or ends in the handler when a switch has
no case for its argument (`leads_parts`).
-/
import Scriptwright.Proofs.Statement.Course

namespace Scriptwright.Batch

open Scriptwright.Part Statement

/-- A run that meets the leaves of a course from a place on and goes on, or not, as the course does. -/
def Leads (file : List Part) (args : Nat → String) (place : List Part) (c : Course) (after : List Part) : Prop :=
  if c.goesOn then
    ∀ seen last, Runs file args after seen last → Runs file args place (c.steps.filter (writes .windows) ++ seen) last
  else Runs file args place (c.steps.filter (writes .windows)) "exit /b 1"

variable {file : List Part} {args : Nat → String}

theorem Leads.refl (after : List Part) : Leads file args after ⟨[], true⟩ after := by
  rw [Leads, if_pos rfl]
  exact fun seen last hrun => hrun

theorem Leads.andThen {place between after : List Part} {c d : Course} (h : Leads file args place c between)
    (h' : Leads file args between d after) : Leads file args place (c.andThen d) after := by
  unfold Leads Course.andThen at *
  cases hc : c.goesOn with
  | false =>
    rw [hc] at h
    simpa [hc] using h
  | true =>
    rw [hc] at h
    cases hd : d.goesOn with
    | false =>
      rw [hd] at h'
      simpa [hd] using h _ _ h'
    | true =>
      rw [hd] at h'
      simp only [if_true, List.filter_append, List.append_assoc] at h h' ⊢
      intro seen last hr
      simpa [hd] using h _ _ (h' seen last hr)

/-- A stretch of layout before a tree changes nothing. -/
theorem Leads.of_passes {place place' after : List Part} {c : Course} (hp : Passes file args place place')
    (h : Leads file args place' c after) : Leads file args place c after := by
  unfold Leads at *
  split
  · next hc =>
    rw [if_pos hc] at h
    exact fun seen last hr => hp.runs (h seen last hr)
  · next hc =>
    rw [if_neg hc] at h
    exact hp.runs h

/-- Leaves are met one after another. -/
theorem runs_leaves {lines : Statement → List Line} {after : List Part} {ts seen : List Statement} {last : String}
    (hlines : ∀ t, ((lines t).all fun l => Text.isBlank l.text) = (t.written .windows).all fun l => Text.isBlank l.text)
    (hk : ∀ t ∈ ts, t.kind ≠ .leave) (hr : Runs file args after seen last) :
    Runs file args (ts.map (fun t => .leaf t (lines t)) ++ after) (ts.filter (writes .windows) ++ seen) last := by
  induction ts with
  | nil => exact hr
  | cons t ts ih =>
    have ih := ih fun u hu => hk u (List.mem_cons_of_mem _ hu)
    have hstep : ∀ rest, step file args (.leaf t (lines t) :: rest) = some rest := by
      intro rest
      simp only [step, if_neg (hk t List.mem_cons_self)]
    have hrun := Runs.step (hstep _) ih
    have hmet : ∀ rest, met (.leaf t (lines t) :: rest) ++ (ts.filter (writes .windows) ++ seen)
        = (t :: ts).filter (writes .windows) ++ seen := by
      intro rest
      rw [met, hlines, List.filter_cons, writes]
      cases (t.written .windows).all fun l => Text.isBlank l.text <;> rfl
    rwa [hmet] at hrun

/-- A tree without a switch is met leaf by leaf, in a block or not. -/
theorem leads_of_switchCount_eq_zero {s : Statement} {lines : Statement → List Line} {after : List Part}
    (hlines : ∀ t, ((lines t).all fun l => Text.isBlank l.text) = (t.written .windows).all fun l => Text.isBlank l.text)
    (hr : s.returns = false) (hc : s.switchCount = 0) :
    Leads file args ((s.course .windows args).steps.map (fun t => .leaf t (lines t)) ++ after)
      (s.course .windows args) after := by
  rw [Leads, if_pos (parts_of_switchCount_eq_zero hc .windows .windows args).1]
  exact fun seen last hrun => runs_leaves hlines (fun t ht => kind_of_mem_steps hr ht) hrun

/-- The block of a case leads to what is behind the switch. -/
theorem leads_block {c : String × Statement} {before others after : List Part}
    (hn : ((labels file).map labelKey).Nodup) (hr : c.2.returns = false) (hc : c.2.switchCount = 0)
    (hend : file = before ++ .own 0 (":" ++ endLabel) :: after) :
    Leads file args ((c.2.parts .windows).map Part.indent ++ .own 1 ("GOTO " ++ endLabel) :: others)
      (c.2.course .windows args) after := by
  have hflow : (read args ("GOTO " ++ endLabel)).flow = .jump endLabel := by
    rw [read_goto (.inr rfl) (by decide), Command.flow]
  have hjump : afterLabel? endLabel file = some after := afterLabel?_of_nodup hend hn
  have hpass : Passes file args (.own 1 ("GOTO " ++ endLabel) :: others) after :=
    .single ⟨(step_of_jump hflow).trans hjump, rfl⟩
  have hbody : (c.2.parts .windows).map Part.indent
      = (c.2.course .windows args).steps.map fun t => .leaf t (Line.indent (t.written .windows)) := by
    rw [(parts_of_switchCount_eq_zero hc .windows .windows args).2, List.map_map]
    rfl
  have hleads : Leads file args ((c.2.parts .windows).map Part.indent ++ .own 1 ("GOTO " ++ endLabel) :: others)
      (c.2.course .windows args) (.own 1 ("GOTO " ++ endLabel) :: others) := by
    rw [hbody]
    exact leads_of_switchCount_eq_zero (fun t => all_isBlank_indent _) hr hc
  rw [Leads, if_pos (parts_of_switchCount_eq_zero hc .windows .windows args).1] at hleads ⊢
  exact fun seen last hrun => hleads seen last (hpass.runs hrun)

/-- The parts of the cases of a switch. -/
def bodies (cases : List (String × Statement)) : List (String × List Part) :=
  cases.map fun c => (c.1, c.2.parts .windows)

theorem values_bodies (cases : List (String × Statement)) : (bodies cases).map Prod.fst = cases.map Prod.fst := by
  simp [bodies]

/-- A switch leads to what is behind it by way of the case of its argument, or to the handler. -/
theorem leads_switch {index : Nat} {argument : String} {cases : List (String × Statement)} {before after : List Part}
    (hargument : Family.windows.argumentRef? index = some argument) (ha : '\x22' ∉ (args index).toList)
    (hquotes : ∀ value ∈ cases.map Prod.fst, '\x22' ∉ value.toList) (hr : ∀ c ∈ cases, c.2.returns = false)
    (hc : ∀ c ∈ cases, c.2.switchCount = 0) (hn : ((labels file).map labelKey).Nodup)
    (habort : ∀ rest, Runs file args (.own 1 ("goto " ++ abortLabel) :: rest) [] "exit /b 1")
    (hfile : file = before ++ (switchParts argument (bodies cases) ++ after)) :
    Leads file args (switchParts argument (bodies cases) ++ after)
      (courseCases .windows args (args index) cases) after := by
  rw [← values_bodies] at hquotes
  have hshape : switchParts argument (bodies cases) ++ after
      = .own 0 (guardLine argument ((bodies cases).map Prod.fst)) :: (guardBlock argument ((bodies cases).map Prod.fst)
        ++ (dispatchParts argument ((bodies cases).map Prod.fst) ++ (blocks (bodies cases) ++ after))) := by
    simp [switchParts]
  have hguard : step file args (switchParts argument (bodies cases) ++ after) = _ :=
    hshape ▸ step_guard hargument ha hquotes
  rcases courseCases_eq .windows args (args index) cases with ⟨c, hmem, hvalue, hcourse⟩ | ⟨hnot, hcourse⟩
  · -- past the guard, to the label of the case, through its block and behind the switch
    have hm : args index ∈ (bodies cases).map Prod.fst := by
      rw [values_bodies, ← hvalue]
      exact List.mem_map_of_mem hmem
    rw [if_pos hm] at hguard
    obtain ⟨first, others, hblock⟩ := exists_block argument (List.mem_map_of_mem hmem)
    obtain ⟨start, hend⟩ := exists_end argument (bodies cases)
    have hblock : file = (before ++ first) ++ .own 0 (":" ++ caseLabel c.1) ::
        ((c.2.parts .windows).map Part.indent ++ .own 1 ("GOTO " ++ endLabel) :: (others ++ after)) := by
      rw [hfile]
      change before ++ (switchParts argument (cases.map fun c => (c.1, c.2.parts .windows)) ++ after) = _
      rw [hblock]
      simp
    have hend : file = (before ++ start) ++ .own 0 (":" ++ endLabel) :: after := by
      rw [hfile, hend]
      simp
    have hjump : afterLabel? (caseLabel (args index)) file = some ((c.2.parts .windows).map Part.indent
        ++ .own 1 ("GOTO " ++ endLabel) :: (others ++ after)) := by
      rw [← hvalue]
      exact afterLabel?_of_nodup hblock hn
    have hpass : Passes file args (switchParts argument (bodies cases) ++ after) _ :=
      .head ⟨hguard, by rw [hshape]; rfl⟩ (passes_dispatch hargument ha hquotes hm hjump)
    rw [hcourse]
    exact .of_passes hpass (leads_block hn (hr c hmem) (hc c hmem) hend)
  · -- into the guard, and so to the handler
    have hm : args index ∉ (bodies cases).map Prod.fst := by
      rw [values_bodies]
      exact hnot
    rw [if_neg hm] at hguard
    have hpass : Passes file args (switchParts argument (bodies cases) ++ after) _ :=
      .head ⟨hguard, by rw [hshape]; rfl⟩ (.single ⟨step_of_next (flow_complaint _ _), rfl⟩)
    rw [hcourse]
    exact hpass.runs (habort _)

/-- From the parts of a tree on, wherever they stand, a batch file follows the course of the tree. -/
theorem leads_parts {s : Statement} {ls : List Line} {before after : List Part} (hm : s.Made)
    (hl : s.lines .windows = .ok ls) (hr : s.returns = false) (hc : s.switchCount ≤ 1)
    (ha : ∀ n, isQuoteUnsafe (args n) = false) (hn : ((labels file).map labelKey).Nodup)
    (habort : ∀ rest, Runs file args (.own 1 ("goto " ++ abortLabel) :: rest) [] "exit /b 1")
    (hfile : file = before ++ (s.parts .windows ++ after)) :
    Leads file args (s.parts .windows ++ after) (s.course .windows args) after := by
  induction s using induction_cons generalizing ls before after with
  | leaf s hleaf =>
    rw [parts_of_isLeaf hleaf, course_of_isLeaf hleaf]
    have hzero : s.switchCount = 0 := by cases s <;> first | rfl | cases hleaf
    have hleads : Leads file args ((s.course .windows args).steps.map (fun t => .leaf t (t.written .windows)) ++ after)
        (s.course .windows args) after := leads_of_switchCount_eq_zero (fun _ => rfl) hr hzero
    rwa [course_of_isLeaf hleaf] at hleads
  | nil => exact .refl after
  | cons s ss ihs ihss =>
    obtain ⟨hs, hss⟩ := hm.of_list_cons
    obtain ⟨first, rest, hfirst, hrest, -⟩ := lines_list_cons_eq_ok_iff.1 hl
    rw [returns_list_cons, Bool.or_eq_false_iff] at hr
    rw [switchCount_list_cons] at hc
    rw [parts_list_cons, List.append_assoc] at hfile ⊢
    -- what follows the first tree is the others, and what stands before them ends with the first
    have hfile' : file = (before ++ s.parts .windows) ++ ((list ss).parts .windows ++ after) := by
      rw [hfile, List.append_assoc]
    rw [course_list_cons]
    exact (ihs hs hfirst hr.1 (by omega) hfile).andThen (ihss hss hrest hr.2 (by omega) hfile')
  | switchArg index cases ih =>
    obtain ⟨argument, ws, hargument, hws, -⟩ := lines_switchArg_eq_ok_iff.1 hl
    obtain ⟨-, -, hvalues, -, hmade⟩ := hm.sound
    rw [switchCount] at hc
    rw [parts, hargument, Option.getD_some, partsCases_eq_map] at hfile ⊢
    rw [course]
    exact leads_switch hargument (isQuoteUnsafe_eq_false_iff.1 (ha index)).1 (doubleQuote_not_mem_of_values hvalues)
      (fun c hmem => returns_of_mem hr hmem) (fun c hmem => switchCount_eq_zero_of_mem (by omega) hmem) hn habort hfile

end Scriptwright.Batch
