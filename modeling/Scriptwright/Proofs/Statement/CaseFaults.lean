/-
Which switches are built, and what is reported of the others. Values can be told
apart by a batch file if each can stand in quotes and no two have one label
(`Dispatchable`). The test of the values goes on as long as they are so, and
stops at the first one that is not: it holds a sign that quotes cannot hold, or
a value before it has its label (`RefusedBehind`). What is then reported is
decided by that value and the ones before it, whatever follows
(`checkCaseValues_eq_error_iff`).
-/
import Mathlib.Data.List.Nodup
import Scriptwright.Proofs.Statement.Made

namespace Scriptwright

/-- The message of a refusal ends by reporting that a value stands twice. -/
def Refusal.ReportsRepetition (r : Refusal) : Prop :=
  " appears more than once".toList <:+ r.message.toList

namespace Statement

/-- Each value can stand in quotes on one line, and no two values have one label. -/
structure Dispatchable (values : List String) : Prop where
  quotable : ∀ value ∈ values, '\x22' ∉ value.toList ∧ '\n' ∉ value.toList ∧ '\r' ∉ value.toList
  apart : values.Pairwise fun value other => sameLabel (labelOf value) (labelOf other) = false

/-- Why a value is refused behind others. What it holds is looked at before its label is. -/
inductive RefusedBehind (before : List String) (value : String) : Refusal → Prop
  | unquotable (h : isQuoteUnsafe value = true) : RefusedBehind before value (.caseUnsafe value)
  | repeated (h : isQuoteUnsafe value = false) (hmem : value ∈ before) :
      RefusedBehind before value (.caseRepeated value)
  | clash {other : String} (h : isQuoteUnsafe value = false) (hmem : other ∈ before) (hne : other ≠ value)
      (hlabel : sameLabel (labelOf other) (labelOf value) = true) :
      RefusedBehind before value (.caseLabelClash other value (labelOf value))

variable {before rest values : List String} {value other : String} {r : Refusal}

/-! ## Values that can be told apart -/

theorem sameLabel_labelOf_iff : sameLabel (labelOf value) (labelOf other) = true ↔ caseKey value = caseKey other :=
  beq_iff_eq

theorem dispatchable_iff :
    Dispatchable values ↔ (∀ value ∈ values, isQuoteUnsafe value = false) ∧ (values.map caseKey).Nodup := by
  have hquotable : (∀ value ∈ values, isQuoteUnsafe value = false) ↔
      ∀ value ∈ values, '\x22' ∉ value.toList ∧ '\n' ∉ value.toList ∧ '\r' ∉ value.toList := by
    simp only [isQuoteUnsafe_eq_false_iff]
  have hapart : (values.map caseKey).Nodup ↔
      values.Pairwise fun value other => sameLabel (labelOf value) (labelOf other) = false := by
    simp only [List.Nodup, List.pairwise_map, ne_eq, ← sameLabel_labelOf_iff, Bool.not_eq_true]
  rw [hquotable, hapart]
  exact ⟨fun h => ⟨h.quotable, h.apart⟩, fun h => ⟨h.1, h.2⟩⟩

theorem dispatchable_nil : Dispatchable [] := by simp [dispatchable_iff]

/-- Of values that can be told apart, no two are found by one label. -/
theorem Dispatchable.eq_of_sameLabel (h : Dispatchable values) (hv : value ∈ values) (ho : other ∈ values)
    (hlabel : sameLabel (labelOf value) (labelOf other) = true) : value = other :=
  List.inj_on_of_nodup_map (dispatchable_iff.1 h).2 hv ho (sameLabel_labelOf_iff.1 hlabel)

/-- One more value can be told apart from those before it unless it is refused behind them. -/
theorem Dispatchable.append_singleton_iff (h : Dispatchable before) :
    Dispatchable (before ++ [value]) ↔ isQuoteUnsafe value = false ∧ caseKey value ∉ before.map caseKey := by
  obtain ⟨hsafe, hnodup⟩ := dispatchable_iff.1 h
  simp only [dispatchable_iff, List.map_append, List.map_cons, List.map_nil, List.nodup_append, List.mem_append,
    List.mem_singleton, List.mem_map]
  constructor
  · rintro ⟨hall, -, -, hne⟩
    exact ⟨hall value (.inr rfl), fun ⟨other, ho, he⟩ => hne _ ⟨other, ho, he⟩ _ rfl rfl⟩
  · rintro ⟨hvalue, hkey⟩
    refine ⟨?_, hnodup, by simp, ?_⟩
    · rintro other (ho | rfl)
      · exact hsafe other ho
      · exact hvalue
    · rintro key ⟨other, ho, rfl⟩ _ rfl he
      exact hkey ⟨other, ho, he⟩

theorem Dispatchable.of_append (h : Dispatchable (before ++ rest)) : Dispatchable before :=
  ⟨fun value hv => h.quotable value (List.mem_append_left rest hv), (List.pairwise_append.1 h.apart).1⟩

/-- A value that is refused cannot be told apart from those before it. -/
theorem RefusedBehind.not_dispatchable (h : RefusedBehind before value r) (rest : List String) :
    ¬ Dispatchable (before ++ value :: rest) := by
  intro hall
  have hone : Dispatchable (before ++ [value]) := by
    rw [List.append_cons] at hall
    exact hall.of_append
  obtain ⟨hsafe, hkey⟩ := (hone.of_append.append_singleton_iff).1 hone
  cases h with
  | unquotable hu => rw [hu] at hsafe; cases hsafe
  | repeated _ hmem => exact hkey (List.mem_map_of_mem hmem)
  | clash _ hmem _ hlabel => exact hkey (sameLabel_labelOf_iff.1 hlabel ▸ List.mem_map_of_mem hmem)

/-! ## The test of the values -/

/-- What is kept of the values before, the last one first. -/
def entries (values : List String) : List (String × String) :=
  (values.map fun value => (caseKey value, value)).reverse

theorem entries_append_singleton (before : List String) (value : String) :
    entries (before ++ [value]) = (caseKey value, value) :: entries before := by
  simp [entries]

theorem map_fst_entries (values : List String) : (entries values).map Prod.fst = (values.map caseKey).reverse := by
  simp [entries, Function.comp_def]

/-- What is found by a label is a value before that has it. -/
theorem of_lookup_entries {key : String} (h : (entries before).lookup key = some other) :
    other ∈ before ∧ caseKey other = key := by
  obtain ⟨front, back, he, -⟩ := List.lookup_eq_some_iff.1 h
  have hmem : (key, other) ∈ entries before := he ▸ by simp
  simp only [entries, List.mem_reverse, List.mem_map, Prod.mk.injEq] at hmem
  obtain ⟨value, hvalue, hkey, rfl⟩ := hmem
  exact ⟨hvalue, hkey⟩

/-- A value behind others that can be told apart is refused on one ground, or it can be told apart from them. -/
theorem checkCaseValues_cons (h : Dispatchable before) (value : String) (rest : List String) :
    (∃ r, checkCaseValues (entries before) (value :: rest) = .error r ∧ RefusedBehind before value r ∧
        ∀ r', RefusedBehind before value r' → r' = r) ∨
      (Dispatchable (before ++ [value]) ∧
        checkCaseValues (entries before) (value :: rest) = checkCaseValues (entries (before ++ [value])) rest) := by
  cases hu : isQuoteUnsafe value with
  | true =>
    refine .inl ⟨_, by rw [checkCaseValues, if_pos hu], .unquotable hu, fun r' hr => ?_⟩
    cases hr <;> simp_all
  | false =>
    cases hl : (entries before).lookup (caseKey value) with
    | none =>
      have hkey : caseKey value ∉ before.map caseKey := by
        rw [lookup_eq_none_iff_not_mem, map_fst_entries] at hl
        simpa using hl
      refine .inr ⟨h.append_singleton_iff.2 ⟨hu, hkey⟩, ?_⟩
      rw [caseKey] at hl
      rw [checkCaseValues, hl, entries_append_singleton, caseKey]
      simp [hu]
    | some other =>
      obtain ⟨hmem, hkey⟩ := of_lookup_entries hl
      -- no other value before has that label
      have honly : ∀ x ∈ before, caseKey x = caseKey value → x = other := fun x hx he =>
        h.eq_of_sameLabel hx hmem (sameLabel_labelOf_iff.2 (he.trans hkey.symm))
      have hcheck : checkCaseValues (entries before) (value :: rest)
          = if other = value then .error (.caseRepeated value)
            else .error (.caseLabelClash other value (labelOf value)) := by
        rw [caseKey] at hl
        rw [checkCaseValues, hl]
        simp [hu]
      by_cases heq : other = value
      · refine .inl ⟨.caseRepeated value, by rw [hcheck, if_pos heq], .repeated hu (heq ▸ hmem), ?_⟩
        intro r' hr
        cases hr with
        | unquotable hu' => rw [hu] at hu'; cases hu'
        | repeated => rfl
        | clash _ hx hne hlabel => exact absurd ((honly _ hx (sameLabel_labelOf_iff.1 hlabel)).trans heq) hne
      · refine .inl ⟨.caseLabelClash other value (labelOf value), by rw [hcheck, if_neg heq],
          .clash hu hmem heq (sameLabel_labelOf_iff.2 hkey), ?_⟩
        intro r' hr
        cases hr with
        | unquotable hu' => rw [hu] at hu'; cases hu'
        | repeated _ hx => exact absurd (honly value hx rfl).symm heq
        | clash _ hx _ hlabel => rw [honly _ hx (sameLabel_labelOf_iff.1 hlabel)]

/-- The values are refused at the first one that is refused behind those before it. -/
theorem checkCaseValues_eq_error_iff (h : Dispatchable before) :
    checkCaseValues (entries before) rest = .error r ↔
      ∃ passed value after, rest = passed ++ value :: after ∧ Dispatchable (before ++ passed) ∧
        RefusedBehind (before ++ passed) value r := by
  induction rest generalizing before with
  | nil => simp [checkCaseValues]
  | cons value rest ih =>
    rcases checkCaseValues_cons h value rest with ⟨r', hcheck, hrefused, honly⟩ | ⟨hdispatch, hcheck⟩
    · rw [hcheck, Except.error.injEq]
      constructor
      · rintro rfl
        exact ⟨[], value, rest, rfl, by simpa using h, by simpa using hrefused⟩
      · rintro ⟨passed, other, after, hsplit, hpassed, hr⟩
        rcases List.cons_eq_append_iff.1 hsplit with ⟨rfl, hrest⟩ | ⟨more, rfl, -⟩
        · obtain ⟨rfl, -⟩ := List.cons.inj hrest
          exact (honly r (by simpa using hr)).symm
        · exact absurd hpassed (hrefused.not_dispatchable more)
    · rw [hcheck, ih hdispatch]
      constructor
      · rintro ⟨passed, other, after, rfl, hpassed, hr⟩
        exact ⟨value :: passed, other, after, rfl, by simpa using hpassed, by simpa using hr⟩
      · rintro ⟨passed, other, after, hsplit, hpassed, hr⟩
        rcases List.cons_eq_append_iff.1 hsplit with ⟨rfl, hrest⟩ | ⟨more, rfl, hrest⟩
        · obtain ⟨rfl, -⟩ := List.cons.inj hrest
          exact absurd hdispatch ((by simpa using hr : RefusedBehind before _ r).not_dispatchable [])
        · exact ⟨more, other, after, hrest, by simpa using hpassed, by simpa using hr⟩

/-! ## What is reported -/

/-- The message of a clash ends in the label. -/
theorem message_clash (other value : String) :
    (Refusal.caseLabelClash other value (labelOf value)).message
      = "malformed switch_arg: case values " ++ Text.quoted other ++ " and " ++ Text.quoted value
        ++ " both map to label " ++ (caseLabelStart ++ labelOf value) := by
  have hstart : "malformed switch_arg: case values " = "malformed " ++ "switch_arg" ++ ": " ++ "case values " := by
    decide
  show "malformed " ++ "switch_arg" ++ ": " ++ ("case values " ++ Text.quoted other ++ " and " ++ Text.quoted value
    ++ " both map to label " ++ caseLabelStart ++ labelOf value) = _
  rw [hstart]
  simp only [String.append_assoc]

/-- A label holds no blank, so a message that ends in a label does not report a repetition. -/
theorem not_reportsRepetition_clash (other value : String) :
    ¬ (Refusal.caseLabelClash other value (labelOf value)).ReportsRepetition := by
  intro h
  rw [Refusal.ReportsRepetition, message_clash, String.toList_append] at h
  -- The word after the last blank is shorter than the start of a label.
  have honce : " once".toList <:+ " appears more than once".toList := ⟨" appears more than".toList, by decide⟩
  have hshort : " once".toList.length ≤ (caseLabelStart ++ labelOf value).toList.length := by
    have hstart : caseLabelStart.toList.length = 5 := by decide
    have hblank : " once".toList.length = 5 := by decide
    rw [String.toList_append, List.length_append]
    omega
  have hblank : ' ' ∈ (caseLabelStart ++ labelOf value).toList :=
    (List.suffix_of_suffix_length_le (honce.trans h) (List.suffix_append _ _) hshort).subset (by decide)
  rw [String.toList_append, List.mem_append] at hblank
  rcases hblank with hstart | hlabel
  · exact absurd hstart (by decide)
  · exact absurd (Text.isWordChar_of_mem_labelOf hlabel) (by decide)

theorem reportsRepetition_repeated (value : String) : (Refusal.caseRepeated value).ReportsRepetition := by
  show " appears more than once".toList
    <:+ ("malformed " ++ "switch_arg" ++ ": "
      ++ ("case value " ++ Text.quoted value ++ " appears more than once")).toList
  rw [← String.append_assoc, String.toList_append]
  exact List.suffix_append _ _

/-- A value that could stand in quotes is reported as standing twice exactly when it does, and otherwise
with the value whose label it has, and that label. -/
theorem RefusedBehind.report (h : RefusedBehind before value r) (hbefore : Dispatchable before)
    (hsafe : isQuoteUnsafe value = false) :
    (r.ReportsRepetition ↔ value ∈ before) ∧
      (value ∉ before → ∃ other ∈ before, sameLabel (labelOf other) (labelOf value) = true ∧
        r.message = "malformed switch_arg: case values " ++ Text.quoted other ++ " and " ++ Text.quoted value
          ++ " both map to label CASE_" ++ labelOf value) := by
  cases h with
  | unquotable hu => rw [hu] at hsafe; cases hsafe
  | repeated _ hmem => exact ⟨iff_of_true (reportsRepetition_repeated value) hmem, fun hno => absurd hmem hno⟩
  | @clash other _ hmem hne hlabel =>
    have hno : value ∉ before := fun hv => hne (hbefore.eq_of_sameLabel hmem hv hlabel)
    have hmessage : (Refusal.caseLabelClash other value (labelOf value)).message
        = "malformed switch_arg: case values " ++ Text.quoted other ++ " and " ++ Text.quoted value
          ++ " both map to label CASE_" ++ labelOf value := by
      have hlabel : " both map to label CASE_" = " both map to label " ++ caseLabelStart := by decide
      rw [message_clash, hlabel]
      simp only [String.append_assoc]
    exact ⟨iff_of_false (not_reportsRepetition_clash other value) hno, fun _ => ⟨other, hmem, hlabel, hmessage⟩⟩

/-! ## Switches -/

theorem caseLabel?_eq (cases : List (String × Statement)) (value : String) :
    caseLabel? cases value = if value ∈ cases.map Prod.fst then some (labelOf value) else none := by
  cases hfind : cases.find? fun c => c.1 == value with
  | none =>
    have hno : value ∉ cases.map Prod.fst := by
      rintro hmem
      obtain ⟨c, hc, rfl⟩ := List.mem_map.1 hmem
      simpa using List.find?_eq_none.1 hfind c hc
    rw [caseLabel?, hfind, if_neg hno]
    rfl
  | some c =>
    obtain rfl : c.1 = value := by simpa using List.find?_some hfind
    rw [caseLabel?, hfind, if_pos (List.mem_map_of_mem (List.mem_of_find?_eq_some hfind))]
    rfl

/-- A switch is built exactly from a number other than 0 and at least one case, all values of which can be told apart.
Otherwise the number is reported first, then the first value that is refused behind those before it, and the lack of
cases last; a value is reported as standing twice if it does, and else with the one whose label it has. A switch that
is built keeps its cases, and gives each of their values, and no other, its label, never the same to two of them. -/
theorem makeSwitch_dispatchable_or_first_fault (index : Nat) (cases : List (String × Statement)) :
    (∀ s, makeSwitch index cases = .ok s ↔
        s = .switchArg index cases ∧ 1 ≤ index ∧ cases ≠ [] ∧ Dispatchable (cases.map Prod.fst)) ∧
      (∀ r, makeSwitch index cases = .error r ↔
        (index = 0 ∧ r = .argumentZero) ∨
        (1 ≤ index ∧ ∃ before value after, cases.map Prod.fst = before ++ value :: after ∧ Dispatchable before ∧
          RefusedBehind before value r ∧
          (isQuoteUnsafe value = false → (r.ReportsRepetition ↔ value ∈ before) ∧
            (value ∉ before → ∃ other ∈ before, sameLabel (labelOf other) (labelOf value) = true ∧
              r.message = "malformed switch_arg: case values " ++ Text.quoted other ++ " and " ++ Text.quoted value
                ++ " both map to label CASE_" ++ labelOf value))) ∨
        (1 ≤ index ∧ cases = [] ∧ r = .noCases)) ∧
      (∀ s, makeSwitch index cases = .ok s →
        (∀ value, caseLabel? cases value = if value ∈ cases.map Prod.fst then some (labelOf value) else none) ∧
        ∀ value other label label', caseLabel? cases value = some label → caseLabel? cases other = some label' →
          sameLabel label label' = true → value = other) := by
  have hok : ∀ s, makeSwitch index cases = .ok s ↔
      s = .switchArg index cases ∧ 1 ≤ index ∧ cases ≠ [] ∧ Dispatchable (cases.map Prod.fst) := by
    intro s
    rw [makeSwitch_eq_ok_iff, dispatchable_iff, Nat.one_le_iff_ne_zero]
    simp [Function.comp_def]
  refine ⟨hok, fun r => ?_, fun s hs => ⟨caseLabel?_eq cases, ?_⟩⟩
  · have hcheck : checkCaseValues [] (cases.map Prod.fst) = .error r ↔
        ∃ before value after, cases.map Prod.fst = before ++ value :: after ∧ Dispatchable before ∧
          RefusedBehind before value r := checkCaseValues_eq_error_iff dispatchable_nil
    have hreport : (∃ before value after, cases.map Prod.fst = before ++ value :: after ∧ Dispatchable before ∧
          RefusedBehind before value r) ↔ _ :=
      exists_congr fun _ => exists_congr fun _ => exists_congr fun _ => and_congr_right fun _ =>
        and_congr_right fun hbefore => (and_iff_left_of_imp fun h hsafe => h.report hbefore hsafe).symm
    rw [← hreport, ← hcheck, makeSwitch]
    by_cases hi : index = 0
    · simp [hi, eq_comm]
    · have hone : 1 ≤ index := by omega
      cases hc : checkCaseValues [] (cases.map Prod.fst) with
      | error r' =>
        have hne : cases ≠ [] := by rintro rfl; cases hc
        simp [hi, hone, hne]
      | ok u => cases cases <;> simp [hi, hone, eq_comm]
  · obtain ⟨-, -, -, hdispatch⟩ := (hok s).1 hs
    intro value other label label' hlabel hlabel' hsame
    rw [caseLabel?_eq] at hlabel hlabel'
    split at hlabel
    · split at hlabel'
      · next hv ho =>
        cases hlabel
        cases hlabel'
        exact hdispatch.eq_of_sameLabel hv ho hsame
      · cases hlabel'
    · cases hlabel

/-- Two values make a switch. A third that differs from the first in more than its signs has the label of the first,
and is reported before a fourth that cannot be quoted. -/
theorem makeSwitch_dispatchable_or_first_fault_of_clash :
    makeSwitch 3 [("A-1", .comment ""), ("b", .comment ""), ("a.1", .comment ""), ("\x22", .comment "")]
        = .error (.caseLabelClash "A-1" "a.1" "a_1") ∧
      ∃ s, makeSwitch 3 [("A-1", .comment ""), ("b", .comment "")] = .ok s ∧
        caseLabel? [("A-1", .comment ""), ("b", .comment "")] "A-1" = some "A_1" := by
  have hbefore : Dispatchable ["A-1", "b"] := dispatchable_iff.2 ⟨by decide, by decide⟩
  have hrefused : RefusedBehind ["A-1", "b"] "a.1" (.caseLabelClash "A-1" "a.1" "a_1") :=
    .clash (by decide) (by decide) (by decide) (by decide)
  constructor
  · have herror := (makeSwitch_dispatchable_or_first_fault 3 [("A-1", .comment ""), ("b", .comment ""),
      ("a.1", .comment ""), ("\x22", .comment "")]).2.1 (.caseLabelClash "A-1" "a.1" "a_1")
    refine herror.2 (.inr (.inl ⟨by decide, ["A-1", "b"], "a.1", ["\x22"], by decide, hbefore, hrefused, ?_⟩))
    exact hrefused.report hbefore
  · have hswitch := makeSwitch_dispatchable_or_first_fault 3 [("A-1", .comment ""), ("b", .comment "")]
    have hok := (hswitch.1 _).2 ⟨rfl, by decide, List.cons_ne_nil _ _, hbefore⟩
    refine ⟨_, hok, ?_⟩
    rw [(hswitch.2.2 _ hok).1]
    decide

end Statement
end Scriptwright
