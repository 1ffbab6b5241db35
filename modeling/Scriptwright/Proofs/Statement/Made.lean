/-
The statements that the checked constructors build, parts before wholes
(`Statement.Made`), and what each constructor promises of what it lets
through (`Made.sound`).
-/
import Scriptwright.Proofs.Text.Characters
import Scriptwright.Statement.Checked

namespace Scriptwright

/-! ## What the constructors let through -/

theorem delimiterPlace?_eq_none_iff {payload : List String} :
    delimiterPlace? payload = none ↔ hereDelimiter ∉ payload := by
  simp only [delimiterPlace?, List.findIdx?_eq_none_iff, beq_eq_false_iff_ne]
  exact ⟨fun h hm => h _ hm rfl, fun h line hl he => h (he ▸ hl)⟩

theorem isQuoteUnsafe_eq_false_iff {text : String} :
    isQuoteUnsafe text = false ↔ '\x22' ∉ text.toList ∧ '\n' ∉ text.toList ∧ '\r' ∉ text.toList := by
  simp only [isQuoteUnsafe, Text.isBreakChar, List.any_eq_false, Bool.or_eq_true, beq_iff_eq, not_or]
  constructor
  · intro h
    exact ⟨fun hm => (h _ hm).1 rfl, fun hm => (h _ hm).2.1 rfl, fun hm => (h _ hm).2.2 rfl⟩
  · rintro ⟨h₁, h₂, h₃⟩ c hc
    exact ⟨fun he => h₁ (he ▸ hc), fun he => h₂ (he ▸ hc), fun he => h₃ (he ▸ hc)⟩

theorem doubleQuote_not_mem_of_values {cases : List (String × Statement)} (h : ∀ c ∈ cases, isQuoteUnsafe c.1 = false) :
    ∀ value ∈ cases.map Prod.fst, '\x22' ∉ value.toList := by
  intro value hvalue
  obtain ⟨c, hc, rfl⟩ := List.mem_map.1 hvalue
  exact (isQuoteUnsafe_eq_false_iff.1 (h c hc)).1

namespace Statement

variable {s : Statement}

theorem makeAppendFile_eq_ok_iff {path : String} {payload : List String} :
    makeAppendFile path payload = .ok s ↔
      s = .appendFile path payload ∧ Text.isBlank path = false ∧ isQuoteUnsafe path = false ∧
        delimiterPlace? payload = none := by
  unfold makeAppendFile
  cases Text.isBlank path <;> cases isQuoteUnsafe path <;> cases delimiterPlace? payload <;> simp [eq_comm]

theorem makeExport_eq_ok_iff {name value : String} :
    makeExport name value = .ok s ↔
      s = .exportVar name value ∧ isIdentifier name = true ∧ Text.hasBreak value = false := by
  unfold makeExport
  cases isIdentifier name <;> cases Text.hasBreak value <;> simp [eq_comm]

theorem makeCall_eq_ok_iff {function : String} {args : List String} :
    makeCall function args = .ok s ↔
      s = .call function args ∧ isIdentifier function = true ∧ ∀ arg ∈ args, Text.hasBreak arg = false := by
  have hf : args.find? Text.hasBreak = none ↔ ∀ arg ∈ args, Text.hasBreak arg = false := by simp
  rw [← hf]
  unfold makeCall
  cases isIdentifier function <;> cases args.find? Text.hasBreak <;> simp [eq_comm]

theorem makeLeave_eq_ok_iff {code : String} :
    makeLeave code = .ok s ↔ s = .leave code ∧ Text.isBlank code = false ∧ Text.hasBreak code = false := by
  unfold makeLeave
  cases Text.isBlank code <;> cases Text.hasBreak code <;> simp [eq_comm]

/-! ### Case values -/

/-- What a label is found by, from the value it is made of. -/
def caseKey (value : String) : String :=
  labelKey (labelOf value)

theorem lookup_eq_none_iff_not_mem {entries : List (String × String)} {key : String} :
    entries.lookup key = none ↔ key ∉ entries.map Prod.fst := by
  rw [List.lookup_eq_none_iff, List.mem_map]
  constructor
  · rintro h ⟨entry, he, rfl⟩
    simpa using h entry he
  · intro h entry he
    exact bne_iff_ne.2 fun heq => h ⟨entry, he, heq.symm⟩

/-- One value passes if it can stand in quotes and its label is not one of those before it. -/
theorem checkCaseValues_cons_eq_ok_iff {earlier : List (String × String)} {value : String} {rest : List String} :
    checkCaseValues earlier (value :: rest) = .ok () ↔
      isQuoteUnsafe value = false ∧ caseKey value ∉ earlier.map Prod.fst ∧
        checkCaseValues ((caseKey value, value) :: earlier) rest = .ok () := by
  rw [← lookup_eq_none_iff_not_mem, checkCaseValues, caseKey]
  cases isQuoteUnsafe value <;> cases earlier.lookup (labelKey (labelOf value)) <;> simp
  split <;> simp

theorem checkCaseValues_eq_ok_iff {earlier : List (String × String)} {values : List String} :
    checkCaseValues earlier values = .ok () ↔
      (∀ value ∈ values, isQuoteUnsafe value = false) ∧ (values.map caseKey).Nodup ∧
        ∀ value ∈ values, caseKey value ∉ earlier.map Prod.fst := by
  induction values generalizing earlier with
  | nil => simp [checkCaseValues]
  | cons value rest ih =>
    simp only [checkCaseValues_cons_eq_ok_iff, ih, List.map_cons, List.mem_cons, not_or, forall_eq_or_imp,
      List.nodup_cons]
    constructor
    · rintro ⟨hu, hm, hus, hn, hd⟩
      have hv : caseKey value ∉ rest.map caseKey := fun hc => by
        obtain ⟨other, ho, he⟩ := List.mem_map.1 hc
        exact (hd other ho).1 he
      exact ⟨⟨hu, hus⟩, ⟨hv, hn⟩, hm, fun v h => (hd v h).2⟩
    · rintro ⟨⟨hu, hus⟩, ⟨hv, hn⟩, hm, hd⟩
      exact ⟨hu, hm, hus, hn, fun v h => ⟨fun he => hv (he ▸ List.mem_map_of_mem h), hd v h⟩⟩

theorem makeSwitch_eq_ok_iff {index : Nat} {cases : List (String × Statement)} :
    makeSwitch index cases = .ok s ↔
      s = .switchArg index cases ∧ index ≠ 0 ∧ cases ≠ [] ∧
        (∀ c ∈ cases, isQuoteUnsafe c.1 = false) ∧ (cases.map fun c => caseKey c.1).Nodup := by
  have hc : checkCaseValues [] (cases.map Prod.fst) = .ok () ↔
      (∀ c ∈ cases, isQuoteUnsafe c.1 = false) ∧ (cases.map fun c => caseKey c.1).Nodup := by
    rw [checkCaseValues_eq_ok_iff]
    simp [Function.comp_def]
  rw [← hc]
  unfold makeSwitch
  by_cases hi : index = 0
  · simp [hi]
  · cases checkCaseValues [] (cases.map Prod.fst) with
    | error r => simp [hi]
    | ok u => cases cases <;> simp [hi, eq_comm]

/-! ## Built statements -/

/-- Built by the constructors, parts before wholes. -/
inductive Made : Statement → Prop
  | exec (command : String) (replacing : Bool) : Made (.exec command replacing)
  | interpret (text : String) : Made (.interpret text)
  | appendFile {path : String} {payload : List String} {s : Statement} (h : makeAppendFile path payload = .ok s) :
      Made s
  | list {body : List Statement} (h : ∀ s ∈ body, Made s) : Made (.list body)
  | switchArg {index : Nat} {cases : List (String × Statement)} {s : Statement} (h : ∀ c ∈ cases, Made c.2)
      (hs : makeSwitch index cases = .ok s) : Made s
  | exportVar {name value : String} {s : Statement} (h : makeExport name value = .ok s) : Made s
  | call {function : String} {args : List String} {s : Statement} (h : makeCall function args = .ok s) : Made s
  | comment (text : String) : Made (.comment text)
  | leaveWith (code : Int) : Made (leaveWith code)
  | leave {code : String} {s : Statement} (h : makeLeave code = .ok s) : Made s

/-- What is promised of a built statement, its parts included. -/
def Sound : Statement → Prop
  | exec .. | interpret _ | comment _ => True
  | appendFile path payload =>
    Text.isBlank path = false ∧ isQuoteUnsafe path = false ∧ delimiterPlace? payload = none
  | list body => ∀ s ∈ body, s.Made
  | switchArg index cases =>
    index ≠ 0 ∧ cases ≠ [] ∧ (∀ c ∈ cases, isQuoteUnsafe c.1 = false) ∧ (cases.map fun c => caseKey c.1).Nodup ∧
      ∀ c ∈ cases, c.2.Made
  | exportVar name value => isIdentifier name = true ∧ Text.hasBreak value = false
  | call function args => isIdentifier function = true ∧ ∀ arg ∈ args, Text.hasBreak arg = false
  | leave code => Text.isBlank code = false ∧ Text.hasBreak code = false

theorem Made.sound (h : Made s) : s.Sound := by
  cases h with
  | exec | interpret | comment => trivial
  | list h => exact h
  | appendFile h => obtain ⟨rfl, hok⟩ := makeAppendFile_eq_ok_iff.1 h; exact hok
  | switchArg h hs =>
    obtain ⟨rfl, h₁, h₂, h₃, h₄⟩ := makeSwitch_eq_ok_iff.1 hs
    exact ⟨h₁, h₂, h₃, h₄, h⟩
  | exportVar h => obtain ⟨rfl, hok⟩ := makeExport_eq_ok_iff.1 h; exact hok
  | call h => obtain ⟨rfl, hok⟩ := makeCall_eq_ok_iff.1 h; exact hok
  | leaveWith code => exact ⟨Text.isBlank_toString_int code, Text.hasBreak_toString_int code⟩
  | leave h => obtain ⟨rfl, hok⟩ := makeLeave_eq_ok_iff.1 h; exact hok

theorem Made.of_list_cons {ss : List Statement} (h : (Statement.list (s :: ss)).Made) :
    s.Made ∧ (Statement.list ss).Made :=
  ⟨h.sound s List.mem_cons_self, .list fun t ht => h.sound t (List.mem_cons_of_mem _ ht)⟩

end Statement
end Scriptwright
