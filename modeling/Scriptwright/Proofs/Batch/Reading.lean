/-
How a batch file reads one line. The percent signs come first: from left to
right and once, so what an argument holds is not looked at again
(`expandArguments`). Then the line is a label, a jump, a comparison before some
other command, and so on; words are read without regard to case, the two texts
of a comparison with it (`read`). The lines of a switch read back as what they
were written for.
-/
import Scriptwright.Proofs.Statement.Made
import Scriptwright.Proofs.Statement.Parts

namespace Scriptwright.Batch

/-! ## Percent signs -/

/-- A way to read texts from left to right that takes a doubled percent sign as one and leaves every other
character. -/
structure TakesPercent (read : List Char → List Char) : Prop where
  pair : ∀ cs, read ('%' :: '%' :: cs) = '%' :: read cs
  plain : ∀ c cs, c ≠ '%' → read (c :: cs) = c :: read cs

theorem TakesPercent.append {read : List Char → List Char} (h : TakesPercent read) {a : List Char} (ha : '%' ∉ a)
    (b : List Char) : read (a ++ b) = a ++ read b := by
  induction a with
  | nil => rfl
  | cons c a ih =>
    simp only [List.mem_cons, not_or] at ha
    rw [List.cons_append, h.plain c _ (Ne.symm ha.1), ih ha.2]
    rfl

/-- Doubled percent signs are read as the text they were doubled in. -/
theorem TakesPercent.escapePercent {read : List Char → List Char} (h : TakesPercent read) (text : String)
    (b : List Char) : read ((Batch.escapePercent text).toList ++ b) = text.toList ++ read b := by
  rw [Batch.escapePercent, Text.toList_flatMap]
  induction text.toList with
  | nil => rfl
  | cons c cs ih =>
    rw [List.flatMap_cons, List.append_assoc]
    by_cases hc : c = '%'
    · rw [percentChar, if_pos hc, hc, List.cons_append, List.cons_append, h.pair, List.nil_append, ih]
      rfl
    · rw [percentChar, if_neg hc, List.singleton_append, h.plain c _ hc, ih]
      rfl

/-- A line with its arguments put in, `args` giving their texts by number. -/
def expandArguments (args : Nat → String) : List Char → List Char
  | [] => []
  | c :: cs =>
    if c = '%' then
      match cs with
      | [] => ['%']
      | d :: ds =>
        if d = '%' then '%' :: expandArguments args ds
        else if d.isDigit then (args (d.toNat - 48)).toList ++ expandArguments args ds
        else '%' :: expandArguments args (d :: ds)
    else c :: expandArguments args cs

variable {args : Nat → String}

theorem expandArguments_cons {c : Char} (h : c ≠ '%') (cs : List Char) :
    expandArguments args (c :: cs) = c :: expandArguments args cs := by
  cases cs <;> simp [expandArguments, h]

theorem takesPercent_expandArguments (args : Nat → String) : TakesPercent (expandArguments args) where
  pair cs := by simp [expandArguments]
  plain c cs h := expandArguments_cons h cs

theorem expandArguments_append {a : List Char} (h : '%' ∉ a) (b : List Char) :
    expandArguments args (a ++ b) = a ++ expandArguments args b :=
  (takesPercent_expandArguments args).append h b

theorem expandArguments_of_not_mem {a : List Char} (h : '%' ∉ a) : expandArguments args a = a := by
  have hnil : expandArguments args (a ++ []) = a ++ expandArguments args [] := expandArguments_append h []
  simpa [expandArguments] using hnil

theorem expandArguments_escapePercent (text : String) (b : List Char) :
    expandArguments args ((escapePercent text).toList ++ b) = text.toList ++ expandArguments args b :=
  (takesPercent_expandArguments args).escapePercent text b

theorem expandArguments_argument {index : Nat} {argument : String}
    (h : Family.windows.argumentRef? index = some argument) (b : List Char) :
    expandArguments args (argument.toList ++ b) = (args index).toList ++ expandArguments args b := by
  simp only [Family.argumentRef?] at h
  split at h
  · next hi =>
    cases h
    obtain ⟨hlow, hhigh⟩ := hi
    have hdigits : Nat.toDigits 10 index = [index.digitChar] := Nat.toDigits_of_lt_base (by omega)
    have hdigit : ∀ n ≤ 9, n.digitChar ≠ '%' ∧ n.digitChar.isDigit = true ∧ n.digitChar.toNat - 48 = n := by decide
    obtain ⟨hne, hd, hn⟩ := hdigit index hhigh
    simp [hdigits, expandArguments, hne, hd, hn]
  · cases h

/-! ## Commands -/

/-- What a line does. -/
inductive Command where
  | label (name : String)
  | jump (name : String)
  | leave
  | opening
  | closing
  /-- A comparison of two texts, and what is done if it comes out as expected. -/
  | test (expected : Bool) (left right : String) (next : Command)
  | other
  deriving DecidableEq

/-- What follows a word, given in small letters, at the start of a text. -/
def afterWord? (word : String) (cs : List Char) : Option (List Char) :=
  if word.toList.isPrefixOf (cs.map Char.toLower) then some (cs.drop word.length) else none

/-- A text in double quotes at the start of another, and what follows it. -/
def quoted? : List Char → Option (String × List Char)
  | '\x22' :: cs =>
    match cs.dropWhile (· != '\x22') with
    | _ :: rest => some (String.ofList (cs.takeWhile (· != '\x22')), rest)
    | [] => none
  | _ => none

/-- Two texts in double quotes that are compared, and what follows them. -/
def comparison? (cs : List Char) : Option (String × String × List Char) := do
  let (left, cs) ← quoted? cs
  let cs ← afterWord? " == " cs
  let (right, cs) ← quoted? cs
  let cs ← afterWord? " " cs
  return (left, right, cs)

def test? (cs : List Char) : Option (Bool × String × String × List Char) :=
  match afterWord? "if not " cs with
  | some rest => (comparison? rest).map fun found => (false, found)
  | none => (afterWord? "if " cs).bind fun rest => (comparison? rest).map fun found => (true, found)

/-- What a line without a comparison does. -/
def simple : List Char → Command
  | ':' :: name => .label (String.ofList name)
  | ['('] => .opening
  | [')'] => .closing
  | cs =>
    match afterWord? "goto " cs with
    | some name => .jump (String.ofList name)
    | none => if (afterWord? "exit /b" cs).isSome then .leave else .other

theorem length_of_afterWord? {word : String} {cs rest : List Char} (h : afterWord? word cs = some rest) :
    rest.length = cs.length - word.length := by
  unfold afterWord? at h
  split at h
  · rw [← Option.some.inj h, List.length_drop]
  · cases h

theorem length_of_quoted? {cs rest : List Char} {text : String} (h : quoted? cs = some (text, rest)) :
    rest.length < cs.length := by
  unfold quoted? at h
  split at h
  · next cs =>
    split at h
    · next c rest' hdrop =>
      cases h
      have := (List.dropWhile_suffix (· != '\x22') : _ <:+ cs).length_le
      rw [hdrop] at this
      simp only [List.length_cons] at this ⊢
      omega
    · cases h
  · cases h

theorem length_of_comparison? {cs rest : List Char} {left right : String}
    (h : comparison? cs = some (left, right, rest)) : rest.length < cs.length := by
  simp only [comparison?, Option.bind_eq_bind, Option.bind_eq_some_iff, Prod.exists, Option.pure_def,
    Option.some.injEq, Prod.mk.injEq] at h
  obtain ⟨l, cs₁, h₁, cs₂, h₂, r, cs₃, h₃, cs₄, h₄, rfl, rfl, rfl⟩ := h
  have h₁ := length_of_quoted? h₁
  have h₂ := length_of_afterWord? h₂
  have h₃ := length_of_quoted? h₃
  have h₄ := length_of_afterWord? h₄
  omega

theorem length_of_test? {cs rest : List Char} {expected : Bool} {left right : String}
    (h : test? cs = some (expected, left, right, rest)) : rest.length < cs.length := by
  unfold test? at h
  split at h
  · next rest' hword =>
    obtain ⟨found, hfound, he⟩ := Option.map_eq_some_iff.1 h
    cases he
    have h₁ := length_of_afterWord? hword
    have h₂ := length_of_comparison? hfound
    omega
  · obtain ⟨rest', hword, h⟩ := Option.bind_eq_some_iff.1 h
    obtain ⟨found, hfound, he⟩ := Option.map_eq_some_iff.1 h
    cases he
    have h₁ := length_of_afterWord? hword
    have h₂ := length_of_comparison? hfound
    omega

/-- What the rest of a line does, the white space before it dropped. -/
def command (cs : List Char) : Command :=
  match _h : test? cs with
  | some (expected, left, right, rest) => .test expected left right (command rest)
  | none => simple cs
termination_by cs.length
decreasing_by exact length_of_test? ‹_›

/-- What a line does when the arguments have some texts. -/
def read (args : Nat → String) (text : String) : Command :=
  command ((expandArguments args text.toList).dropWhile (· == ' '))

/-- The name of the label that a line is. Labels are looked for in the file as it stands. -/
def label? (text : String) : Option String :=
  match text.toList.dropWhile (· == ' ') with
  | ':' :: name => some (String.ofList name)
  | _ => none

/-! ## What words and quotes are read as -/

theorem afterWord?_append {word : String} {start : List Char} (h : start.map Char.toLower = word.toList)
    (rest : List Char) : afterWord? word (start ++ rest) = some rest := by
  have hlen : word.length = start.length := by rw [← String.length_toList, ← h, List.length_map]
  unfold afterWord?
  rw [if_pos, hlen, List.drop_left]
  rw [List.map_append, h]
  exact List.isPrefixOf_iff_prefix.2 (List.prefix_append _ _)

theorem takeWhile_dropWhile_append {text : List Char} (h : '\x22' ∉ text) (rest : List Char) :
    (text ++ '\x22' :: rest).takeWhile (· != '\x22') = text ∧
      (text ++ '\x22' :: rest).dropWhile (· != '\x22') = '\x22' :: rest := by
  have hall : ∀ c ∈ text, (c != '\x22') = true := fun c hc => bne_iff_ne.2 fun he => h (he ▸ hc)
  rw [List.takeWhile_append_of_pos hall, List.dropWhile_append_of_pos hall]
  simp

theorem quoted?_append {text : String} (h : '\x22' ∉ text.toList) (rest : List Char) :
    quoted? ('\x22' :: (text.toList ++ '\x22' :: rest)) = some (text, rest) := by
  obtain ⟨htake, hdrop⟩ := takeWhile_dropWhile_append h rest
  simp only [quoted?, htake, hdrop, String.ofList_toList]

/-- Two texts without double quotes, compared. -/
def comparisonOf (left right : String) : List Char :=
  '\x22' :: (left.toList ++ "\" == \"".toList ++ right.toList ++ ['\x22'])

theorem comparison?_append {left right : String} (hl : '\x22' ∉ left.toList) (hr : '\x22' ∉ right.toList)
    (rest : List Char) : comparison? (comparisonOf left right ++ ' ' :: rest) = some (left, right, rest) := by
  have hshape : comparisonOf left right ++ ' ' :: rest
      = '\x22' :: (left.toList ++ '\x22' :: (" == ".toList ++ '\x22' :: (right.toList ++ '\x22' :: (" ".toList ++ rest)))) := by
    simp [comparisonOf]
  have heq : afterWord? " == " (" == ".toList ++ '\x22' :: (right.toList ++ '\x22' :: (" ".toList ++ rest)))
      = some ('\x22' :: (right.toList ++ '\x22' :: (" ".toList ++ rest))) := afterWord?_append (by decide) _
  have hspace : afterWord? " " (" ".toList ++ rest) = some rest := afterWord?_append (by decide) _
  simp only [comparison?, hshape, quoted?_append hl, quoted?_append hr, heq, hspace, Option.bind_eq_bind,
    Option.bind_some, Option.pure_def]

theorem command_of_test? {cs rest : List Char} {expected : Bool} {left right : String}
    (h : test? cs = some (expected, left, right, rest)) : command cs = .test expected left right (command rest) := by
  rw [command]
  split
  · next h' => rw [h] at h'; cases h'; rfl
  · next h' => rw [h] at h'; cases h'

theorem command_of_test?_eq_none {cs : List Char} (h : test? cs = none) : command cs = simple cs := by
  rw [command]
  split
  · next h' => rw [h] at h'; cases h'
  · rfl

theorem command_if_not {left right : String} (hl : '\x22' ∉ left.toList) (hr : '\x22' ∉ right.toList)
    (rest : List Char) : command ("if not ".toList ++ (comparisonOf left right ++ ' ' :: rest))
      = .test false left right (command rest) := by
  refine command_of_test? ?_
  have hword : afterWord? "if not " ("if not ".toList ++ (comparisonOf left right ++ ' ' :: rest))
      = some (comparisonOf left right ++ ' ' :: rest) := afterWord?_append (by decide) _
  simp only [test?, hword, comparison?_append hl hr, Option.map_some]

theorem command_if {left right : String} (hl : '\x22' ∉ left.toList) (hr : '\x22' ∉ right.toList)
    (rest : List Char) : command ("if ".toList ++ (comparisonOf left right ++ ' ' :: rest))
      = .test true left right (command rest) := by
  refine command_of_test? ?_
  have hnot : afterWord? "if not " ("if ".toList ++ (comparisonOf left right ++ ' ' :: rest)) = none := by
    simp [afterWord?, comparisonOf, List.isPrefixOf]
  have hword : afterWord? "if " ("if ".toList ++ (comparisonOf left right ++ ' ' :: rest))
      = some (comparisonOf left right ++ ' ' :: rest) := afterWord?_append (by decide) _
  simp only [test?, hnot, hword, Option.bind_some, comparison?_append hl hr, Option.map_some]

/-- A line whose first character starts no `if` holds no comparison. -/
theorem command_cons {c : Char} (h : c.toLower ≠ 'i') (cs : List Char) : command (c :: cs) = simple (c :: cs) := by
  refine command_of_test?_eq_none ?_
  have hif : ∀ word : String, word.toList.head? = some 'i' → afterWord? word (c :: cs) = none := by
    intro word hw
    cases hword : word.toList with
    | nil => rw [hword] at hw; cases hw
    | cons d ds =>
      rw [hword] at hw
      cases hw
      simp [afterWord?, hword, List.isPrefixOf, Ne.symm h]
  simp only [test?, hif "if not " rfl, hif "if " rfl, Option.bind_none]

/-! ## What the lines of the layout are read as -/

theorem dropWhile_indentation (depth : Nat) (cs : List Char) :
    ((Part.indentation depth).toList ++ cs).dropWhile (· == ' ') = cs.dropWhile (· == ' ') := by
  induction depth with
  | zero => rfl
  | succ depth ih =>
    rw [Part.indentation, String.toList_append, List.append_assoc]
    exact ih

theorem percent_not_mem_indentation (depth : Nat) : '%' ∉ (Part.indentation depth).toList := by
  induction depth with
  | zero => decide
  | succ depth ih => simpa [Part.indentation, Line.step] using ih

@[simp] theorem read_indentation (depth : Nat) (text : String) :
    read args (Part.indentation depth ++ text) = read args text := by
  rw [read, String.toList_append, expandArguments_append (percent_not_mem_indentation depth), dropWhile_indentation,
    ← read]

@[simp] theorem label?_indentation (depth : Nat) (text : String) :
    label? (Part.indentation depth ++ text) = label? text := by
  rw [label?, String.toList_append, dropWhile_indentation, ← label?]

@[simp] theorem label?_colon (name : String) : label? (":" ++ name) = some name := by
  simp [label?]

theorem read_of_expandArguments {text : String} {c : Char} {cs : List Char}
    (h : expandArguments args text.toList = c :: cs) (hs : c ≠ ' ') : read args text = command (c :: cs) := by
  rw [read, h, List.dropWhile_cons_of_neg (by simpa using hs)]

/-- A line that starts with some other character than a percent sign or the one of `if` is one command. -/
theorem read_cons {c : Char} {text : String} {cs : List Char} (ht : text.toList = c :: cs) (hp : c ≠ '%')
    (hs : c ≠ ' ') (hi : c.toLower ≠ 'i') : read args text = simple (c :: expandArguments args cs) := by
  rw [read_of_expandArguments (by rw [ht, expandArguments_cons hp]) hs, command_cons hi]

theorem command_goto {start : List Char} (h : start = "goto ".toList ∨ start = "GOTO ".toList) (name : String) :
    command (start ++ name.toList) = .jump name := by
  have hword : afterWord? "goto " (start ++ name.toList) = some name.toList := by
    refine afterWord?_append ?_ _
    rcases h with rfl | rfl <;> decide
  have hsimple : command (start ++ name.toList) = simple (start ++ name.toList) := by
    rcases h with rfl | rfl <;> exact command_cons (by decide) _
  rw [hsimple]
  unfold simple
  split
  · rcases h with rfl | rfl <;> simp_all
  · rcases h with rfl | rfl <;> simp_all
  · rcases h with rfl | rfl <;> simp_all
  · simp only [hword, String.ofList_toList]

theorem read_goto {start name : String} (hstart : start = "goto " ∨ start = "GOTO ") (h : '%' ∉ name.toList) :
    read args (start ++ name) = .jump name := by
  have hpercent : '%' ∉ start.toList := by rcases hstart with rfl | rfl <;> decide
  have hexpand : expandArguments args (start ++ name).toList = start.toList ++ name.toList := by
    rw [String.toList_append, expandArguments_append hpercent, expandArguments_of_not_mem h]
  have hread : read args (start ++ name) = command (start.toList ++ name.toList) := by
    rcases hstart with rfl | rfl <;> exact read_of_expandArguments hexpand (by decide)
  rw [hread]
  exact command_goto (hstart.imp (congrArg String.toList) (congrArg String.toList)) name

variable {index : Nat} {argument : String}

/-- The single jump of a switch goes to the label made of the argument. -/
theorem read_goto_argument (h : Family.windows.argumentRef? index = some argument) :
    read args ("goto " ++ caseLabelStart ++ argument) = .jump (caseLabelStart ++ args index) := by
  have hexpand : expandArguments args ("goto " ++ caseLabelStart ++ argument).toList
      = "goto ".toList ++ (caseLabelStart ++ args index).toList := by
    have hargument : expandArguments args argument.toList = (args index).toList := by
      have hnil : expandArguments args (argument.toList ++ []) = (args index).toList ++ expandArguments args [] :=
        expandArguments_argument h []
      simpa [expandArguments] using hnil
    rw [String.toList_append, expandArguments_append (by decide), hargument]
    simp
  rw [read_of_expandArguments hexpand (by decide)]
  exact command_goto (.inl rfl) _

theorem read_label (name : String) : ∃ shown, read args (":" ++ name) = .label shown := by
  have htext : (":" ++ name).toList = ':' :: name.toList := by simp
  exact ⟨_, read_cons htext (by decide) (by decide) (by decide)⟩

/-- The comparison of the argument with a value, percent signs read. -/
theorem expandArguments_comparison (h : Family.windows.argumentRef? index = some argument) (value : String)
    (b : List Char) : expandArguments args ((comparison argument value).toList ++ b)
      = comparisonOf (args index) value ++ expandArguments args b := by
  have hshape : (comparison argument value).toList ++ b = ['\x22'] ++ (argument.toList ++ ("\" == \"".toList ++
      ((escapePercent value).toList ++ (['\x22'] ++ b)))) := by simp [comparison]
  rw [hshape, expandArguments_append (by decide), expandArguments_argument h, expandArguments_append (by decide),
    expandArguments_escapePercent, expandArguments_append (by decide)]
  simp [comparisonOf]

/-- The line that opens the guard asks of each value whether the argument differs from it. -/
theorem read_guardLine (h : Family.windows.argumentRef? index = some argument) {values : List String}
    (ha : '\x22' ∉ (args index).toList) (hv : ∀ value ∈ values, '\x22' ∉ value.toList) :
    read args (guardLine argument values)
      = values.foldr (fun value next => .test false (args index) value next) .opening := by
  have hexpand : ∀ values : List String, expandArguments args (guardLine argument values).toList
      = values.flatMap (fun value => "if not ".toList ++ (comparisonOf (args index) value ++ [' '])) ++ ['('] := by
    intro values
    induction values with
    | nil =>
      have hshape : (guardLine argument []).toList = ['('] := by simp [guardLine]
      rw [hshape]
      exact expandArguments_of_not_mem (by decide)
    | cons value values ih =>
      have hshape : (guardLine argument (value :: values)).toList = "if not ".toList ++
          ((comparison argument value).toList ++ ([' '] ++ (guardLine argument values).toList)) := by
        simp [guardLine]
      rw [hshape, expandArguments_append (by decide), expandArguments_comparison h,
        expandArguments_append (by decide), ih]
      simp
  have hread : ∀ values : List String, (∀ value ∈ values, '\x22' ∉ value.toList) →
      command (values.flatMap (fun value => "if not ".toList ++ (comparisonOf (args index) value ++ [' '])) ++ ['('])
        = values.foldr (fun value next => .test false (args index) value next) .opening := by
    intro values hv
    induction values with
    | nil => exact command_cons (by decide) _
    | cons value values ih =>
      rw [List.flatMap_cons, List.foldr_cons, ← ih fun v hm => hv v (List.mem_cons_of_mem _ hm),
        ← command_if_not ha (hv value List.mem_cons_self)]
      simp
  have hstart : ∀ values : List String, ∃ c cs,
      values.flatMap (fun value => "if not ".toList ++ (comparisonOf (args index) value ++ [' '])) ++ ['('] = c :: cs
        ∧ c ≠ ' ' := by
    intro values
    cases values with
    | nil => exact ⟨'(', [], rfl, by decide⟩
    | cons value values => exact ⟨'i', _, rfl, by decide⟩
  obtain ⟨c, cs, hcs, hc⟩ := hstart values
  rw [read_of_expandArguments ((hexpand values).trans hcs) hc, ← hcs, hread values hv]

theorem percent_not_mem_caseLabel (value : String) : '%' ∉ (caseLabel value).toList := by
  rw [caseLabel, String.toList_append, List.mem_append]
  rintro (hm | hm)
  · revert hm; decide
  · exact absurd (Text.isWordChar_of_mem_labelOf hm) (by decide)

/-- One comparison of the dispatch jumps to the label of its value. -/
theorem read_branch (h : Family.windows.argumentRef? index = some argument) {value : String}
    (ha : '\x22' ∉ (args index).toList) (hv : '\x22' ∉ value.toList) :
    read args ("if " ++ comparison argument value ++ " goto " ++ caseLabel value)
      = .test true (args index) value (.jump (caseLabel value)) := by
  have hexpand : expandArguments args ("if " ++ comparison argument value ++ " goto " ++ caseLabel value).toList
      = "if ".toList ++ (comparisonOf (args index) value ++ ' ' :: ("goto ".toList ++ (caseLabel value).toList)) := by
    have hshape : ("if " ++ comparison argument value ++ " goto " ++ caseLabel value).toList
        = "if ".toList ++ ((comparison argument value).toList ++ (" goto ".toList ++ (caseLabel value).toList)) := by
      simp
    rw [hshape, expandArguments_append (by decide), expandArguments_comparison h, expandArguments_append (by decide),
      expandArguments_of_not_mem (percent_not_mem_caseLabel value)]
    rfl
  rw [read_of_expandArguments hexpand (by decide)]
  exact (command_if ha hv _).trans (by rw [command_goto (.inl rfl)])

end Scriptwright.Batch
