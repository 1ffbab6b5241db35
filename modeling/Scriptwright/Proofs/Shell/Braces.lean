/-
What bash makes of braces in a word without quotes. A brace starts a group if
another one closes it behind a comma or two dots of their own (`group?`). A group
with a comma in it stands for each of its alternatives, one that is a range for
each of its steps, and any other is taken as it is written, groups inside it
too (`braceWords`). Each word that comes of an expression lacks its braces, so a
word is left alone exactly when it has no expression (`mem_braceWords_iff`).
-/
import Scriptwright.Proofs.Shell.Label

namespace Scriptwright.Shell

/-! ## Groups -/

/-- How deep in braces a reader is behind one more character. -/
def depthAfter (depth : Nat) (c : Char) : Nat :=
  if c = '\x7b' then depth + 1 else if c = '\x7d' then depth - 1 else depth

/-- Whether a comma comes next, or two dots that are not right before a closing brace. -/
def isSeparator : Char → List Char → Bool
  | ',', _ => true
  | '.', '.' :: cs => cs.head? != some '\x7d'
  | _, _ => false

/-- The inside of a group from behind its opening brace, and what follows the group. A brace closes it only behind a
separator of its own. -/
def inside? (depth : Nat) (separated : Bool) : List Char → Option (List Char × List Char)
  | [] => none
  | c :: cs =>
    if c = '\x7d' ∧ depth = 0 ∧ separated = true then some ([], cs)
    else
      (inside? (depthAfter depth c) (separated || (depth == 0 && isSeparator c cs)) cs).map
        fun (inner, rest) => (c :: inner, rest)

/-- The inside of the group that a text starts with, and what follows it. Two braces that start a word are no part of
a group. -/
def group? (start : Bool) : List Char → Option (List Char × List Char)
  | '\x7b' :: cs => if start = true ∧ cs.head? = some '\x7d' then none else inside? 0 false cs
  | _ => none

/-- The texts between the commas that stand in no braces. -/
def alternatives (depth : Nat) : List Char → List (List Char)
  | [] => [[]]
  | c :: cs =>
    if c = ',' ∧ depth = 0 then [] :: alternatives 0 cs
    else (alternatives (depthAfter depth c) cs).modifyHead (c :: ·)

/-! ## Ranges -/

/-- The texts between double dots. -/
def cutDots : List Char → List (List Char)
  | [] => [[]]
  | '.' :: '.' :: cs => [] :: cutDots cs
  | c :: cs => (cutDots cs).modifyHead (c :: ·)

/-- The largest number of 64 bits. -/
def largest : Nat := 0x7fffffffffffffff

/-- A whole number of 64 bits, which may have a sign. -/
def number? (cs : List Char) : Option Int :=
  let (negative, digits) := match cs with
    | '-' :: ds => (true, ds)
    | '+' :: ds => (false, ds)
    | ds => (false, ds)
  let size : Int := Nat.ofDigitChars 10 digits 0
  let n := if negative then -size else size
  if digits ≠ [] ∧ digits.all Char.isDigit ∧ -largest ≤ n + 1 ∧ n ≤ largest then some n else none

/-- Whether a number is written with zeros before it. -/
def isPadded : List Char → Bool
  | '0' :: _ :: _ => true
  | '-' :: '0' :: _ :: _ => true
  | _ => false

/-- How wide the numbers of a range are if one of its ends is written with zeros before it. -/
def paddedWidth (first last : List Char) : Nat :=
  if isPadded first || isPadded last then max first.length last.length else 0

/-- A number with as many zeros before it as a width asks for. It is written whole, where some shells cut a padded
number to 32 bits. -/
def padded (width : Nat) (n : Int) : List Char :=
  let digits := n.natAbs.repr.toList
  let sign := if n < 0 then ['-'] else []
  sign ++ List.replicate (width - sign.length - digits.length) '0' ++ digits

/-- The numbers from one to another, up or down. -/
def steps (a b : Int) (step : Nat) : List Int :=
  (List.range ((b - a).natAbs / step + 1)).map fun i : Nat => if a ≤ b then a + i * step else a - i * step

/-- How far one step of an increment goes, whose sign does not count. -/
def stride (increment : Int) : Nat :=
  max increment.natAbs 1

/-- Whether the shell counts from one number to another by an increment. On the way up it turns a negative one round,
and must be able to. It must hold the distance, but looks at that only on the way down from a positive number and on the
way up from a negative one; and it must hold how many steps there are in 31 bits. -/
def isCountable (a b increment : Int) : Bool :=
  (b ≤ a || increment != -largest - 1) && (a ≤ 0 || a - b ≤ largest - 2) && (0 ≤ a || b - a ≤ largest - 2) &&
    (b - a).natAbs / stride increment ≤ 0x7ffffffc

/-- The numbers that the shell counts from one to another. -/
def counted? (a b increment : Int) : Option (List Int) :=
  if isCountable a b increment then some (steps a b (stride increment)) else none

/-- The letters from one to another. -/
def lettersBy? (increment : Int) : List Char → List Char → Option (List (List Char))
  | [c], [d] =>
    if c.isAlpha && d.isAlpha then
      (counted? c.toNat d.toNat increment).map (·.map fun n => [Char.ofNat n.toNat])
    else none
  | _, _ => none

/-- The words from one number or letter to another. -/
def rangeBy? (increment : Int) (first last : List Char) : Option (List (List Char)) :=
  match number? first, number? last with
  | some a, some b => (counted? a b increment).map (·.map (padded (paddedWidth first last)))
  | none, none => lettersBy? increment first last
  | _, _ => none

/-- The words of a range: two ends, and maybe an increment. -/
def range? (inner : List Char) : Option (List (List Char)) :=
  match cutDots inner with
  | [first, last] => rangeBy? 1 first last
  | [first, last, increment] => (number? increment).bind fun n => rangeBy? n first last
  | _ => none

/-! ## Words -/

variable {start : Bool} {depth : Nat} {separated : Bool} {c : Char} {cs inner rest : List Char}

theorem eq_append_of_inside? (h : inside? depth separated cs = some (inner, rest)) :
    cs = inner ++ '\x7d' :: rest := by
  induction cs generalizing depth separated inner with
  | nil => cases h
  | cons c cs ih =>
    rw [inside?] at h
    split at h
    · next hclose =>
      obtain ⟨rfl, rfl⟩ : [] = inner ∧ cs = rest := by simpa using h
      rw [hclose.1, List.nil_append]
    · obtain ⟨⟨inner, rest⟩, hfound, he⟩ := Option.map_eq_some_iff.1 h
      obtain ⟨rfl, rfl⟩ := Prod.mk.inj he
      rw [List.cons_append, ← ih hfound]

/-- A group is written there in full. -/
theorem eq_append_of_group? (h : group? start cs = some (inner, rest)) :
    cs = '\x7b' :: (inner ++ '\x7d' :: rest) := by
  unfold group? at h
  split at h
  · split at h
    · cases h
    · rw [← eq_append_of_inside? h]
  · cases h

theorem length_of_group? (h : group? start cs = some (inner, rest)) : cs.length = inner.length + rest.length + 2 := by
  rw [eq_append_of_group? h]
  simp only [List.length_cons, List.length_append]
  omega

/-- An alternative is a part of the text. -/
theorem sublist_of_mem_alternatives {text : List Char} (h : text ∈ alternatives depth cs) : text.Sublist cs := by
  induction cs generalizing depth text with
  | nil => simpa [alternatives] using h
  | cons c cs ih =>
    rw [alternatives] at h
    split at h
    · rcases List.mem_cons.1 h with rfl | h
      · exact List.nil_sublist _
      · exact (ih h).cons c
    · cases halt : alternatives (depthAfter depth c) cs with
      | nil => rw [halt] at h; cases h
      | cons first others =>
        rw [halt, List.modifyHead_cons, List.mem_cons] at h
        rcases h with rfl | h
        · exact (ih (halt ▸ List.mem_cons_self)).cons_cons c
        · exact (ih (halt ▸ List.mem_cons_of_mem _ h)).cons c

/-- The words that a word without quotes stands for, before anything else is made of them. -/
def braceWords (start : Bool) (cs : List Char) : List (List Char) :=
  match cs with
  | [] => [[]]
  | c :: cs =>
    match _ : group? start (c :: cs) with
    | none => (braceWords false cs).map (c :: ·)
    | some (inner, rest) =>
      let choices :=
        if inner.contains ',' then (alternatives 0 inner).attach.flatMap fun ⟨text, _⟩ => braceWords true text
        else (range? inner).getD ['\x7b' :: (inner ++ ['\x7d'])]
      choices.flatMap fun text => (braceWords true rest).map (text ++ ·)
termination_by cs.length
decreasing_by
  · simp
  · have := length_of_group? ‹_›
    have := (sublist_of_mem_alternatives ‹text ∈ _›).length_le
    omega
  · have := length_of_group? ‹_›
    omega

/-- Whether a group stands for other words than itself: it holds a comma, or is a range. -/
def isExpression (inner : List Char) : Bool :=
  inner.contains ',' || (range? inner).isSome

/-- Whether a word holds such a group. -/
def hasExpression (start : Bool) (cs : List Char) : Bool :=
  match cs with
  | [] => false
  | c :: cs =>
    match _ : group? start (c :: cs) with
    | none => hasExpression false cs
    | some (inner, rest) => isExpression inner || hasExpression true rest
termination_by cs.length
decreasing_by
  · simp
  · have := length_of_group? ‹_›
    omega

theorem braceWords_nil : braceWords start [] = [[]] := by
  rw [braceWords]

theorem braceWords_cons (h : group? start (c :: cs) = none) :
    braceWords start (c :: cs) = (braceWords false cs).map (c :: ·) := by
  rw [braceWords]
  split
  · rfl
  · next h' => rw [h] at h'; cases h'

/-- The words that a group stands for. -/
def groupWords (inner : List Char) : List (List Char) :=
  if inner.contains ',' then (alternatives 0 inner).flatMap (braceWords true)
  else (range? inner).getD ['\x7b' :: (inner ++ ['\x7d'])]

theorem braceWords_of_group? (h : group? start cs = some (inner, rest)) :
    braceWords start cs = (groupWords inner).flatMap fun text => (braceWords true rest).map (text ++ ·) := by
  obtain rfl := eq_append_of_group? h
  rw [braceWords]
  split
  · next h' => rw [h] at h'; cases h'
  · next h' =>
    obtain ⟨rfl, rfl⟩ : inner = _ ∧ rest = _ := by simpa using h.symm.trans h'
    rw [groupWords]
    simp

theorem hasExpression_nil : hasExpression start [] = false := by
  rw [hasExpression]

theorem hasExpression_cons (h : group? start (c :: cs) = none) :
    hasExpression start (c :: cs) = hasExpression false cs := by
  rw [hasExpression]
  split
  · rfl
  · next h' => rw [h] at h'; cases h'

theorem hasExpression_of_group? (h : group? start cs = some (inner, rest)) :
    hasExpression start cs = (isExpression inner || hasExpression true rest) := by
  obtain rfl := eq_append_of_group? h
  rw [hasExpression]
  split
  · next h' => rw [h] at h'; cases h'
  · next h' =>
    obtain ⟨rfl, rfl⟩ : inner = _ ∧ rest = _ := by simpa using h.symm.trans h'
    rfl

/-! ## Words that are left alone -/

/-- A word without an expression stands for itself. -/
theorem braceWords_of_hasExpression_eq_false {start : Bool} {cs : List Char} (h : hasExpression start cs = false) :
    braceWords start cs = [cs] := by
  match cs with
  | [] => exact braceWords_nil
  | c :: cs =>
    cases hgroup : group? start (c :: cs) with
    | none =>
      rw [hasExpression_cons hgroup] at h
      rw [braceWords_cons hgroup, braceWords_of_hasExpression_eq_false h, List.map_singleton]
    | some found =>
      obtain ⟨inner, rest⟩ := found
      have hlength := length_of_group? hgroup
      rw [hasExpression_of_group? hgroup, Bool.or_eq_false_iff, isExpression, Bool.or_eq_false_iff,
        Option.isSome_eq_false_iff, Option.isNone_iff_eq_none] at h
      obtain ⟨⟨hcomma, hrange⟩, hrest⟩ := h
      have hword : groupWords inner = ['\x7b' :: (inner ++ ['\x7d'])] := by
        rw [groupWords, hcomma, hrange]
        rfl
      rw [braceWords_of_group? hgroup, hword, braceWords_of_hasExpression_eq_false hrest, eq_append_of_group? hgroup]
      simp
termination_by cs.length
decreasing_by all_goals (simp only [List.length_cons] at *; omega)

/-- The steps of a range lie between its ends. -/
theorem bounds_of_mem_steps {a b n : Int} {step : Nat} (h : n ∈ steps a b step) : min a b ≤ n ∧ n ≤ max a b := by
  obtain ⟨i, hi, rfl⟩ := List.mem_map.1 h
  have hsize : i * step ≤ (b - a).natAbs := by
    have hle : i ≤ (b - a).natAbs / step := Nat.lt_succ_iff.1 (List.mem_range.1 hi)
    exact Nat.le_trans (Nat.mul_le_mul_right step hle) (Nat.div_mul_le_self _ _)
  have hcast : (i : Int) * step = ((i * step : Nat) : Int) := by simp
  rw [hcast]
  split <;> omega

theorem bounds_of_mem_counted? {a b increment n : Int} {ns : List Int} (h : counted? a b increment = some ns)
    (hn : n ∈ ns) : min a b ≤ n ∧ n ≤ max a b := by
  unfold counted? at h
  split at h
  · obtain rfl := Option.some.inj h
    exact bounds_of_mem_steps hn
  · cases h

theorem brace_not_mem_padded (width : Nat) (n : Int) : '\x7b' ∉ padded width n := by
  have hdigits : '\x7b' ∉ n.natAbs.repr.toList := fun h => absurd (Text.isDigit_of_mem_repr h) (by decide)
  simp only [padded, List.mem_append, not_or, hdigits, not_false_eq_true, and_true]
  constructor
  · split <;> simp
  · simp

theorem brace_not_mem_of_lettersBy? {increment : Int} {first last word : List Char} {words : List (List Char)}
    (h : lettersBy? increment first last = some words) (hword : word ∈ words) : '\x7b' ∉ word := by
  unfold lettersBy? at h
  split at h
  · next c d =>
    split at h
    · next halpha =>
      obtain ⟨ns, hns, rfl⟩ := Option.map_eq_some_iff.1 h
      obtain ⟨n, hn, rfl⟩ := List.mem_map.1 hword
      -- Letters come before braces.
      have hletter : ∀ {c : Char}, c.isAlpha = true → c.toNat < 123 := fun {c} hc => by
        have := Text.toNat_of_isWordChar (c := c) (by simp [Text.isWordChar, Char.isAlphanum, hc])
        omega
      obtain ⟨hc, hd⟩ := Bool.and_eq_true_iff.1 halpha
      have hc := hletter hc
      have hd := hletter hd
      have hbounds := bounds_of_mem_counted? hns hn
      have hbefore : ∀ k < 123, Char.ofNat k ≠ '\x7b' := by decide
      simpa using (hbefore n.toNat (by omega)).symm
    · cases h
  · cases h

theorem brace_not_mem_of_rangeBy? {increment : Int} {first last word : List Char} {words : List (List Char)}
    (h : rangeBy? increment first last = some words) (hword : word ∈ words) : '\x7b' ∉ word := by
  unfold rangeBy? at h
  split at h
  · obtain ⟨ns, -, rfl⟩ := Option.map_eq_some_iff.1 h
    obtain ⟨n, -, rfl⟩ := List.mem_map.1 hword
    exact brace_not_mem_padded _ n
  · exact brace_not_mem_of_lettersBy? h hword
  · cases h

theorem brace_not_mem_of_range? {word : List Char} {words : List (List Char)} (h : range? inner = some words)
    (hword : word ∈ words) : '\x7b' ∉ word := by
  unfold range? at h
  split at h
  · exact brace_not_mem_of_rangeBy? h hword
  · obtain ⟨n, -, h⟩ := Option.bind_eq_some_iff.1 h
    exact brace_not_mem_of_rangeBy? h hword
  · cases h

/-- A word that a group stands for has no more opening braces than the group, and fewer if the group is an
expression. -/
theorem count_le_of_mem_groupWords {word : List Char}
    (hparts : ∀ text ∈ alternatives 0 inner, ∀ word ∈ braceWords true text, word.count '\x7b' ≤ text.count '\x7b')
    (h : word ∈ groupWords inner) : word.count '\x7b' + (isExpression inner).toNat ≤ inner.count '\x7b' + 1 := by
  have hle := Bool.toNat_le (isExpression inner)
  rw [groupWords] at h
  split at h
  · obtain ⟨text, htext, hword⟩ := List.mem_flatMap.1 h
    have hcount := hparts text htext word hword
    have hpart := (sublist_of_mem_alternatives htext).count_le '\x7b'
    omega
  · next hcomma =>
    cases hrange : range? inner with
    | some words =>
      rw [hrange, Option.getD_some] at h
      rw [List.count_eq_zero.2 (brace_not_mem_of_range? hrange h)]
      omega
    | none =>
      rw [hrange, Option.getD_none, List.mem_singleton] at h
      rw [Bool.not_eq_true] at hcomma
      have hno : isExpression inner = false := by rw [isExpression, hrange, hcomma]; rfl
      rw [h, hno]
      simp

/-- A word that another stands for has fewer opening braces if that one has an expression, and never more. -/
theorem count_le_of_mem_braceWords {start : Bool} {cs word : List Char} (h : word ∈ braceWords start cs) :
    word.count '\x7b' + (hasExpression start cs).toNat ≤ cs.count '\x7b' := by
  match cs with
  | [] =>
    rw [braceWords_nil, List.mem_singleton] at h
    rw [h, hasExpression_nil]
    exact Nat.le_refl _
  | c :: cs =>
    cases hgroup : group? start (c :: cs) with
    | none =>
      rw [braceWords_cons hgroup] at h
      obtain ⟨word, hword, rfl⟩ := List.mem_map.1 h
      have hcount := count_le_of_mem_braceWords hword
      rw [hasExpression_cons hgroup, List.count_cons, List.count_cons]
      omega
    | some found =>
      obtain ⟨inner, rest⟩ := found
      have hlength := length_of_group? hgroup
      rw [braceWords_of_group? hgroup] at h
      obtain ⟨text, htext, h⟩ := List.mem_flatMap.1 h
      obtain ⟨word, hword, rfl⟩ := List.mem_map.1 h
      -- What is behind the group is a word of its own, and so is each alternative in it.
      have hbehind := count_le_of_mem_braceWords hword
      have hin : text.count '\x7b' + (isExpression inner).toNat ≤ inner.count '\x7b' + 1 := by
        refine count_le_of_mem_groupWords (fun part hpart word hword => ?_) htext
        have hshorter := (sublist_of_mem_alternatives hpart).length_le
        exact Nat.le_trans (Nat.le_add_right _ _) (count_le_of_mem_braceWords hword)
      have hor : (isExpression inner || hasExpression true rest).toNat
          ≤ (isExpression inner).toNat + (hasExpression true rest).toNat := by
        cases isExpression inner <;> cases hasExpression true rest <;> decide
      rw [hasExpression_of_group? hgroup, eq_append_of_group? hgroup, List.count_append, List.count_cons_self,
        List.count_append, List.count_cons_of_ne (by decide)]
      omega
termination_by cs.length
decreasing_by all_goals (simp only [List.length_cons] at *; omega)

/-- A word is left alone exactly when it has no expression. -/
theorem mem_braceWords_iff : cs ∈ braceWords start cs ↔ hasExpression start cs = false := by
  constructor
  · intro h
    have hcount := count_le_of_mem_braceWords h
    cases hexpression : hasExpression start cs with
    | false => rfl
    | true =>
      rw [hexpression, Bool.toNat_true] at hcount
      omega
  · intro h
    rw [braceWords_of_hasExpression_eq_false h]
    exact List.mem_singleton_self cs

/-- An expression is a comma or a range that braces of the word enclose. -/
theorem exists_of_hasExpression {start : Bool} {cs : List Char} (h : hasExpression start cs = true) :
    ∃ before inner behind, cs = before ++ '\x7b' :: (inner ++ '\x7d' :: behind) ∧
      (',' ∈ inner ∨ (range? inner).isSome = true) := by
  match cs with
  | [] => rw [hasExpression_nil] at h; cases h
  | c :: cs =>
    cases hgroup : group? start (c :: cs) with
    | none =>
      rw [hasExpression_cons hgroup] at h
      obtain ⟨before, inner, behind, rfl, hacts⟩ := exists_of_hasExpression h
      exact ⟨c :: before, inner, behind, rfl, hacts⟩
    | some found =>
      obtain ⟨inner, rest⟩ := found
      have hlength := length_of_group? hgroup
      rw [hasExpression_of_group? hgroup, Bool.or_eq_true] at h
      rcases h with h | h
      · rw [isExpression, Bool.or_eq_true, List.contains_iff_mem] at h
        exact ⟨[], inner, rest, eq_append_of_group? hgroup, h⟩
      · obtain ⟨before, other, behind, hrest, hacts⟩ := exists_of_hasExpression h
        refine ⟨'\x7b' :: (inner ++ '\x7d' :: before), other, behind, ?_, hacts⟩
        rw [eq_append_of_group? hgroup, hrest]
        simp
termination_by cs.length
decreasing_by all_goals (simp only [List.length_cons] at *; omega)

/-! ## Reading -/

/-- Whether a character without quotes is more than a part of its word: it ends the word, quotes, or stands for
something else. -/
def isActive (c : Char) : Bool :=
  isSpecial c || c == '\x27' || c == '\\'

/-- The words that a shell reads a word without quotes as. Empty ones are dropped; a word is not read where some
character in it is active. -/
def bareWords? (word : String) : Option (List String) :=
  let found := (braceWords true word.toList).filter (· ≠ [])
  if found.all fun cs => !cs.any isActive then some (found.map String.ofList) else none

/-- A word without active characters is read as itself exactly when it has no expression. -/
theorem bareWords?_eq_iff {word : String} (hne : word.toList ≠ []) (hplain : ∀ c ∈ word.toList, isActive c = false) :
    bareWords? word = some [word] ↔ hasExpression true word.toList = false := by
  constructor
  · intro h
    rw [bareWords?] at h
    split at h
    · have hfound : word ∈ ((braceWords true word.toList).filter (· ≠ [])).map String.ofList := by
        rw [Option.some.inj h]
        exact List.mem_singleton_self word
      obtain ⟨cs, hcs, rfl⟩ := List.mem_map.1 hfound
      rw [String.toList_ofList]
      rw [String.toList_ofList] at hcs
      exact mem_braceWords_iff.1 (List.mem_of_mem_filter hcs)
    · cases h
  · intro h
    have hall : (word.toList.any isActive) = false := List.any_eq_false.2 fun c hc => by simp [hplain c hc]
    simp [bareWords?, braceWords_of_hasExpression_eq_false h, hne, hall]

example : bareWords? "a\x7bb,\x7b1..3\x7d\x7d" = some ["ab", "a1", "a2", "a3"] := by
  cbv

example : bareWords? "\x7b1..9223372036854775807..9223372036854775807\x7d" = some ["1"] := by
  cbv

end Scriptwright.Shell
