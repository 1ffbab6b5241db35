/-
Which characters the texts of a script can hold: no blank among the visible
ones of ASCII, no break in a name or a number.
-/
import Scriptwright.Name
import Scriptwright.Text.Blank
import Scriptwright.Text.Breaks

namespace Scriptwright.Text

/-- The visible characters of ASCII are not blank. -/
theorem isBlankChar_eq_false_of_visible {c : Char} (h : 0x21 ≤ c.toNat) (h' : c.toNat ≤ 0x7E) :
    isBlankChar c = false := by
  simp only [isBlankChar, inRanges, blankRanges, List.any_cons, List.any_nil, Bool.or_false, Bool.or_eq_false_iff,
    Bool.and_eq_false_iff, decide_eq_false_iff_not]
  omega

theorem isBlank_eq_false_of_mem {text : String} {c : Char} (hm : c ∈ text.toList) (hc : isBlankChar c = false) :
    isBlank text = false := by
  rw [isBlank, List.all_eq_false]
  exact ⟨c, hm, by simp [hc]⟩

/-- A text with more around it is no blanker. -/
theorem isBlank_append (a b : String) : isBlank (a ++ b) = (isBlank a && isBlank b) := by
  simp [isBlank]

theorem hasBreak_eq_false_iff {text : String} :
    hasBreak text = false ↔ '\n' ∉ text.toList ∧ '\r' ∉ text.toList := by
  simp only [hasBreak, isBreakChar, List.any_eq_false, Bool.or_eq_true, beq_iff_eq, not_or]
  constructor
  · intro h
    exact ⟨fun hm => (h _ hm).1 rfl, fun hm => (h _ hm).2 rfl⟩
  · rintro ⟨h₁, h₂⟩ c hc
    exact ⟨fun he => h₁ (he ▸ hc), fun he => h₂ (he ▸ hc)⟩

theorem hasBreak_append (a b : String) : hasBreak (a ++ b) = (hasBreak a || hasBreak b) := by
  simp [hasBreak]

/-! ## Numbers -/

theorem toNat_of_isDigit {c : Char} (h : c.isDigit = true) : 48 ≤ c.toNat ∧ c.toNat ≤ 57 := by
  simpa [Char.isDigit, UInt32.le_iff_toNat_le] using h

theorem isDigit_of_mem_repr {n : Nat} {c : Char} (h : c ∈ (Nat.repr n).toList) : c.isDigit = true := by
  rw [Nat.toList_repr] at h
  exact Nat.isDigit_of_mem_toDigits (by decide) (by decide) h

/-- A number is written with digits and perhaps a sign. -/
theorem mem_toString_int {n : Int} {c : Char} (h : c ∈ (toString n).toList) : c.isDigit = true ∨ c = '-' := by
  cases n with
  | ofNat m => exact .inl (isDigit_of_mem_repr (n := m) h)
  | negSucc m =>
    change c ∈ ("-" ++ Nat.repr (m + 1)).toList at h
    rw [String.toList_append] at h
    rcases List.mem_append.1 h with h | h
    · exact .inr (by simpa using h)
    · exact .inl (isDigit_of_mem_repr h)

theorem toList_toString_int_ne_nil (n : Int) : (toString n).toList ≠ [] := by
  cases n with
  | ofNat m =>
    change (Nat.repr m).toList ≠ []
    rw [Nat.toList_repr]
    exact Nat.toDigits_ne_nil
  | negSucc m =>
    change ("-" ++ Nat.repr (m + 1)).toList ≠ []
    simp

theorem hasBreak_toString_int (n : Int) : hasBreak (toString n) = false := by
  rw [hasBreak_eq_false_iff]
  constructor <;> intro hm <;> rcases mem_toString_int hm with h | h <;> revert h <;> decide

theorem isBlank_toString_int (n : Int) : isBlank (toString n) = false := by
  obtain ⟨c, cs, hcs⟩ := List.exists_cons_of_ne_nil (toList_toString_int_ne_nil n)
  have hc : c ∈ (toString n).toList := hcs ▸ List.mem_cons_self
  refine isBlank_eq_false_of_mem hc ?_
  rcases mem_toString_int hc with h | rfl
  · have := toNat_of_isDigit h
    exact isBlankChar_eq_false_of_visible (by omega) (by omega)
  · rfl

/-! ## Names -/

theorem toNat_of_isWordChar {c : Char} (h : isWordChar c = true) :
    (48 ≤ c.toNat ∧ c.toNat ≤ 57) ∨ (65 ≤ c.toNat ∧ c.toNat ≤ 90) ∨ c.toNat = 95 ∨
      (97 ≤ c.toNat ∧ c.toNat ≤ 122) := by
  have hranges : ((decide (c.val ≥ 65 ∧ c.val ≤ 90) || decide (c.val ≥ 97) && decide (c.val ≤ 122))
      || decide (c.val ≥ 48) && decide (c.val ≤ 57) || c == '_') = true := h
  simp only [Bool.or_eq_true, Bool.and_eq_true, decide_eq_true_eq, beq_iff_eq, ge_iff_le, UInt32.le_iff_toNat_le]
    at hranges
  rcases hranges with ((h | h) | h) | rfl
  · exact .inr (.inl h)
  · exact .inr (.inr (.inr h))
  · exact .inl h
  · decide

/-- A name starts with a letter or an underscore. -/
theorem identifier_start {name : String} {c : Char} {cs : List Char} (h : isIdentifier name = true)
    (hn : name.toList = c :: cs) : (c.isAlpha || c == '_') = true := by
  rw [isIdentifier, hn, Bool.and_eq_true] at h
  exact h.1

theorem toNat_of_isAlpha {c : Char} (h : c.isAlpha = true) : 65 ≤ c.toNat := by
  have hranges : (decide (c.val ≥ 65 ∧ c.val ≤ 90) || decide (c.val ≥ 97) && decide (c.val ≤ 122)) = true := h
  simp only [Bool.or_eq_true, Bool.and_eq_true, decide_eq_true_eq, ge_iff_le, UInt32.le_iff_toNat_le] at hranges
  rcases hranges with h | h
  · exact h.1
  · exact Nat.le_trans (by decide) h.1

theorem identifier_start_not_digit {name : String} {c : Char} {cs : List Char} (h : isIdentifier name = true)
    (hn : name.toList = c :: cs) : c.isDigit = false := by
  have hstart := identifier_start h hn
  rw [Bool.or_eq_true, beq_iff_eq] at hstart
  rw [← Bool.not_eq_true]
  intro hdigit
  rcases hstart with hletter | rfl
  · have := toNat_of_isAlpha hletter
    have := toNat_of_isDigit hdigit
    omega
  · cases hdigit

theorem isWordChar_of_mem_identifier {name : String} (h : isIdentifier name = true) {c : Char}
    (hc : c ∈ name.toList) : isWordChar c = true := by
  unfold isIdentifier at h
  cases hn : name.toList with
  | nil => simp [hn] at hc
  | cons d ds =>
    rw [hn] at h hc
    simp only [Bool.and_eq_true, Bool.or_eq_true, List.all_eq_true] at h
    rcases List.mem_cons.1 hc with rfl | hc
    · simpa [isWordChar, Char.isAlphanum] using h.1.imp_left .inl
    · exact h.2 c hc

theorem isWordChar_of_mem_labelOf {text : String} {c : Char} (h : c ∈ (labelOf text).toList) :
    isWordChar c = true := by
  rw [labelOf, toList_map, List.mem_map] at h
  obtain ⟨d, -, rfl⟩ := h
  split
  · next hd => exact hd
  · rfl

theorem identifier_ne_nil {name : String} (h : isIdentifier name = true) : name.toList ≠ [] := by
  intro hn
  simp [isIdentifier, hn] at h

end Scriptwright.Text
