/-
Skipping keeps to the grammar for what is skipped. It gets past each value that
the grammar skips, if it has enough calls for the row (`SkipsValue.leaves`), and
it gets past nothing else (`skipped_calls`).
-/
import Scriptwright.Proofs.Json.Grammar
import Scriptwright.Proofs.Results

namespace Scriptwright.Json

variable {finish fuel : Nat} {isFirst : Bool} {t u : Located} {ts us : List Located} {ls rest : List Lexeme}

/-! ## Steps -/

theorem SkipsValue.head_ne {l : Lexeme} (h : SkipsValue (l :: ls) rest) : l ≠ .closeBracket := by
  cases h <;> simp

theorem skipItems_close (h : t.lexeme = .closeBracket) : skipItems finish (fuel + 1) isFirst (t :: ts) = .ok ts := by
  simp only [skipItems, h]

theorem skipItems_first (h : t.lexeme ≠ .closeBracket) :
    skipItems finish (fuel + 1) true (t :: ts) = skipValue finish fuel (t :: ts) >>= skipItems finish fuel false := by
  unfold skipItems
  split
  · next heq => exact absurd heq h
  · next hfirst => cases hfirst
  · rfl
  · contradiction

/-- An element is skipped, whether a comma comes before it or not. -/
theorem skipItems_separated (hts : ts.map Located.lexeme = separated isFirst ls) (h : SkipsValue ls rest) :
    ∃ us, us.map Located.lexeme = ls ∧
      skipItems finish (fuel + 1) isFirst ts = skipValue finish fuel us >>= skipItems finish fuel false := by
  cases isFirst with
  | true =>
    rw [separated] at hts
    cases ts with
    | nil => subst hts; cases h
    | cons t ts => exact ⟨t :: ts, hts, skipItems_first (SkipsValue.head_ne (hts.symm ▸ h))⟩
  | false =>
    obtain ⟨t, us, rfl, ht, hus⟩ := List.map_eq_cons_iff.1 hts
    exact ⟨us, hus, by simp only [skipItems, ht]⟩

theorem skipMembers_close (h : t.lexeme = .closeBrace) :
    skipMembers finish (fuel + 1) isFirst (t :: ts) = .ok ts := by
  simp only [skipMembers, h]

theorem skipMembers_first (h : t.lexeme ≠ .closeBrace) :
    skipMembers finish (fuel + 1) true (t :: ts) = skipMember finish fuel (t :: ts) := by
  unfold skipMembers
  split
  · next heq => exact absurd heq h
  · next hfirst => cases hfirst
  · rfl
  · contradiction

/-- A member is skipped, whether a comma comes before it or not. -/
theorem skipMembers_separated {key : Except Fault String}
    (hts : ts.map Located.lexeme = separated isFirst (.string key (.ok ()) :: .colon :: ls)) :
    ∃ us, us.map Located.lexeme = ls ∧
      skipMembers finish (fuel + 2) isFirst ts = skipValue finish fuel us >>= skipMembers finish fuel false := by
  have hmember : ∀ ks, ks.map Located.lexeme = .string key (.ok ()) :: .colon :: ls →
      ∃ us, us.map Located.lexeme = ls ∧
        skipMember finish (fuel + 1) ks = skipValue finish fuel us >>= skipMembers finish fuel false := by
    intro ks hks
    obtain ⟨k, cs, rfl, hk, hcs⟩ := List.map_eq_cons_iff.1 hks
    obtain ⟨c, us, rfl, hc, hus⟩ := List.map_eq_cons_iff.1 hcs
    refine ⟨us, hus, ?_⟩
    simp only [skipMember, hk, hc]
    rfl
  cases isFirst with
  | true =>
    obtain ⟨us, hus, hskip⟩ := hmember ts hts
    obtain ⟨k, cs, rfl, hk, -⟩ := List.map_eq_cons_iff.1 hts
    exact ⟨us, hus, (skipMembers_first (by simp [hk])).trans hskip⟩
  | false =>
    obtain ⟨t, ks, rfl, ht, hks⟩ := List.map_eq_cons_iff.1 hts
    obtain ⟨us, hus, hskip⟩ := hmember ks hks
    have hcomma : skipMembers finish (fuel + 2) false (t :: ks) = skipMember finish (fuel + 1) ks := by
      simp only [skipMembers, ht]
    exact ⟨us, hus, hcomma.trans hskip⟩

/-! ## Getting past what the grammar skips -/

/-- Skipping has succeeded, and has left a row of lexemes. -/
def Leaves (result : Except Fault (List Located)) (rest : List Lexeme) : Prop :=
  ∃ us, result = .ok us ∧ us.map Located.lexeme = rest

theorem Leaves.bind {result : Except Fault (List Located)} {more : List Located → Except Fault (List Located)}
    {behind : List Lexeme} (h : Leaves result behind)
    (hmore : ∀ us, us.map Located.lexeme = behind → Leaves (more us) rest) : Leaves (result >>= more) rest := by
  obtain ⟨us, rfl, hus⟩ := h
  exact hmore us hus

mutual

/-- A value that the grammar skips is skipped. Each of its lexemes pays for three calls: for a value, for the member
that the value is, and for the rest of the list or object. -/
theorem SkipsValue.leaves {ls rest : List Lexeme} (h : SkipsValue ls rest) {fuel : Nat} {ts : List Located}
    (hts : ts.map Located.lexeme = ls) (hfuel : 3 * ls.length ≤ fuel) : Leaves (skipValue finish fuel ts) rest := by
  match h with
  | .plain | .string =>
    obtain ⟨t, ts, rfl, ht, rfl⟩ := List.map_eq_cons_iff.1 hts
    rw [List.length_cons] at hfuel
    obtain ⟨fuel, rfl⟩ : ∃ fuel', fuel = fuel' + 1 := ⟨fuel - 1, by omega⟩
    rw [skipValue, ht]
    exact ⟨ts, rfl, rfl⟩
  | .array items =>
    obtain ⟨t, ts, rfl, ht, hts⟩ := List.map_eq_cons_iff.1 hts
    rw [List.length_cons] at hfuel
    obtain ⟨fuel, rfl⟩ : ∃ fuel', fuel = fuel' + 1 := ⟨fuel - 1, by omega⟩
    rw [skipValue, ht]
    exact SkipsItems.leaves items hts (by omega)
  | .object members =>
    obtain ⟨t, ts, rfl, ht, hts⟩ := List.map_eq_cons_iff.1 hts
    rw [List.length_cons] at hfuel
    obtain ⟨fuel, rfl⟩ : ∃ fuel', fuel = fuel' + 1 := ⟨fuel - 1, by omega⟩
    rw [skipValue, ht]
    exact SkipsMembers.leaves members hts (by omega)
  termination_by structural h

theorem SkipsItems.leaves {isFirst : Bool} {ls rest : List Lexeme} (h : SkipsItems isFirst ls rest) {fuel : Nat}
    {ts : List Located} (hts : ts.map Located.lexeme = ls) (hfuel : 3 * ls.length + 1 ≤ fuel) :
    Leaves (skipItems finish fuel isFirst ts) rest := by
  obtain ⟨fuel, rfl⟩ : ∃ fuel', fuel = fuel' + 1 := ⟨fuel - 1, by omega⟩
  match h with
  | .close =>
    obtain ⟨t, ts, rfl, ht, rfl⟩ := List.map_eq_cons_iff.1 hts
    rw [skipItems_close ht]
    exact ⟨ts, rfl, rfl⟩
  | @SkipsItems.cons _ row behind _ head tail =>
    have hrow := length_le_separated isFirst row
    have hlength := head.length_lt
    obtain ⟨us, hus, hskip⟩ := skipItems_separated hts head
    rw [hskip]
    refine .bind (SkipsValue.leaves head hus (by omega)) fun us hus => ?_
    exact SkipsItems.leaves tail hus (by omega)
  termination_by structural h

theorem SkipsMembers.leaves {isFirst : Bool} {ls rest : List Lexeme} (h : SkipsMembers isFirst ls rest) {fuel : Nat}
    {ts : List Located} (hts : ts.map Located.lexeme = ls) (hfuel : 3 * ls.length + 1 ≤ fuel) :
    Leaves (skipMembers finish fuel isFirst ts) rest := by
  match h with
  | .close =>
    obtain ⟨t, ts, rfl, ht, rfl⟩ := List.map_eq_cons_iff.1 hts
    obtain ⟨fuel, rfl⟩ : ∃ fuel', fuel = fuel' + 1 := ⟨fuel - 1, by omega⟩
    rw [skipMembers_close ht]
    exact ⟨ts, rfl, rfl⟩
  | @SkipsMembers.cons _ key row behind _ value tail =>
    have hrow := length_le_separated isFirst (.string key (.ok ()) :: .colon :: row)
    rw [List.length_cons, List.length_cons] at hrow
    have hlength := value.length_lt
    obtain ⟨fuel, rfl⟩ : ∃ fuel', fuel = fuel' + 2 := ⟨fuel - 2, by omega⟩
    obtain ⟨us, hus, hskip⟩ := skipMembers_separated hts
    rw [hskip]
    refine .bind (SkipsValue.leaves value hus (by omega)) fun us hus => ?_
    exact SkipsMembers.leaves tail hus (by omega)
  termination_by structural h

end

/-! ## What has been skipped -/

/-- If skipping has succeeded, the row it has left is as told. -/
def Skipped (result : Except Fault (List Located)) (P : List Lexeme → Prop) : Prop :=
  ∀ us, result = .ok us → P (us.map Located.lexeme)

theorem skipped_skipValue
    (hitems : ∀ ts, Skipped (skipItems finish fuel true ts) (SkipsItems true (ts.map Located.lexeme)))
    (hmembers : ∀ ts, Skipped (skipMembers finish fuel true ts) (SkipsMembers true (ts.map Located.lexeme)))
    (ts : List Located) : Skipped (skipValue finish (fuel + 1) ts) (SkipsValue (ts.map Located.lexeme)) := by
  intro us h
  unfold skipValue at h
  split at h <;> try contradiction
  next t ts heq =>
    cases heq
    rw [List.map_cons]
    split at h
    · next ht =>
      obtain ⟨⟨⟩, rfl, h⟩ := bind_ok_iff.1 h
      cases h
      exact ht ▸ .plain
    · next ht =>
      obtain ⟨⟨⟩, rfl, h⟩ := bind_ok_iff.1 h
      cases h
      exact ht ▸ .string
    · next ht => exact ht ▸ .array (hitems ts us h)
    · next ht => exact ht ▸ .object (hmembers ts us h)
    · contradiction

theorem skipped_skipItems
    (hvalue : ∀ ts, Skipped (skipValue finish fuel ts) (SkipsValue (ts.map Located.lexeme)))
    (hitems : ∀ ts, Skipped (skipItems finish fuel false ts) (SkipsItems false (ts.map Located.lexeme)))
    (isFirst : Bool) (ts : List Located) :
    Skipped (skipItems finish (fuel + 1) isFirst ts) (SkipsItems isFirst (ts.map Located.lexeme)) := by
  intro us h
  unfold skipItems at h
  split at h <;> try contradiction
  next t ts heq =>
    cases heq
    rw [List.map_cons]
    split at h
    · next ht =>
      cases h
      exact ht ▸ .close
    · next ht =>
      obtain ⟨behind, hhead, htail⟩ := bind_ok_iff.1 h
      exact ht ▸ .cons (hvalue _ _ hhead) (hitems _ _ htail)
    · obtain ⟨behind, hhead, htail⟩ := bind_ok_iff.1 h
      exact .cons (hvalue _ _ hhead) (hitems _ _ htail)
    · contradiction

theorem skipped_skipMembers
    (hmember : ∀ isFirst ts, Skipped (skipMember finish fuel ts)
      (SkipsMembers isFirst (separated isFirst (ts.map Located.lexeme))))
    (isFirst : Bool) (ts : List Located) :
    Skipped (skipMembers finish (fuel + 1) isFirst ts) (SkipsMembers isFirst (ts.map Located.lexeme)) := by
  intro us h
  unfold skipMembers at h
  split at h <;> try contradiction
  next t ts heq =>
    cases heq
    rw [List.map_cons]
    split at h
    · next ht =>
      cases h
      exact ht ▸ .close
    · next ht => exact ht ▸ hmember false ts us h
    · exact hmember true (t :: ts) us h
    · contradiction

theorem skipped_skipMember
    (hvalue : ∀ ts, Skipped (skipValue finish fuel ts) (SkipsValue (ts.map Located.lexeme)))
    (hmembers : ∀ ts, Skipped (skipMembers finish fuel false ts) (SkipsMembers false (ts.map Located.lexeme)))
    (isFirst : Bool) (ts : List Located) :
    Skipped (skipMember finish (fuel + 1) ts)
      (SkipsMembers isFirst (separated isFirst (ts.map Located.lexeme))) := by
  intro us h
  unfold skipMember at h
  split at h <;> try contradiction
  next t ts heq =>
    cases heq
    rw [List.map_cons]
    split at h <;> try contradiction
    next ht =>
    rw [bind_ok_iff] at h
    obtain ⟨⟨⟩, rfl, h⟩ := h
    split at h <;> try contradiction
    next u us =>
    split at h <;> try contradiction
    next hu =>
    obtain ⟨behind, hhead, htail⟩ := bind_ok_iff.1 h
    rw [List.map_cons, ht, hu]
    exact .cons (hvalue _ _ hhead) (hmembers _ _ htail)

/-- Whatever is skipped follows the grammar, by induction on the calls that are left. -/
theorem skipped_calls : ∀ fuel,
    (∀ ts, Skipped (skipValue finish fuel ts) (SkipsValue (ts.map Located.lexeme))) ∧
    (∀ isFirst ts, Skipped (skipItems finish fuel isFirst ts) (SkipsItems isFirst (ts.map Located.lexeme))) ∧
    (∀ isFirst ts, Skipped (skipMembers finish fuel isFirst ts) (SkipsMembers isFirst (ts.map Located.lexeme))) ∧
    (∀ isFirst ts, Skipped (skipMember finish fuel ts)
      (SkipsMembers isFirst (separated isFirst (ts.map Located.lexeme))))
  | 0 => by
    refine ⟨?_, ?_, ?_, ?_⟩ <;> intros <;> rintro us ⟨⟩
  | fuel + 1 => by
    obtain ⟨hvalue, hitems, hmembers, hmember⟩ := skipped_calls fuel
    exact ⟨skipped_skipValue (hitems true) (hmembers true), skipped_skipItems hvalue (hitems false),
      skipped_skipMembers hmember, skipped_skipMember hvalue (hmembers false)⟩

end Scriptwright.Json
