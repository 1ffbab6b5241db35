/-
When something that may fail has succeeded.
-/
namespace Scriptwright

variable {ε ε' α β : Type}

theorem bind_ok_iff {x : Except ε α} {f : α → Except ε β} {b : β} :
    (x >>= f) = .ok b ↔ ∃ a, x = .ok a ∧ f a = .ok b := by
  cases x <;> simp [bind, Except.bind]

theorem pure_ok_iff {a b : α} : (pure a : Except ε α) = .ok b ↔ a = b := by
  simp [pure, Except.pure]

theorem exists_ok_of_isOk {x : Except ε α} (h : x.isOk = true) : ∃ a, x = .ok a := by
  cases x with
  | ok a => exact ⟨a, rfl⟩
  | error e => cases h

theorem mapError_eq_ok_iff {f : ε → ε'} {x : Except ε α} {a : α} : x.mapError f = .ok a ↔ x = .ok a := by
  cases x with
  | ok => exact ⟨by rintro ⟨⟩; rfl, by rintro ⟨⟩; rfl⟩
  | error => exact iff_of_false (by rintro ⟨⟩) (by rintro ⟨⟩)

theorem pair_ok_iff {y : Except ε β} {a : α} {p : α × β} :
    (do
      let b ← y
      return (a, b)) = .ok p ↔ a = p.1 ∧ y = .ok p.2 := by
  cases y <;> simp [bind, Except.bind, pure, Except.pure, Prod.ext_iff]

/-- Two results in a row are a pair. -/
theorem bind_pair_ok_iff {x : Except ε α} {y : Except ε β} {p : α × β} :
    (do
      let a ← x
      let b ← y
      return (a, b)) = .ok p ↔ x = .ok p.1 ∧ y = .ok p.2 := by
  cases x <;> cases y <;> simp [bind, Except.bind, pure, Except.pure, Prod.ext_iff]

/-- Two results in a row are a list. -/
theorem bind_cons_ok_iff {x : Except ε α} {y : Except ε (List α)} {l : List α} :
    (do
      let a ← x
      return a :: (← y)) = .ok l ↔ ∃ a as, x = .ok a ∧ y = .ok as ∧ l = a :: as := by
  cases x <;> cases y <;> simp [bind, Except.bind, pure, Except.pure, eq_comm]

end Scriptwright
