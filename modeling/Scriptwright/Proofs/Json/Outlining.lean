/-
Reading keeps to the grammar. What a text shows is what its outline holds, as
long as it does not nest too deep, and every outline without a flaw comes about
that way (`outline_eq_ok_iff`); so a text shows one value only (`Shows.unique`).
A text that spells a value shows what the shape lets through of it, and shapes
that let all of it through are singled out (`Shape.Keeps`).
-/
import Scriptwright.Proofs.Json.Scanning
import Scriptwright.Proofs.Json.Skipping

namespace Scriptwright.Json

/-- Reading has given something, and has left a row of lexemes. -/
def Yields {α β : Type} (value : α → Except Fault β) (result : α × Option (List Located)) (b : β) (rest : List Lexeme) :
    Prop :=
  ∃ us, result.2 = some us ∧ us.map Located.lexeme = rest ∧ value result.1 = .ok b

variable {finish fuel depth : Nat} {isFirst : Bool} {shape : Shape} {t : Located} {ts : List Located}
variable {ls behind rest : List Lexeme} {j : Json} {js : List Json} {ms : List (String × Json)}

/-! ## Lists -/

theorem ShowsValue.head_ne {l : Lexeme} (h : ShowsValue shape (l :: ls) j rest) : l ≠ .closeBracket := by
  cases h with
  | skipped h => exact h.head_ne
  | plain | string | array | object => simp

theorem readItems_close (h : t.lexeme = .closeBracket) :
    readItems finish (fuel + 1) depth shape isFirst (t :: ts) = (.closed t.stop, some ts) := by
  simp only [readItems, h]

theorem readItems_first (h : t.lexeme ≠ .closeBracket) :
    readItems finish (fuel + 1) depth shape true (t :: ts) = readItem finish fuel depth shape (t :: ts) := by
  unfold readItems
  split
  · next heq => exact absurd heq h
  · next hfirst => cases hfirst
  · rfl
  · contradiction

theorem readItems_comma (h : t.lexeme = .comma) (hnext : ∀ u ∈ ts.head?, u.lexeme ≠ .closeBracket) :
    readItems finish (fuel + 1) depth shape false (t :: ts) = readItem finish fuel depth shape ts := by
  simp only [readItems, h]
  split
  · exact absurd rfl (hnext _ rfl)
  · rfl

/-- An element is read, whether a comma comes before it or not. -/
theorem readItems_separated (hts : ts.map Located.lexeme = separated isFirst ls)
    (h : ShowsValue shape.head ls j rest) :
    ∃ us, us.map Located.lexeme = ls ∧
      readItems finish (fuel + 1) depth shape isFirst ts = readItem finish fuel depth shape us := by
  have hhead : ∀ us, us.map Located.lexeme = ls → ∃ u vs, us = u :: vs ∧ u.lexeme ≠ .closeBracket := by
    rintro (_ | ⟨u, vs⟩) rfl
    · exact absurd h.length_lt (Nat.not_lt_zero _)
    · exact ⟨u, vs, rfl, h.head_ne⟩
  cases isFirst with
  | true =>
    obtain ⟨u, vs, rfl, hu⟩ := hhead ts hts
    exact ⟨u :: vs, hts, readItems_first hu⟩
  | false =>
    obtain ⟨t, us, rfl, ht, hus⟩ := List.map_eq_cons_iff.1 hts
    obtain ⟨u, vs, rfl, hu⟩ := hhead us hus
    exact ⟨u :: vs, hus, readItems_comma ht (by simp [hu])⟩

/-- An element and the rest of the list that have been read make a longer rest. -/
theorem yields_readItem (hhead : Yields Outline.toJson (readValue finish fuel depth shape.head ts) j behind)
    (htail : ∀ us, us.map Located.lexeme = behind →
      Yields Items.toList (readItems finish fuel depth shape.tail false us) js rest) :
    Yields Items.toList (readItem finish (fuel + 1) depth shape ts) (j :: js) rest := by
  obtain ⟨us, hus, hbehind, hvalue⟩ := hhead
  obtain ⟨vs, hvs, hrest, hitems⟩ := htail us hbehind
  have hread : readValue finish fuel depth shape.head ts = (_, some us) := Prod.ext rfl hus
  refine ⟨vs, ?_, hrest, ?_⟩
  · rw [readItem, hread]
    exact hvs
  · rw [readItem, hread]
    simp only [Items.toList, hvalue, hitems]
    rfl

/-! ## Objects -/

theorem readMembers_close (h : t.lexeme = .closeBrace) :
    readMembers finish (fuel + 1) depth shape isFirst (t :: ts) = (.closed t.stop, some ts) := by
  simp only [readMembers, h]

theorem readMembers_first (h : t.lexeme ≠ .closeBrace) :
    readMembers finish (fuel + 1) depth shape true (t :: ts) = readMember finish fuel depth shape (t :: ts) := by
  unfold readMembers
  split
  · next heq => exact absurd heq h
  · next hfirst => cases hfirst
  · rfl
  · contradiction

theorem readMembers_comma (h : t.lexeme = .comma) (hnext : ∀ u ∈ ts.head?, u.lexeme ≠ .closeBrace) :
    readMembers finish (fuel + 1) depth shape false (t :: ts) = readMember finish fuel depth shape ts := by
  simp only [readMembers, h]
  split
  · exact absurd rfl (hnext _ rfl)
  · rfl

/-- A member is read, whether a comma comes before it or not. -/
theorem readMembers_separated {key : String} {skipped : Except Fault Unit}
    (hts : ts.map Located.lexeme = separated isFirst (.string (.ok key) skipped :: .colon :: ls)) :
    ∃ k c us, k.lexeme = .string (.ok key) skipped ∧ c.lexeme = .colon ∧ us.map Located.lexeme = ls ∧
      readMembers finish (fuel + 1) depth shape isFirst ts = readMember finish fuel depth shape (k :: c :: us) := by
  have hmember : ∀ ks, ks.map Located.lexeme = .string (.ok key) skipped :: .colon :: ls → ∃ k c us,
      ks = k :: c :: us ∧ k.lexeme = .string (.ok key) skipped ∧ c.lexeme = .colon ∧ us.map Located.lexeme = ls := by
    intro ks hks
    obtain ⟨k, cs, rfl, hk, hcs⟩ := List.map_eq_cons_iff.1 hks
    obtain ⟨c, us, rfl, hc, hus⟩ := List.map_eq_cons_iff.1 hcs
    exact ⟨k, c, us, rfl, hk, hc, hus⟩
  cases isFirst with
  | true =>
    obtain ⟨k, c, us, rfl, hk, hc, hus⟩ := hmember ts hts
    exact ⟨k, c, us, hk, hc, hus, readMembers_first (by simp [hk])⟩
  | false =>
    obtain ⟨t, ks, rfl, ht, hks⟩ := List.map_eq_cons_iff.1 hts
    obtain ⟨k, c, us, rfl, hk, hc, hus⟩ := hmember ks hks
    exact ⟨k, c, us, hk, hc, hus, readMembers_comma ht (by simp [hk])⟩

/-- A member and the rest of the object that have been read make a longer rest. -/
theorem yields_readMember {key : String} {skipped : Except Fault Unit} {u : Located}
    (hkey : t.lexeme = .string (.ok key) skipped) (hcolon : u.lexeme = .colon)
    (hvalue : Yields Outline.toJson (readValue finish fuel depth (shape.member key) ts) j behind)
    (htail : ∀ us, us.map Located.lexeme = behind →
      Yields Members.toList (readMembers finish fuel depth shape false us) ms rest) :
    Yields Members.toList (readMember finish (fuel + 1) depth shape (t :: u :: ts)) ((key, j) :: ms) rest := by
  obtain ⟨us, hus, hbehind, hvalue⟩ := hvalue
  obtain ⟨vs, hvs, hrest, hmembers⟩ := htail us hbehind
  have hread : readValue finish fuel depth (shape.member key) ts = (_, some us) := Prod.ext rfl hus
  refine ⟨vs, ?_, hrest, ?_⟩
  · simp only [readMember, hkey, hcolon]
    rw [hread]
    exact hvs
  · simp only [readMember, hkey, hcolon]
    rw [hread]
    simp only [Members.toList, hvalue, hmembers]
    rfl

/-! ## Values -/

theorem readValue_skipped {us : List Located} (h : skipValue finish fuel (t :: ts) = .ok us) :
    readValue finish (fuel + 1) depth .skipped (t :: ts) = (.scalar .null t.stop, some us) := by
  simp only [readValue, h]

/-- What is not skipped is read by its first lexeme. -/
theorem readValue_of_ne (hshape : shape ≠ .skipped) :
    readValue finish (fuel + 1) depth shape (t :: ts) =
      match t.lexeme, depth with
      | .plain (.ok value) _, _ => (.scalar value t.stop, some ts)
      | .string (.ok text) _, _ => (.scalar (.string text) t.stop, some ts)
      | .plain (.error fault) _, _ | .string (.error fault) _, _ => (.broken fault, none)
      | .openBracket, 0 | .openBrace, 0 => (.broken ⟨.tooDeep, t.start + 1⟩, none)
      | .openBracket, depth + 1 => (readItems finish fuel depth shape true ts).map (.array t.start) id
      | .openBrace, depth + 1 => (readMembers finish fuel depth shape true ts).map (.object t.start) id
      | _, _ => (.broken ⟨.expectedValue, t.start + 1⟩, none) := by
  cases shape with
  | skipped => exact absurd rfl hshape
  | all | list | record => rfl

theorem readValue_plain {value : Scalar} {skipped : Except Fault Unit} (hshape : shape ≠ .skipped)
    (h : t.lexeme = .plain (.ok value) skipped) :
    readValue finish (fuel + 1) depth shape (t :: ts) = (.scalar value t.stop, some ts) := by
  simp only [readValue_of_ne hshape, h]

theorem readValue_string {text : String} {skipped : Except Fault Unit} (hshape : shape ≠ .skipped)
    (h : t.lexeme = .string (.ok text) skipped) :
    readValue finish (fuel + 1) depth shape (t :: ts) = (.scalar (.string text) t.stop, some ts) := by
  simp only [readValue_of_ne hshape, h]

theorem readValue_array (hshape : shape ≠ .skipped) (h : t.lexeme = .openBracket) :
    readValue finish (fuel + 1) (depth + 1) shape (t :: ts)
      = (readItems finish fuel depth shape true ts).map (.array t.start) id := by
  simp only [readValue_of_ne hshape, h]

theorem readValue_object (hshape : shape ≠ .skipped) (h : t.lexeme = .openBrace) :
    readValue finish (fuel + 1) (depth + 1) shape (t :: ts)
      = (readMembers finish fuel depth shape true ts).map (.object t.start) id := by
  simp only [readValue_of_ne hshape, h]

theorem Yields.array {start : Nat} {result : Items × Option (List Located)} (h : Yields Items.toList result js rest) :
    Yields Outline.toJson (result.map (.array start) id) (.array js) rest := by
  obtain ⟨us, hus, hrest, hitems⟩ := h
  refine ⟨us, hus, hrest, ?_⟩
  simp only [Prod.map, Outline.toJson, hitems]
  rfl

theorem Yields.object {start : Nat} {result : Members × Option (List Located)}
    (h : Yields Members.toList result ms rest) :
    Yields Outline.toJson (result.map (.object start) id) (.object ms) rest := by
  obtain ⟨us, hus, hrest, hmembers⟩ := h
  refine ⟨us, hus, hrest, ?_⟩
  simp only [Prod.map, Outline.toJson, hmembers]
  rfl

mutual

/-- What a row shows is read from it, and those lexemes behind it are left. Each lexeme pays for three calls: for a
value, for the element or member that the value is, and for the rest of the list or object. -/
theorem ShowsValue.yields {shape : Shape} {ls rest : List Lexeme} {j : Json} (h : ShowsValue shape ls j rest)
    {fuel depth : Nat} {ts : List Located} (hts : ts.map Located.lexeme = ls) (hfuel : 3 * ls.length + 1 ≤ fuel)
    (hdepth : j.depth ≤ depth) : Yields Outline.toJson (readValue finish fuel depth shape ts) j rest := by
  obtain ⟨fuel, rfl⟩ : ∃ fuel', fuel = fuel' + 1 := ⟨fuel - 1, by omega⟩
  match h with
  | .skipped value =>
    obtain ⟨us, hskip, hus⟩ : Leaves (skipValue finish fuel ts) rest := value.leaves hts (by omega)
    cases ts with
    | nil => subst hts; exact absurd value.length_lt (Nat.not_lt_zero _)
    | cons t ts =>
      rw [readValue_skipped hskip]
      exact ⟨us, rfl, hus, rfl⟩
  | .plain hshape =>
    obtain ⟨t, ts, rfl, ht, rfl⟩ := List.map_eq_cons_iff.1 hts
    rw [readValue_plain hshape ht]
    exact ⟨ts, rfl, rfl, rfl⟩
  | .string hshape =>
    obtain ⟨t, ts, rfl, ht, rfl⟩ := List.map_eq_cons_iff.1 hts
    rw [readValue_string hshape ht]
    exact ⟨ts, rfl, rfl, rfl⟩
  | .array hshape items =>
    obtain ⟨t, ts, rfl, ht, hts⟩ := List.map_eq_cons_iff.1 hts
    rw [List.length_cons] at hfuel
    rw [Json.depth] at hdepth
    obtain ⟨depth, rfl⟩ : ∃ depth', depth = depth' + 1 := ⟨depth - 1, by omega⟩
    rw [readValue_array hshape ht]
    exact .array (ShowsItems.yields items hts (by omega) (by omega))
  | .object hshape members =>
    obtain ⟨t, ts, rfl, ht, hts⟩ := List.map_eq_cons_iff.1 hts
    rw [List.length_cons] at hfuel
    rw [Json.depth] at hdepth
    obtain ⟨depth, rfl⟩ : ∃ depth', depth = depth' + 1 := ⟨depth - 1, by omega⟩
    rw [readValue_object hshape ht]
    exact .object (ShowsMembers.yields members hts (by omega) (by omega))
  termination_by structural h

theorem ShowsItems.yields {shape : Shape} {isFirst : Bool} {ls rest : List Lexeme} {js : List Json}
    (h : ShowsItems shape isFirst ls js rest) {fuel depth : Nat} {ts : List Located}
    (hts : ts.map Located.lexeme = ls) (hfuel : 3 * ls.length + 3 ≤ fuel) (hdepth : itemsDepth js ≤ depth) :
    Yields Items.toList (readItems finish fuel depth shape isFirst ts) js rest := by
  obtain ⟨fuel, rfl⟩ : ∃ fuel', fuel = fuel' + 2 := ⟨fuel - 2, by omega⟩
  match h with
  | .close =>
    obtain ⟨t, ts, rfl, ht, rfl⟩ := List.map_eq_cons_iff.1 hts
    rw [readItems_close ht]
    exact ⟨ts, rfl, rfl, rfl⟩
  | @ShowsItems.cons _ _ row _ _ _ _ head tail =>
    have hrow := length_le_separated isFirst row
    have hlength := head.length_lt
    rw [itemsDepth] at hdepth
    obtain ⟨us, hus, hread⟩ := readItems_separated hts head
    rw [hread]
    refine yields_readItem (ShowsValue.yields head hus (by omega) (by omega)) fun us hus => ?_
    exact ShowsItems.yields tail hus (by omega) (by omega)
  termination_by structural h

theorem ShowsMembers.yields {shape : Shape} {isFirst : Bool} {ls rest : List Lexeme} {ms : List (String × Json)}
    (h : ShowsMembers shape isFirst ls ms rest) {fuel depth : Nat} {ts : List Located}
    (hts : ts.map Located.lexeme = ls) (hfuel : 3 * ls.length + 3 ≤ fuel) (hdepth : membersDepth ms ≤ depth) :
    Yields Members.toList (readMembers finish fuel depth shape isFirst ts) ms rest := by
  obtain ⟨fuel, rfl⟩ : ∃ fuel', fuel = fuel' + 2 := ⟨fuel - 2, by omega⟩
  match h with
  | .close =>
    obtain ⟨t, ts, rfl, ht, rfl⟩ := List.map_eq_cons_iff.1 hts
    rw [readMembers_close ht]
    exact ⟨ts, rfl, rfl, rfl⟩
  | @ShowsMembers.cons _ _ key skipped row _ _ _ _ value tail =>
    have hrow := length_le_separated isFirst (.string (.ok key) skipped :: .colon :: row)
    rw [List.length_cons, List.length_cons] at hrow
    have hlength := value.length_lt
    rw [membersDepth] at hdepth
    obtain ⟨k, c, us, hk, hc, hus, hread⟩ := readMembers_separated hts
    rw [hread]
    refine yields_readMember hk hc (ShowsValue.yields value hus (by omega) (by omega)) fun us hus => ?_
    exact ShowsMembers.yields tail hus (by omega) (by omega)
  termination_by structural h

end

/-! ## What has been read -/

/-- If reading has given something then it has also left a row of lexemes, and the two are so related. -/
def Shown {α β : Type} (value : α → Except Fault β) (result : α × Option (List Located))
    (P : β → List Lexeme → Prop) : Prop :=
  ∀ b, value result.1 = .ok b → ∃ us, result.2 = some us ∧ P b (us.map Located.lexeme)

theorem Shown.array {start : Nat} {result : Items × Option (List Located)} {P : List Json → List Lexeme → Prop}
    {Q : Json → List Lexeme → Prop} (h : Shown Items.toList result P) (hQ : ∀ js rest, P js rest → Q (.array js) rest) :
    Shown Outline.toJson (result.map (.array start) id) Q := by
  intro j hj
  obtain ⟨js, hjs, hj⟩ := bind_ok_iff.1 hj
  cases hj
  obtain ⟨us, hus, hP⟩ := h js hjs
  exact ⟨us, hus, hQ js _ hP⟩

theorem Shown.object {start : Nat} {result : Members × Option (List Located)}
    {P : List (String × Json) → List Lexeme → Prop} {Q : Json → List Lexeme → Prop}
    (h : Shown Members.toList result P) (hQ : ∀ ms rest, P ms rest → Q (.object ms) rest) :
    Shown Outline.toJson (result.map (.object start) id) Q := by
  intro j hj
  obtain ⟨ms, hms, hj⟩ := bind_ok_iff.1 hj
  cases hj
  obtain ⟨us, hus, hP⟩ := h ms hms
  exact ⟨us, hus, hQ ms _ hP⟩

theorem shown_readItem {P : Json → List Lexeme → Prop} {Q : List Located → List Json → List Lexeme → Prop}
    {R : List Json → List Lexeme → Prop} (hhead : Shown Outline.toJson (readValue finish fuel depth shape.head ts) P)
    (htail : ∀ us, Shown Items.toList (readItems finish fuel depth shape.tail false us) (Q us))
    (hR : ∀ j us js rest, P j (us.map Located.lexeme) → Q us js rest → R (j :: js) rest) :
    Shown Items.toList (readItem finish (fuel + 1) depth shape ts) R := by
  rw [readItem]
  split
  · next head us hread =>
    rw [hread] at hhead
    intro js hjs
    obtain ⟨j, hj, hjs⟩ := bind_ok_iff.1 hjs
    obtain ⟨js, htails, hjs⟩ := bind_ok_iff.1 hjs
    cases hjs
    obtain ⟨_, ⟨⟩, hP⟩ := hhead j hj
    obtain ⟨vs, hvs, hQ⟩ := htail us js htails
    exact ⟨vs, hvs, hR j us js _ hP hQ⟩
  · next head hread =>
    rw [hread] at hhead
    intro js hjs
    obtain ⟨j, hj, -⟩ := bind_ok_iff.1 hjs
    obtain ⟨_, ⟨⟩, -⟩ := hhead j hj

theorem shown_readMember {P : String → List Located → Json → List Lexeme → Prop}
    {Q : List Located → List (String × Json) → List Lexeme → Prop} {R : List (String × Json) → List Lexeme → Prop}
    (hvalue : ∀ key us, Shown Outline.toJson (readValue finish fuel depth (shape.member key) us) (P key us))
    (htail : ∀ us, Shown Members.toList (readMembers finish fuel depth shape false us) (Q us))
    (hR : ∀ key skipped u us vs j ms rest, t.lexeme = .string (.ok key) skipped → ts = u :: us → u.lexeme = .colon →
      P key us j (vs.map Located.lexeme) → Q vs ms rest → R ((key, j) :: ms) rest) :
    Shown Members.toList (readMember finish (fuel + 1) depth shape (t :: ts)) R := by
  rw [readMember]
  split
  · rintro ms ⟨⟩
  · next key skipped hkey =>
    dsimp only
    split
    · rintro ms ⟨⟩
    · next u us =>
      have hvalue := hvalue key us
      split
      · next hcolon =>
        split
        · next value vs hread =>
          rw [hread] at hvalue
          intro ms hms
          obtain ⟨j, hj, hms⟩ := bind_ok_iff.1 hms
          obtain ⟨ms, htails, hms⟩ := bind_ok_iff.1 hms
          cases hms
          obtain ⟨_, ⟨⟩, hP⟩ := hvalue j hj
          obtain ⟨ws, hws, hQ⟩ := htail vs ms htails
          exact ⟨ws, hws, hR key skipped u us vs j ms _ hkey rfl hcolon hP hQ⟩
        · next value hread =>
          rw [hread] at hvalue
          intro ms hms
          obtain ⟨j, hj, -⟩ := bind_ok_iff.1 hms
          obtain ⟨_, ⟨⟩, -⟩ := hvalue j hj
      · rintro ms ⟨⟩
  · rintro ms ⟨⟩

/-- What is read as a value follows the grammar if lists and objects inside it do. -/
theorem shown_readValue
    (hitems : ∀ depth shape ts, Shown Items.toList (readItems finish fuel depth shape true ts) fun js rest =>
      ShowsItems shape true (ts.map Located.lexeme) js rest ∧ itemsDepth js ≤ depth)
    (hmembers : ∀ depth shape ts, Shown Members.toList (readMembers finish fuel depth shape true ts) fun ms rest =>
      ShowsMembers shape true (ts.map Located.lexeme) ms rest ∧ membersDepth ms ≤ depth) :
    Shown Outline.toJson (readValue finish (fuel + 1) depth shape ts) fun j rest =>
      ShowsValue shape (ts.map Located.lexeme) j rest ∧ j.depth ≤ depth := by
  cases ts with
  | nil => intro j hj; cases shape <;> cases hj
  | cons t ts =>
    by_cases hshape : shape = .skipped
    · subst hshape
      intro j hj
      rw [readValue] at hj ⊢
      cases hskip : skipValue finish fuel (t :: ts) with
      | error fault => rw [hskip] at hj; cases hj
      | ok us =>
        rw [hskip] at hj
        cases hj
        exact ⟨us, rfl, .skipped ((skipped_calls fuel).1 _ _ hskip), Nat.zero_le _⟩
    · rw [List.map_cons, readValue_of_ne hshape]
      split
      · next ht =>
        rintro j ⟨⟩
        exact ⟨ts, rfl, ht ▸ .plain hshape, Nat.zero_le _⟩
      · next ht =>
        rintro j ⟨⟩
        exact ⟨ts, rfl, ht ▸ .string hshape, Nat.zero_le _⟩
      · rintro j ⟨⟩
      · rintro j ⟨⟩
      · rintro j ⟨⟩
      · rintro j ⟨⟩
      · next depth ht =>
        refine (hitems depth shape ts).array fun js rest h => ⟨ht ▸ .array hshape h.1, ?_⟩
        rw [Json.depth]
        exact Nat.succ_le_succ h.2
      · next depth ht =>
        refine (hmembers depth shape ts).object fun ms rest h => ⟨ht ▸ .object hshape h.1, ?_⟩
        rw [Json.depth]
        exact Nat.succ_le_succ h.2
      · rintro j ⟨⟩

theorem shown_readItems
    (hitem : ∀ isFirst ts, Shown Items.toList (readItem finish fuel depth shape ts) fun js rest =>
      ShowsItems shape isFirst (separated isFirst (ts.map Located.lexeme)) js rest ∧ itemsDepth js ≤ depth) :
    Shown Items.toList (readItems finish (fuel + 1) depth shape isFirst ts) fun js rest =>
      ShowsItems shape isFirst (ts.map Located.lexeme) js rest ∧ itemsDepth js ≤ depth := by
  cases ts with
  | nil => rintro js ⟨⟩
  | cons t ts =>
    rw [List.map_cons]
    unfold readItems
    split
    · next ht =>
      rintro js ⟨⟩
      exact ⟨ts, rfl, ht ▸ .close, Nat.zero_le _⟩
    · next ht =>
      split
      · rintro js ⟨⟩
      · exact ht ▸ hitem false ts
    · exact hitem true (t :: ts)
    · rintro js ⟨⟩

theorem shown_readMembers
    (hmember : ∀ isFirst ts, Shown Members.toList (readMember finish fuel depth shape ts) fun ms rest =>
      ShowsMembers shape isFirst (separated isFirst (ts.map Located.lexeme)) ms rest ∧ membersDepth ms ≤ depth) :
    Shown Members.toList (readMembers finish (fuel + 1) depth shape isFirst ts) fun ms rest =>
      ShowsMembers shape isFirst (ts.map Located.lexeme) ms rest ∧ membersDepth ms ≤ depth := by
  cases ts with
  | nil => rintro js ⟨⟩
  | cons t ts =>
    rw [List.map_cons]
    unfold readMembers
    split
    · next ht =>
      rintro js ⟨⟩
      exact ⟨ts, rfl, ht ▸ .close, Nat.zero_le _⟩
    · next ht =>
      split
      · rintro js ⟨⟩
      · exact ht ▸ hmember false ts
    · exact hmember true (t :: ts)
    · rintro js ⟨⟩

/-- Whatever is read without a flaw follows the grammar and does not nest too deep, by induction on the calls that are
left. -/
theorem shown_calls (finish : Nat) : ∀ fuel,
    (∀ depth shape ts, Shown Outline.toJson (readValue finish fuel depth shape ts) fun j rest =>
      ShowsValue shape (ts.map Located.lexeme) j rest ∧ j.depth ≤ depth) ∧
    (∀ depth shape isFirst ts, Shown Items.toList (readItems finish fuel depth shape isFirst ts) fun js rest =>
      ShowsItems shape isFirst (ts.map Located.lexeme) js rest ∧ itemsDepth js ≤ depth) ∧
    (∀ depth shape isFirst ts, Shown Items.toList (readItem finish fuel depth shape ts) fun js rest =>
      ShowsItems shape isFirst (separated isFirst (ts.map Located.lexeme)) js rest ∧ itemsDepth js ≤ depth) ∧
    (∀ depth shape isFirst ts, Shown Members.toList (readMembers finish fuel depth shape isFirst ts) fun ms rest =>
      ShowsMembers shape isFirst (ts.map Located.lexeme) ms rest ∧ membersDepth ms ≤ depth) ∧
    (∀ depth shape isFirst ts, Shown Members.toList (readMember finish fuel depth shape ts) fun ms rest =>
      ShowsMembers shape isFirst (separated isFirst (ts.map Located.lexeme)) ms rest ∧ membersDepth ms ≤ depth)
  | 0 => by
    refine ⟨?_, ?_, ?_, ?_, ?_⟩ <;> intros <;> intro _ h <;> cases h
  | fuel + 1 => by
    obtain ⟨hvalue, hitems, hitem, hmembers, hmember⟩ := shown_calls finish fuel
    refine ⟨?_, ?_, ?_, ?_, ?_⟩
    · intro depth shape ts
      exact shown_readValue (fun depth shape => hitems depth shape true) fun depth shape => hmembers depth shape true
    · intro depth shape isFirst ts
      exact shown_readItems (hitem depth shape)
    · intro depth shape isFirst ts
      refine shown_readItem (hvalue depth shape.head ts) (hitems depth shape.tail false) ?_
      intro j us js rest hhead htail
      exact ⟨.cons hhead.1 htail.1, Nat.max_le.2 ⟨hhead.2, htail.2⟩⟩
    · intro depth shape isFirst ts
      exact shown_readMembers (hmember depth shape)
    · intro depth shape isFirst ts
      cases ts with
      | nil => rintro ms ⟨⟩
      | cons t ts =>
        refine shown_readMember (fun key => hvalue depth (shape.member key)) (hmembers depth shape false) ?_
        intro key skipped u us vs j ms rest hkey hts hcolon hvalue htail
        rw [hts, List.map_cons, List.map_cons, hkey, hcolon]
        exact ⟨.cons hvalue.1 htail.1, Nat.max_le.2 ⟨hvalue.2, htail.2⟩⟩

/-! ## Texts -/

variable {text : String}

/-- The outline of a text holds what the text shows, unless that nests too deep, and nothing is left behind it. -/
theorem outline_eq_ok_iff :
    ((outline shape text).2 = none ∧ (outline shape text).1.toJson = .ok j) ↔
      Shows shape text j ∧ j.depth ≤ maxDepth := by
  rw [outline]
  generalize hts : Lexeme.scan text = ts
  constructor
  · have hshown := (shown_calls text.utf8ByteSize (3 * ts.length + 3)).1 maxDepth shape ts
    rcases hread : readValue text.utf8ByteSize (3 * ts.length + 3) maxDepth shape ts with ⟨root, _ | _ | ⟨t, us⟩⟩
    all_goals
      rw [hread] at hshown
      rintro ⟨hleft, hj⟩
    · obtain ⟨_, ⟨⟩, -⟩ := hshown j hj
    · obtain ⟨_, ⟨⟩, hshows, hdepth⟩ := hshown j hj
      rw [Shows, hts]
      exact ⟨hshows, hdepth⟩
    · cases hleft
  · rintro ⟨hshows, hdepth⟩
    have hyields : Yields Outline.toJson (readValue text.utf8ByteSize (3 * ts.length + 3) maxDepth shape ts) j [] := by
      rw [Shows, hts] at hshows
      exact hshows.yields rfl (by rw [List.length_map]; omega) hdepth
    obtain ⟨us, hus, hrest, hvalue⟩ := hyields
    obtain rfl := List.map_eq_nil_iff.1 hrest
    have hread : readValue text.utf8ByteSize (3 * ts.length + 3) maxDepth shape ts = (_, some []) := Prod.ext rfl hus
    rw [hread]
    exact ⟨rfl, hvalue⟩

/-- A text shows one value only. -/
theorem Shows.unique {j' : Json} (h : Shows shape text j) (h' : Shows shape text j') : j = j' := by
  let depth := max j.depth j'.depth
  have hread : ∀ {k}, Shows shape text k → k.depth ≤ depth →
      (readValue 0 (3 * (Lexeme.scan text).length + 1) depth shape (Lexeme.scan text)).1.toJson = .ok k := by
    intro k hk hdepth
    have hyields : Yields Outline.toJson
        (readValue 0 (3 * (Lexeme.scan text).length + 1) depth shape (Lexeme.scan text)) k [] :=
      hk.yields rfl (by rw [List.length_map]) hdepth
    obtain ⟨us, -, -, hvalue⟩ := hyields
    exact hvalue
  have hsame := (hread h (Nat.le_max_left _ _)).symm.trans (hread h' (Nat.le_max_right _ _))
  exact Except.ok.inj hsame

/-- A text that spells a value shows what the shape lets through of it. -/
theorem shows_of_spells (h : Spells j.lexemes text.toList) (shape : Shape) : Shows shape text (j.view shape) := by
  rw [Shows, scan_of_spells h, ← List.append_nil j.lexemes]
  exact shows_lexemes j shape

/-! ## Shapes that hide nothing -/

/-- A shape that lets a value come back: all of it matters, or it is a list, and empty, or each of its members comes
back. -/
inductive Shape.Keeps : Shape → Json → Prop where
  | all (j : Json) : Keeps .all j
  | empty (item : Shape) : Keeps (.list item) (.array [])
  | record {fields : List (String × Shape)} {other : Shape} {ms : List (String × Json)}
      (h : ∀ m ∈ ms, Keeps ((Shape.record fields other).member m.1) m.2) : Keeps (.record fields other) (.object ms)

mutual

theorem view_all (j : Json) : j.view .all = j := by
  match j with
  | .scalar value => rfl
  | .array items => rw [view_array (by simp), viewItems_all items]
  | .object members => rw [view_object (by simp), viewMembers_all members]
  termination_by structural j

theorem viewItems_all (js : List Json) : viewItems js .all = js := by
  match js with
  | [] => rfl
  | j :: js => exact congrArg₂ List.cons (view_all j) (viewItems_all js)
  termination_by structural js

theorem viewMembers_all (ms : List (String × Json)) : viewMembers ms .all = ms := by
  match ms with
  | [] => rfl
  | (key, j) :: ms => exact congrArg₂ List.cons (congrArg (Prod.mk key) (view_all j)) (viewMembers_all ms)
  termination_by structural ms

end

theorem viewMembers_eq (h : ∀ m ∈ ms, m.2.view (shape.member m.1) = m.2) : viewMembers ms shape = ms := by
  induction ms with
  | nil => rfl
  | cons m ms ih =>
    obtain ⟨key, j⟩ := m
    obtain ⟨hfirst, hrest⟩ := List.forall_mem_cons.1 h
    exact congrArg₂ List.cons (congrArg (Prod.mk key) hfirst) (ih hrest)

theorem Shape.Keeps.view_eq (h : shape.Keeps j) : j.view shape = j := by
  induction h with
  | all j => exact view_all j
  | empty item => rfl
  | record _ ih => rw [view_object (by simp), viewMembers_eq ih]

/-- The outline of a text that spells a value holds the value, and nothing is left behind it. -/
theorem outline_of_spells (h : Spells j.lexemes text.toList) (hdepth : j.depth ≤ maxDepth) (hshape : shape.Keeps j) :
    (outline shape text).2 = none ∧ (outline shape text).1.toJson = .ok j := by
  have hshows := shows_of_spells h shape
  rw [hshape.view_eq] at hshows
  exact outline_eq_ok_iff.2 ⟨hshows, hdepth⟩

end Scriptwright.Json
