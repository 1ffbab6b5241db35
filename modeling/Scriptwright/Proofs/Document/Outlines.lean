/-
A document is read from the outline of its text. Apart from what is reported
when it is refused, that is reading it from a value: places do not matter, and
neither does the order in which the parts of an object are looked at. So a text
is accepted exactly if it shows a value that says a document
(`parse_eq_ok_iff`).
-/
import Scriptwright.Proofs.Document.Building
import Scriptwright.Proofs.Document.Values

namespace Scriptwright

/-! ## What outlines hold -/

namespace Json

variable {items : Items} {members : Members} {head value : Outline} {start first next : Nat} {key : String}

theorem exists_array_iff {P : Json → Prop} :
    (∃ j, (Outline.array start items).toJson = .ok j ∧ P j) ↔ ∃ js, items.toList = .ok js ∧ P (.array js) := by
  simp only [Outline.toJson, bind_ok_iff, pure_ok_iff]
  constructor
  · rintro ⟨-, ⟨js, hjs, rfl⟩, hP⟩
    exact ⟨js, hjs, hP⟩
  · rintro ⟨js, hjs, hP⟩
    exact ⟨_, ⟨js, hjs, rfl⟩, hP⟩

theorem exists_object_iff {P : Json → Prop} :
    (∃ j, (Outline.object start members).toJson = .ok j ∧ P j) ↔ ∃ ms, members.toList = .ok ms ∧ P (.object ms) := by
  simp only [Outline.toJson, bind_ok_iff, pure_ok_iff]
  constructor
  · rintro ⟨-, ⟨ms, hms, rfl⟩, hP⟩
    exact ⟨ms, hms, hP⟩
  · rintro ⟨ms, hms, hP⟩
    exact ⟨_, ⟨ms, hms, rfl⟩, hP⟩

theorem Items.toList_cons_iff {l : List Json} :
    (Items.cons first head next items).toList = .ok l ↔
      ∃ j js, head.toJson = .ok j ∧ items.toList = .ok js ∧ l = j :: js := by
  rw [Items.toList, bind_cons_ok_iff]

theorem Members.toList_cons_iff {l : List (String × Json)} :
    (Members.cons key next value members).toList = .ok l ↔
      ∃ j ms, value.toJson = .ok j ∧ members.toList = .ok ms ∧ (key, j) :: ms = l := by
  rw [Members.toList]
  simp only [bind_ok_iff, pure_ok_iff, exists_and_left]

end Json

namespace Document

variable {α β : Type} {R : Json → α → Prop} {read : Json.Outline → Except Fault α}

/-- What is read from an outline is what its value says. -/
def ReadsValue (read : Json.Outline → Except Fault α) (R : Json → α → Prop) : Prop :=
  ∀ o a, read o = .ok a ↔ ∃ j, o.toJson = .ok j ∧ R j a

theorem unexpected_ne_ok {o : Json.Outline} {expected : String} {a : α} : unexpected o expected ≠ .ok a := by
  unfold unexpected
  split <;> rintro ⟨⟩

/-- A value of no interest is read, and all of it has to be sound. -/
theorem readsValue_spelled : ReadsValue (fun o => spelled o.toJson) Eq := by
  intro o j
  simp [spelled, mapError_eq_ok_iff]

theorem readsValue_textAt : ReadsValue textAt FieldType.text.Reads := by
  intro o text
  simp only [reads_text_iff]
  cases o with
  | scalar value stop =>
    cases value <;> simp [textAt, unexpected_ne_ok, Json.Outline.toJson, textOf, mismatch]
  | array => simp [textAt, unexpected_ne_ok, Json.exists_array_iff, textOf, mismatch]
  | object => simp [textAt, unexpected_ne_ok, Json.exists_object_iff, textOf, mismatch]
  | broken => simp [textAt, unexpected_ne_ok, Json.Outline.toJson]

/-! ## Members and elements -/

section

variable {rest : α → Except Fault β} {b : β}

/-- Reading the value of a member and then the other members is reading the members. -/
theorem read_member_iff {key : String} {next : Nat} {value : Json.Outline} {tail : Json.Members}
    {P : List (String × Json) → Prop} {Q : α → List (String × Json) → Prop} (hread : ReadsValue read R)
    (hrest : ∀ a, rest a = .ok b ↔ ∃ ms, tail.toList = .ok ms ∧ Q a ms)
    (hP : ∀ j ms, P ((key, j) :: ms) ↔ ∃ a, R j a ∧ Q a ms) :
    (read value >>= rest) = .ok b ↔ ∃ ms, (Json.Members.cons key next value tail).toList = .ok ms ∧ P ms := by
  simp only [bind_ok_iff, hread value, hrest, Json.Members.toList_cons_iff]
  constructor
  · rintro ⟨a, ⟨j, hj, hR⟩, ms, hms, hQ⟩
    exact ⟨_, ⟨j, ms, hj, hms, rfl⟩, (hP j ms).2 ⟨a, hR, hQ⟩⟩
  · rintro ⟨_, ⟨j, ms, hj, hms, rfl⟩, h⟩
    obtain ⟨a, hR, hQ⟩ := (hP j ms).1 h
    exact ⟨a, ⟨j, hj, hR⟩, ms, hms, hQ⟩

/-- Reading an element and then the other elements is reading the elements. -/
theorem read_item_iff {first next : Nat} {head : Json.Outline} {tail : Json.Items} {P : List Json → Prop}
    {Q : α → List Json → Prop} (hread : ReadsValue read R)
    (hrest : ∀ a, rest a = .ok b ↔ ∃ js, tail.toList = .ok js ∧ Q a js)
    (hP : ∀ j js, P (j :: js) ↔ ∃ a, R j a ∧ Q a js) :
    (read head >>= rest) = .ok b ↔ ∃ js, (Json.Items.cons first head next tail).toList = .ok js ∧ P js := by
  simp only [bind_ok_iff, hread head, hrest, Json.Items.toList_cons_iff]
  constructor
  · rintro ⟨a, ⟨j, hj, hR⟩, js, hjs, hQ⟩
    exact ⟨_, ⟨j, js, hj, hjs, rfl⟩, (hP j js).2 ⟨a, hR, hQ⟩⟩
  · rintro ⟨_, ⟨j, js, hj, hjs, rfl⟩, h⟩
    obtain ⟨a, hR, hQ⟩ := (hP j js).1 h
    exact ⟨a, ⟨j, hj, hR⟩, js, hjs, hQ⟩

end

/-- Members that cannot hold a thing are refused. -/
theorem refused_iff {fault : Fault} {members : Json.Members} {P : List (String × Json) → Prop} {b : β}
    (h : ∀ ms, members.toList = .ok ms → ¬ P ms) :
    (.error fault : Except Fault β) = .ok b ↔ ∃ ms, members.toList = .ok ms ∧ P ms := by
  constructor
  · rintro ⟨⟩
  · rintro ⟨ms, hms, hP⟩
    exact absurd hP (h ms hms)

/-- A key that has been found does not come again. -/
theorem not_givesStill_of_found {key : String} {next : Nat} {value : Json.Outline} {tail : Json.Members}
    {absent : Option α} {a b : α} {ms : List (String × Json)}
    (hms : (Json.Members.cons key next value tail).toList = .ok ms) : ¬ GivesStill key R absent (some b) ms a := by
  obtain ⟨j, ms, -, -, rfl⟩ := Json.Members.toList_cons_iff.1 hms
  simp [givesStill_cons_self]

/-! ## Lists -/

theorem readElements_eq_ok_iff {read : Nat → Json.Outline → Except Fault α} (hread : ∀ next, ReadsValue (read next) R)
    {items : Json.Items} {as : List α} :
    readElements read items = .ok as ↔ ∃ js, items.toList = .ok js ∧ List.Forall₂ R js as := by
  fun_induction readElements read items generalizing as with
  | case1 stop => simp [Json.Items.toList, eq_comm]
  | case2 fault => simp [Json.Items.toList]
  | case3 first head next tail ih =>
    have hrest : ∀ a, (do return a :: (← readElements read tail)) = .ok as ↔
        ∃ js, tail.toList = .ok js ∧ ∃ as', List.Forall₂ R js as' ∧ as = a :: as' := by
      intro a
      simp only [bind_ok_iff, ih, pure_ok_iff]
      constructor
      · rintro ⟨as', ⟨js, hjs, hR⟩, rfl⟩
        exact ⟨js, hjs, as', hR, rfl⟩
      · rintro ⟨js, hjs, as', hR, rfl⟩
        exact ⟨as', ⟨js, hjs, hR⟩, rfl⟩
    refine read_item_iff (hread next) hrest fun j js => ?_
    simp only [List.forall₂_cons_left_iff, exists_and_left]

theorem readsValue_readList {read : Nat → Json.Outline → Except Fault α} (hread : ∀ next, ReadsValue (read next) R) :
    ReadsValue (readList read) (ListOf R) := by
  intro o as
  cases o with
  | array start items =>
    rw [readList, readElements_eq_ok_iff hread, Json.exists_array_iff]
    simp only [listOf_array_iff]
  | scalar => simp [readList, unexpected_ne_ok, Json.Outline.toJson, ListOf]
  | object => simp [readList, unexpected_ne_ok, Json.exists_object_iff, ListOf]
  | broken => simp [readList, unexpected_ne_ok, Json.Outline.toJson]

/-! ## Pairs -/

theorem pairOfMembers_eq_ok_iff {key : String} (hkey : key ≠ nameKey) (hread : ReadsValue read R)
    {name : Option String} {second : Option α} {members : Json.Members} {pair : String × α} :
    pairOfMembers key read name second members = .ok pair ↔ ∃ ms, members.toList = .ok ms ∧
      GivesStill nameKey FieldType.text.Reads none name ms pair.1 ∧ GivesStill key R none second ms pair.2 := by
  fun_induction pairOfMembers key read name second members with
  | case1 second stop => simp [Json.Members.toList, givesStill_nil, fail]
  | case2 name stop => simp [Json.Members.toList, givesStill_nil, fail]
  | case3 stop name a => simp [Json.Members.toList, givesStill_nil, Prod.ext_iff]
  | case4 name second fault => simp [Json.Members.toList]
  | case5 second next value tail name =>
    exact refused_iff fun ms hms h => not_givesStill_of_found hms h.1
  | case6 second next value tail ih =>
    refine read_member_iff readsValue_textAt ih fun j ms => ?_
    simp only [givesStill_cons_self, givesStill_cons_of_ne hkey.symm, true_and, ← and_assoc, exists_and_right]
  | case7 =>
    exact refused_iff fun ms hms h => not_givesStill_of_found hms h.2
  | case8 name next value tail hname ih =>
    refine read_member_iff hread ih fun j ms => ?_
    rw [givesStill_cons_self, givesStill_cons_of_ne hname]
    simp only [true_and, ← exists_and_left, and_left_comm]
  | case9 name second other next value tail hname hother ih =>
    refine read_member_iff readsValue_spelled (fun _ => ih) fun j ms => ?_
    simp only [givesStill_cons_of_ne hname, givesStill_cons_of_ne hother, exists_eq_left']

/-- When the fields of a record have been read from a list, nothing may be left of it. -/
theorem read_end_iff {items : Json.Items} {b b' : β} :
    (do
      readEnd items
      return b) = .ok b' ↔ ∃ js, items.toList = .ok js ∧ b = b' ∧ js = [] := by
  rw [bind_ok_iff]
  cases items with
  | closed stop => simp [readEnd, Json.Items.toList, pure_ok_iff]
  | broken fault =>
    rw [readEnd]
    split <;> simp [Json.Items.toList]
  | cons => simp [readEnd, Json.Items.toList_cons_iff]

/-- A pair is read as what its value says. -/
theorem readsValue_readPair {record key : String} (hkey : key ≠ nameKey) (hread : ReadsValue read R) :
    ReadsValue (readPair record key read) (PairOf nameKey key R) := by
  rintro o ⟨name, a⟩
  cases o with
  | object start members =>
    rw [readPair, pairOfMembers_eq_ok_iff hkey hread, Json.exists_object_iff]
    rfl
  | array start items =>
    rw [Json.exists_array_iff]
    cases items with
    | closed stop => simp [readPair, fail, Json.Items.toList, PairOf]
    | broken fault => simp [readPair, Json.Items.toList]
    | cons first head next tail =>
      -- Two elements are read in turn, and nothing may be left behind the second.
      refine read_item_iff readsValue_textAt (Q := fun name' js => ∃ j, js = [j] ∧ R j a ∧ name' = name) ?_ ?_
      · intro name'
        cases tail with
        | closed stop => simp [fail, Json.Items.toList]
        | broken fault => simp [Json.Items.toList]
        | cons first head next tail =>
          refine read_item_iff hread (fun a' => read_end_iff) fun j js => ?_
          simp [and_comm, and_assoc]
      · intro j js
        rcases js with _ | ⟨j', _ | ⟨j'', js⟩⟩ <;> simp [PairOf]
  | scalar => simp [readPair, unexpected_ne_ok, Json.Outline.toJson, PairOf]
  | broken => simp [readPair, unexpected_ne_ok, Json.Outline.toJson]

/-! ## Statements -/

/-- A kind, given by its name. -/
def NamesKind (j : Json) (k : Kind) : Prop :=
  j = ofText k.name

theorem ofName?_eq_some_iff {name : String} {k : Kind} : Kind.ofName? name = some k ↔ name = k.name := by
  constructor
  · intro h
    have hname := List.find?_some h
    exact (beq_iff_eq.1 hname).symm
  · rintro rfl
    exact Kind.ofName?_name k

theorem readsValue_kindAt : ReadsValue kindAt NamesKind := by
  intro o k
  cases o with
  | scalar value stop =>
    cases value with
    | string name =>
      have hvalue :
          (∃ j, (Json.Outline.scalar (.string name) stop).toJson = .ok j ∧ NamesKind j k) ↔ name = k.name := by
        simp [Json.Outline.toJson, NamesKind, ofText]
      rw [hvalue, ← ofName?_eq_some_iff, kindAt]
      cases Kind.ofName? name <;> simp [fail]
    | null | bool | number => simp [kindAt, unexpected_ne_ok, Json.Outline.toJson, NamesKind, ofText]
  | array =>
    rw [Json.exists_array_iff]
    simp [kindAt, unexpected_ne_ok, NamesKind, ofText]
  | object =>
    rw [Json.exists_object_iff]
    simp [kindAt, unexpected_ne_ok, NamesKind, ofText]
  | broken => simp [kindAt, unexpected_ne_ok, Json.Outline.toJson]

theorem taggedMembers_eq_ok_iff {found : Option Kind} {members : Json.Members} {k : Kind}
    {others : List (String × Json)} :
    taggedMembers found members = .ok (k, others) ↔ ∃ ms, members.toList = .ok ms ∧
      GivesStill typeKey NamesKind none found ms k ∧ (ms.filter fun m => m.1 != typeKey) = others := by
  fun_induction taggedMembers found members generalizing k others with
  | case1 stop k' => simp [Json.Members.toList, givesStill_nil]
  | case2 stop => simp [Json.Members.toList, givesStill_nil, fail]
  | case3 found fault => simp [Json.Members.toList]
  | case4 next value tail k' =>
    exact refused_iff fun ms hms h => not_givesStill_of_found hms h.1
  | case5 next value tail ih =>
    refine read_member_iff readsValue_kindAt (fun k' => ih k') fun j ms => ?_
    rw [List.filter_cons_of_neg (by simp), givesStill_cons_self]
    simp only [true_and, ← and_assoc, exists_and_right]
  | case6 found key next value tail hkey ih =>
    refine read_member_iff readsValue_spelled (Q := fun j ms => GivesStill typeKey NamesKind none found ms k ∧
      ((key, j) :: ms.filter fun m => m.1 != typeKey) = others) (fun j => ?_) fun j ms => ?_
    · rw [bind_ok_iff, Prod.exists]
      simp only [ih, pure_ok_iff, Prod.mk.injEq]
      constructor
      · rintro ⟨k', others', ⟨ms, hms, hk, rfl⟩, rfl, rfl⟩
        exact ⟨ms, hms, hk, rfl⟩
      · rintro ⟨ms, hms, hk, rfl⟩
        exact ⟨k, _, ⟨ms, hms, hk, rfl⟩, rfl, rfl⟩
    · rw [List.filter_cons_of_pos (by simpa using hkey), givesStill_cons_of_ne hkey]
      simp only [exists_eq_left']

/-- A statement that is in no other is read as what its value says, if its kind is given by its name. -/
theorem readsValue_readStatementAt (next : Nat) : ReadsValue (readStatementAt next) (StatementBy NamesKind) := by
  intro o s
  cases o with
  | object start members =>
    rw [Json.exists_object_iff, readStatementAt, bind_ok_iff, Prod.exists]
    simp only [taggedMembers_eq_ok_iff, placed, mapError_eq_ok_iff, statementOfMembers_eq_ok_iff]
    have hothers : ∀ {k : Kind} {ms : List (String × Json)} {record : Record k.fields},
        GivesAll (ms.filter fun m => m.1 != typeKey) k.fields record ↔ GivesAll ms k.fields record :=
      fillsAll_congr fun f hf => valuesOf_filter (name_ne_typeKey f hf) _
    constructor
    · rintro ⟨k, others, ⟨ms, hms, hk, rfl⟩, record, hrecord, hs⟩
      exact ⟨ms, hms, k, record, hk, hothers.1 hrecord, hs⟩
    · rintro ⟨ms, hms, k, record, hk, hrecord, hs⟩
      exact ⟨k, _, ⟨ms, hms, hk, rfl⟩, record, hothers.2 hrecord, hs⟩
  | array start items =>
    rw [Json.exists_array_iff]
    cases items with
    | closed stop => simp [readStatementAt, fail, Json.Items.toList, StatementBy]
    | broken fault => simp [readStatementAt, Json.Items.toList]
    | cons first head next tail =>
      refine read_item_iff readsValue_kindAt
        (Q := fun k js => ∃ record, ListsAll js k.fields record ∧ statementOf k record = .ok s) ?_ ?_
      · intro k
        rw [bind_ok_iff]
        simp only [spelled, placed, mapError_eq_ok_iff, statementOfItems_eq_ok_iff]
      · intro j js
        simp only [StatementBy, exists_and_left]
  | scalar => simp [readStatementAt, unexpected_ne_ok, Json.Outline.toJson, StatementBy]
  | broken => simp [readStatementAt, unexpected_ne_ok, Json.Outline.toJson]

/-! ## Documents -/

/-- What a value says as the variables of a document. -/
abbrev VariablesOf : Json → List (String × String) → Prop :=
  ListOf (PairOf nameKey "value" FieldType.text.Reads)

/-- What a value says as the functions of a document. -/
abbrev FunctionsOf : Json → List (String × List Statement) → Prop :=
  ListOf (PairOf nameKey "body" (ListOf (StatementBy NamesKind)))

/-- What a value says as the statements of a document. -/
abbrev StatementsOf : Json → List Statement → Prop :=
  ListOf (StatementBy NamesKind)

/-- What an element of a list says, if there is one; else nothing. -/
def MaySay (R : Json → List α → Prop) : Option Json → List α → Prop
  | some j, as => R j as
  | none, as => as = []

/-- What a value says as a document: as an object of its parts, each of which may be left out, or as a list of them,
which may end early. -/
def DocumentOf : Json → Document → Prop
  | .object ms, d =>
    (∀ m ∈ ms, m.1 ∈ keys) ∧ GivesBy "variables" VariablesOf (some []) ms d.exports ∧
      GivesBy "functions" FunctionsOf (some []) ms d.functions ∧
      GivesBy "statements" StatementsOf (some []) ms d.statements
  | .array js, d =>
    MaySay VariablesOf js[0]? d.exports ∧ MaySay FunctionsOf js[1]? d.functions ∧
      MaySay StatementsOf js[2]? d.statements ∧ js.length ≤ 3
  | .scalar _, _ => False

theorem readsValue_readVariables : ReadsValue readVariables VariablesOf :=
  readsValue_readList fun _ => readsValue_readPair (by decide) readsValue_textAt

theorem readsValue_readStatementsAt : ReadsValue readStatementsAt StatementsOf :=
  readsValue_readList readsValue_readStatementAt

theorem readsValue_readFunctions : ReadsValue readFunctions FunctionsOf :=
  readsValue_readList fun _ => readsValue_readPair (by decide) readsValue_readStatementsAt

theorem ofMembers_eq_ok_iff {exports : Option (List (String × String))}
    {functions : Option (List (String × List Statement))} {statements : Option (List Statement)}
    {members : Json.Members} {d : Document} :
    ofMembers exports functions statements members = .ok d ↔ ∃ ms, members.toList = .ok ms ∧
      (∀ m ∈ ms, m.1 ∈ keys) ∧ GivesStill "variables" VariablesOf (some []) exports ms d.exports ∧
        GivesStill "functions" FunctionsOf (some []) functions ms d.functions ∧
        GivesStill "statements" StatementsOf (some []) statements ms d.statements := by
  have hcons : ∀ {key : String} {j : Json} {ms : List (String × Json)}, key ∈ keys →
      ((∀ m ∈ (key, j) :: ms, m.1 ∈ keys) ↔ ∀ m ∈ ms, m.1 ∈ keys) := by
    intro key j ms hkey
    rw [List.forall_mem_cons, and_iff_right hkey]
  -- A member is one of the three parts, found before or not, or has a key that no document knows.
  fun_induction ofMembers exports functions statements members with
  | case1 exports functions statements stop =>
    obtain ⟨e, f, s⟩ := d
    simp [Json.Members.toList, givesStill_nil]
  | case2 => simp [Json.Members.toList]
  | case3 exports functions statements next value tail hfound =>
    obtain ⟨found, rfl⟩ := Option.isSome_iff_exists.1 hfound
    exact refused_iff fun ms hms h => not_givesStill_of_found hms h.2.1
  | case4 exports functions statements next value tail hnone ih =>
    obtain rfl : exports = none := by simpa using hnone
    refine read_member_iff readsValue_readVariables ih fun j ms => ?_
    rw [hcons (by decide), givesStill_cons_self, givesStill_cons_of_ne (by decide), givesStill_cons_of_ne (by decide)]
    simp only [true_and, and_assoc, ← exists_and_left, ← exists_and_right, and_left_comm]
  | case5 exports functions statements next value tail hfound hkey =>
    obtain ⟨found, rfl⟩ := Option.isSome_iff_exists.1 hfound
    exact refused_iff fun ms hms h => not_givesStill_of_found hms h.2.2.1
  | case6 exports functions statements next value tail hnone hkey ih =>
    obtain rfl : functions = none := by simpa using hnone
    refine read_member_iff readsValue_readFunctions ih fun j ms => ?_
    rw [hcons (by decide), givesStill_cons_self, givesStill_cons_of_ne (by decide), givesStill_cons_of_ne (by decide)]
    simp only [true_and, and_assoc, ← exists_and_left, ← exists_and_right, and_left_comm]
  | case7 exports functions statements next value tail hfound hkey hkey' =>
    obtain ⟨found, rfl⟩ := Option.isSome_iff_exists.1 hfound
    exact refused_iff fun ms hms h => not_givesStill_of_found hms h.2.2.2
  | case8 exports functions statements next value tail hnone hkey hkey' ih =>
    obtain rfl : statements = none := by simpa using hnone
    refine read_member_iff readsValue_readStatementsAt ih fun j ms => ?_
    rw [hcons (by decide), givesStill_cons_self, givesStill_cons_of_ne (by decide), givesStill_cons_of_ne (by decide)]
    simp only [true_and, ← exists_and_left, and_left_comm]
  | case9 exports functions statements key next value tail hkey hkey' hkey'' =>
    refine refused_iff fun ms hms h => ?_
    obtain ⟨j, ms, -, -, rfl⟩ := Json.Members.toList_cons_iff.1 hms
    have hmem := h.1 _ List.mem_cons_self
    simp [keys, hkey, hkey', hkey''] at hmem

/-- Reading an optional element and then the other elements is reading the elements. -/
theorem read_optional_iff {read : Json.Outline → Except Fault (List α)} {R : Json → List α → Prop}
    {rest : List α × Json.Items → Except Fault β} {b : β} {Q : List α → List Json → Prop} (hread : ReadsValue read R)
    (hrest : ∀ as items, rest (as, items) = .ok b ↔ ∃ js, items.toList = .ok js ∧ Q as js) {items : Json.Items} :
    (readOptional read items >>= rest) = .ok b ↔
      ∃ js, items.toList = .ok js ∧ ∃ as, MaySay R js[0]? as ∧ Q as js.tail := by
  cases items with
  | closed stop =>
    rw [readOptional, bind_ok_iff]
    simp [hrest, Json.Items.toList, MaySay]
  | broken fault =>
    rw [readOptional, bind_ok_iff]
    simp [Json.Items.toList]
  | cons first head next tail =>
    rw [readOptional, bind_assoc]
    refine read_item_iff hread (Q := Q) (fun as => hrest as tail) fun j js => ?_
    simp [MaySay]

theorem readsValue_ofOutline : ReadsValue ofOutline DocumentOf := by
  intro o d
  cases o with
  | object start members =>
    rw [ofOutline, ofMembers_eq_ok_iff, Json.exists_object_iff]
    rfl
  | array start items =>
    rw [ofOutline, Json.exists_array_iff]
    refine (read_optional_iff readsValue_readVariables fun _ _ => read_optional_iff readsValue_readFunctions fun _ _ =>
      read_optional_iff readsValue_readStatementsAt fun _ _ => read_end_iff).trans ?_
    refine exists_congr fun js => and_congr_right fun _ => ?_
    have hlength : js.tail.tail.tail = [] ↔ js.length ≤ 3 := by
      rw [← List.length_eq_zero_iff, List.length_tail, List.length_tail, List.length_tail]
      omega
    simp only [List.getElem?_tail, hlength, DocumentOf]
    constructor
    · rintro ⟨exports, hexports, functions, hfunctions, statements, hstatements, rfl, hjs⟩
      exact ⟨hexports, hfunctions, hstatements, hjs⟩
    · rintro ⟨hexports, hfunctions, hstatements, hjs⟩
      exact ⟨_, hexports, _, hfunctions, _, hstatements, rfl, hjs⟩
  | scalar => simp [ofOutline, unexpected_ne_ok, Json.Outline.toJson, DocumentOf]
  | broken => simp [ofOutline, unexpected_ne_ok, Json.Outline.toJson]

/-- A text is accepted as a document exactly if it shows a value that says this document and does not nest too deep. -/
theorem parse_eq_ok_iff {source : String} {d : Document} :
    parse source = .ok d ↔ ∃ j, Json.Shows shape source j ∧ j.depth ≤ Json.maxDepth ∧ DocumentOf j d := by
  have hparse : parse source = .ok d ↔
      (Json.outline shape source).2 = none ∧ ofOutline (Json.outline shape source).1 = .ok d := by
    rw [parse]
    rcases Json.outline shape source with ⟨root, left⟩
    cases left <;> cases hroot : ofOutline root <;> simp [hroot]
  rw [hparse, readsValue_ofOutline]
  simp only [← and_assoc, ← Json.outline_eq_ok_iff, ← exists_and_left]

end Document
end Scriptwright
