/-
A document that is accepted holds only statements that the checked constructors
let through, however it is laid out: each way of reading a statement, from the
text or from a value inside another statement, as an object or as a list of its
fields, ends in the constructor of its kind (`made_of_parse`).
-/
import Scriptwright.Document
import Scriptwright.Proofs.Statement.Nodes

namespace Scriptwright

namespace Document

/-! ## Values -/

/-- What is promised of the value of a field: every statement in it was built by the constructors. -/
def FieldType.Sound : (t : FieldType) → t.Value → Prop
  | .statement, s => s.Made
  | .statements, body => ∀ s ∈ body, s.Made
  | .cases, arms => ∀ arm ∈ arms, arm.2.Made
  | .text, _ | .flag, _ | .index, _ | .texts, _ | .code, _ => True

def Record.Sound : (fields : List Field) → Record fields → Prop
  | [], _ => True
  | field :: fields, (value, rest) => field.type.Sound value ∧ Record.Sound fields rest

def Slots.Sound : (fields : List Field) → Slots fields → Prop
  | [], _ => True
  | field :: fields, (value, rest) => (∀ v, value = some v → field.type.Sound v) ∧ Slots.Sound fields rest

/-- What a field holds when it is not there is promised too. -/
def SoundAbsent (fields : List Field) : Prop :=
  ∀ field ∈ fields, ∀ v, field.absent = some v → field.type.Sound v

theorem soundAbsent_fields (k : Kind) : SoundAbsent k.fields := by
  intro field hf v hv
  cases k <;> simp only [Kind.fields, List.mem_cons, List.not_mem_nil, or_false] at hf
  all_goals rcases hf with rfl | rfl <;> first | exact trivial | cases hv

theorem soundAbsent_caseFields : SoundAbsent caseFields := by
  intro field hf v hv
  simp only [caseFields, List.mem_cons, List.not_mem_nil, or_false] at hf
  rcases hf with rfl | rfl <;> cases hv

theorem Slots.sound_empty (fields : List Field) : Slots.Sound fields (.empty fields) := by
  induction fields with
  | nil => exact trivial
  | cons field fields ih => exact ⟨fun v hv => (nomatch hv), ih⟩

/-- The checked constructors build what a record is made into. -/
theorem made_of_make {k : Kind} {record : Record k.fields} {s : Statement} (hr : Record.Sound k.fields record)
    (h : k.make record = .ok s) : s.Made := by
  cases k with
  | exec => obtain ⟨command, replacing, ⟨⟩⟩ := record; cases h; exact .exec _ _
  | interpret => obtain ⟨text, ⟨⟩⟩ := record; cases h; exact .interpret _
  | appendFile => obtain ⟨path, payload, ⟨⟩⟩ := record; exact .appendFile h
  | list => obtain ⟨body, ⟨⟩⟩ := record; cases h; exact .list hr.1
  | switchArg => obtain ⟨index, cases, ⟨⟩⟩ := record; exact .switchArg hr.2.1 h
  | exportVar => obtain ⟨name, value, ⟨⟩⟩ := record; exact .exportVar h
  | call => obtain ⟨function, args, ⟨⟩⟩ := record; exact .call h
  | comment => obtain ⟨text, ⟨⟩⟩ := record; cases h; exact .comment _
  | leave =>
    obtain ⟨code | code, ⟨⟩⟩ := record
    · cases h; exact .leaveWith _
    · exact .leave h

theorem made_of_statementOf {k : Kind} {record : Record k.fields} {s : Statement} (hr : Record.Sound k.fields record)
    (h : statementOf k record = .ok s) : s.Made :=
  made_of_make hr (mapError_eq_ok_iff.1 h)

/-! ## Records -/

theorem Record.sound_ofAbsent {length : Nat} {expected : String} {fields : List Field} {record : Record fields}
    (habsent : SoundAbsent fields) (h : Record.ofAbsent length expected fields = .ok record) :
    Record.Sound fields record := by
  induction fields with
  | nil => exact trivial
  | cons field fields ih =>
    rw [Record.ofAbsent] at h
    cases hv : field.absent with
    | none => rw [hv] at h; cases h
    | some value =>
      rw [hv] at h
      obtain ⟨rest, hrest, hrecord⟩ := bind_ok_iff.1 h
      cases hrecord
      have hvalue := habsent field List.mem_cons_self value hv
      exact ⟨hvalue, ih (fun f hf => habsent f (List.mem_cons_of_mem _ hf)) hrest⟩

theorem Slots.sound_put {key : String} {read : (t : FieldType) → Except Mismatch t.Value} {fields : List Field}
    {slots next : Slots fields} (hread : ∀ t v, read t = .ok v → t.Sound v) (hs : Slots.Sound fields slots)
    (h : Slots.put key read fields slots = .ok next) : Slots.Sound fields next := by
  induction fields with
  | nil => exact trivial
  | cons field fields ih =>
    obtain ⟨value, rest⟩ := slots
    obtain ⟨hvalue, hrest⟩ := hs
    by_cases hkey : field.name = key
    · rw [Slots.put_of_eq hkey] at h
      cases value with
      | some value => cases h
      | none =>
        obtain ⟨value, hown, hnext⟩ := bind_ok_iff.1 h
        cases hnext
        exact ⟨fun v hv => Option.some.inj hv ▸ hread _ _ hown, hrest⟩
    · rw [Slots.put_of_ne hkey] at h
      obtain ⟨rest', hput, hnext⟩ := bind_ok_iff.1 h
      cases hnext
      exact ⟨hvalue, ih hrest hput⟩

theorem Slots.sound_finish {fields : List Field} {slots : Slots fields} {record : Record fields}
    (habsent : SoundAbsent fields) (hs : Slots.Sound fields slots) (h : Slots.finish fields slots = .ok record) :
    Record.Sound fields record := by
  induction fields with
  | nil => exact trivial
  | cons field fields ih =>
    obtain ⟨value, rest⟩ := slots
    obtain ⟨hvalue, hrest⟩ := hs
    rw [Slots.finish] at h
    cases hv : (value <|> field.absent) with
    | none => rw [hv] at h; cases h
    | some v =>
      rw [hv] at h
      obtain ⟨others, hothers, hrecord⟩ := bind_ok_iff.1 h
      cases hrecord
      refine ⟨?_, ih (fun f hf => habsent f (List.mem_cons_of_mem _ hf)) hrest hothers⟩
      cases value with
      | some w => exact hvalue v hv
      | none => exact habsent field List.mem_cons_self v hv

/-! ## Values inside a statement -/

/-- What is promised of all that is read from a value. -/
def SoundReads (j : Json) : Prop :=
  ∀ t v, readField j t = .ok v → t.Sound v

theorem sound_readItems {items : List Json} {fields : List Field} {name : String} {count length : Nat}
    {record : Record fields} (habsent : SoundAbsent fields) (hitems : ∀ j ∈ items, SoundReads j)
    (h : readItems items fields name count length = .ok record) : Record.Sound fields record := by
  induction items generalizing fields with
  | nil => exact Record.sound_ofAbsent habsent h
  | cons j js ih =>
    cases fields with
    | nil => cases h
    | cons field fields =>
      rw [readItems] at h
      obtain ⟨value, hvalue, h⟩ := bind_ok_iff.1 h
      obtain ⟨rest, hrest, hrecord⟩ := bind_ok_iff.1 h
      cases hrecord
      have habsent' : SoundAbsent fields := fun f hf => habsent f (List.mem_cons_of_mem _ hf)
      have hitems' : ∀ k ∈ js, SoundReads k := fun k hk => hitems k (List.mem_cons_of_mem _ hk)
      exact ⟨hitems j List.mem_cons_self _ _ hvalue, ih habsent' hitems' hrest⟩

theorem sound_readMembers {members : List (String × Json)} {fields : List Field} {slots next : Slots fields}
    (hmembers : ∀ m ∈ members, SoundReads m.2) (hs : Slots.Sound fields slots)
    (h : readMembers members fields slots = .ok next) : Slots.Sound fields next := by
  induction members generalizing slots with
  | nil => cases h; exact hs
  | cons m members ih =>
    obtain ⟨key, value⟩ := m
    simp only [readMembers, bind_ok_iff] at h
    obtain ⟨slots', hput, hrest⟩ := h
    have hs' := Slots.sound_put (hmembers _ List.mem_cons_self) hs hput
    exact ih (fun m hm => hmembers m (List.mem_cons_of_mem _ hm)) hs' hrest

theorem sound_readStatements {js : List Json} {body : List Statement} (hitems : ∀ j ∈ js, SoundReads j)
    (h : readStatements js = .ok body) : ∀ s ∈ body, s.Made := by
  induction js generalizing body with
  | nil => cases h; exact fun s hs => absurd hs List.not_mem_nil
  | cons j js ih =>
    simp only [readStatements, bind_ok_iff, pure_ok_iff] at h
    obtain ⟨s, hs, rest, hrest, rfl⟩ := h
    have hmade : s.Made := hitems j List.mem_cons_self .statement s hs
    exact List.forall_mem_cons.2 ⟨hmade, ih (fun k hk => hitems k (List.mem_cons_of_mem _ hk)) hrest⟩

theorem sound_readCases {js : List Json} {cases : List (String × Statement)}
    (hitems : ∀ j ∈ js, ∀ c, readCase j = .ok c → c.2.Made) (h : readCases js = .ok cases) : ∀ c ∈ cases, c.2.Made := by
  induction js generalizing cases with
  | nil => cases h; exact fun c hc => absurd hc List.not_mem_nil
  | cons j js ih =>
    simp only [readCases, bind_ok_iff, pure_ok_iff] at h
    obtain ⟨c, hc, rest, hrest, rfl⟩ := h
    have hmade := hitems j List.mem_cons_self c hc
    exact List.forall_mem_cons.2 ⟨hmade, ih (fun k hk => hitems k (List.mem_cons_of_mem _ hk)) hrest⟩

theorem made_of_readMembers {members : List (String × Json)} {k : Kind} {s : Statement}
    (hmembers : ∀ m ∈ members, SoundReads m.2)
    (h : (do let slots ← readMembers members k.fields (.empty k.fields)
             statementOf k (← slots.finish)) = .ok s) : s.Made := by
  simp only [bind_ok_iff] at h
  obtain ⟨slots, hslots, record, hrecord, hs⟩ := h
  have hsound := sound_readMembers hmembers (Slots.sound_empty k.fields) hslots
  exact made_of_statementOf (Slots.sound_finish (soundAbsent_fields k) hsound hrecord) hs

theorem made_of_readItems {items : List Json} {k : Kind} {s : Statement} (hitems : ∀ j ∈ items, SoundReads j)
    (h : (do statementOf k (← readItems items k.fields k.recordName k.fields.length items.length)) = .ok s) :
    s.Made := by
  simp only [bind_ok_iff] at h
  obtain ⟨record, hrecord, hs⟩ := h
  exact made_of_statementOf (sound_readItems (soundAbsent_fields k) hitems hrecord) hs

theorem made_of_readCase_array {items : List Json} {c : String × Statement} (hitems : ∀ j ∈ items, SoundReads j)
    (h : readCase (.array items) = .ok c) : c.2.Made := by
  rw [readCase] at h
  obtain ⟨⟨value, body, ⟨⟩⟩, hrecord, hc⟩ := bind_ok_iff.1 h
  cases hc
  exact (sound_readItems soundAbsent_caseFields hitems hrecord).2.1

theorem made_of_readCase_object {members : List (String × Json)} {c : String × Statement}
    (hmembers : ∀ m ∈ members, SoundReads m.2) (h : readCase (.object members) = .ok c) : c.2.Made := by
  rw [readCase] at h
  obtain ⟨slots, hslots, h⟩ := bind_ok_iff.1 h
  obtain ⟨⟨value, body, ⟨⟩⟩, hrecord, hc⟩ := bind_ok_iff.1 h
  cases hc
  have hsound := sound_readMembers hmembers (Slots.sound_empty caseFields) hslots
  exact (Slots.sound_finish soundAbsent_caseFields hsound hrecord).2.1

/-- Everything that is read from a value is built by the constructors, by induction on the value: a case or a statement
inside it is read from a part of it. -/
theorem sound_reads (j : Json) : SoundReads j ∧ ∀ c, readCase j = .ok c → c.2.Made := by
  induction j using Json.induction with
  | scalar value =>
    refine ⟨fun t v h => ?_, fun c h => by cases h⟩
    cases t <;> first | exact trivial | (cases value <;> cases h)
  | array items ih =>
    refine ⟨fun t v h => ?_, fun c h => made_of_readCase_array (fun j hj => (ih j hj).1) h⟩
    cases t with
    | statement =>
      cases items with
      | nil => cases h
      | cons tag items =>
        simp only [readField, bind_ok_iff] at h
        obtain ⟨k, -, h⟩ := h
        exact made_of_readItems (fun j hj => (ih j (List.mem_cons_of_mem _ hj)).1) (bind_ok_iff.2 h)
    | statements => exact sound_readStatements (fun j hj => (ih j hj).1) h
    | cases => exact sound_readCases (fun j hj => (ih j hj).2) h
    | _ => trivial
  | object members ih =>
    refine ⟨fun t v h => ?_, fun c h => made_of_readCase_object (fun m hm => (ih m hm).1) h⟩
    cases t with
    | statement =>
      rw [readField] at h
      obtain ⟨k, -, h⟩ := bind_ok_iff.1 h
      exact made_of_readMembers (fun m hm => (ih m hm).1) h
    | statements | cases => cases h
    | _ => trivial

/-! ## Statements of the text -/

theorem made_of_readStatementAt {next : Nat} {o : Json.Outline} {s : Statement} (h : readStatementAt next o = .ok s) :
    s.Made := by
  unfold readStatementAt at h
  split at h
  · obtain ⟨⟨k, members⟩, -, h⟩ := bind_ok_iff.1 h
    exact made_of_readMembers (fun m _ => (sound_reads m.2).1) (mapError_eq_ok_iff.1 h)
  · cases h
  · cases h
  · obtain ⟨k, -, h⟩ := bind_ok_iff.1 h
    obtain ⟨items, -, h⟩ := bind_ok_iff.1 h
    exact made_of_readItems (fun j _ => (sound_reads j).1) (mapError_eq_ok_iff.1 h)
  · unfold unexpected at h
    split at h <;> cases h

section

variable {α : Type} {P : α → Prop}

/-- What holds of all that is read from elements holds of the elements of a list. -/
theorem forall_of_readElements {read : Nat → Json.Outline → Except Fault α}
    (hread : ∀ next o a, read next o = .ok a → P a) {items : Json.Items} {xs : List α}
    (h : readElements read items = .ok xs) : ∀ x ∈ xs, P x := by
  fun_induction readElements read items generalizing xs with
  | case1 => cases h; exact fun x hx => absurd hx List.not_mem_nil
  | case2 => cases h
  | case3 first head next tail ih =>
    simp only [bind_ok_iff, pure_ok_iff] at h
    obtain ⟨x, hx, rest, hrest, rfl⟩ := h
    exact List.forall_mem_cons.2 ⟨hread next head x hx, ih hrest⟩

theorem forall_of_readList {read : Nat → Json.Outline → Except Fault α} (hread : ∀ next o a, read next o = .ok a → P a)
    {o : Json.Outline} {xs : List α} (h : readList read o = .ok xs) : ∀ x ∈ xs, P x := by
  cases o with
  | array start items => exact forall_of_readElements hread h
  | _ => cases h

/-- What holds of all that is read from a value holds of the second part of a pair. -/
theorem of_pairOfMembers {key : String} {read : Json.Outline → Except Fault α} (hread : ∀ o a, read o = .ok a → P a)
    {name : Option String} {second : Option α} (hsecond : ∀ a, second = some a → P a) {members : Json.Members}
    {pair : String × α} (h : pairOfMembers key read name second members = .ok pair) : P pair.2 := by
  fun_induction pairOfMembers key read name second members with
  | case1 | case2 | case4 | case5 | case7 => cases h
  | case3 stop name a => cases h; exact hsecond a rfl
  | case6 second next value tail ih =>
    obtain ⟨name, -, h⟩ := bind_ok_iff.1 h
    exact ih name hsecond h
  | case8 name next value tail hname ih =>
    obtain ⟨a, ha, h⟩ := bind_ok_iff.1 h
    exact ih a (fun b hb => Option.some.inj hb ▸ hread value a ha) h
  | case9 name second other next value tail hname hkey ih =>
    obtain ⟨-, -, h⟩ := bind_ok_iff.1 h
    exact ih hsecond h

theorem of_readPair {record key : String} {read : Json.Outline → Except Fault α} (hread : ∀ o a, read o = .ok a → P a)
    {o : Json.Outline} {pair : String × α} (h : readPair record key read o = .ok pair) : P pair.2 := by
  unfold readPair at h
  split at h
  · exact of_pairOfMembers hread (by rintro a ⟨⟩) h
  · cases h
  · cases h
  · obtain ⟨name, -, h⟩ := bind_ok_iff.1 h
    split at h
    · cases h
    · cases h
    · obtain ⟨a, ha, h⟩ := bind_ok_iff.1 h
      obtain ⟨-, -, hpair⟩ := bind_ok_iff.1 h
      cases hpair
      exact hread _ a ha
  · unfold unexpected at h
    split at h <;> cases h

end

/-! ## Whole documents -/

/-- Every statement of a document, in the body of a function or not, was built by the constructors. -/
structure Made (document : Document) : Prop where
  bodies : ∀ f ∈ document.functions, ∀ s ∈ f.2, s.Made
  statements : ∀ s ∈ document.statements, s.Made

theorem made_of_readStatementsAt {o : Json.Outline} {body : List Statement} (h : readStatementsAt o = .ok body) :
    ∀ s ∈ body, s.Made :=
  forall_of_readList (fun _ _ _ => made_of_readStatementAt) h

theorem made_of_readFunctions {o : Json.Outline} {functions : List (String × List Statement)}
    (h : readFunctions o = .ok functions) : ∀ f ∈ functions, ∀ s ∈ f.2, s.Made :=
  forall_of_readList (fun _ _ _ => of_readPair fun _ _ => made_of_readStatementsAt) h

theorem made_of_ofMembers {exports : Option (List (String × String))}
    {functions : Option (List (String × List Statement))} {statements : Option (List Statement)}
    {members : Json.Members} {document : Document} (hf : ∀ f ∈ functions.getD [], ∀ s ∈ f.2, s.Made)
    (hs : ∀ s ∈ statements.getD [], s.Made) (h : ofMembers exports functions statements members = .ok document) :
    document.Made := by
  fun_induction ofMembers exports functions statements members with
  | case1 => cases h; exact ⟨hf, hs⟩
  | case2 | case3 | case5 | case7 | case9 => cases h
  | case4 exports functions statements next value tail hnone ih =>
    obtain ⟨exports, -, h⟩ := bind_ok_iff.1 h
    exact ih exports hf hs h
  | case6 exports functions statements next value tail hnone hkey ih =>
    obtain ⟨functions, hfunctions, h⟩ := bind_ok_iff.1 h
    exact ih functions (made_of_readFunctions hfunctions) hs h
  | case8 exports functions statements next value tail hnone hkey hkey' ih =>
    obtain ⟨statements, hstatements, h⟩ := bind_ok_iff.1 h
    exact ih statements hf (made_of_readStatementsAt hstatements) h

/-- What holds of all that is read from an element holds where there is one, and of nothing. -/
theorem of_readOptional {α : Type} {P : List α → Prop} {read : Json.Outline → Except Fault (List α)} (hnil : P [])
    (hread : ∀ o xs, read o = .ok xs → P xs) {items rest : Json.Items} {xs : List α}
    (h : readOptional read items = .ok (xs, rest)) : P xs := by
  cases items with
  | closed stop => cases h; exact hnil
  | broken fault => cases h
  | cons first head next tail =>
    obtain ⟨ys, hys, hpair⟩ := bind_ok_iff.1 h
    cases hpair
    exact hread head xs hys

theorem made_of_ofOutline {o : Json.Outline} {document : Document} (h : ofOutline o = .ok document) :
    document.Made := by
  unfold ofOutline at h
  split at h
  · exact made_of_ofMembers (fun f hf => absurd hf List.not_mem_nil) (fun s hs => absurd hs List.not_mem_nil) h
  · simp only [bind_ok_iff, pure_ok_iff, Prod.exists] at h
    obtain ⟨exports, items, -, functions, items', hfunctions, statements, items'', hstatements, -, -, rfl⟩ := h
    have hbodies : ∀ f ∈ functions, ∀ s ∈ f.2, s.Made :=
      of_readOptional (fun f hf => absurd hf List.not_mem_nil) (fun _ _ => made_of_readFunctions) hfunctions
    have howns : ∀ s ∈ statements, s.Made :=
      of_readOptional (fun s hs => absurd hs List.not_mem_nil) (fun _ _ => made_of_readStatementsAt) hstatements
    exact ⟨hbodies, howns⟩
  · unfold unexpected at h
    split at h <;> cases h

/-- Every statement of a document that is accepted was built by the constructors. -/
theorem made_of_parse {source : String} {document : Document} (h : parse source = .ok document) : document.Made := by
  unfold parse at h
  simp only at h
  split at h
  · cases h
  · cases h
  · next hok _ => cases h; exact made_of_ofOutline hok

end Document

/-! ## Contracts -/

namespace Statement

/-- What the constructor of its kind promises of a statement, its parts left aside. -/
def Contract : Statement → Prop
  | appendFile path payload =>
    Text.isBlank path = false ∧ ('\x22' ∉ path.toList ∧ '\n' ∉ path.toList ∧ '\r' ∉ path.toList) ∧
      hereDelimiter ∉ payload
  | switchArg index cases =>
    1 ≤ index ∧ cases ≠ [] ∧ (∀ arm ∈ cases, '\x22' ∉ arm.1.toList ∧ '\n' ∉ arm.1.toList ∧ '\r' ∉ arm.1.toList) ∧
      cases.Pairwise fun a b => sameLabel (labelOf a.1) (labelOf b.1) = false
  | exportVar name value => isIdentifier name = true ∧ '\n' ∉ value.toList ∧ '\r' ∉ value.toList
  | call function args =>
    isIdentifier function = true ∧ ∀ arg ∈ args, '\n' ∉ arg.toList ∧ '\r' ∉ arg.toList
  | leave code => Text.isBlank code = false ∧ '\n' ∉ code.toList ∧ '\r' ∉ code.toList
  | exec .. | interpret _ | list _ | comment _ => True

variable {s node : Statement}

theorem Sound.contract (h : s.Sound) : s.Contract := by
  cases s with
  | appendFile path payload =>
    obtain ⟨hblank, hsafe, hplace⟩ := h
    exact ⟨hblank, isQuoteUnsafe_eq_false_iff.1 hsafe, delimiterPlace?_eq_none_iff.1 hplace⟩
  | switchArg index cases =>
    obtain ⟨hindex, hcases, hsafe, hkeys, -⟩ := h
    refine ⟨Nat.one_le_iff_ne_zero.2 hindex, hcases, fun arm ha => isQuoteUnsafe_eq_false_iff.1 (hsafe arm ha), ?_⟩
    rw [List.Nodup, List.pairwise_map] at hkeys
    exact hkeys.imp fun hne => beq_eq_false_iff_ne.2 hne
  | exportVar name value => exact ⟨h.1, Text.hasBreak_eq_false_iff.1 h.2⟩
  | call function args => exact ⟨h.1, fun arg ha => Text.hasBreak_eq_false_iff.1 (h.2 arg ha)⟩
  | leave code => exact ⟨h.1, Text.hasBreak_eq_false_iff.1 h.2⟩
  | exec | interpret | list | comment => trivial

/-- All that a built statement holds is built. -/
theorem Made.of_mem_nodes (hm : s.Made) (h : node ∈ s.nodes) : node.Made := by
  induction s using Statement.induction with
  | leaf s hleaf =>
    rw [nodes_of_isLeaf hleaf, List.mem_singleton] at h
    exact h ▸ hm
  | list body ih =>
    rw [nodes, nodesList_eq_flatMap] at h
    rcases List.mem_cons.1 h with rfl | h
    · exact hm
    · obtain ⟨s, hs, h⟩ := List.mem_flatMap.1 h
      exact ih s hs (hm.sound s hs) h
  | switchArg index cases ih =>
    rw [nodes, nodesCases_eq_flatMap] at h
    rcases List.mem_cons.1 h with rfl | h
    · exact hm
    · obtain ⟨-, -, -, -, hmade⟩ := hm.sound
      obtain ⟨c, hc, h⟩ := List.mem_flatMap.1 h
      exact ih c hc (hmade c hc) h

end Statement

namespace Document

/-- Take any text that is accepted as a document. Every statement in it, at any depth and in the body of a function or
not, keeps the contract of the constructor of its kind. -/
theorem contract_of_parse {source : String} {document : Document} (h : parse source = .ok document) :
    (∀ s ∈ document.statements, ∀ node ∈ s.nodes, node.Contract) ∧
      ∀ f ∈ document.functions, ∀ s ∈ f.2, ∀ node ∈ s.nodes, node.Contract := by
  obtain ⟨hbodies, hstatements⟩ := made_of_parse h
  constructor
  · intro s hs node hnode
    exact ((hstatements s hs).of_mem_nodes hnode).sound.contract
  · intro f hf s hs node hnode
    exact ((hbodies f hf s hs).of_mem_nodes hnode).sound.contract

/-- A function written as a list of fields, and a switch with its keys in no order, one of them unknown. -/
theorem contract_of_parse_of_layouts :
    let source := "\x7b\"functions\": [[\"f\", [[\"return\", 0]]]], \"statements\": " ++
      "[\x7b\"cases\": [[\"a b\", [6, \"f\"]]], \"x\": 0, \"type\": \"switch_arg\", \"index\": 1\x7d]\x7d"
    ∃ document, parse source = .ok document ∧
      (∀ s ∈ document.statements, ∀ node ∈ s.nodes, node.Contract) ∧
        ∀ f ∈ document.functions, ∀ s ∈ f.2, ∀ node ∈ s.nodes, node.Contract := by
  intro source
  obtain ⟨document, h⟩ : ∃ document, parse source = .ok document := exists_ok_of_isOk (by decide +kernel)
  exact ⟨document, h, contract_of_parse h⟩

end Document
end Scriptwright
