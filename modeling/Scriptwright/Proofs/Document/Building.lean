/-
Reading a document of statements gives what building the statements by hand
gives (`parse_agrees_with_building`). The statements are given as specs; the
document has an object for each of them, and any text that spells it will do.
-/
import Scriptwright.Proofs.Document.Specs
import Scriptwright.Proofs.Json.Outlining
import Scriptwright.Proofs.Script.Reachable
import Scriptwright.Script.Render

namespace Scriptwright

/-! ## Outlines -/

namespace Json

variable {o : Outline} {items : Items} {members : Members} {j : Json} {js : List Json} {ms : List (String × Json)}
variable {key : String} {value : Scalar}

theorem Outline.eq_scalar (h : o.toJson = .ok (.scalar value)) : ∃ stop, o = .scalar value stop := by
  cases o with
  | scalar value stop => cases h; exact ⟨stop, rfl⟩
  | array start items => obtain ⟨_, -, h⟩ := bind_ok_iff.1 h; cases h
  | object start members => obtain ⟨_, -, h⟩ := bind_ok_iff.1 h; cases h
  | broken fault => cases h

theorem Outline.eq_array (h : o.toJson = .ok (.array js)) :
    ∃ start items, o = .array start items ∧ items.toList = .ok js := by
  cases o with
  | array start items => obtain ⟨_, hitems, h⟩ := bind_ok_iff.1 h; cases h; exact ⟨start, items, rfl, hitems⟩
  | object start members => obtain ⟨_, -, h⟩ := bind_ok_iff.1 h; cases h
  | scalar | broken => cases h

theorem Outline.eq_object (h : o.toJson = .ok (.object ms)) :
    ∃ start members, o = .object start members ∧ members.toList = .ok ms := by
  cases o with
  | object start members => obtain ⟨_, hmembers, h⟩ := bind_ok_iff.1 h; cases h; exact ⟨start, members, rfl, hmembers⟩
  | array start items => obtain ⟨_, -, h⟩ := bind_ok_iff.1 h; cases h
  | scalar | broken => cases h

theorem Items.eq_closed (h : items.toList = .ok []) : ∃ stop, items = .closed stop := by
  cases items with
  | closed stop => exact ⟨stop, rfl⟩
  | broken fault => cases h
  | cons first head next tail =>
    obtain ⟨_, -, h⟩ := bind_ok_iff.1 h
    obtain ⟨_, -, h⟩ := bind_ok_iff.1 h
    cases h

theorem Items.eq_cons (h : items.toList = .ok (j :: js)) :
    ∃ first head next tail, items = .cons first head next tail ∧ head.toJson = .ok j ∧ tail.toList = .ok js := by
  cases items with
  | closed | broken => cases h
  | cons first head next tail =>
    obtain ⟨j, hhead, h⟩ := bind_ok_iff.1 h
    obtain ⟨js, htail, h⟩ := bind_ok_iff.1 h
    cases h
    exact ⟨first, head, next, tail, rfl, hhead, htail⟩

theorem Members.eq_closed (h : members.toList = .ok []) : ∃ stop, members = .closed stop := by
  cases members with
  | closed stop => exact ⟨stop, rfl⟩
  | broken fault => cases h
  | cons key next value tail =>
    obtain ⟨_, -, h⟩ := bind_ok_iff.1 h
    obtain ⟨_, -, h⟩ := bind_ok_iff.1 h
    cases h

theorem Members.eq_cons (h : members.toList = .ok ((key, j) :: ms)) :
    ∃ next value tail, members = .cons key next value tail ∧ value.toJson = .ok j ∧ tail.toList = .ok ms := by
  cases members with
  | closed | broken => cases h
  | cons key next value tail =>
    obtain ⟨j, hvalue, h⟩ := bind_ok_iff.1 h
    obtain ⟨js, htail, h⟩ := bind_ok_iff.1 h
    cases h
    exact ⟨next, value, tail, rfl, hvalue, htail⟩

end Json

namespace Document

variable {ms : List (String × Json)} {members : Json.Members}

/-! ## Statements -/

theorem filter_of_valuesOf_eq_nil (h : valuesOf typeKey ms = []) : ms.filter (fun m => m.1 != typeKey) = ms := by
  rw [List.filter_eq_self]
  intro m hm
  rw [valuesOf, List.map_eq_nil_iff, List.filter_eq_nil_iff] at h
  simpa using h m hm

theorem valuesOf_filter {key : String} (hkey : key ≠ typeKey) (ms : List (String × Json)) :
    valuesOf key (ms.filter fun m => m.1 != typeKey) = valuesOf key ms := by
  rw [valuesOf, valuesOf, List.filter_filter]
  congr 2
  funext m
  by_cases hm : m.1 = key
  · simp [hm, hkey]
  · simp [hm]

theorem kindAt_name {k : Kind} {o : Json.Outline} (h : o.toJson = .ok (ofText k.name)) : kindAt o = .ok k := by
  obtain ⟨stop, rfl⟩ := Json.Outline.eq_scalar h
  simp only [kindAt, Kind.ofName?_name]

theorem taggedMembers_some {k : Kind} (hms : members.toList = .ok ms) (h : valuesOf typeKey ms = []) :
    taggedMembers (some k) members = .ok (k, ms) := by
  induction ms generalizing members with
  | nil =>
    obtain ⟨stop, rfl⟩ := Json.Members.eq_closed hms
    rfl
  | cons m ms ih =>
    obtain ⟨key, j⟩ := m
    obtain ⟨next, value, tail, rfl, hvalue, htail⟩ := Json.Members.eq_cons hms
    by_cases hkey : key = typeKey
    · rw [hkey, valuesOf_cons_self] at h
      cases h
    · rw [valuesOf_cons_of_ne hkey] at h
      rw [taggedMembers, if_neg hkey, hvalue, ih htail h]
      rfl

/-- The kind of a statement is found, and its member taken out. -/
theorem taggedMembers_of_tagged {k : Kind} (hms : members.toList = .ok ms) (h : Tagged k ms) :
    taggedMembers none members = .ok (k, ms.filter fun m => m.1 != typeKey) := by
  induction ms generalizing members with
  | nil => cases h
  | cons m ms ih =>
    obtain ⟨key, j⟩ := m
    obtain ⟨next, value, tail, rfl, hvalue, htail⟩ := Json.Members.eq_cons hms
    rw [Tagged] at h ih
    by_cases hkey : key = typeKey
    · rw [hkey, valuesOf_cons_self, List.cons.injEq] at h
      obtain ⟨rfl, hnone⟩ := h
      have hfilter : ms.filter (fun m => m.1 != typeKey) = ms := filter_of_valuesOf_eq_nil hnone
      rw [taggedMembers, if_pos hkey, List.filter_cons_of_neg (by simp [hkey]), hfilter]
      simp only [kindAt_name hvalue]
      exact taggedMembers_some htail hnone
    · rw [valuesOf_cons_of_ne hkey] at h
      rw [taggedMembers, if_neg hkey, hvalue, ih htail h, List.filter_cons_of_pos (by simp [hkey])]
      rfl

/-- The fields of a spec are in the members whose key is not that of the kind. -/
theorem fields_congr {s : Spec} {ms' : List (String × Json)}
    (h : ∀ key, key ≠ typeKey → valuesOf key ms' = valuesOf key ms) (hs : s.Fields ms) : s.Fields ms' := by
  cases s with
  | exec => exact ⟨h "command" (by decide) ▸ hs.1, h "replace_shell" (by decide) ▸ hs.2⟩
  | interpret | comment => exact (h "text" (by decide)).trans hs
  | appendFile => exact ⟨(h "path" (by decide)).trans hs.1, (h "lines" (by decide)).trans hs.2⟩
  | list =>
    obtain ⟨items, hitems, hbody⟩ := hs
    exact ⟨items, (h "statements" (by decide)).trans hitems, hbody⟩
  | switchArg =>
    obtain ⟨hindex, items, hitems, hcases⟩ := hs
    exact ⟨(h "index" (by decide)).trans hindex, items, (h "cases" (by decide)).trans hitems, hcases⟩
  | exportVar => exact ⟨(h "name" (by decide)).trans hs.1, (h "value" (by decide)).trans hs.2⟩
  | call => exact ⟨h "function" (by decide) ▸ hs.1, h "args" (by decide) ▸ hs.2⟩
  | leaveWith => exact ⟨hs.1, (h "code" (by decide)).trans hs.2⟩
  | leave => exact (h "code" (by decide)).trans hs

/-- A statement that is refused, at a place. -/
def refusedAt (place : Nat) (refusal : Refusal) : Fault :=
  ⟨.data (.refused refusal), place⟩

/-- Reading the object of a spec gives what building the spec gives. -/
theorem readStatementAt_of_fields {s : Spec} {o : Json.Outline} (ho : o.toJson = .ok (.object ms))
    (htag : Tagged s.kind ms) (hfields : s.Fields ms) (next : Nat) :
    readStatementAt next o = s.build.mapError (refusedAt next) := by
  obtain ⟨start, members, rfl, hmembers⟩ := Json.Outline.eq_object ho
  have hread : ∀ (k : Kind) (ms : List (String × Json)), (do
      let slots ← readMembers ms k.fields (.empty k.fields)
      statementOf k (← slots.finish)) = readAs k ms := by
    intro k ms
    rw [readAs, readRecord, bind_assoc]
  have hrest : s.Fields (ms.filter fun m => m.1 != typeKey) :=
    fields_congr (fun key hkey => valuesOf_filter hkey ms) hfields
  rw [readStatementAt, taggedMembers_of_tagged hmembers htag]
  change placed next _ = _
  rw [hread, Spec.readAs_of_fields s hrest]
  cases s.build <;> rfl

/-- Reading the objects of specs gives what building the specs gives: the first that is refused is reported. -/
theorem readElements_of_describes {specs : List Spec} {js : List Json} {items : Json.Items}
    (hitems : items.toList = .ok js) (h : Spec.DescribesAll specs js) :
    ∃ place, readElements readStatementAt items = (Spec.buildAll specs).mapError (refusedAt place) := by
  induction specs generalizing js items with
  | nil =>
    match js, h with
    | [], _ =>
      obtain ⟨stop, rfl⟩ := Json.Items.eq_closed hitems
      exact ⟨0, rfl⟩
  | cons s specs ih =>
    match js, h with
    | .object ms :: js, ⟨⟨htag, hfields⟩, hrest⟩ =>
      obtain ⟨first, head, next, tail, rfl, hhead, htail⟩ := Json.Items.eq_cons hitems
      obtain ⟨place, hplace⟩ := ih htail hrest
      rw [readElements, readStatementAt_of_fields hhead htag hfields, hplace, Spec.buildAll]
      cases s.build with
      | error refusal => exact ⟨next, rfl⟩
      | ok built =>
        refine ⟨place, ?_⟩
        cases Spec.buildAll specs <;> rfl

/-! ## Documents -/

/-- The members of an object give a key an empty list, or leave it out. -/
def Bare (key : String) (ms : List (String × Json)) : Prop :=
  valuesOf key ms = [] ∨ valuesOf key ms = [.array []]

/-- The members of an object are those of a document that holds statements, and no variables or functions. -/
structure OnlyStatements (items : List Json) (ms : List (String × Json)) : Prop where
  values : valuesOf "statements" ms = [.array items]
  noVariables : Bare "variables" ms
  noFunctions : Bare "functions" ms
  known : ∀ m ∈ ms, m.1 ∈ keys

/-- A list that is left empty has been found, or may still come. -/
def BareBehind {α : Type} (key : String) (found : Option (List α)) (ms : List (String × Json)) : Prop :=
  match found with
  | some list => list = [] ∧ valuesOf key ms = []
  | none => Bare key ms

/-- The statements that are built have been found, or the objects that describe them come. -/
def BuiltBehind (built : Except Refusal (List Statement)) (found : Option (List Statement))
    (ms : List (String × Json)) : Prop :=
  match found with
  | some body => built = .ok body ∧ valuesOf "statements" ms = []
  | none => ∃ specs items, valuesOf "statements" ms = [.array items] ∧ Spec.DescribesAll specs items ∧
      built = Spec.buildAll specs

section

variable {α : Type} {key other : String} {found : Option (List α)} {j : Json}

theorem BareBehind.getD (h : BareBehind key found []) : found.getD [] = [] := by
  cases found with
  | none => rfl
  | some list => exact h.1

theorem BareBehind.cons_of_ne (hne : other ≠ key) :
    BareBehind key found ((other, j) :: ms) ↔ BareBehind key found ms := by
  cases found <;> simp only [BareBehind, Bare, valuesOf_cons_of_ne hne]

theorem BareBehind.cons_self (h : BareBehind key found ((key, j) :: ms)) :
    found = none ∧ j = .array [] ∧ BareBehind key (some ([] : List α)) ms := by
  cases found with
  | some list => cases (valuesOf_cons_self key j ms).symm.trans h.2
  | none =>
    rw [BareBehind, Bare, valuesOf_cons_self] at h
    rcases h with h | h
    · cases h
    · obtain ⟨rfl, hnone⟩ := List.cons.inj h
      exact ⟨rfl, rfl, rfl, hnone⟩

theorem BuiltBehind.cons_of_ne {built : Except Refusal (List Statement)} {found : Option (List Statement)}
    (hne : other ≠ "statements") : BuiltBehind built found ((other, j) :: ms) ↔ BuiltBehind built found ms := by
  cases found <;> simp only [BuiltBehind, valuesOf_cons_of_ne hne]

theorem BuiltBehind.cons_self {built : Except Refusal (List Statement)} {found : Option (List Statement)}
    (h : BuiltBehind built found (("statements", j) :: ms)) :
    found = none ∧ valuesOf "statements" ms = [] ∧
      ∃ specs items, j = .array items ∧ Spec.DescribesAll specs items ∧ built = Spec.buildAll specs := by
  cases found with
  | some list => cases (valuesOf_cons_self "statements" j ms).symm.trans h.2
  | none =>
    obtain ⟨specs, items, hitems, hdescribes, hbuilt⟩ := h
    rw [valuesOf_cons_self] at hitems
    obtain ⟨rfl, hnone⟩ := List.cons.inj hitems
    exact ⟨rfl, hnone, specs, items, rfl, hdescribes, hbuilt⟩

theorem readList_empty {read : Nat → Json.Outline → Except Fault α} {o : Json.Outline}
    (h : o.toJson = .ok (.array [])) : readList read o = .ok [] := by
  obtain ⟨start, items, rfl, hitems⟩ := Json.Outline.eq_array h
  obtain ⟨stop, rfl⟩ := Json.Items.eq_closed hitems
  rfl

end

/-- A document of statements is read as the statements that are built, or is refused as building is. -/
theorem ofMembers_of_built {built : Except Refusal (List Statement)} {exports : Option (List (String × String))}
    {functions : Option (List (String × List Statement))} {statements : Option (List Statement)}
    (hms : members.toList = .ok ms) (hknown : ∀ m ∈ ms, m.1 ∈ keys) (hexports : BareBehind "variables" exports ms)
    (hfunctions : BareBehind "functions" functions ms) (hstatements : BuiltBehind built statements ms) :
    ∃ place, ofMembers exports functions statements members
      = (built.map fun body => (⟨[], [], body⟩ : Document)).mapError (refusedAt place) := by
  induction ms generalizing members exports functions statements with
  | nil =>
    obtain ⟨stop, rfl⟩ := Json.Members.eq_closed hms
    cases statements with
    | none =>
      obtain ⟨specs, items, hitems, -, -⟩ := hstatements
      cases hitems
    | some body =>
      obtain ⟨rfl, -⟩ := hstatements
      refine ⟨0, ?_⟩
      rw [ofMembers, hexports.getD, hfunctions.getD]
      rfl
  | cons m ms ih =>
    obtain ⟨key, j⟩ := m
    obtain ⟨next, value, tail, rfl, hvalue, htail⟩ := Json.Members.eq_cons hms
    have hknown' : ∀ m ∈ ms, m.1 ∈ keys := fun m hm => hknown m (List.mem_cons_of_mem _ hm)
    have hkey : key = "variables" ∨ key = "functions" ∨ key = "statements" := by
      simpa [keys] using hknown (key, j) List.mem_cons_self
    -- A member changes what has been found of its own key, and nothing that is still to come of the others.
    rcases hkey with rfl | rfl | rfl
    · obtain ⟨rfl, rfl, hfound⟩ := hexports.cons_self
      rw [BareBehind.cons_of_ne (by decide)] at hfunctions
      rw [BuiltBehind.cons_of_ne (by decide)] at hstatements
      have hread : readVariables value = .ok [] := readList_empty hvalue
      rw [ofMembers, if_pos rfl, hread]
      exact ih htail hknown' hfound hfunctions hstatements
    · obtain ⟨rfl, rfl, hfound⟩ := hfunctions.cons_self
      rw [BareBehind.cons_of_ne (by decide)] at hexports
      rw [BuiltBehind.cons_of_ne (by decide)] at hstatements
      have hread : readFunctions value = .ok [] := readList_empty hvalue
      rw [ofMembers, if_neg (by decide), if_pos rfl, hread]
      exact ih htail hknown' hexports hfound hstatements
    · obtain ⟨rfl, hnone, specs, items, rfl, hdescribes, rfl⟩ := hstatements.cons_self
      rw [BareBehind.cons_of_ne (by decide)] at hexports hfunctions
      obtain ⟨start, items', rfl, hitems⟩ := Json.Outline.eq_array hvalue
      obtain ⟨place, hplace⟩ := readElements_of_describes hitems hdescribes
      have hread : readStatementsAt (.array start items') = (Spec.buildAll specs).mapError (refusedAt place) := hplace
      rw [ofMembers, if_neg (by decide), if_neg (by decide), if_pos rfl, hread]
      cases hbuilt : Spec.buildAll specs with
      | error refusal => exact ⟨place, rfl⟩
      | ok body =>
        have hfound : BuiltBehind (Spec.buildAll specs) (some body) ms := ⟨hbuilt, hnone⟩
        have hrest := ih htail hknown' hexports hfunctions hfound
        rw [hbuilt] at hrest
        exact hrest

/-- Of a document of statements, the text shows all. -/
theorem keeps_shape {items : List Json} (h : OnlyStatements items ms) : shape.Keeps (.object ms) := by
  have hempty : ∀ key, Bare key ms → ∀ j, (key, j) ∈ ms → j = .array [] := by
    intro key hbare j hj
    have hvalues : j ∈ valuesOf key ms := List.mem_map.2 ⟨(key, j), List.mem_filter.2 ⟨hj, beq_self_eq_true key⟩, rfl⟩
    rcases hbare with hnone | hone
    · rw [hnone] at hvalues
      cases hvalues
    · rw [hone] at hvalues
      exact List.mem_singleton.1 hvalues
  refine .record fun m hm => ?_
  obtain ⟨key, j⟩ := m
  have hkey : key = "variables" ∨ key = "functions" ∨ key = "statements" := by
    simpa [keys] using h.known (key, j) hm
  rcases hkey with rfl | rfl | rfl
  · obtain rfl := hempty _ h.noVariables j hm
    exact .empty _
  · obtain rfl := hempty _ h.noFunctions j hm
    exact .empty _
  · exact .all j

theorem parse_of_onlyStatements {specs : List Spec} {items : List Json} {source : String}
    (hspecs : Spec.DescribesAll specs items) (hms : OnlyStatements items ms)
    (hsource : Json.Spells (Json.object ms).lexemes source.toList) (hdepth : (Json.object ms).depth ≤ Json.maxDepth) :
    ∃ place, parse source
      = ((Spec.buildAll specs).map fun body => (⟨[], [], body⟩ : Document)).mapError (refusedAt place) := by
  obtain ⟨hleft, hroot⟩ := Json.outline_of_spells hsource hdepth (keeps_shape hms)
  obtain ⟨start, members, hmembers, hlist⟩ := Json.Outline.eq_object hroot
  have hbuilt : BuiltBehind (Spec.buildAll specs) none ms := ⟨specs, items, hms.values, hspecs, rfl⟩
  have hnoVariables : BareBehind "variables" (none : Option (List (String × String))) ms := hms.noVariables
  have hnoFunctions : BareBehind "functions" (none : Option (List (String × List Statement))) ms := hms.noFunctions
  obtain ⟨place, hplace⟩ := ofMembers_of_built hlist hms.known hnoVariables hnoFunctions hbuilt
  refine ⟨place, ?_⟩
  rw [parse]
  simp only [hleft, hmembers, ofOutline, hplace]
  cases Spec.buildAll specs <;> rfl

/-! ## Scripts -/

theorem after_addStatement (body : List Statement) :
    Script.after (body.map .addStatement) = Script.addStatements {} body := by
  have hrun : ∀ script : Script, (body.map .addStatement).foldl Operation.run script = script.addStatements body := by
    induction body with
    | nil => exact fun script => by rw [Script.addStatements, List.append_nil]; rfl
    | cons s body ih =>
      intro script
      rw [List.map_cons, List.foldl_cons, ih, Operation.run, Script.addStatement, Script.addStatements,
        Script.addStatements, Script.addStatements, List.append_assoc, List.singleton_append]
  exact hrun {}

/-- Take specs, objects that describe them, and any text of a document that has these objects as its statements and
does not nest too deep. The text is accepted exactly if the constructors, parts before wholes, refuse none of the specs.
The document then has the statements that were built, and its script comes out, in every family, as one to which they
were added one by one, text or refusal. Otherwise the report is the message of the first refusal, and a position. -/
theorem parse_agrees_with_building {specs : List Spec} {items : List Json} {source : String}
    (hspecs : Spec.DescribesAll specs items) (hms : OnlyStatements items ms)
    (hsource : Json.Spells (Json.object ms).lexemes source.toList) (hdepth : (Json.object ms).depth ≤ Json.maxDepth) :
    ((∃ document, parse source = .ok document) ↔ ∃ built, Spec.buildAll specs = .ok built) ∧
      (∀ built, Spec.buildAll specs = .ok built → ∃ document script,
        parse source = .ok document ∧ document.statements = built ∧ document.toScript = .ok script ∧
          ∀ family, script.render family = (Script.after (built.map .addStatement)).render family) ∧
      ∀ refusal, Spec.buildAll specs = .error refusal → ∃ fault,
        parse source = .error fault ∧ fault.report source = "invalid document: " ++ refusal.message ++ " at line " ++
          toString (fault.position source).line ++ " column " ++ toString (fault.position source).column := by
  obtain ⟨place, hparse⟩ := parse_of_onlyStatements hspecs hms hsource hdepth
  refine ⟨?_, ?_, ?_⟩
  · rw [hparse]
    cases Spec.buildAll specs with
    | ok built => exact ⟨fun _ => ⟨built, rfl⟩, fun _ => ⟨_, rfl⟩⟩
    | error refusal =>
      constructor
      · rintro ⟨document, h⟩
        cases h
      · rintro ⟨built, h⟩
        cases h
  · intro built hbuilt
    rw [hbuilt] at hparse
    refine ⟨⟨[], [], built⟩, Script.addStatements {} built, hparse, rfl, rfl, fun family => ?_⟩
    rw [after_addStatement]
  · intro refusal hrefusal
    rw [hrefusal] at hparse
    exact ⟨refusedAt place refusal, hparse, rfl⟩

/-- A switch with its keys in no order, whose case leaves the script: with a code that is fine, and with a blank one. -/
theorem parse_agrees_with_building_of_switch :
    let source := fun code =>
      "\x7b\"variables\":[],\"statements\":[\x7b\"cases\":[\x7b\"then\":\x7b\"type\":\"return\",\"code\":\"" ++
        code ++ "\"\x7d,\"value\":\"a\"\x7d],\"index\":1,\"type\":\"switch_arg\"\x7d]\x7d"
    (∃ document, parse (source "3") = .ok document ∧ document.statements = [.switchArg 1 [("a", .leave "3")]]) ∧
      ∃ fault, parse (source " ") = .error fault ∧ fault.report (source " ") =
        "invalid document: " ++ (Refusal.exitCode " ").message ++ " at line " ++
          toString (fault.position (source " ")).line ++ " column " ++
          toString (fault.position (source " ")).column := by
  intro source
  let specs : String → List Spec := fun code => [.switchArg 1 [("a", .leave code)]]
  let arm : String → Json := fun code =>
    .object [("then", .object [("type", ofText "return"), ("code", ofText code)]), ("value", ofText "a")]
  let items : String → List Json := fun code =>
    [.object [("cases", .array [arm code]), ("index", ofInt 1), ("type", ofText "switch_arg")]]
  let ms : String → List (String × Json) := fun code => [("variables", .array []), ("statements", .array (items code))]
  have hspecs : ∀ code, Spec.DescribesAll (specs code) (items code) := fun code =>
    ⟨⟨rfl, rfl, [arm code], rfl, ⟨rfl, _, rfl, rfl, rfl⟩, trivial⟩, trivial⟩
  have hms : ∀ code, OnlyStatements (items code) (ms code) := fun code =>
    ⟨rfl, .inr rfl, .inl rfl, by simp [ms, keys]⟩
  have hdepth : ∀ code, (Json.object (ms code)).depth ≤ Json.maxDepth := fun code => by
    simp [ms, items, arm, Json.depth, Json.membersDepth, Json.itemsDepth, ofText, ofInt, Json.maxDepth]
  have hread : ∀ code, Json.Spells (Json.object (ms code)).lexemes (source code).toList → _ := fun code hsource =>
    parse_agrees_with_building (hspecs code) (hms code) hsource (hdepth code)
  have hwritten : ∀ code, (∀ l ∈ (Json.object (ms code)).lexemes, l.isWritten = true) →
      (Json.object (ms code)).lexemes.flatMap Json.Lexeme.written = (source code).toList →
        Json.Spells (Json.object (ms code)).lexemes (source code).toList :=
    fun code hsound hsource => hsource ▸ Json.spells_written hsound
  obtain ⟨-, haccepted, -⟩ := hread "3" (hwritten "3" (by decide) (by decide +kernel))
  obtain ⟨document, -, hparse, hstatements, -⟩ := haccepted [.switchArg 1 [("a", .leave "3")]] (by decide)
  obtain ⟨-, -, hrefused⟩ := hread " " (hwritten " " (by decide) (by decide +kernel))
  exact ⟨⟨document, hparse, hstatements⟩, hrefused (.exitCode " ") (by decide)⟩

end Document
end Scriptwright
