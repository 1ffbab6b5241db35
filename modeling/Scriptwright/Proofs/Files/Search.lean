/-
The search for the document. It leaves the files alone (`ReadsOnly`), goes from
the start through one parent after another and ends with the last of them. It
finds the document in the first directory that has it as a file, unless the home
directory comes before that one; in the home directory itself it still looks
(`find_nearest`).
-/
import Mathlib.Data.Nat.Find
import Scriptwright.Files.Search
import Scriptwright.Files.Tree
import Scriptwright.Proofs.Files.Path

namespace Scriptwright

/-! ## What leaves the files alone -/

/-- A computation that leaves the files as they are. -/
def ReadsOnly {α : Type} (x : StateM FileTree α) : Prop :=
  ∀ tree, (x.run tree).2 = tree

namespace ReadsOnly

variable {α β : Type}

theorem pure (a : α) : ReadsOnly (Pure.pure a : StateM FileTree α) :=
  fun _ => rfl

theorem get : ReadsOnly (MonadState.get : StateM FileTree FileTree) :=
  fun _ => rfl

theorem bind {x : StateM FileTree α} {f : α → StateM FileTree β} (hx : ReadsOnly x) (hf : ∀ a, ReadsOnly (f a)) :
    ReadsOnly (x >>= f) := by
  intro tree
  change ((f (x.run tree).1).run (x.run tree).2).2 = tree
  rw [hf, hx]

/-- What follows such a computation is done with the files as they were. -/
theorem run_bind {x : StateM FileTree α} (hx : ReadsOnly x) (f : α → StateM FileTree β) (tree : FileTree) :
    (x >>= f).run tree = (f (x.run tree).1).run tree := by
  change (f (x.run tree).1).run (x.run tree).2 = _
  rw [hx]

variable (here : List String)

theorem isFile (path : Path) : ReadsOnly ((FileTree.access here).isFile path) := by
  refine get.bind fun tree => ?_
  split <;> exact pure _

theorem isDirectory (path : Path) : ReadsOnly ((FileTree.access here).isDirectory path) := by
  refine get.bind fun tree => ?_
  split <;> exact pure _

theorem isThere (path : Path) : ReadsOnly ((FileTree.access here).isThere path) := by
  refine get.bind fun tree => ?_
  split <;> exact pure _

theorem read (path : Path) : ReadsOnly ((FileTree.access here).read path) :=
  get.bind fun _ => pure _

theorem nearest (home : Option Path) (dirs : List Path) :
    ReadsOnly (Search.nearest (FileTree.access here) home dirs) := by
  induction dirs with
  | nil => exact pure _
  | cons dir dirs ih =>
    refine (isFile here _).bind fun found => ?_
    split
    · exact pure _
    · split
      · exact pure _
      · exact ih

theorem given (path : Path) : ReadsOnly (Search.given (FileTree.access here) path) := by
  refine (isDirectory here path).bind fun directory => ?_
  refine (isThere here _).bind fun found => ?_
  split <;> exact pure _

theorem find (start : Path) (home custom : Option Path) :
    ReadsOnly (Search.find (FileTree.access here) start home custom) := by
  cases custom with
  | none => exact nearest here home start.chain
  | some path => exact given here path

end ReadsOnly

namespace Search

variable {tree : FileTree} {here : List String} {start path dir : Path} {home : Option Path} {k : Nat}

/-! ## Directories in order -/

/-- Whether a path leads to a file. -/
def IsFile (tree : FileTree) (here : List String) (path : Path) : Prop :=
  ∃ content, tree.find here path = .ok (.file content)

theorem isFile_run (tree : FileTree) (here : List String) (path : Path) :
    (((FileTree.access here).isFile path).run tree).1 = true ↔ IsFile tree here path := by
  cases hfind : tree.find here path with
  | error error => simp [FileTree.access, IsFile, hfind]
  | ok entry =>
    cases entry with
    | directory => simp [FileTree.access, IsFile, hfind]
    | file content =>
      simp only [FileTree.access, StateT.run_bind, StateT.run_get, pure_bind, hfind, IsFile, Except.ok.injEq,
        FileEntry.file.injEq, exists_eq', iff_true]
      rfl

/-- One directory: its document is found, or it is the last, or the search goes on behind it. -/
theorem nearest_cons_run (tree : FileTree) (here : List String) (home : Option Path) (dir : Path) (rest : List Path) :
    (IsFile tree here (dir.join documentName) →
        ((nearest (FileTree.access here) home (dir :: rest)).run tree).1 = some (dir.join documentName)) ∧
      (¬ IsFile tree here (dir.join documentName) → home.any dir.same = true →
        ((nearest (FileTree.access here) home (dir :: rest)).run tree).1 = none) ∧
      (¬ IsFile tree here (dir.join documentName) → home.any dir.same = false →
        ((nearest (FileTree.access here) home (dir :: rest)).run tree).1
          = ((nearest (FileTree.access here) home rest).run tree).1) := by
  rw [nearest, (ReadsOnly.isFile here _).run_bind, ← isFile_run]
  cases (((FileTree.access here).isFile (dir.join documentName)).run tree).1 with
  | true => exact ⟨fun _ => rfl, fun h => absurd rfl h, fun h => absurd rfl h⟩
  | false =>
    refine ⟨fun h => absurd h (by decide), fun _ hhome => ?_, fun _ hhome => ?_⟩
    · rw [hhome]
      rfl
    · rw [hhome]
      rfl

/-- The search comes past a directory: the document is not in it, and it is not the home directory. -/
def Passes (tree : FileTree) (here : List String) (home : Option Path) (dir : Path) : Prop :=
  ¬ IsFile tree here (dir.join documentName) ∧ home.any dir.same = false

/-- Of directories in order, the first that has the document gives it, if the search comes past all before. -/
theorem nearest_run_iff {dirs : List Path} :
    ((nearest (FileTree.access here) home dirs).run tree).1 = some path ↔
      ∃ (k : Nat) (dir : Path), dirs[k]? = some dir ∧ IsFile tree here (dir.join documentName) ∧
        path = dir.join documentName ∧ ∀ j < k, ∀ other, dirs[j]? = some other → Passes tree here home other := by
  induction dirs with
  | nil => simp [nearest]
  | cons first rest ih =>
    obtain ⟨hhere, hlast, hbehind⟩ := nearest_cons_run tree here home first rest
    by_cases hfile : IsFile tree here (first.join documentName)
    · rw [hhere hfile]
      constructor
      · rintro ⟨⟩
        exact ⟨0, first, rfl, hfile, rfl, fun j hj => absurd hj (Nat.not_lt_zero j)⟩
      · rintro ⟨k, dir, hdir, -, rfl, hpassed⟩
        cases k with
        | zero => cases hdir; rfl
        | succ k => exact absurd hfile (hpassed 0 (Nat.succ_pos k) first rfl).1
    · cases hhome : home.any first.same with
      | true =>
        rw [hlast hfile hhome]
        refine ⟨by simp, ?_⟩
        rintro ⟨k, dir, hdir, hthere, -, hpassed⟩
        cases k with
        | zero => cases hdir; exact absurd hthere hfile
        | succ k => exact absurd hhome (by simp [(hpassed 0 (Nat.succ_pos k) first rfl).2])
      | false =>
        rw [hbehind hfile hhome, ih]
        constructor
        · rintro ⟨k, dir, hdir, hthere, rfl, hpassed⟩
          refine ⟨k + 1, dir, hdir, hthere, rfl, fun j hj other hother => ?_⟩
          cases j with
          | zero => cases hother; exact ⟨hfile, hhome⟩
          | succ j => exact hpassed j (Nat.lt_of_succ_lt_succ hj) other hother
        · rintro ⟨k, dir, hdir, hthere, rfl, hpassed⟩
          cases k with
          | zero => cases hdir; exact absurd hthere hfile
          | succ k =>
            exact ⟨k, dir, hdir, hthere, rfl, fun j hj other hother =>
              hpassed (j + 1) (Nat.succ_lt_succ hj) other hother⟩

/-! ## The nearest document -/

/-- The document may be found a number of steps above the start: the directory there has it as a file, and none before
is the home directory, however the two are spelled. -/
structure Eligible (tree : FileTree) (here : List String) (start : Path) (home : Option Path) (k : Nat) (dir : Path) :
    Prop where
  reached : start.above? k = some dir
  file : IsFile tree here (dir.join documentName)
  within : ∀ j < k, ∀ other, start.above? j = some other → ∀ h ∈ home, ¬ other.Respelled h

theorem any_same_eq_false_iff (hdir : dir.Spelled) (hhome : ∀ h ∈ home, h.Spelled) :
    home.any dir.same = false ↔ ∀ h ∈ home, ¬ dir.Respelled h := by
  cases home with
  | none => simp
  | some h =>
    have hiff := Path.same_iff_respelled hdir (hhome h rfl)
    simp [← hiff]

/-- Past directories none of which is the home directory, the first that has the document is the first that may. -/
theorem find_run_iff (hstart : start.Spelled) (hhome : ∀ h ∈ home, h.Spelled) :
    ((find (FileTree.access here) start home none).run tree).1 = some path ↔
      ∃ k dir, Eligible tree here start home k dir ∧ path = dir.join documentName ∧
        ∀ j < k, ∀ other, ¬ Eligible tree here start home j other := by
  rw [find, nearest_run_iff]
  simp only [Path.getElem?_chain]
  constructor
  · rintro ⟨k, dir, hdir, hfile, rfl, hpassed⟩
    refine ⟨k, dir, ⟨hdir, hfile, fun j hj other hother => ?_⟩, rfl, fun j hj other hother => ?_⟩
    · exact (any_same_eq_false_iff (hstart.above? hother) hhome).1 (hpassed j hj other hother).2
    · exact (hpassed j hj other hother.reached).1 hother.file
  · rintro ⟨k, dir, hdir, rfl, hleast⟩
    refine ⟨k, dir, hdir.reached, hdir.file, rfl, fun j hj other hother => ⟨fun hfile => ?_, ?_⟩⟩
    · exact hleast j hj other ⟨hother, hfile, fun i hi => hdir.within i (Nat.lt_trans hi hj)⟩
    · exact (any_same_eq_false_iff (hstart.above? hother) hhome).2 (hdir.within j hj other hother)

/-- Where some directory may have the document found, one is the first. -/
theorem exists_first_eligible (h : Eligible tree here start home k dir) :
    ∃ k dir, Eligible tree here start home k dir ∧ ∀ j < k, ∀ other, ¬ Eligible tree here start home j other := by
  classical
  have hsome : ∃ k dir, Eligible tree here start home k dir := ⟨k, dir, h⟩
  obtain ⟨found, hfound⟩ := Nat.find_spec hsome
  exact ⟨Nat.find hsome, found, hfound, fun j hj other hother => Nat.find_min hsome hj ⟨other, hother⟩⟩

theorem find_run_eq_none_iff (hstart : start.Spelled) (hhome : ∀ h ∈ home, h.Spelled) :
    ((find (FileTree.access here) start home none).run tree).1 = none ↔
      ∀ k dir, ¬ Eligible tree here start home k dir := by
  rw [Option.eq_none_iff_forall_ne_some]
  constructor
  · intro h k dir hdir
    obtain ⟨k, dir, hdir, hleast⟩ := exists_first_eligible hdir
    exact h _ ((find_run_iff hstart hhome).2 ⟨k, dir, hdir, rfl, hleast⟩)
  · intro h path hpath
    obtain ⟨k, dir, hdir, -⟩ := (find_run_iff hstart hhome).1 hpath
    exact h k dir hdir

/-! ## A given path -/

/-- The path that a given one is taken for: of the document in it, if it is a directory. -/
def candidate (tree : FileTree) (here : List String) (given : Path) : Path :=
  match tree.find here given with
  | .ok .directory => given.join documentName
  | _ => given

theorem isDirectory_run (tree : FileTree) (here : List String) (given : Path) :
    (if (((FileTree.access here).isDirectory given).run tree).1 then given.join documentName else given)
      = candidate tree here given := by
  cases hfind : tree.find here given with
  | error error => simp [FileTree.access, candidate, hfind]
  | ok entry => cases entry <;> simp [FileTree.access, candidate, hfind]

theorem isThere_run (tree : FileTree) (here : List String) (path : Path) :
    (((FileTree.access here).isThere path).run tree).1 = true ↔ ∃ entry, tree.find here path = .ok entry := by
  cases hfind : tree.find here path with
  | error error => simp [FileTree.access, hfind]
  | ok entry =>
    simp only [FileTree.access, StateT.run_bind, StateT.run_get, pure_bind, hfind, Except.ok.injEq, exists_eq',
      iff_true]
    rfl

theorem given_run_iff {custom : Path} :
    ((given (FileTree.access here) custom).run tree).1 = some path ↔
      path = candidate tree here custom ∧ ∃ entry, tree.find here path = .ok entry := by
  rw [given, (ReadsOnly.isDirectory here _).run_bind]
  simp only [isDirectory_run]
  rw [(ReadsOnly.isThere here _).run_bind]
  have hthere := isThere_run tree here (candidate tree here custom)
  cases hrun : (((FileTree.access here).isThere (candidate tree here custom)).run tree).1 with
  | true =>
    rw [hrun] at hthere
    constructor
    · rintro ⟨⟩
      exact ⟨rfl, hthere.1 rfl⟩
    · rintro ⟨rfl, -⟩
      rfl
  | false =>
    rw [hrun] at hthere
    constructor
    · intro h
      cases h
    · rintro ⟨rfl, hentry⟩
      exact absurd (hthere.2 hentry) Bool.false_ne_true

/-! ## The search -/

/-- Take any tree of files, any start and any home directory or none. The start and the parents above it come to an
end. Of those directories, the search gives the document in the first that has it as a file with none before it the home
directory, however the two are spelled, and nothing just when there is no such directory. So nothing above the home
directory is found from below it. The home directory itself is still looked in, and a directory of the name of the
document is passed like one without it. A path given for the document decides alone, whatever start and home
directory are: it is the document, or the directory with it, if there is anything there. -/
theorem find_nearest (tree : FileTree) (here : List String) (start : String) (home : Option String) :
    let dirs := (Path.ofString start).above?
    let homePath := home.map Path.ofString
    let result := ((find (FileTree.access here) (.ofString start) homePath none).run tree).1
    (∃ n, dirs n = none) ∧
      (∀ path, result = some path ↔ ∃ k dir, Eligible tree here (.ofString start) homePath k dir ∧
        path = dir.join documentName ∧ ∀ j < k, ∀ other, ¬ Eligible tree here (.ofString start) homePath j other) ∧
      (result = none ↔ ∀ k dir, ¬ Eligible tree here (.ofString start) homePath k dir) ∧
      (∀ j dir, dirs j = some dir → (∃ h ∈ homePath, dir.Respelled h) → ∀ path, result = some path →
        ∃ k ≤ j, ∃ found, dirs k = some found ∧ path = found.join documentName) ∧
      (∀ k dir, dirs k = some dir → IsFile tree here (dir.join documentName) →
        (∀ j < k, ∀ other, dirs j = some other → (∀ h ∈ homePath, ¬ other.Respelled h) ∧
          (tree.find here (other.join documentName) = .ok .directory ∨
            ∃ error, tree.find here (other.join documentName) = .error error)) →
        result = some (dir.join documentName)) ∧
      ∀ start home custom path, ((find (FileTree.access here) start home (some custom)).run tree).1 = some path ↔
        path = candidate tree here custom ∧ ∃ entry, tree.find here path = .ok entry := by
  intro dirs homePath result
  have hstart := Path.spelled_ofString start
  have hhome : ∀ h ∈ homePath, h.Spelled := by
    intro h hh
    obtain ⟨text, -, rfl⟩ := Option.map_eq_some_iff.1 hh
    exact Path.spelled_ofString text
  refine ⟨⟨_, Path.above?_eq_none _⟩, fun path => find_run_iff hstart hhome, find_run_eq_none_iff hstart hhome, ?_, ?_,
    fun _ _ _ _ => given_run_iff⟩
  · rintro j dir hdir ⟨h, hh, hsame⟩ path hpath
    obtain ⟨k, found, hfound, rfl, -⟩ := (find_run_iff hstart hhome).1 hpath
    refine ⟨k, Nat.le_of_not_lt fun hjk => ?_, found, hfound.reached, rfl⟩
    exact hfound.within j hjk dir hdir h hh hsame
  · intro k dir hdir hfile hpassed
    refine (find_run_iff hstart hhome).2 ⟨k, dir, ⟨hdir, hfile, fun j hj other hother => ?_⟩, rfl, ?_⟩
    · exact (hpassed j hj other hother).1
    · rintro j hj other ⟨hother, ⟨content, hcontent⟩, -⟩
      rcases (hpassed j hj other hother).2 with hdirectory | ⟨error, herror⟩
      · rw [hdirectory] at hcontent
        cases hcontent
      · rw [herror] at hcontent
        cases hcontent

/-- A home directory with the document in it and another one above, on the way up from a directory with a directory of
that name in it; start and home directory with dots and slashes to spare. Without its own document the one above the
home directory is not found either. -/
theorem find_nearest_of_home :
    let above : List (List String × FileEntry) := [(["Scriptfile.json"], .file "\x7b\x7d".toUTF8),
      (["Scriptfile.json", "a", "h"], .directory), (["a", "h"], .directory), (["b", "a", "h"], .directory),
      (["h"], .directory)]
    let inHome := (["Scriptfile.json", "h"], FileEntry.file "\x7b\x7d".toUTF8)
    ((find (FileTree.access []) (.ofString "/h/./a//b/") (some (.ofString "//h/.")) none).run ⟨inHome :: above⟩).1
        = some ⟨true, ["Scriptfile.json", "h"]⟩ ∧
      ((find (FileTree.access []) (.ofString "/h/./a//b/") (some (.ofString "//h/.")) none).run ⟨above⟩).1
        ≠ some ⟨true, ["Scriptfile.json"]⟩ := by
  intro above inHome
  have hdirs : (Path.ofString "/h/./a//b/").above? 0 = some ⟨true, ["", "b", "", "a", ".", "h"]⟩ ∧
      (Path.ofString "/h/./a//b/").above? 1 = some ⟨true, ["a", ".", "h"]⟩ ∧
      (Path.ofString "/h/./a//b/").above? 2 = some ⟨true, ["h"]⟩ := by decide
  obtain ⟨hfirst, hsecond, hthird⟩ := hdirs
  have hhome : Path.Respelled ⟨true, ["h"]⟩ (.ofString "//h/.") :=
    (Path.same_iff_respelled (.inl rfl) (.inl rfl)).1 (by decide)
  constructor
  · refine (find_nearest ⟨inHome :: above⟩ [] "/h/./a//b/" (some "//h/.")).2.2.2.2.1 2 _ hthird ⟨_, rfl⟩ ?_
    intro j hj other hother
    obtain rfl | rfl : j = 0 ∨ j = 1 := by omega
    · obtain rfl := Option.some.inj (hfirst.symm.trans hother)
      refine ⟨?_, .inr ⟨.notFound, by rfl⟩⟩
      rintro _ ⟨⟩ hsame
      exact absurd hsame.same (by decide)
    · obtain rfl := Option.some.inj (hsecond.symm.trans hother)
      refine ⟨?_, .inl (by rfl)⟩
      rintro _ ⟨⟩ hsame
      exact absurd hsame.same (by decide)
  · intro hfound
    obtain ⟨k, hk, found, hreached, hpath⟩ :=
      (find_nearest ⟨above⟩ [] "/h/./a//b/" (some "//h/.")).2.2.2.1 2 _ hthird ⟨_, rfl, hhome⟩ _ hfound
    obtain rfl | rfl | rfl : k = 0 ∨ k = 1 ∨ k = 2 := by omega
    · obtain rfl := Option.some.inj (hfirst.symm.trans hreached)
      exact absurd hpath (by decide)
    · obtain rfl := Option.some.inj (hsecond.symm.trans hreached)
      exact absurd hpath (by decide)
    · obtain rfl := Option.some.inj (hthird.symm.trans hreached)
      exact absurd hpath (by decide)

end Search
end Scriptwright
