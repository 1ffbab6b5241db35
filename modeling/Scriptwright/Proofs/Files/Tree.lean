/-
A file that is written into a tree: it reads back as the text that was written
(`readText_writeText`), and at every other place the tree is as it was
(`get?_writeText`). A path comes to its place through directories only, and what
is written is none, so the way to the file is the same before and after.
-/
import Scriptwright.Proofs.Statement.Lines
import Scriptwright.Files.Tree

namespace Scriptwright.FileTree

variable {tree after : FileTree} {here place : List String} {path : Path} {text : String}

theorem fromUTF8?_toUTF8 (text : String) : String.fromUTF8? text.toUTF8 = some text := by
  rw [String.fromUTF8?, String.toUTF8_eq_toByteArray, dif_pos text.isValidUTF8]
  rfl

/-- A place is gone on from as far as it is a directory. -/
theorem walk_append (tree : FileTree) (start names more : List String) :
    tree.walk start (names ++ more) = (tree.walk start names >>= fun dir => tree.walk dir more) := by
  induction names generalizing start with
  | nil => rfl
  | cons name names ih =>
    rw [List.cons_append, walk, walk]
    split
    · rfl
    · rfl
    · split
      · exact ih start
      · split
        · exact ih start.tail
        · split
          · rfl
          · exact ih (name :: start)

/-- Where no directory was, something else leaves every way as it was. -/
theorem walk_insert (hentry : tree.get? place ≠ some .directory) (entry : FileEntry) {start names dir : List String}
    (h : tree.walk start names = .ok dir) : (tree.insert place entry).walk start names = .ok dir := by
  induction names generalizing start with
  | nil => exact h
  | cons name names ih =>
    cases hstart : tree.get? start with
    | none => rw [walk, hstart] at h; cases h
    | some found =>
      cases found with
      | file content => rw [walk, hstart] at h; cases h
      | directory =>
        have hne : start ≠ place := fun he => hentry (he ▸ hstart)
        have hafter : (tree.insert place entry).get? start = some .directory :=
          (get?_insert_of_ne tree entry hne).trans hstart
        rw [walk, hstart] at h
        rw [walk, hafter]
        simp only at h ⊢
        split
        · next hidle => rw [if_pos hidle] at h; exact ih h
        · next hidle =>
          rw [if_neg hidle] at h
          split
          · next hup => rw [if_pos hup] at h; exact ih h
          · next hup =>
            rw [if_neg hup] at h
            split
            · next hlong => rw [if_pos hlong] at h; cases h
            · next hlong => rw [if_neg hlong] at h; exact ih h

/-- A path along directories to one of them, and to a name in it at which a file can be written. -/
structure Reaches (tree : FileTree) (here : List String) (path : Path) (last : String) (before dir : List String) :
    Prop where
  short : isOverlong path = false
  names : path.names = last :: before
  way : tree.walk (origin here path) before.reverse = .ok dir
  directory : tree.get? dir = some .directory
  not_idle : ¬ (last = "" ∨ last = ".")
  not_up : last ≠ ".."
  not_long : ¬ maxNameBytes < last.utf8ByteSize
  writable : tree.get? (last :: dir) ≠ some .directory

/-- Names with no empty one at their end have none to drop there. -/
theorem eq_of_dropWhile_empty {names before : List String} {last : String} (hempty : names.head? ≠ some "")
    (h : names.dropWhile (· == "") = last :: before) : last ≠ "" ∧ names = last :: before := by
  cases names with
  | nil => cases h
  | cons name rest =>
    have hname : name ≠ "" := fun he => hempty (by rw [he]; rfl)
    rw [List.dropWhile_cons_of_neg (by simpa using hname)] at h
    cases h
    exact ⟨hname, rfl⟩

theorem target_eq_ok (h : tree.target here path = .ok place) :
    ∃ last before dir, place = last :: dir ∧ tree.Reaches here path last before dir := by
  unfold target at h
  split at h
  · cases h
  · next hlong =>
    split at h
    · split at h <;> cases h
    · next last before hnames =>
      obtain ⟨dir, hdir, h⟩ := bind_ok_iff.1 h
      split at h
      · cases h
      · cases h
      · next hdirectory =>
        split at h
        · cases h
        · next hname =>
          simp only [not_or] at hname
          obtain ⟨hdot, hdots, hempty⟩ := hname
          obtain ⟨hlast, hshape⟩ := eq_of_dropWhile_empty hempty hnames
          split at h
          · cases h
          · next hbytes =>
            split at h
            · cases h
            · next hplace =>
              cases h
              exact ⟨last, before, dir, rfl, by simpa using hlong, hshape, hdir, hdirectory, by simp [hlast, hdot],
                hdots, hbytes, hplace⟩

theorem writeText_eq_ok_iff :
    tree.writeText here path text = .ok after ↔
      ∃ place, tree.target here path = .ok place ∧ after = tree.insert place (.file text.toUTF8) := by
  simp only [writeText, bind_ok_iff, pure_ok_iff, eq_comm (b := after)]

/-- What is written at the end of a path is found there. -/
theorem Reaches.find_insert {last : String} {before dir : List String} (h : tree.Reaches here path last before dir)
    (content : ByteArray) : (tree.insert (last :: dir) (.file content)).find here path = .ok (.file content) := by
  have hne : dir ≠ last :: dir := fun he => h.writable (he ▸ h.directory)
  have hdirectory : (tree.insert (last :: dir) (.file content)).get? dir = some .directory :=
    (get?_insert_of_ne tree _ hne).trans h.directory
  have hlast : (tree.insert (last :: dir) (.file content)).walk dir [last] = .ok (last :: dir) := by
    rw [walk, hdirectory]
    simp only [if_neg h.not_idle, if_neg h.not_up, if_neg h.not_long]
    rfl
  have hwalk : (tree.insert (last :: dir) (.file content)).walk (origin here path) path.names.reverse
      = .ok (last :: dir) := by
    rw [h.names, List.reverse_cons, walk_append, walk_insert h.writable _ h.way]
    exact hlast
  have hentry := get?_insert_self tree (last :: dir) (.file content) (List.cons_ne_nil last dir)
  rw [find, if_neg (by simp [h.names]), if_neg (by simp [h.short]), hwalk]
  simp only [bind, Except.bind, hentry]
  rfl

/-- A file that has been written reads as the text that was written. -/
theorem readText_writeText (h : tree.writeText here path text = .ok after) :
    after.readText here path = .ok text := by
  obtain ⟨place, htarget, rfl⟩ := writeText_eq_ok_iff.1 h
  obtain ⟨last, before, dir, rfl, hreaches⟩ := target_eq_ok htarget
  rw [readText, hreaches.find_insert]
  simp only [bind, Except.bind, fromUTF8?_toUTF8]
  rfl

/-- Writing a file puts its bytes at the place of the file and changes no other. -/
theorem get?_writeText (h : tree.writeText here path text = .ok after) :
    ∃ place, tree.target here path = .ok place ∧ after.get? place = some (.file text.toUTF8) ∧
      ∀ other ≠ place, after.get? other = tree.get? other := by
  obtain ⟨place, htarget, rfl⟩ := writeText_eq_ok_iff.1 h
  obtain ⟨last, before, dir, rfl, -⟩ := target_eq_ok htarget
  exact ⟨last :: dir, htarget, get?_insert_self tree _ _ (List.cons_ne_nil last dir),
    fun other hother => get?_insert_of_ne tree _ hother⟩

theorem target_of_writeText_eq_error {error : FileError} (h : tree.writeText here path text = .error error) :
    tree.target here path = .error error := by
  rw [writeText] at h
  cases hplace : tree.target here path with
  | ok place => rw [hplace] at h; cases h
  | error other => rw [hplace] at h; cases h; rfl

end Scriptwright.FileTree
