/-
A tree of files as a value. Files and directories are kept by their place, the
names from the root on, the last one first. A path leads to a place one name at
a time, and each step needs a directory to stand in.
-/
import Scriptwright.Files.Access

namespace Scriptwright

/-- What can be at a place. -/
inductive FileEntry where
  | file (content : ByteArray)
  | directory

/-- Files and directories by their place. The root itself is always a directory. -/
structure FileTree where
  entries : List (List String × FileEntry) := []

namespace FileTree

/-- What is at a place. -/
def get? (tree : FileTree) (place : List String) : Option FileEntry :=
  if place.isEmpty then some .directory else tree.entries.lookup place

/-- The tree with something at a place. -/
def insert (tree : FileTree) (place : List String) (entry : FileEntry) : FileTree :=
  ⟨(place, entry) :: tree.entries.filter fun (other, _) => other != place⟩

theorem get?_insert_self (tree : FileTree) (place : List String) (entry : FileEntry) (h : place ≠ []) :
    (tree.insert place entry).get? place = some entry := by
  simp [get?, insert, h]

theorem lookup_filter_ne {α : Type} (entries : List (List String × α)) {place other : List String}
    (h : other ≠ place) :
    (entries.filter fun (name, _) => name != place).lookup other = entries.lookup other := by
  induction entries with
  | nil => rfl
  | cons entry rest ih =>
    obtain ⟨name, value⟩ := entry
    by_cases hn : name = place
    · subst hn
      simp [List.lookup_cons, beq_false_of_ne h, ih]
    · simp [List.lookup_cons, hn, ih]

theorem get?_insert_of_ne (tree : FileTree) {place other : List String} (entry : FileEntry)
    (h : other ≠ place) :
    (tree.insert place entry).get? other = tree.get? other := by
  unfold get? insert
  split
  · rfl
  · simp [List.lookup_cons, lookup_filter_ne _ h, beq_false_of_ne h]

/-- The tree with a directory at a place, and at every place on the way to it. -/
def makeDirectories (tree : FileTree) : List String → FileTree
  | [] => tree
  | name :: before =>
    let tree := tree.makeDirectories before
    if (tree.get? (name :: before)).isSome then tree else tree.insert (name :: before) .directory

/-- The tree with a file at a place, and a directory at every place on the way to it. -/
def makeFile (tree : FileTree) (place : List String) (content : ByteArray) : FileTree :=
  (tree.makeDirectories place.tail).insert place (.file content)

/-- How many bytes a name may have. -/
def maxNameBytes : Nat := 255

/-- How many bytes a path may have, however many of its names lead nowhere. -/
def maxPathBytes : Nat := 4095

/-- Whether a path is refused for its length alone, before it is walked. -/
def isOverlong (path : Path) : Bool :=
  maxPathBytes < path.text.utf8ByteSize

/-- Goes on from a place by some names, the first one first. -/
def walk (tree : FileTree) (place : List String) : List String → Except FileError (List String)
  | [] => .ok place
  | name :: names =>
    match tree.get? place with
    | none => .error .notFound
    | some (.file _) => .error .notDirectory
    | some .directory =>
      if name = "" ∨ name = "." then walk tree place names
      else if name = ".." then walk tree place.tail names
      else if maxNameBytes < name.utf8ByteSize then .error .nameTooLong
      else walk tree (name :: place) names

/-- The place from which a path is walked, for a given working directory. -/
def origin (here : List String) (path : Path) : List String :=
  if path.rooted then [] else here

/-- What a path leads to. -/
def find (tree : FileTree) (here : List String) (path : Path) : Except FileError FileEntry :=
  if path.names.isEmpty ∧ !path.rooted then .error .notFound
  else if isOverlong path then .error .nameTooLong
  else do
    let place ← tree.walk (origin here path) path.names.reverse
    match tree.get? place with
    | some entry => return entry
    | none => .error .notFound

/-- The text of the file that a path leads to. -/
def readText (tree : FileTree) (here : List String) (path : Path) : Except FileError String := do
  match ← tree.find here path with
  | .directory => .error .isDirectory
  | .file content =>
    match String.fromUTF8? content with
    | some text => return text
    | none => .error .notText

/-- The place of the file that a path leads to for writing, which need not be there yet. -/
def target (tree : FileTree) (here : List String) (path : Path) : Except FileError (List String) :=
  if isOverlong path then .error .nameTooLong
  else match path.names.dropWhile (· == "") with
    | [] => .error (if path.rooted then .isDirectory else .notFound)
    | last :: before => do
      let dir ← tree.walk (origin here path) before.reverse
      match tree.get? dir with
      | none => .error .notFound
      | some (.file _) => .error .notDirectory
      | some .directory =>
        if last = "." ∨ last = ".." ∨ path.names.head? = some "" then .error .isDirectory
        else if maxNameBytes < last.utf8ByteSize then .error .nameTooLong
        else match tree.get? (last :: dir) with
          | some .directory => .error .isDirectory
          | _ => return last :: dir

/-- The tree after a text has been written to a file, if that can be done. -/
def writeText (tree : FileTree) (here : List String) (path : Path) (text : String) :
    Except FileError FileTree := do
  let place ← tree.target here path
  return tree.insert place (.file text.toUTF8)

/-- Access to the files of a tree, from a working directory. -/
def access (here : List String) : FileAccess (StateM FileTree) where
  isFile path := do
    match (← get).find here path with
    | .ok (.file _) => return true
    | _ => return false
  isDirectory path := do
    match (← get).find here path with
    | .ok .directory => return true
    | _ => return false
  isThere path := do
    match (← get).find here path with
    | .ok _ => return true
    | .error _ => return false
  read path := do return (← get).readText here path
  write path text := do
    match (← get).writeText here path text with
    | .ok tree =>
      set tree
      return .ok ()
    | .error error => return .error error

end FileTree
end Scriptwright
