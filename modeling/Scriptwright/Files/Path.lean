/-
Paths of files as they are written, which is more than the file they lead to:
a name between slashes may be empty or a dot and then leads nowhere. Going to
the parent keeps the spelling of what remains; two paths are the same when they
differ in such names only. Two dots are a name like any other.
-/
import Scriptwright.Text.Breaks

namespace Scriptwright

/-- A path: whether it starts at the root, and its names, the last one first. -/
structure Path where
  rooted : Bool
  names : List String
  deriving DecidableEq, Repr

namespace Path

/-- The names of a text without a slash at its start, the last one first. -/
def namesOf (cs : List Char) : List String :=
  if cs.isEmpty then [] else ((Text.pieces '/' cs).map String.ofList).reverse

/-- The path that a text spells. -/
def ofString (text : String) : Path :=
  match text.toList with
  | '/' :: cs => ⟨true, namesOf cs⟩
  | cs => ⟨false, namesOf cs⟩

/-- The spelling of a path. -/
def text (path : Path) : String :=
  (if path.rooted then "/" else "") ++ "/".intercalate path.names.reverse

/-- Whether a name leads nowhere. A dot at the start of a path that is not rooted counts,
though: it is the directory the path starts from. -/
def isIdle (rooted : Bool) (name : String) (before : List String) : Bool :=
  name == "" || name == "." && (rooted || !before.isEmpty)

/-- Names without those at the end that lead nowhere. -/
def settle (rooted : Bool) : List String → List String
  | [] => []
  | name :: before => if isIdle rooted name before then settle rooted before else name :: before

/-- Names without any that lead nowhere. -/
def parts (rooted : Bool) : List String → List String
  | [] => []
  | name :: before =>
    if isIdle rooted name before then parts rooted before else name :: parts rooted before

/-- Whether two paths are the same but for names that lead nowhere. -/
def same (a b : Path) : Bool :=
  a.rooted == b.rooted && parts a.rooted a.names == parts b.rooted b.names

/-- The path of a name in a directory. -/
def join (dir : Path) (name : String) : Path :=
  match dir.names with
  | "" :: before => ⟨dir.rooted, name :: before⟩
  | names => ⟨dir.rooted, name :: names⟩

/-- The path without its last name; nothing if there is no name left to drop. -/
def parent? (path : Path) : Option Path :=
  match settle path.rooted path.names with
  | [] => none
  | _ :: before => some ⟨path.rooted, settle path.rooted before⟩

theorem length_settle_le (rooted : Bool) (names : List String) :
    (settle rooted names).length ≤ names.length := by
  induction names with
  | nil => simp [settle]
  | cons name before ih =>
    simp only [settle]
    split
    · exact Nat.le_succ_of_le ih
    · exact Nat.le_refl _

theorem length_names_of_parent? {path parent : Path} (h : path.parent? = some parent) :
    parent.names.length < path.names.length := by
  unfold parent? at h
  split at h
  · simp at h
  · next name before hs =>
    have settled := length_settle_le path.rooted path.names
    have again := length_settle_le path.rooted before
    rw [hs] at settled
    cases h
    simp only [List.length_cons] at settled
    show (settle path.rooted before).length < _
    omega

/-- A path and its parents, up to the one that has none. -/
def chain (path : Path) : List Path :=
  match _found : path.parent? with
  | none => [path]
  | some parent => path :: chain parent
  termination_by path.names.length
  decreasing_by exact length_names_of_parent? _found

example : ((ofString "/a//b/./c/.").parent?.map text) = some "/a//b" := by decide
example : ((ofString "./a").parent?.map text) = some "." ∧ (ofString "/").parent? = none := by decide
example : (ofString "/a/./b//").same (ofString "/a/b") = true := by decide
example : ((ofString "a/").join "b").text = "a/b" ∧ ((ofString "").join "b").text = "b" := by decide

end Path
end Scriptwright
