/-
Statements: a tree that says what a script is to do, for either family. Leaves
run, write, set or call something; lists and switches hold further statements.
The tree is plain data. Which trees are allowed is the matter of the checked
constructors (`Statement.Checked`), how they are written out of
`Statement.lines`.
-/
import Scriptwright.Line

namespace Scriptwright

/-- The kinds of statement. -/
inductive Kind where
  | exec
  | interpret
  | appendFile
  | list
  | switchArg
  | exportVar
  | call
  | comment
  | leave
  deriving DecidableEq, Repr

namespace Kind

/-- Every kind, in the order in which documents number them. -/
def all : List Kind :=
  [.exec, .interpret, .appendFile, .list, .switchArg, .exportVar, .call, .comment, .leave]

/-- The name of a kind, in documents and in messages. -/
def name : Kind → String
  | exec => "exec"
  | interpret => "interpret"
  | appendFile => "append_file"
  | list => "list"
  | switchArg => "switch_arg"
  | exportVar => "export"
  | call => "call"
  | comment => "comment"
  | leave => "return"

/-- The kind of a name. -/
def ofName? (name : String) : Option Kind :=
  all.find? fun k => k.name == name

theorem ofName?_name (k : Kind) : ofName? k.name = some k := by
  cases k <;> decide

end Kind

/-- What a script is to do. -/
inductive Statement where
  /-- Run one command line, perhaps in place of the shell. -/
  | exec (command : String) (replacing : Bool)
  /-- Lines of script, as they are. -/
  | interpret (text : String)
  /-- Write lines at the end of a file. -/
  | appendFile (path : String) (payload : List String)
  /-- One statement after another. -/
  | list (body : List Statement)
  /-- The statement of the case whose value a positional argument has. -/
  | switchArg (index : Nat) (cases : List (String × Statement))
  /-- Set an environment variable. -/
  | exportVar (name value : String)
  /-- Call a function of the script. -/
  | call (function : String) (args : List String)
  /-- A remark for the reader. -/
  | comment (text : String)
  /-- Leave the function, or the script, with an exit code. -/
  | leave (code : String)
  deriving Repr

namespace Statement

/-- The kind of a statement. -/
def kind : Statement → Kind
  | exec .. => .exec
  | interpret _ => .interpret
  | appendFile .. => .appendFile
  | list _ => .list
  | switchArg .. => .switchArg
  | exportVar .. => .exportVar
  | call .. => .call
  | comment _ => .comment
  | leave _ => .leave

/-! ## Comparing statements -/

mutual

/-- Whether two statements are the same tree. -/
def same : Statement → Statement → Bool
  | exec c r, exec d s => c == d && r == s
  | interpret t, interpret u => t == u
  | appendFile p l, appendFile q m => p == q && l == m
  | list a, list b => sameList a b
  | switchArg i a, switchArg j b => i == j && sameCases a b
  | exportVar n v, exportVar m w => n == m && v == w
  | call f a, call g b => f == g && a == b
  | comment t, comment u => t == u
  | leave c, leave d => c == d
  | _, _ => false
  termination_by structural s => s

/-- Whether two lists of statements are the same. -/
def sameList : List Statement → List Statement → Bool
  | [], [] => true
  | s :: ss, t :: ts => s.same t && sameList ss ts
  | _, _ => false
  termination_by structural ss => ss

/-- Whether two lists of cases are the same. -/
def sameCases : List (String × Statement) → List (String × Statement) → Bool
  | [], [] => true
  | (v, s) :: cs, (w, t) :: ds => v == w && s.same t && sameCases cs ds
  | _, _ => false
  termination_by structural cs => cs

end

mutual

theorem same_eq_true_iff (a b : Statement) : a.same b = true ↔ a = b := by
  cases a with
  | list a => cases b <;> simp [same, sameList_eq_true_iff a]
  | switchArg i a => cases b <;> simp [same, sameCases_eq_true_iff a]
  | _ => cases b <;> simp [same]
  termination_by structural a

theorem sameList_eq_true_iff (a b : List Statement) : sameList a b = true ↔ a = b := by
  cases a with
  | nil => cases b <;> simp [sameList]
  | cons s ss => cases b <;> simp [sameList, same_eq_true_iff s, sameList_eq_true_iff ss]
  termination_by structural a

theorem sameCases_eq_true_iff (a b : List (String × Statement)) : sameCases a b = true ↔ a = b := by
  match a with
  | [] => cases b <;> simp [sameCases]
  | (v, s) :: cs => cases b <;> simp [sameCases, Prod.ext_iff, same_eq_true_iff s, sameCases_eq_true_iff cs]
  termination_by structural a

end

instance : DecidableEq Statement := fun a b => decidable_of_iff _ (same_eq_true_iff a b)

/-! ## Counting switches -/

mutual

/-- How many switches a statement holds, itself included. -/
def switchCount : Statement → Nat
  | list body => switchCountList body
  | switchArg _ cases => 1 + switchCountCases cases
  | _ => 0
  termination_by structural s => s

/-- How many switches some statements hold together. -/
def switchCountList : List Statement → Nat
  | [] => 0
  | s :: ss => s.switchCount + switchCountList ss
  termination_by structural ss => ss

/-- How many switches the statements of some cases hold together. -/
def switchCountCases : List (String × Statement) → Nat
  | [] => 0
  | (_, s) :: cs => s.switchCount + switchCountCases cs
  termination_by structural cs => cs

end

theorem switchCountList_append (a b : List Statement) :
    switchCountList (a ++ b) = switchCountList a + switchCountList b := by
  induction a with
  | nil => simp [switchCountList]
  | cons s ss ih => simp [switchCountList, ih, Nat.add_assoc]

end Statement
end Scriptwright
