/-
How a shell script runs, as far as its layout goes: a line of the layout opens
or closes a `case` block, an arm or a function, or ends the script; an arm is
entered for its value alone; a function's body is not run where it is defined.
A run (`run`) tells which statements were met until the script ends.
-/
import Scriptwright.Proofs.Script.Parts
import Scriptwright.Proofs.Statement.Course

namespace Scriptwright.Shell

open Scriptwright.Part Statement

/-- What a line of the layout does. -/
inductive Command where
  /-- Opens a `case` block on a positional argument. -/
  | choice (index : Nat)
  | endArm
  | endChoice
  | function
  | endFunction
  | leave
  | other
  deriving DecidableEq

/-- A reference to a positional argument at the start of a text, and what follows it. -/
def reference? : List Char → Option (Nat × List Char)
  | '$' :: '\x7b' :: cs =>
    match cs.dropWhile Char.isDigit with
    | '\x7d' :: rest => some (Nat.ofDigitChars 10 (cs.takeWhile Char.isDigit) 0, rest)
    | _ => none
  | '$' :: d :: cs => if d.isDigit then some (d.toNat - 48, cs) else none
  | _ => none

/-- The number of the argument that a `case` block is on. -/
def choice? (cs : List Char) : Option Nat :=
  if "case ".toList.isPrefixOf cs then
    match reference? (cs.drop "case ".length) with
    | some (index, rest) => if rest = " in".toList then some index else none
    | none => none
  else none

/-- What a line does, the white space before it dropped. -/
def read (text : String) : Command :=
  let cs := text.toList.dropWhile (· == ' ')
  if cs = ";;".toList then .endArm
  else if cs = "esac".toList then .endChoice
  else if cs = "\x7d".toList then .endFunction
  else if cs = "exit $?".toList then .leave
  else if "function ".toList.isPrefixOf cs then .function
  else match choice? cs with
    | some index => .choice index
    | none => .other

/-- What the reader of a script does with the lines that come. -/
inductive Mode where
  | running
  /-- Inside a function that is defined. -/
  | defining
  /-- Between arms of a `case` block, looking for the arm of a value or only for the end, with some number of
  blocks inside it still open. -/
  | passing (wanted : Option String) (depth : Nat)

/-- The statements met in the rest of a script, in order, if it comes to its end. -/
def run (args : Nat → String) : Mode → List Part → Option (List Statement)
  | _, [] => none
  | .running, .own depth text :: rest =>
    match read (indentation depth ++ text) with
    | .leave => some []
    | .choice index => run args (.passing (some (args index)) 0) rest
    | .endArm => run args (.passing none 0) rest
    | .function => run args .defining rest
    | .endChoice | .endFunction | .other => run args .running rest
  | .running, .arm .. :: _ => none
  | .running, .leaf s ls :: rest =>
    if s.kind = .leave then none
    else (run args .running rest).map fun seen =>
      if ls.all fun l => Text.isBlank l.text then seen else s :: seen
  | .defining, .own depth text :: rest =>
    match read (indentation depth ++ text) with
    | .endFunction => run args .running rest
    | _ => run args .defining rest
  | .defining, _ :: rest => run args .defining rest
  | .passing wanted depth, .own indent text :: rest =>
    match read (indentation indent ++ text) with
    | .choice _ => run args (.passing wanted (depth + 1)) rest
    | .endChoice =>
      match depth with
      | 0 => run args .running rest
      | depth + 1 => run args (.passing wanted depth) rest
    | _ => run args (.passing wanted depth) rest
  | .passing wanted depth, .arm _ value _ :: rest =>
    if depth = 0 ∧ wanted = some value then run args .running rest else run args (.passing wanted depth) rest
  | .passing wanted depth, .leaf .. :: rest => run args (.passing wanted depth) rest

/-! ## What the lines of the layout are read as -/

@[simp] theorem read_indentation (depth : Nat) (text : String) : read (indentation depth ++ text) = read text := by
  have hdrop : (indentation depth ++ text).toList.dropWhile (· == ' ') = text.toList.dropWhile (· == ' ') := by
    rw [String.toList_append]
    exact Batch.dropWhile_indentation depth text.toList
  simp only [read, hdrop]

theorem reference?_argument {index : Nat} {argument : String} (h : Family.unix.argumentRef? index = some argument)
    (rest : List Char) : reference? (argument.toList ++ rest) = some (index, rest) := by
  simp only [Family.argumentRef?] at h
  split at h
  · next hi =>
    cases h
    have hdigits : Nat.toDigits 10 index = [index.digitChar] := Nat.toDigits_of_lt_base (by omega)
    have hdigit : ∀ n ≤ 9, n.digitChar.isDigit = true ∧ n.digitChar.toNat - 48 = n := by decide
    obtain ⟨hd, hn⟩ := hdigit index hi
    simp [hdigits, reference?, hd, hn]
  · cases h
    have hall : ∀ c ∈ Nat.toDigits 10 index, c.isDigit = true := fun c hc =>
      Nat.isDigit_of_mem_toDigits (by decide) (by decide) hc
    have htake : (Nat.toDigits 10 index ++ '\x7d' :: rest).takeWhile Char.isDigit = Nat.toDigits 10 index := by
      rw [List.takeWhile_append_of_pos hall]
      simp
    have hdrop : (Nat.toDigits 10 index ++ '\x7d' :: rest).dropWhile Char.isDigit = '\x7d' :: rest := by
      rw [List.dropWhile_append_of_pos hall]
      simp
    have hvalue : Nat.ofDigitChars 10 (Nat.toDigits 10 index) 0 = index :=
      Nat.ofDigitChars_toDigits (by decide) (by decide)
    have hshape : (("$\x7b" ++ toString index ++ "\x7d").toList ++ rest)
        = '$' :: '\x7b' :: (Nat.toDigits 10 index ++ '\x7d' :: rest) := by
      simp
    rw [hshape, reference?]
    simp only [hdrop, htake, hvalue]

theorem read_case {index : Nat} {argument : String} (h : Family.unix.argumentRef? index = some argument) :
    read ("case " ++ argument ++ " in") = .choice index := by
  have hcs : ("case " ++ argument ++ " in").toList = 'c' :: ("ase ".toList ++ (argument.toList ++ " in".toList)) := by
    simp
  have hchoice : choice? ("case ".toList ++ (argument.toList ++ " in".toList)) = some index := by
    have hstart : "case ".toList.isPrefixOf ("case ".toList ++ (argument.toList ++ " in".toList)) = true :=
      List.isPrefixOf_iff_prefix.2 (List.prefix_append _ _)
    have hdrop : ("case ".toList ++ (argument.toList ++ " in".toList)).drop "case ".length
        = argument.toList ++ " in".toList := by
      exact List.drop_left
    rw [choice?, if_pos hstart, hdrop, reference?_argument h]
    rfl
  have hchoice : choice? ('c' :: ("ase ".toList ++ (argument.toList ++ " in".toList))) = some index := hchoice
  rw [read, hcs, List.dropWhile_cons_of_neg (by decide)]
  simp only [hchoice]
  simp [List.isPrefixOf]

end Scriptwright.Shell
