/-
A script holds the sign with which the other family refers to variables only
where a text of the caller does: no token is mapped to the wrong family, no
quoting and no layout brings the sign in (`no_foreign_sign`).
-/
import Scriptwright.Proofs.Script.Lines
import Scriptwright.Proofs.Statement.Texts

namespace Scriptwright.Script

open Line

variable {family : Family} {c : Char} {script : Script} {ls : List Line}

/-- The texts of a script that a caller may write as he likes. -/
def texts (script : Script) : List String :=
  script.functions.flatMap (fun f => f.2.texts) ++ script.exports.map Prod.snd
    ++ script.statements.flatMap Statement.texts

theorem mem_texts_function {f : String × Statement} (hf : f ∈ script.functions) {text : String} (h : text ∈ f.2.texts) :
    text ∈ script.texts :=
  List.mem_append_left _ (List.mem_append_left _ (List.mem_flatMap.2 ⟨f, hf, h⟩))

theorem mem_texts_export {e : String × String} (he : e ∈ script.exports) : e.2 ∈ script.texts :=
  List.mem_append_left _ (List.mem_append_right _ (List.mem_map_of_mem he))

theorem mem_texts_statement {s : Statement} (hs : s ∈ script.statements) {text : String} (h : text ∈ s.texts) :
    text ∈ script.texts :=
  List.mem_append_right _ (List.mem_flatMap.2 ⟨s, hs, h⟩)

theorem made_exportStatement (h : script.Exporting) {e : String × String} (he : e ∈ script.exports) :
    (exportStatement e).Made :=
  .exportVar (Statement.makeExport_eq_ok_iff.2 ⟨rfl, h e he⟩)

/-- The lines of a script hold no character that its texts lack and nothing else brings in. -/
theorem lacks_lines (hv : script.Valid) (he : script.Exporting) (hc : family.FromTexts c)
    (ht : ∀ text ∈ script.texts, c ∉ text.toList) (h : script.lines family = .ok ls) : Lacks c ls := by
  refine forall_lines hc.keeps hv (fun f hf => ?_) (fun e hexport => ?_) (fun s hs => ?_) h
  · exact Statement.lacks_written (hv.bodies f hf) hc fun text hm => ht text (mem_texts_function hf hm)
  · refine Statement.lacks_written (made_exportStatement he hexport) hc fun text hm => ?_
    rw [List.mem_singleton.1 hm]
    exact ht e.2 (mem_texts_export hexport)
  · exact Statement.lacks_written (hv.statements s hs) hc fun text hm => ht text (mem_texts_statement hs hm)

theorem otherSign_not_mem_lineTerminator (family : Family) : family.otherSign ∉ family.lineTerminator.toList := by
  cases family <;> decide

/-- Take any built statement, or any script that operations lead to, with tokens wherever the caller likes. If none of
its texts holds the sign of the other family, a percent sign for a shell script or a dollar sign for a batch file, then
neither does what is written for the family. -/
theorem no_foreign_sign (family : Family) :
    (∀ s : Statement, s.Made → (∀ text ∈ s.texts, family.otherSign ∉ text.toList) →
      ∀ written, s.render family = .ok written → family.otherSign ∉ written.toList) ∧
    ∀ ops : List Operation, (∀ op ∈ ops, op.Made) →
      (∀ text ∈ (after ops).texts, family.otherSign ∉ text.toList) →
      ∀ written, (after ops).render family = .ok written → family.otherSign ∉ written.toList := by
  have hc := fromTexts_otherSign family
  have hend := otherSign_not_mem_lineTerminator family
  constructor
  · intro s hm ht written h
    obtain ⟨-, ls, hls, rfl⟩ := Statement.render_eq_ok_iff.1 h
    exact (Statement.lacks_lines hm hc ht hls).join hend
  · intro ops hops ht written h
    simp only [render, bind_ok_iff, pure_ok_iff] at h
    obtain ⟨-, -, ls, hls, rfl⟩ := h
    exact (lacks_lines (valid_after ops hops) (exporting_after ops hops) hc ht hls).join hend

/-- Every kind of statement, with tokens in its texts, for both families. -/
theorem no_foreign_sign_of_tokens :
    let append := Statement.appendFile "\x7bhome\x7d\x7bfs\x7dlog" ["by \x7buid\x7d", "\x7brem\x7d \x7bargs\x7d"]
    let call := Statement.call "report" ["\x7btmp\x7d\x7bfs\x7da b", "\x7bvarl\x7dHOME\x7bvarr\x7d"]
    let leave := Statement.leave "\x7bvarl\x7dCODE\x7bvarr\x7d"
    let switch := Statement.switchArg 1 [("a b", .list [append, call]), ("c", leave)]
    let ops := [Operation.exportVariable "PATH" "\x7broot\x7d\x7bps\x7d\x7btmp\x7d", .defineFunction "report" switch,
      .addStatement (.exec "cd \x7bvarl\x7dHOME\x7bvarr\x7d" false)]
    let clean := fun family : Family =>
      (∃ written, switch.render family = .ok written ∧ family.otherSign ∉ written.toList) ∧
        ∃ written, (after ops).render family = .ok written ∧ family.otherSign ∉ written.toList
    clean .unix ∧ clean .windows := by
  intro append call leave switch ops clean
  have happend : Statement.makeAppendFile "\x7bhome\x7d\x7bfs\x7dlog" ["by \x7buid\x7d", "\x7brem\x7d \x7bargs\x7d"]
      = .ok append := by decide
  have hcall : Statement.makeCall "report" ["\x7btmp\x7d\x7bfs\x7da b", "\x7bvarl\x7dHOME\x7bvarr\x7d"] = .ok call := by
    decide
  have hleave : Statement.makeLeave "\x7bvarl\x7dCODE\x7bvarr\x7d" = .ok leave := by decide
  have hmake : Statement.makeSwitch 1 [("a b", .list [append, call]), ("c", leave)] = .ok switch := by decide
  have hswitch : switch.Made := by
    refine .switchArg ?_ hmake
    simp only [List.mem_cons, List.not_mem_nil, or_false, forall_eq_or_imp, forall_eq]
    refine ⟨.list ?_, .leave hleave⟩
    simp only [List.mem_cons, List.not_mem_nil, or_false, forall_eq_or_imp, forall_eq]
    exact ⟨.appendFile happend, .call hcall⟩
  have hops : ∀ op ∈ ops, op.Made := by
    simp only [ops, List.mem_cons, List.not_mem_nil, or_false, forall_eq_or_imp, forall_eq]
    exact ⟨trivial, hswitch, .exec _ _⟩
  have hclean : ∀ family, clean family := by
    intro family
    obtain ⟨written, hwritten⟩ : ∃ written, switch.render family = .ok written :=
      exists_ok_of_isOk (by cases family <;> decide)
    obtain ⟨whole, hwhole⟩ : ∃ written, (after ops).render family = .ok written :=
      exists_ok_of_isOk (by cases family <;> decide)
    have htexts : ∀ text ∈ switch.texts, family.otherSign ∉ text.toList := by cases family <;> decide
    have hall : ∀ text ∈ (after ops).texts, family.otherSign ∉ text.toList := by cases family <;> decide
    exact ⟨⟨written, hwritten, (no_foreign_sign family).1 switch hswitch htexts written hwritten⟩,
      ⟨whole, hwhole, (no_foreign_sign family).2 ops hops hall whole hwhole⟩⟩
  exact ⟨hclean .unix, hclean .windows⟩

end Scriptwright.Script
