import Lox.Proofs.Command.Prompt
import Lox.Proofs.Lexical.TrailingBlanks
/-!
# One line, in a file or as input

A single line is answered the same whether it is the content of a file or the
input. The two runs render different texts: the input is cut off in front of
the carriage returns at the end of its line, and the file is not. A scan does
not see the difference.
-/


namespace Lox

namespace Command

open Text

variable {w : Text}

/-- The bytes of a text without a line feed hold none. -/
theorem lineFeed_not_mem_utf8 (h : '\n' ∉ w) : 10 ∉ utf8 w := by
  rw [utf8_eq_flatMap]
  intro hmem
  obtain ⟨c, hc, hbyte⟩ := List.mem_flatMap.1 hmem
  exact h (eq_lineFeed_of_mem_utf8EncodeChar hbyte ▸ hc)

/-- The input is one line. -/
theorem linesOf_utf8_line (h : '\n' ∉ w) : linesOf (utf8 (w ++ ['\n'])) = [utf8 (w ++ ['\n'])] := by
  have hbytes : utf8 (w ++ ['\n']) = utf8 w ++ [10] := by
    rw [utf8_append, utf8_cons, utf8EncodeChar_lineFeed, utf8_nil, List.append_nil]
  rw [hbytes, linesOf_append (lineFeed_not_mem_utf8 h)]
  rfl

/-- What is cut off at the end of a text without a line feed are carriage returns. -/
theorem exists_trimLineEnd_append_returns (h : '\n' ∉ w) :
    ∃ e, w = trimLineEnd w ++ e ∧ (∀ c ∈ e, c = '\r') ∧
      ∀ c ∈ (trimLineEnd w).getLast?, ¬ IsLineEnd c := by
  obtain ⟨e, hw, hend, hlast⟩ := exists_trimLineEnd_append w
  refine ⟨e, hw, fun c hc => ?_, hlast⟩
  have hmem : c ∈ w := hw ▸ List.mem_append_right _ hc
  exact (hend c hc).resolve_left (ne_of_mem_of_not_mem hmem h)

/-- A scan does not see carriage returns at the end of its source. -/
theorem scan_append_returns {e : Text} (he : ∀ c ∈ e, c = '\r') (v : Text) :
    scan (v ++ e) = scan v :=
  Lexical.scan_append_blanks (fun c hc => by rw [he c hc]; decide) v

/-- So what is cut off makes no difference. -/
theorem render_trimLineEnd (h : '\n' ∉ w) (emit : Emit) :
    emit.render (trimLineEnd w) = emit.render w := by
  obtain ⟨e, hw, he, -⟩ := exists_trimLineEnd_append_returns h
  have hscan := scan_append_returns he (trimLineEnd w)
  rw [← hw] at hscan
  exact Emit.render_congr hscan.symm emit

/-- The line says the text as it is cut off. -/
theorem says_line (h : '\n' ∉ w) : Says (utf8 (w ++ ['\n'])) (trimLineEnd w) := by
  obtain ⟨e, hw, he, hlast⟩ := exists_trimLineEnd_append_returns h
  have hend : ∀ c ∈ e ++ ['\n'], IsLineEnd c := fun c hc => by
    rcases List.mem_append.1 hc with hc | hc
    · exact .inr (he c hc)
    · exact .inl (List.mem_singleton.1 hc)
  have hsays := Says.intro hend hlast
  rwa [← List.append_assoc, ← hw] at hsays

/-- A run on one line. -/
theorem answerLines_line (h : '\n' ∉ w) (emit : Emit) :
    answerLines emit (linesOf (utf8 (w ++ ['\n']))) =
      ⟨.success, "> ".toList ++ (answer emit w).stdout ++ "> ".toList, (answer emit w).stderr⟩ := by
  have hanswer : answer emit (trimLineEnd w) = answer emit w := by
    rw [answer, answer, render_trimLineEnd h]
  rw [linesOf_utf8_line h, answerLines, (says_line h).answerLine?, hanswer, answerLines]
  simp only [List.append_nil]
  rfl

/-- A run on a file. -/
theorem runFile_utf8 (emit : Emit) (w : Text) : runFile emit (.ok (utf8 w)) = answer emit w := by
  rw [runFile, ofUtf8?_utf8]

/-- What a run leaves behind: the number of its status, its output and its reports. -/
def Output.Leaves (output : Output) (code : Nat) (stdout stderr : Text) : Prop :=
  output.status.code = code ∧ output.stdout = stdout ∧ output.stderr = stderr

/-- **Two runs on one line**, once as the content of a file and once as the input. -/
structure SameLine (emit : Emit) (w : Text) (file prompt : Output) : Prop where
  /-- Both write the same output, or both write the same reports. -/
  same : (∃ output, emit.render w = .ok output ∧
      file.Leaves 0 (output ++ ['\n']) [] ∧
      prompt.Leaves 0 ("> ".toList ++ output ++ "\n> ".toList) []) ∨
    ∃ reports, emit.render w = .error reports ∧
      file.Leaves 65 [] (reports.text ++ ['\n']) ∧
      prompt.Leaves 0 "> > ".toList (reports.text ++ ['\n'])
  /-- Carriage returns at the end make no difference to the tokens, the faults and what is
  rendered. -/
  returns : ∀ v n, w = v ++ List.replicate n '\r' →
    scan w = scan v ∧ ∀ emit : Emit, emit.render w = emit.render v

/-- **A line is answered the same from a file and from the input.** Whatever carriage returns it
holds or ends with, in whatever form it is written back, and however the arguments are read. -/
theorem run_sameLine {reading : List Text → Request} {fileArgs promptArgs : List Text}
    {emit : Emit} {path : Text} (hfile : reading fileArgs = .run emit (some path))
    (hprompt : reading promptArgs = .run emit none)
    (hw : '\n' ∉ w) {read : Text → Except ReadError (List UInt8)}
    (hread : read path = .ok (utf8 w)) (stdin : List UInt8) :
    SameLine emit w (run reading fileArgs read stdin)
      (run reading promptArgs read (utf8 (w ++ ['\n']))) := by
  have hrunFile : run reading fileArgs read stdin = answer emit w := by
    have hrun : run reading fileArgs read stdin = runFile emit (read path) := by
      rw [run, hfile]
    rw [hrun, hread, runFile_utf8]
  have hrunPrompt : run reading promptArgs read (utf8 (w ++ ['\n'])) =
      ⟨.success, "> ".toList ++ (answer emit w).stdout ++ "> ".toList,
        (answer emit w).stderr⟩ := by
    rw [run, hprompt]
    exact answerLines_line hw emit
  refine ⟨?_, fun v n hv => ?_⟩
  · rw [hrunFile, hrunPrompt, answer]
    cases emit.render w with
    | ok output =>
      have hprompts : "> ".toList ++ (output ++ ['\n']) ++ "> ".toList =
          "> ".toList ++ output ++ "\n> ".toList := by
        have hsplit : "\n> ".toList = ['\n'] ++ "> ".toList := rfl
        rw [hsplit, ← List.append_assoc, ← List.append_assoc]
      exact .inl ⟨output, rfl, ⟨rfl, rfl, rfl⟩, rfl, hprompts, rfl⟩
    | error reports => exact .inr ⟨reports, rfl, ⟨rfl, rfl, rfl⟩, rfl, rfl, rfl⟩
  · have hscan : scan w = scan v := by
      rw [hv]
      exact scan_append_returns (fun c hc => List.eq_of_mem_replicate hc) v
    exact ⟨hscan, Emit.render_congr hscan⟩

/-- A string that is not closed ends with two carriage returns. -/
theorem run_sameLine_unclosed :
    Request.ofArguments ["--emit=tokens".toList, "f".toList] = .run .tokens (some "f".toList) ∧
      Request.ofArguments ["--emit=tokens".toList] = .run .tokens none ∧
      '\n' ∉ "1 \"a\r\r".toList ∧
      SameLine .tokens "1 \"a\r\r".toList
        (run .ofArguments ["--emit=tokens".toList, "f".toList]
          (fun _ => .ok (utf8 "1 \"a\r\r".toList)) [])
        (run .ofArguments ["--emit=tokens".toList] (fun _ => .ok (utf8 "1 \"a\r\r".toList))
          (utf8 ("1 \"a\r\r".toList ++ ['\n']))) := by
  have hfile : Request.ofArguments ["--emit=tokens".toList, "f".toList] =
      .run .tokens (some "f".toList) := by decide
  have hprompt : Request.ofArguments ["--emit=tokens".toList] = .run .tokens none := by decide
  have hline : '\n' ∉ "1 \"a\r\r".toList := by decide
  exact ⟨hfile, hprompt, hline, run_sameLine hfile hprompt hline rfl []⟩

end Command

end Lox
