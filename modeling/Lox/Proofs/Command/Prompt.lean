import Lox.Command.Run
import Lox.Proofs.Text.Encoding
import Mathlib.Data.List.Forall2
/-!
# Answering line by line

Without a file the command treats its input as lines, each cut off behind the
line feed that ends it. A line is answered by what its own text gives, and
the answers follow each other on the two streams. The run goes through to the
end exactly if every line is a text, which is to say that the input as a
whole is one; else it stops at the first line that is not, and what was
written before stays.
-/


namespace Lox

namespace Command

open Text

/-- **The lines of an input**: it is cut behind each line feed, and what is left behind the last one
counts if there is anything left. -/
inductive Lines : List UInt8 → List (List UInt8) → Prop
  | nil : Lines [] []
  | last {line : List UInt8} : line ≠ [] → 10 ∉ line → Lines line [line]
  | cons {line rest : List UInt8} {lines : List (List UInt8)} :
      10 ∉ line → Lines rest lines → Lines (line ++ 10 :: rest) ((line ++ [10]) :: lines)

/-- `Says line t`: the bytes `line` are a text, and `t` is that text without the line feeds and
carriage returns at its end. -/
inductive Says : List UInt8 → Text → Prop
  | intro {t lineEnd : Text} : (∀ c ∈ lineEnd, IsLineEnd c) → (∀ c ∈ t.getLast?, ¬ IsLineEnd c) →
      Says (utf8 (t ++ lineEnd)) t

/-- What a text is answered with, on the output and on the reports: one of the two is empty. -/
def reply (emit : Emit) (t : Text) : Text × Text :=
  match emit.render t with
  | .ok output => (output ++ ['\n'], [])
  | .error reports => ([], reports.text ++ ['\n'])

/-- What is written to the output while texts are answered: a prompt before each answer. -/
def conversation (emit : Emit) (texts : List Text) : Text :=
  texts.flatMap fun t => "> ".toList ++ (reply emit t).1

/-- What is written to the reports while texts are answered. -/
def complaints (emit : Emit) (texts : List Text) : Text := texts.flatMap fun t => (reply emit t).2

/-! ## The lines of an input -/

theorem linesOf_of_not_mem {line : List UInt8} (hne : line ≠ []) (h : 10 ∉ line) :
    linesOf line = [line] := by
  induction line with
  | nil => exact absurd rfl hne
  | cons b line ih =>
    obtain ⟨hb, hline⟩ := List.ne_and_not_mem_of_not_mem_cons h
    rw [linesOf, if_neg (Ne.symm hb)]
    cases line with
    | nil => rfl
    | cons b' line => rw [ih (by simp) hline]

theorem linesOf_append {line : List UInt8} (h : 10 ∉ line) (rest : List UInt8) :
    linesOf (line ++ 10 :: rest) = (line ++ [10]) :: linesOf rest := by
  induction line with
  | nil => rfl
  | cons b line ih =>
    obtain ⟨hb, hline⟩ := List.ne_and_not_mem_of_not_mem_cons h
    rw [List.cons_append, linesOf, if_neg (Ne.symm hb), ih hline]
    rfl

/-- **An input has one list of lines.** -/
theorem Lines.eq_linesOf {input : List UInt8} {lines : List (List UInt8)} (h : Lines input lines) :
    lines = linesOf input := by
  induction h with
  | nil => rfl
  | last hne hmem => exact (linesOf_of_not_mem hne hmem).symm
  | cons hmem _ ih => rw [linesOf_append hmem, ih]

/-- Every input has lines. -/
theorem lines_linesOf (input : List UInt8) : Lines input (linesOf input) := by
  -- by the length of the input, which a first line shortens
  induction hn : input.length using Nat.strongRecOn generalizing input with
  | ind n ih =>
    by_cases hmem : 10 ∈ input
    · obtain ⟨line, rest, rfl, hline⟩ := List.eq_append_cons_of_mem hmem
      have hlt : rest.length < n := by
        rw [List.length_append, List.length_cons] at hn
        omega
      rw [linesOf_append hline]
      exact .cons hline (ih _ hlt rest rfl)
    · by_cases hne : input = []
      · rw [hne]
        exact .nil
      · rw [linesOf_of_not_mem hne hmem]
        exact .last hne hmem

/-- **An input is a text exactly if all its lines are.** -/
theorem Lines.isUtf8_iff {input : List UInt8} {lines : List (List UInt8)} (h : Lines input lines) :
    IsUtf8 input ↔ ∀ line ∈ lines, IsUtf8 line := by
  induction h with
  | nil => exact ⟨fun _ line hline => absurd hline List.not_mem_nil, fun _ => ⟨[], utf8_nil⟩⟩
  | last => rw [List.forall_mem_singleton]
  | cons _ _ ih => rw [isUtf8_append_lineFeed, List.forall_mem_cons, ih]

/-! ## The answer to a line -/

theorem answer_eq_reply (emit : Emit) (t : Text) :
    (answer emit t).stdout = (reply emit t).1 ∧ (answer emit t).stderr = (reply emit t).2 := by
  rw [answer, reply]
  cases emit.render t <;> exact ⟨rfl, rfl⟩

/-- A line that says something is answered by what it says. -/
theorem Says.answerLine? {line : List UInt8} {t : Text} (h : Says line t) (emit : Emit) :
    answerLine? emit line = some (answer emit t) := by
  cases h with
  | intro hend ht =>
    rw [Command.answerLine?, ofUtf8?_utf8, Option.map_some, trimLineEnd_append hend ht]

/-- Every line that is a text says something. -/
theorem exists_says {line : List UInt8} (h : IsUtf8 line) : ∃ t, Says line t := by
  obtain ⟨t, rfl⟩ := h
  obtain ⟨lineEnd, ht, hend, hlast⟩ := exists_trimLineEnd_append t
  refine ⟨trimLineEnd t, ?_⟩
  have hsays := Says.intro hend hlast
  rwa [← ht] at hsays

theorem exists_forall₂_says {lines : List (List UInt8)} (h : ∀ line ∈ lines, IsUtf8 line) :
    ∃ texts, List.Forall₂ Says lines texts := by
  induction lines with
  | nil => exact ⟨[], .nil⟩
  | cons line lines ih =>
    obtain ⟨hline, hlines⟩ := List.forall_mem_cons.1 h
    obtain ⟨t, ht⟩ := exists_says hline
    obtain ⟨texts, htexts⟩ := ih hlines
    exact ⟨t :: texts, .cons ht htexts⟩

/-! ## The answers to all lines -/

/-- **Lines in front are answered one by one**, whatever lines come behind them. -/
theorem answerLines_append (emit : Emit) {before : List (List UInt8)} {texts : List Text}
    (h : List.Forall₂ Says before texts) (after : List (List UInt8)) :
    answerLines emit (before ++ after) =
      ⟨(answerLines emit after).status,
        conversation emit texts ++ (answerLines emit after).stdout,
        complaints emit texts ++ (answerLines emit after).stderr⟩ := by
  induction h with
  | nil => rfl
  | @cons line t before texts ht _ ih =>
    obtain ⟨hout, herr⟩ := answer_eq_reply emit t
    rw [List.cons_append, answerLines, ht.answerLine?, ih]
    simp only [hout, herr, conversation, complaints, promptSign, List.flatMap_cons,
      List.append_assoc]

/-- Where every line is a text, the run goes through to the end. -/
theorem answerLines_of_texts (emit : Emit) {lines : List (List UInt8)}
    (h : ∀ line ∈ lines, IsUtf8 line) :
    ∃ texts, List.Forall₂ Says lines texts ∧ answerLines emit lines =
      ⟨.success, conversation emit texts ++ "> ".toList, complaints emit texts⟩ := by
  obtain ⟨texts, htexts⟩ := exists_forall₂_says h
  refine ⟨texts, htexts, ?_⟩
  have happend := answerLines_append emit htexts []
  rw [List.append_nil] at happend
  rw [happend, answerLines, List.append_nil]
  rfl

/-- A line that is no text ends the run. -/
theorem answerLines_of_failure (emit : Emit) {before : List (List UInt8)} {line : List UInt8}
    (hbefore : ∀ l ∈ before, IsUtf8 l) (hline : ¬ IsUtf8 line) (after : List (List UInt8)) :
    ∃ texts, List.Forall₂ Says before texts ∧ answerLines emit (before ++ line :: after) =
      ⟨.failure, conversation emit texts ++ "> ".toList,
        complaints emit texts ++ "Error: stream did not contain valid UTF-8\n".toList⟩ := by
  obtain ⟨texts, htexts⟩ := exists_forall₂_says hbefore
  refine ⟨texts, htexts, ?_⟩
  have hstop : answerLines emit (line :: after) = ⟨.failure, promptSign, failureText notUtf8⟩ := by
    rw [answerLines, answerLine?, ofUtf8?_eq_none_iff.2 hline, Option.map_none]
  rw [answerLines_append emit htexts, hstop]
  rfl

/-- A list with an element that does not fit has a first one. -/
theorem exists_first_not {α : Type} {P : α → Prop} {l : List α} (h : ¬ ∀ a ∈ l, P a) :
    ∃ before a after, l = before ++ a :: after ∧ (∀ b ∈ before, P b) ∧ ¬ P a := by
  induction l with
  | nil => exact absurd (fun a ha => absurd ha List.not_mem_nil) h
  | cons a l ih =>
    by_cases ha : P a
    · obtain ⟨before, b, after, rfl, hbefore, hb⟩ := ih fun hl => h (List.forall_mem_cons.2 ⟨ha, hl⟩)
      exact ⟨a :: before, b, after, rfl, List.forall_mem_cons.2 ⟨ha, hbefore⟩, hb⟩
    · exact ⟨[], a, l, rfl, fun b hb => absurd hb List.not_mem_nil, ha⟩

/-- **What a run that answers line by line leaves behind.** Each line is answered by the reply to
what it says, which no other line has a part in. -/
structure LineByLine (emit : Emit) (input : List UInt8) (output : Output) : Prop where
  /-- The input has one list of lines. -/
  lines : ∃ lines, Lines input lines ∧ ∀ lines', Lines input lines' → lines' = lines
  /-- If all lines are texts, each is answered, and the prompt stands once more at the end. -/
  all_texts : ∀ lines, Lines input lines → (∀ line ∈ lines, IsUtf8 line) →
    ∃ texts, List.Forall₂ Says lines texts ∧ output.status.code = 0 ∧
      output.stdout = conversation emit texts ++ "> ".toList ∧
      output.stderr = complaints emit texts
  /-- The first line that is no text ends the run. The lines before it are answered, and the prompt
  stands once more in front of the failure. -/
  first_failure : ∀ before line after, Lines input (before ++ line :: after) →
    (∀ l ∈ before, IsUtf8 l) → ¬ IsUtf8 line →
    ∃ texts, List.Forall₂ Says before texts ∧ output.status.code = 1 ∧
      output.stdout = conversation emit texts ++ "> ".toList ∧
      output.stderr = complaints emit texts ++
        "Error: stream did not contain valid UTF-8\n".toList
  /-- The run succeeds exactly if the input as a whole is a text. -/
  succeeds_iff : output.status.code = 0 ↔ IsUtf8 input

/-- **Without a file, the input is answered line by line**, however the arguments are read. -/
theorem run_lineByLine {reading : List Text → Request} {args : List Text} {emit : Emit}
    (h : reading args = .run emit none)
    (read : Text → Except ReadError (List UInt8)) (stdin : List UInt8) :
    LineByLine emit stdin (run reading args read stdin) := by
  have hrun : run reading args read stdin = answerLines emit (linesOf stdin) := by
    rw [run, h]
    rfl
  rw [hrun]
  refine ⟨⟨linesOf stdin, lines_linesOf stdin, fun _ => Lines.eq_linesOf⟩, ?_, ?_, ?_⟩
  · intro lines hlines htext
    obtain ⟨texts, htexts, hall⟩ := answerLines_of_texts emit htext
    rw [← hlines.eq_linesOf, hall]
    exact ⟨texts, htexts, rfl, rfl, rfl⟩
  · intro before line after hlines hbefore hline
    obtain ⟨texts, htexts, hstop⟩ := answerLines_of_failure emit hbefore hline after
    rw [← hlines.eq_linesOf, hstop]
    exact ⟨texts, htexts, rfl, rfl, rfl⟩
  · rw [(lines_linesOf stdin).isUtf8_iff]
    constructor
    · intro hcode
      by_contra htext
      obtain ⟨before, line, after, hlines, hbefore, hline⟩ := exists_first_not htext
      obtain ⟨texts, -, hstop⟩ := answerLines_of_failure emit hbefore hline after
      rw [hlines, hstop] at hcode
      cases hcode
    · intro htext
      obtain ⟨texts, -, hall⟩ := answerLines_of_texts emit htext
      rw [hall]
      rfl

/-- Two lines are answered, one of them by reports; the third is no text. -/
theorem run_lineByLine_three :
    Request.ofArguments ["--emit".toList, "infix".toList] = .run .flat none ∧
      LineByLine .flat [49, 43, 50, 13, 10, 40, 10, 255]
        (run .ofArguments ["--emit".toList, "infix".toList] (fun _ => .error .noSuchFile)
          [49, 43, 50, 13, 10, 40, 10, 255]) := by
  have h : Request.ofArguments ["--emit".toList, "infix".toList] = .run .flat none := by decide
  exact ⟨h, run_lineByLine h _ _⟩

end Command

end Lox
