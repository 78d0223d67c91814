import Lox.Emit
import Lox.Proofs.Lexical.Rounds
import Lox.Proofs.Lexical.Strays
import Lox.Proofs.Parser.Calls
/-!
# The reports of the entry points

Whatever a source is asked for, it is scanned once, and what is parsed is
parsed from the tokens of that scan. So all ways to ask report the same: the
faults of the scan, then what there is to report about the tokens. Nothing
reported before is read, so a sink that holds some reports gets the same ones
behind them.
-/


namespace Lox

namespace Reporting

open Segment (cut)

/-! ## Scanning into a sink -/

/-- The last line is the same from wherever its number is taken. -/
theorem line_add_lineBreaks_past (p : Position) (n : Nat) :
    (p.past n).line + Text.lineBreaks (p.past n).ahead = p.line + Text.lineBreaks p.ahead := by
  have htext := congrArg Text.lineBreaks (List.take_append_drop n p.ahead)
  rw [Text.lineBreaks_append] at htext
  rw [← htext, ← Nat.add_assoc]
  rfl

/-- **A scan that reports as it goes reports the faults of the cut**, behind what the sink holds,
and gives its tokens. -/
theorem run_scanFrom (p : Position) (sink : Diagnostics) :
    (scanFrom p).run sink =
      ((cut p).filterMap Segment.token? ++ [.eof (p.line + Text.lineBreaks p.ahead)],
        sink ++ (cut p).filterMap Segment.diagnostic?) := by
  -- by the recursion of the scan: one segment at a time
  fun_induction scanFrom p generalizing sink with
  | case1 p h =>
    rw [Segment.cut_of_nil h, h, List.filterMap_nil, List.filterMap_nil, List.append_nil]
    rfl
  | case2 p c t h segment ih =>
    have hextend : (extend segment.diagnostic?.toList).run sink =
        ((), sink ++ segment.diagnostic?.toList) := rfl
    have hcut : cut p = segment :: cut segment.stop := Segment.cut_of_cons h
    have hline : segment.stop.line + Text.lineBreaks segment.stop.ahead =
        p.line + Text.lineBreaks p.ahead := line_add_lineBreaks_past p _
    rw [hcut, Segment.filterMap_cons_eq_append, Segment.filterMap_cons_eq_append, ← hline,
      List.append_assoc, ← List.append_assoc sink]
    simp only [StateT.run_bind, hextend, ih]
    rfl

/-- A scan that reports into a sink gives the tokens of the source, and adds its faults. -/
theorem run_scan (source : Text) (sink : Diagnostics) :
    (Reporting.scan source).run sink =
      ((Lox.scan source).tokens, sink ++ (Lox.scan source).diagnostics) :=
  run_scanFrom (.start source) sink

end Reporting

namespace Lexical

/-! ## What is never closed -/

/-- Whether a report is about something that was opened and never closed. -/
def IsUnterminated (d : Diagnostic) : Prop :=
  d.message = ScanError.unterminatedString.message ∨
    d.message = ScanError.unterminatedBlockComment.message

theorem isOpen_of_isUnterminated {error : ScanError} {line : Nat}
    (h : IsUnterminated ⟨line, [], error.message⟩) : IsOpen (.fault error) := by
  cases error with
  | unexpectedCharacter c =>
    have hstring : "Unexpected character.".toList ≠ "Unterminated string.".toList := by decide
    have hcomment : "Unexpected character.".toList ≠ "Unterminated block comment.".toList := by
      decide
    exact absurd h (not_or.2 ⟨hstring, hcomment⟩)
  | unterminatedString => exact .inl rfl
  | unterminatedBlockComment => exact .inr rfl

/-- **What is never closed is the last segment**, so the report about it is the last one. -/
theorem Segmented.last_of_isUnterminated {t : Text} {segs : List (Text × Finding)}
    (h : Segmented t segs) {line i : Nat} {d : Diagnostic}
    (hd : (reportsFrom line segs)[i]? = some d) (hopen : IsUnterminated d) :
    i + 1 = (reportsFrom line segs).length := by
  induction h generalizing line i with
  | nil => cases hd
  | @cons t rest f segs _ hstands hrest ih =>
    cases f with
    | token | trivia => exact ih hd
    | fault error =>
      rw [reportsFrom] at hd ⊢
      cases i with
      | zero =>
        cases Option.some.inj hd
        obtain rfl := hstands.eq_nil_of_isOpen (isOpen_of_isUnterminated hopen)
        rw [segmented_unique hrest .nil]
        rfl
      | succ i => exact congrArg Nat.succ (ih hd)

end Lexical

/-! ## The entry points -/

/-- A source gives what its tokens give, if its scan has no fault. -/
theorem parseSource_eq (source : Text) :
    parseSource source =
      match (scan source).diagnostics, parseTokens (scan source).tokens with
      | [], .ok e => .ok e
      | faults, parsed => .error (faults ++ reportsOf parsed) := by
  rw [parseSource, parseTokens]
  cases (scan source).diagnostics <;>
    cases (TokenStream.ofTokens (scan source).tokens).parse.1 <;> rfl

theorem parseSource_eq_ok_iff_parseTokens {source : Text} {e : Expr} :
    parseSource source = .ok e ↔
      (scan source).diagnostics = [] ∧ parseTokens (scan source).tokens = .ok e := by
  rw [parseSource_eq]
  cases (scan source).diagnostics with
  | nil => cases parseTokens (scan source).tokens <;> simp
  | cons d ds => simp

theorem parseSource_eq_error_iff {source : Text} {ds : Diagnostics} :
    parseSource source = .error ds ↔
      (∀ e, ¬ ((scan source).diagnostics = [] ∧ parseTokens (scan source).tokens = .ok e)) ∧
        ds = (scan source).diagnostics ++ reportsOf (parseTokens (scan source).tokens) := by
  rw [parseSource_eq]
  cases (scan source).diagnostics with
  | nil => cases parseTokens (scan source).tokens <;> simp [eq_comm]
  | cons d ds' => simp [eq_comm]

/-- Tokens that are not parsed are reported. -/
theorem reportsOf_parseTokens_ne_nil {ts : List Token} (h : ∀ e, parseTokens ts ≠ .ok e) :
    reportsOf (parseTokens ts) ≠ [] := by
  rw [reportsOf_parseTokens]
  rw [parseTokens] at h
  cases hi : (TokenStream.ofTokens ts).parse.1 with
  | ok e =>
    rw [hi] at h
    exact absurd rfl (h e)
  | error x => exact List.cons_ne_nil _ _

/-- A failed outcome of a map is one of what is mapped. -/
theorem map_eq_error_iff {α β : Type} {f : α → β} {r : Except Diagnostics α} {ds : Diagnostics} :
    r.map f = .error ds ↔ r = .error ds := by
  cases r <;> simp [Except.map]

/-- A new parser gives the tree of its tokens, if they have one, and reports the error, if there is
one. -/
theorem Parser.run_start_parse (ts : List Token) (sink : Diagnostics) :
    (start ts).parse.run sink =
      (((parseTokens ts).toOption, (start ts).expression.result.2),
        sink ++ reportsOf (parseTokens ts)) := by
  have hparse := (start ts).parse_stream
  rw [stream_start] at hparse
  rw [run_parse, reportsOf_parseTokens, parseTokens, hparse]
  cases (start ts).expression.result.1 <;> rfl

theorem Parser.run_start_parseSequence (ts : List Token) (sink : Diagnostics) :
    (start ts).parseSequence.run sink =
      (((TokenStream.ofTokens ts).expressions, (start ts).past (start ts).left),
        sink ++ reportsOf (Lox.parseSequence ts)) := by
  rw [run_parseSequence, stream_start, Lox.parseSequence]
  cases (TokenStream.ofTokens ts).errors <;> rfl

/-- What the entry points report about a source with the tokens `ts` and the faults `faults`, where
`errors` is what parsing the tokens reports. -/
structure ReportsAgree (source : Text) (ts : List Token) (faults errors : Diagnostics) : Prop where
  /-- A source gives a tree exactly if it has no fault and its tokens give that tree. -/
  ok_iff : ∀ e, parseSource source = .ok e ↔ faults = [] ∧ parseTokens ts = .ok e
  /-- Otherwise the faults are reported, and behind them what parsing the tokens reports. -/
  error_iff : ∀ ds, parseSource source = .error ds ↔
    (∀ e, ¬ (faults = [] ∧ parseTokens ts = .ok e)) ∧ ds = faults ++ errors
  /-- Parsing the tokens reports one error at most. -/
  errors_length_le : errors.length ≤ 1
  /-- No failure is without a report. -/
  ne_nil : ∀ ds, parseSource source = .error ds → ds ≠ []
  /-- What is never closed is reported last, and so once at most. -/
  unterminated_last : ∀ i d, faults[i]? = some d → Lexical.IsUnterminated d →
    i + 1 = faults.length
  /-- The forms of the tree fail exactly where the source gives no tree, with the same reports. -/
  tree_error_iff : ∀ emit ∈ [Emit.lisp, .flat, .polish], ∀ ds,
    emit.render source = .error ds ↔ parseSource source = .error ds
  /-- The dump of the tokens fails exactly where there is a fault, with the faults. -/
  tokens_error_iff : ∀ ds, Emit.tokens.render source = .error ds ↔ faults ≠ [] ∧ ds = faults
  /-- A scan into a sink adds the faults. -/
  run_scan : ∀ sink, (Reporting.scan source).run sink = (ts, sink ++ faults)
  /-- Parsing the tokens into the same sink adds the errors. -/
  run_parse : ∃ p, ∀ sink,
    (Reporting.scan source >>= fun ts => (Parser.start ts).parse).run sink =
      (((parseTokens ts).toOption, p), sink ++ (faults ++ errors))
  /-- So does parsing them as a sequence. -/
  run_parseSequence : ∃ p, ∀ sink,
    (Reporting.scan source >>= fun ts => (Parser.start ts).parseSequence).run sink =
      (((TokenStream.ofTokens ts).expressions, p),
        sink ++ (faults ++ reportsOf (parseSequence ts)))

/-- **All entry points report the same, completely and in order.** For every source: its faults come
first and what parsing its tokens reports comes behind them, whether a tree is asked for, a form of
it or a dump of the tokens, and whatever the sink already holds. -/
theorem reports_agree (source : Text) :
    ReportsAgree source (scan source).tokens (scan source).diagnostics
      (reportsOf (parseTokens (scan source).tokens)) where
  ok_iff e := parseSource_eq_ok_iff_parseTokens
  error_iff ds := parseSource_eq_error_iff
  errors_length_le := by
    rw [reportsOf_parseTokens]
    exact length_diagnostics_le _
  ne_nil ds h := by
    obtain ⟨hnot, rfl⟩ := parseSource_eq_error_iff.1 h
    intro hnil
    obtain ⟨hfaults, herrors⟩ := List.append_eq_nil_iff.1 hnil
    exact reportsOf_parseTokens_ne_nil (fun e he => hnot e ⟨hfaults, he⟩) herrors
  unterminated_last i d hd hopen := by
    obtain ⟨segs, hsegs⟩ := Lexical.exists_segmented source
    rw [Lexical.scan_of_segmented hsegs] at hd ⊢
    exact hsegs.last_of_isUnterminated hd hopen
  tree_error_iff emit hemit ds := by
    simp only [List.mem_cons, List.not_mem_nil, or_false] at hemit
    rcases hemit with rfl | rfl | rfl <;> exact map_eq_error_iff
  tokens_error_iff ds := by
    rw [Emit.render, dumpTokens]
    cases (scan source).diagnostics <;> simp [outcome, eq_comm]
  run_scan := Reporting.run_scan source
  run_parse := by
    refine ⟨(Parser.start (scan source).tokens).expression.result.2, fun sink => ?_⟩
    rw [StateT.run_bind, Reporting.run_scan, ← List.append_assoc]
    exact Parser.run_start_parse _ _
  run_parseSequence := by
    refine ⟨(Parser.start (scan source).tokens).past (Parser.start (scan source).tokens).left,
      fun sink => ?_⟩
    rw [StateT.run_bind, Reporting.run_scan, ← List.append_assoc]
    exact Parser.run_start_parseSequence _ _

/-! ## A scanner and a parser in a row -/

/-- **A source is scanned by a scanner, and a parser of its tokens reports into the same sink.** The
source gives the tree that the parser gives, unless something is in the sink then. -/
theorem exists_scan_run_parse (overflow : Overflow) {source : Text}
    (hlen : Text.utf8Size source < 2 ^ 32) :
    ∃ scanned tree q sink, Scanner.scan overflow source = pure scanned ∧
      (Parser.start scanned.tokens).parse.run scanned.diagnostics = ((tree, q), sink) ∧
      parseSource source = outcome tree sink := by
  refine ⟨scan source, _, _, _, Scanner.scan_eq_pure overflow hlen,
    Parser.run_start_parse _ _, ?_⟩
  rw [parseSource_eq]
  cases (scan source).diagnostics with
  | nil =>
    rw [List.nil_append, parseTokens]
    cases (TokenStream.ofTokens (scan source).tokens).parse.1 <;> rfl
  | cons d ds =>
    rw [List.cons_append]
    cases (parseTokens (scan source).tokens).toOption <;> rfl

/-- **A list of tokens is parsed as a sequence by a new parser**, which reports into an empty
sink. -/
theorem exists_run_parseSequence (ts : List Token) :
    ∃ trees q sink, (Parser.start ts).parseSequence.run [] = ((trees, q), sink) ∧
      parseSequence ts = outcome (some trees) sink := by
  refine ⟨_, _, _, Parser.run_start_parseSequence ts [], ?_⟩
  rw [List.nil_append, parseSequence]
  cases (TokenStream.ofTokens ts).errors <;> rfl

end Lox
