import Lox.Proofs.Lexical.Joining
import Lox.Proofs.Lexical.Lines
import Lox.Proofs.Lexical.Scanner
/-!
# The rounds of a scanner

A scanner makes one round after another, each where the last one stopped, up
to the end of its source or to the round in which the count of open comments
goes out of range. What the rounds take and find is what the tokens and the
reports are read off; in a source shorter than 2^32 bytes it is the
segmentation of the source, and every round has a result. A source of 2^32
bytes that only opens comments is a panic where integers do not wrap around.
-/


namespace Lox

open Lexical

open Cursor (between)

open Text (utf8Size lineBreaks)

namespace Scanner

variable {overflow : Overflow} {a b t u : Text} {f : Finding} {s s' s'' : Scanner}
variable {segs : List (Text × Finding)}

/-- What a round takes of a short source stands there. -/
theorem Rounds.stands (h : s.Rounds overflow a t b f s') (hlen : (t ++ b).length < 2 ^ 32) :
    Stands (t ++ b) t f := by
  have hfront := h.front_eq hlen
  obtain ⟨c, u, rfl⟩ := List.exists_cons_of_ne_nil h.ne_nil
  have hstands : TakesStanding (c :: u ++ b) := takesStanding c (u ++ b)
  rwa [TakesStanding, hfront, List.take_left] at hstands

/-! ## Rounds in a row -/

/-- **Rounds in a row**, the first one of which starts behind `a`. They are told by what each of them
takes and what it finds that to be; they lead from one scanner to another, and leave `b`. -/
inductive Trace (overflow : Overflow) (b : Text) :
    Scanner → Text → List (Text × Finding) → Scanner → Prop
  | nil {s : Scanner} {a : Text} : s.cursor = between a b → Trace overflow b s a [] s
  | cons {s s' s'' : Scanner} {a t : Text} {f : Finding} {segs : List (Text × Finding)} :
      s.Rounds overflow a t (joined segs ++ b) f s' → Trace overflow b s' (a ++ t) segs s'' →
      Trace overflow b s a ((t, f) :: segs) s''

theorem append_joined_nil (a : Text) : a ++ joined [] = a := List.append_nil a

theorem joined_cons (t : Text) (f : Finding) (segs : List (Text × Finding)) :
    joined ((t, f) :: segs) = t ++ joined segs := rfl

namespace Trace

theorem cursor (h : Trace overflow b s a segs s') : s.cursor = between a (joined segs ++ b) := by
  cases h with
  | nil hs => exact hs
  | cons hround _ =>
    rw [joined_cons, List.append_assoc]
    exact hround.cursor

theorem cursor_eq (h : Trace overflow b s a segs s') :
    s'.cursor = between (a ++ joined segs) b := by
  induction h with
  | nil hs => rw [hs, append_joined_nil]
  | cons _ _ ih => rw [ih, joined_cons, List.append_assoc]

/-- Each round takes something. -/
theorem ne_nil (h : Trace overflow b s a segs s') : ∀ seg ∈ segs, seg.1 ≠ [] := by
  induction h with
  | nil => nofun
  | cons hround _ ih => exact List.forall_mem_cons.2 ⟨hround.ne_nil, ih⟩

/-- What a round adds is what is read off it. -/
theorem views_cons (a t : Text) (f : Finding) (segs : List (Text × Finding)) :
    tokensFrom (1 + lineBreaks a) ((t, f) :: segs) =
        tokensOf a t f ++ tokensFrom (1 + lineBreaks (a ++ t)) segs ∧
      reportsFrom (1 + lineBreaks a) ((t, f) :: segs) =
        faultsOf a t f ++ reportsFrom (1 + lineBreaks (a ++ t)) segs := by
  rw [Text.lineBreaks_append, ← Nat.add_assoc]
  cases f with
  | token | trivia => exact ⟨rfl, rfl⟩
  | fault error =>
    refine ⟨rfl, ?_⟩
    rw [faultsOf, Text.lineBreaks_append, ← Nat.add_assoc]
    rfl

/-- **The tokens and the reports are read off the rounds.** -/
theorem views_eq (h : Trace overflow b s a segs s') :
    s'.tokens = s.tokens ++ tokensFrom (1 + lineBreaks a) segs ∧
      s'.reports = s.reports ++ reportsFrom (1 + lineBreaks a) segs := by
  induction h with
  | nil => exact ⟨(List.append_nil _).symm, (List.append_nil _).symm⟩
  | @cons s s' s'' a t f segs hround _ ih =>
    obtain ⟨htok, hrep⟩ := views_cons a t f segs
    rw [ih.1, ih.2, hround.tokens_eq, hround.reports_eq, htok, hrep, List.append_assoc,
      List.append_assoc]
    exact ⟨rfl, rfl⟩

/-- **What the rounds ask for is there.** -/
theorem exists_accesses (h : Trace overflow b s a segs s') :
    ∃ accesses, s'.accesses = s.accesses ++ accesses ∧
      Asked (a ++ (joined segs ++ b)) accesses (tokensFrom (1 + lineBreaks a) segs) := by
  induction h with
  | nil => exact ⟨[], (List.append_nil _).symm, .nil _⟩
  | @cons s s' s'' a t f segs hround _ ih =>
    obtain ⟨accesses, haccesses, hasked⟩ := hround.accesses_eq
    obtain ⟨accesses', haccesses', hasked'⟩ := ih
    refine ⟨accesses ++ accesses', ?_, ?_⟩
    · rw [haccesses', haccesses, List.append_assoc]
    · rw [(views_cons a t f segs).1, joined_cons, List.append_assoc]
      rw [List.append_assoc] at hasked'
      exact hasked.append hasked'

/-- **In a short source the rounds take its segments.** -/
theorem segmented (h : Trace overflow [] s a segs s') (hlen : (joined segs).length < 2 ^ 32) :
    Segmented (joined segs) segs := by
  induction h with
  | nil => exact .nil
  | @cons s s' s'' a t f segs hround _ ih =>
    rw [joined_cons] at hlen ⊢
    have hrest : (joined segs).length < 2 ^ 32 := by
      rw [List.length_append] at hlen
      omega
    have hstands := hround.stands (by rwa [List.append_nil])
    rw [List.append_nil] at hstands
    exact .cons hround.ne_nil hstands (ih hrest)

/-- Rounds can be parted at each of them. -/
theorem exists_of_eq_append {before after : List (Text × Finding)}
    (h : Trace overflow b s a (before ++ (t, f) :: after) s') :
    ∃ s₁ s₂, Trace overflow (t ++ (joined after ++ b)) s a before s₁ ∧
      s₁.Rounds overflow (a ++ joined before) t (joined after ++ b) f s₂ ∧
      Trace overflow b s₂ (a ++ joined before ++ t) after s' := by
  induction before generalizing s a with
  | nil =>
    cases h with
    | cons hround htrace =>
      rw [append_joined_nil]
      exact ⟨s, _, .nil hround.cursor, hround, htrace⟩
  | cons seg before ih =>
    obtain ⟨u, g⟩ := seg
    rw [List.cons_append] at h
    cases h with
    | cons hround htrace =>
      obtain ⟨s₁, s₂, hbefore, hmiddle, hafter⟩ := ih htrace
      have hjoined : joined (before ++ (t, f) :: after) ++ b =
          joined before ++ (t ++ (joined after ++ b)) := by
        simp only [joined, List.map_append, List.flatten_append, List.map_cons, List.flatten_cons,
          List.append_assoc]
      rw [hjoined] at hround
      rw [joined_cons, ← List.append_assoc a]
      exact ⟨s₁, s₂, .cons hround hbefore, hmiddle, hafter⟩

end Trace

/-! ## Up to the end -/

theorem scanTokens_of_isAtEnd (hs : s.cursor.isAtEnd = true) :
    s.scanTokens overflow = .ok () { s with tokens := s.tokens ++ [.eof s.cursor.line] } := by
  rw [scanTokens, dif_pos hs]

theorem scanTokens_of_ok (hs : s.cursor.isAtEnd = false)
    (h : (round overflow).run s = .ok () s') : s.scanTokens overflow = s'.scanTokens overflow := by
  rw [scanTokens, dif_neg (by rw [hs]; decide)]
  split <;> rename_i h' <;> cases h.symm.trans h'
  rfl

theorem scanTokens_of_error {panic : Panic} (hs : s.cursor.isAtEnd = false)
    (h : (round overflow).run s = .error panic s') :
    s.scanTokens overflow = .error panic s' := by
  rw [scanTokens, dif_neg (by rw [hs]; decide)]
  split <;> rename_i h' <;> cases h.symm.trans h'
  rfl

theorem isAtEnd_of_ne_nil (hs : s.cursor = between a t) (ht : t ≠ []) :
    s.cursor.isAtEnd = false := by
  rw [hs, Cursor.isAtEnd_between, List.isEmpty_eq_false_iff]
  exact ht

/-- A scan goes on behind the rounds made. -/
theorem Trace.scanTokens_eq (h : Trace overflow b s a segs s') :
    s.scanTokens overflow = s'.scanTokens overflow := by
  induction h with
  | nil => rfl
  | cons hround _ ih =>
    have hne := List.append_ne_nil_of_left_ne_nil hround.ne_nil
    rw [scanTokens_of_ok (isAtEnd_of_ne_nil hround.cursor (hne _)) hround.run_eq, ih]

/-- At the end of the source the end marker is added. -/
theorem Trace.scanTokens_eq_ok (h : Trace overflow [] s a segs s') :
    s.scanTokens overflow = .ok () (s'.add [] [.eof (1 + lineBreaks (a ++ joined segs))]) := by
  have hend : s'.cursor.isAtEnd = true := by
    rw [h.cursor_eq, Cursor.isAtEnd_between]
    rfl
  have hline : s'.cursor.line = 1 + lineBreaks (a ++ joined segs) := by
    rw [h.cursor_eq]
    rfl
  rw [h.scanTokens_eq, scanTokens_of_isAtEnd hend, hline, add, List.append_nil]

/-- **Rounds are made up to the end of the source**, or up to one in which the count of open comments
goes out of range. -/
theorem exists_trace (overflow : Overflow) (t : Text) (hs : s.cursor = between a t) :
    ∃ b segs s', t = joined segs ++ b ∧ Trace overflow b s a segs s' ∧
      (b = [] ∨ s'.Overflows overflow b ((round overflow).run s')) := by
  -- by the length of what is ahead: a round takes some of it
  induction hn : t.length using Nat.strong_induction_on generalizing s a t with
  | _ n ih =>
    cases t with
    | nil => exact ⟨[], [], s, rfl, .nil hs, .inl rfl⟩
    | cons c r =>
      rcases exists_rounds overflow hs with ⟨t, u, f, s', hr, hround⟩ | hover
      · have hpos := List.length_pos_iff.2 hround.ne_nil
        have hlen := congrArg List.length hr
        rw [List.length_append] at hlen
        obtain ⟨b, segs, s'', rfl, htrace, hend⟩ := ih u.length (by omega) u hround.cursor_eq rfl
        refine ⟨b, (t, f) :: segs, s'', ?_, .cons hround htrace, hend⟩
        rw [hr, joined_cons, List.append_assoc]
      · exact ⟨c :: r, [], s, rfl, .nil hs, .inr hover⟩

/-- In a short source all rounds are made, whatever becomes of integers that go out of range. -/
theorem exists_trace_of_utf8Size_lt (overflow : Overflow) {source : Text}
    (hlen : utf8Size source < 2 ^ 32) :
    ∃ segs s, joined segs = source ∧ Trace overflow [] (ofSource source) [] segs s ∧
      Segmented source segs := by
  have hshort := Nat.lt_of_le_of_lt (Text.length_le_utf8Size source) hlen
  obtain ⟨b, segs, s, hsource, htrace, hend⟩ :=
    exists_trace (s := ofSource source) (a := []) overflow source rfl
  rcases hend with rfl | hover
  · rw [List.append_nil] at hsource
    subst hsource
    exact ⟨segs, s, rfl, htrace, htrace.segmented hshort⟩
  · have hlong := hover.le_length
    rw [hsource, List.length_append] at hshort
    omega

/-! ## Scans -/

/-- **A short source is scanned to what is read off its segmentation.** -/
theorem scan_eq_of_segmented (overflow : Overflow) {source : Text}
    (hlen : utf8Size source < 2 ^ 32) (hsegs : Segmented source segs) :
    Scanner.scan overflow source =
      pure ⟨tokensFrom 1 segs ++ [.eof (1 + lineBreaks source)], reportsFrom 1 segs⟩ := by
  obtain ⟨segs', s, rfl, htrace, hsegs'⟩ := exists_trace_of_utf8Size_lt overflow hlen
  obtain rfl := segmented_unique hsegs hsegs'
  obtain ⟨htok, hrep⟩ := htrace.views_eq
  rw [Scanner.scan, htrace.scanTokens_eq_ok, add, htok, hrep]
  rfl

/-- **The scanner computes the scan** of every source shorter than 2^32 bytes. -/
theorem scan_eq_pure (overflow : Overflow) {source : Text} (hlen : utf8Size source < 2 ^ 32) :
    Scanner.scan overflow source = pure (Lox.scan source) := by
  obtain ⟨segs, hsegs⟩ := exists_segmented source
  rw [scan_eq_of_segmented overflow hlen hsegs, scan_of_segmented hsegs]

/-! ## Lines -/

/-- **The lines of a round** from `s` to `s'`, which takes `t` behind `a` and finds it to be `f`. -/
structure RoundLines (source a t : Text) (f : Finding) (s s' : Scanner) : Prop where
  /-- It starts on the line on which `a` ends, -/
  start_line : s'.start.line = 1 + lineBreaks a
  /-- and stops on the one on which `t` ends, which is the text between its cursors. -/
  stop_line : s'.cursor.line = 1 + lineBreaks (a ++ t)
  text : s'.cursor.sliceFrom s'.start = pure t
  /-- A token is on the line where the round starts. -/
  token : ∀ data, f = .token data →
    s'.tokens = s.tokens ++ [⟨data, t, 1 + lineBreaks a⟩] ∧ s'.reports = s.reports
  trivia : f = .trivia → s'.tokens = s.tokens ∧ s'.reports = s.reports
  /-- A character that starts nothing is reported on its own line, -/
  unexpected : ∀ c, f = .fault (.unexpectedCharacter c) → t = [c] ∧ s'.tokens = s.tokens ∧
    s'.reports = s.reports ++ [⟨1 + lineBreaks a, [], "Unexpected character.".toList⟩]
  /-- and what is never closed on the last line. -/
  unclosed : ∀ error, error = .unterminatedString ∨ error = .unterminatedBlockComment →
    f = .fault error → s'.tokens = s.tokens ∧
      s'.reports = s.reports ++ [⟨1 + lineBreaks source, [], error.message⟩]

theorem Rounds.lines (h : s.Rounds overflow a t b f s') (hlen : (t ++ b).length < 2 ^ 32) :
    RoundLines (a ++ (t ++ b)) a t f s s' where
  start_line := by
    rw [h.start_eq, h.cursor]
    rfl
  stop_line := by
    rw [h.cursor_eq]
    rfl
  text := by
    rw [h.start_eq, h.cursor, h.cursor_eq]
    exact Cursor.sliceFrom_between
  token data hf := by
    subst hf
    exact ⟨h.tokens_eq, h.reports_eq.trans (List.append_nil _)⟩
  trivia hf := by
    subst hf
    exact ⟨h.tokens_eq.trans (List.append_nil _), h.reports_eq.trans (List.append_nil _)⟩
  unexpected c hf := by
    subst hf
    obtain ⟨ht, hbreaks⟩ := (h.stands hlen).eq_singleton
    refine ⟨ht, h.tokens_eq.trans (List.append_nil _), ?_⟩
    rw [h.reports_eq, faultsOf, Text.lineBreaks_append, hbreaks]
    rfl
  unclosed error herror hf := by
    subst hf
    have hall := (h.stands hlen).eq_self herror
    refine ⟨h.tokens_eq.trans (List.append_nil _), ?_⟩
    rw [h.reports_eq, faultsOf, ← hall]

/-- **The lines of a scan are those of its rounds.** In a source shorter than 2^32 bytes the rounds
cover it from left to right, each of them takes something, has the lines that the text before it
gives, and adds its token or its report to those of the rounds before; behind the last one the end
marker is added, on the last line. -/
theorem exists_trace_lines (overflow : Overflow) {source : Text} (hlen : utf8Size source < 2 ^ 32) :
    ∃ segs s, Trace overflow [] (ofSource source) [] segs s ∧ joined segs = source ∧
      (∀ seg ∈ segs, seg.1 ≠ []) ∧
      (ofSource source).scanTokens overflow = .ok () (s.add [] [.eof (1 + lineBreaks source)]) ∧
      ∀ before t f after, segs = before ++ (t, f) :: after →
        ∃ s₁ s₂, Trace overflow (t ++ joined after) (ofSource source) [] before s₁ ∧
          (round overflow).run s₁ = .ok () s₂ ∧
          Trace overflow [] s₂ (joined before ++ t) after s ∧
          RoundLines source (joined before) t f s₁ s₂ := by
  obtain ⟨segs, s, rfl, htrace, -⟩ := exists_trace_of_utf8Size_lt overflow hlen
  refine ⟨segs, s, htrace, rfl, htrace.ne_nil, htrace.scanTokens_eq_ok,
    fun before t f after hsegs => ?_⟩
  have hsource : joined segs = joined before ++ (t ++ joined after) := by
    simp only [hsegs, joined, List.map_append, List.flatten_append, List.map_cons,
      List.flatten_cons]
  rw [hsource] at hlen htrace ⊢
  rw [hsegs] at htrace
  obtain ⟨s₁, s₂, hbefore, hround, hafter⟩ := htrace.exists_of_eq_append
  rw [List.nil_append, List.append_nil] at hround
  rw [List.append_nil] at hbefore
  have hshort : (t ++ joined after).length < 2 ^ 32 := by
    have hle := Text.length_le_utf8Size (joined before ++ (t ++ joined after))
    rw [List.length_append] at hle
    omega
  exact ⟨s₁, s₂, hbefore, hround.run_eq, hafter, hround.lines hshort⟩

/-! ## Panics -/

/-- What has been asked for in some rounds is there. -/
theorem Trace.asked (h : Trace overflow b (ofSource (joined segs ++ b)) [] segs s) :
    Asked (joined segs ++ b) s.accesses s.tokens := by
  obtain ⟨accesses, haccesses, hasked⟩ := h.exists_accesses
  rw [haccesses, h.views_eq.1]
  exact hasked

end Scanner

/-- **Scanning panics at most where the count of open comments goes out of range**, and nowhere in a
source shorter than 2^32 bytes. Whatever the source, the scanner comes to its end or to that panic,
and everything it has asked for on the way is there: the slices between its cursors, the texts
between two quotes and the numbers, of which it has made its tokens. In a source shorter than 2^32
bytes its tokens and its reports are those of the scan. -/
theorem exists_scanTokens_eq (overflow : Overflow) (source : Text) :
    ∃ s, ((Scanner.ofSource source).scanTokens overflow = .ok () s ∨
        overflow = .panics ∧ 2 ^ 32 ≤ utf8Size source ∧
          (Scanner.ofSource source).scanTokens overflow = .error .overflow s) ∧
      Asked source s.accesses s.tokens ∧
      (utf8Size source < 2 ^ 32 → Scan.mk s.tokens s.reports = scan source) := by
  obtain ⟨b, segs, s, rfl, htrace, hend⟩ :=
    Scanner.exists_trace (s := .ofSource source) (a := []) overflow source rfl
  have hasked := htrace.asked
  rcases hend with rfl | hover
  · rw [List.append_nil] at htrace hasked ⊢
    -- the end marker holds nothing that is asked for
    have hmarker (line : Nat) : Asked (joined segs) [] [.eof line] :=
      ⟨nofun, List.forall_mem_singleton.2 (Token.isMadeFrom_eof [] line)⟩
    refine ⟨_, .inl htrace.scanTokens_eq_ok, hasked.append (hmarker _), fun hlen => ?_⟩
    have hsegs := htrace.segmented (Nat.lt_of_le_of_lt (Text.length_le_utf8Size _) hlen)
    obtain ⟨htok, hrep⟩ := htrace.views_eq
    rw [scan_of_segmented hsegs, Scanner.add, htok, hrep]
    rfl
  · obtain ⟨hpanics, hlong, s', hrun, haccesses, htokens⟩ := hover
    have hsize : 2 ^ 32 ≤ utf8Size (joined segs ++ b) := by
      have hle := Text.length_le_utf8Size (joined segs ++ b)
      rw [List.length_append] at hle
      omega
    have hne : b ≠ [] := List.ne_nil_of_length_pos (by omega)
    refine ⟨s', .inr ⟨hpanics, hsize, ?_⟩, ?_, fun hlen => absurd hlen (Nat.not_lt.2 hsize)⟩
    · rw [htrace.scanTokens_eq]
      exact Scanner.scanTokens_of_error (Scanner.isAtEnd_of_ne_nil htrace.cursor_eq hne) hrun
    · rw [haccesses, htokens]
      exact hasked

/-! ## A source that only opens comments -/

namespace Scanner

/-- Some openers of comments. -/
def openers (n : Nat) : Text := (List.replicate n ['/', '*']).flatten

theorem openers_succ (n : Nat) : openers (n + 1) = '/' :: '*' :: openers n := rfl

theorem utf8Size_openers (n : Nat) : utf8Size (openers n) = 2 * n := by
  have hslash : '/'.utf8Size = 1 := rfl
  have hstar : '*'.utf8Size = 1 := rfl
  induction n with
  | zero => rfl
  | succ n ih =>
    rw [openers_succ, Text.utf8Size_cons, Text.utf8Size_cons, ih, hslash, hstar]
    omega

/-- **Each opener is counted**, and once there are 2^31 of them the count is out of range. -/
theorem closeComment_openers {depth : Int32} (hdepth : 0 < depth) {n : Nat}
    (hn : 2 ^ 31 ≤ depth.toInt + n) (a b : Text) :
    closeComment .panics depth (between a (openers n ++ b)) = throw .overflow := by
  induction n generalizing depth a with
  | zero =>
    have hlt := depth.toInt_lt
    omega
  | succ n ih =>
    have hround := commentRound_opener .panics depth a (openers n ++ b)
    rw [openers_succ, List.cons_append, List.cons_append]
    by_cases hexact : (depth + 1).toInt = depth.toInt + (1 : Int32).toInt
    · rw [Overflow.add, Overflow.settle_of_eq hexact] at hround
      rw [closeComment_of_round .panics hdepth hround]
      rw [Int32.toInt_one] at hexact
      have hpos : 0 < depth.toInt := Int32.lt_iff_toInt_lt.1 hdepth
      have hdepth' : 0 < depth + 1 := by
        rw [Int32.lt_iff_toInt_lt, hexact, Int32.toInt_zero]
        omega
      exact ih hdepth' (by omega) _
    · rw [Overflow.add, Overflow.panics_settle_of_ne hexact] at hround
      exact closeComment_of_error .panics hdepth hround

/-- **A source that starts with 2^31 openers is a panic**, if integers do not wrap around. -/
theorem exists_scanTokens_openers {n : Nat} (hn : 2 ^ 31 ≤ n) (b : Text) :
    ∃ s, (ofSource (openers n ++ b)).scanTokens .panics = .error .overflow s := by
  obtain ⟨n, rfl⟩ := Nat.exists_eq_add_of_le' (Nat.le_trans Nat.one_le_two_pow hn)
  rw [openers_succ, List.cons_append, List.cons_append]
  generalize hs : ofSource ('/' :: '*' :: (openers n ++ b)) = s
  have hcursor : s.cursor = between [] ('/' :: '*' :: (openers n ++ b)) := by
    rw [← hs]
    rfl
  have hne : ∀ d ∈ ('*' :: (openers n ++ b)).head?, d ≠ '/' := by
    intro d hd
    rw [← Option.mem_some_iff.1 hd]
    decide
  have hcount : 2 ^ 31 ≤ (1 : Int32).toInt + n := by
    rw [Int32.toInt_one]
    omega
  have hclose := closeComment_openers (by decide) hcount ['/', '*'] b
  have hslash : (classify .panics '/').run (s.placed [] ['/'] ('*' :: (openers n ++ b))) =
      .error .overflow (s.placed [] ['/', '*'] (openers n ++ b)) := by
    show (slash .panics).run _ = _
    rw [slash, run_bind_of_ok (run_advanceIf_of_ne hne), if_neg Bool.false_ne_true,
      run_bind_of_ok (run_advanceIf_self '*'), if_pos rfl]
    exact run_move_of_error (s := s.placed [] ['/', '*'] (openers n ++ b)) hclose
  have hround := (run_round .panics hcursor).trans (run_bind_of_error hslash)
  exact ⟨_, scanTokens_of_error (isAtEnd_of_ne_nil hcursor (List.cons_ne_nil _ _)) hround⟩

/-- **Scanning can panic**: at 2^31 openers, 2^32 bytes, the count of open comments is out of
range. -/
theorem exists_scanTokens_limit :
    utf8Size (openers (2 ^ 31)) = 2 ^ 32 ∧
      ∃ s, (ofSource (openers (2 ^ 31))).scanTokens .panics = .error .overflow s := by
  have hsize := utf8Size_openers (2 ^ 31)
  obtain ⟨s, hs⟩ := exists_scanTokens_openers (Nat.le_refl (2 ^ 31)) []
  rw [List.append_nil] at hs
  exact ⟨hsize, s, hs⟩

end Scanner

end Lox
