import Lox.Emit
import Lox.Proofs.Lexical.Spacing
/-!
# Blanks at the end of a source

A blank at the end of a source, unless it is a line feed, is never seen: it
goes on with the line comment, the quotation or the block comment that is
still open there, which gives the same report or nothing as before, or else
it stands alone and gives nothing.
-/


namespace Lox

/-- A block comment is closed by a slash. -/
theorem Comment.Tail.getLast?_eq {t : Text} (h : Comment.Tail t) : t.getLast? = some '/' := by
  induction h with
  | close => rfl
  | @nest t u _ _ _ ih =>
    rw [← List.cons_append, ← List.cons_append, List.getLast?_append, ih, Option.some_or]
  | @skip c t _ _ _ ih => rw [← List.singleton_append, List.getLast?_append, ih, Option.some_or]

namespace Lexical

variable {c : Char}

/-- What is never closed is not closed by a blank. -/
theorem stands_append_blank_of_isOpen {t : Text} {f : Finding} (h : Stands t t f)
    (hopen : IsOpen f) (hc : isBlank c = true) : Stands (t ++ [c]) (t ++ [c]) f := by
  have hquote : '"' ≠ c := by
    rintro rfl
    exact absurd hc (by decide)
  have hslash : c ≠ '/' := by
    rintro rfl
    exact absurd hc (by decide)
  rcases hopen with rfl | rfl
  · cases h with
    | longest _ hp => cases hp
    | unterminatedString hnot =>
      refine .unterminatedString fun hmem => ?_
      rcases List.mem_append.1 hmem with hmem | hmem
      · exact hnot hmem
      · exact hquote (List.mem_singleton.1 hmem)
  · cases h with
    | longest _ hp => cases hp
    | unterminatedBlockComment hnot =>
      refine .unterminatedBlockComment fun u hu hprefix => ?_
      rcases List.prefix_concat_iff.1 hprefix with rfl | hprefix
      · have hlast := hu.getLast?_eq
        rw [List.getLast?_concat] at hlast
        exact hslash (Option.some.inj hlast)
      · exact hnot u hu hprefix

theorem Stands.trivia {r t : Text} (h : Stands r t .trivia) : Piece t .trivia := by
  cases h with
  | longest _ hp => exact hp

/-- A character that is no line feed goes on with a line comment. -/
theorem Piece.lineComment_concat {p : Text} (h : Piece p .trivia) (hp : ['/', '/'] <+: p)
    (hfeed : c ≠ '\n') : Piece (p ++ [c]) .trivia := by
  cases h with
  | blank => exact absurd hp.length_le (Nat.not_succ_le_self 1)
  | lineComment hv =>
    refine .lineComment fun hmem => ?_
    rcases List.mem_append.1 hmem with hmem | hmem
    · exact hv hmem
    · exact hfeed (List.mem_singleton.1 hmem).symm
  | blockComment =>
    obtain ⟨-, hstar⟩ := List.cons_prefix_cons.1 hp
    obtain ⟨hstar, -⟩ := List.cons_prefix_cons.1 hstar
    exact absurd hstar (by decide)

/-- Behind what has ended a blank makes no difference, unless it goes on with a line comment. -/
theorem Ends.append_blank {p rest : Text} {f : Finding} (h : Ends p f rest)
    (hc : isBlank c = true) (hcomment : rest = [] → f = .trivia → ¬ ['/', '/'] <+: p) :
    Ends p f (rest ++ [c]) := by
  cases rest with
  | nil =>
    cases f with
    | token d =>
      have hapart : Apart (.token d) [c] := fun e he => by
        cases Option.mem_some_iff.1 he
        exact extends?_of_isBlank hc d
      exact hapart.ends p
    | trivia => exact fun hp => absurd hp (hcomment rfl rfl)
    | fault => trivial
  | cons d rest =>
    cases f with
    | trivia => exact h
    | fault => trivial
    | token data =>
      cases data with
      | symbol | keyword | identifier => exact h
      | str | eof => trivial
      | number =>
        refine ⟨h.1, fun hp => fractionAhead_eq_nil_iff.2 fun hpoint => ?_⟩
        -- behind a point the next character counts, and that may be the blank
        have hdigit := fractionAhead_eq_nil_iff.1 (h.2 hp) hpoint
        cases rest with
        | nil =>
          intro e he
          cases Option.mem_some_iff.1 he
          cases hdig : c.isDigit with
          | false => rfl
          | true => exact absurd hc (by rw [not_isBlank_of_isDigit hdig]; decide)
        | cons e rest => exact hdigit

/-- A text that is one segment. -/
theorem Segmented.singleton {t : Text} {f : Finding} (hne : t ≠ []) (h : Stands t t f) :
    Segmented t [(t, f)] := by
  have hstands : Stands (t ++ []) t f := by rwa [List.append_nil]
  have hcons := Segmented.cons hne hstands .nil
  rwa [List.append_nil] at hcons

theorem lineBreaks_concat (hfeed : c ≠ '\n') (t : Text) :
    Text.lineBreaks (t ++ [c]) = Text.lineBreaks t := by
  have hzero : Text.lineBreaks [c] = 0 := List.count_singleton.trans (if_neg (by simpa))
  rw [Text.lineBreaks_append, hzero, Nat.add_zero]

/-- A segment that gives no token gives the same with a character more that breaks no line. -/
theorem views_concat (hfeed : c ≠ '\n') (t : Text) {f : Finding} (hf : ∀ d, f ≠ .token d)
    (k : Nat) :
    tokensFrom k [(t ++ [c], f)] = tokensFrom k [(t, f)] ∧
      reportsFrom k [(t ++ [c], f)] = reportsFrom k [(t, f)] := by
  cases f with
  | token d => exact absurd rfl (hf d)
  | trivia => exact ⟨rfl, rfl⟩
  | fault e => exact ⟨rfl, by rw [reportsFrom, lineBreaks_concat hfeed]; rfl⟩

/-- **A blank at the end gives nothing and changes nothing**, unless it is a line feed. -/
theorem Segmented.append_blank {v : Text} {segs : List (Text × Finding)} (h : Segmented v segs)
    (hc : isBlank c = true) (hfeed : c ≠ '\n') :
    ∃ segs', Segmented (v ++ [c]) segs' ∧
      ∀ k, tokensFrom k segs' = tokensFrom k segs ∧ reportsFrom k segs' = reportsFrom k segs := by
  induction h with
  | nil => exact ⟨[([c], .trivia)], .blank (isBlank_iff_mem.1 hc) .nil, fun k => ⟨rfl, rfl⟩⟩
  | @cons t rest f segs hne hstands hrest ih =>
    have hne' : t ++ [c] ≠ [] := List.append_ne_nil_of_right_ne_nil t (List.cons_ne_nil c [])
    by_cases hopen : IsOpen f
    · -- what is never closed takes the blank in
      obtain rfl := hstands.eq_nil_of_isOpen hopen
      rw [segmented_unique hrest .nil]
      rw [List.append_nil] at hstands ⊢
      refine ⟨_, .singleton hne' (stands_append_blank_of_isOpen hstands hopen hc), ?_⟩
      exact views_concat hfeed t fun d hd => by rcases hopen with rfl | rfl <;> cases hd
    · by_cases hcomment : rest = [] ∧ f = .trivia ∧ ['/', '/'] <+: t
      · -- so does a line comment
        obtain ⟨rfl, rfl, hslashes⟩ := hcomment
        have hpiece : Piece (t ++ [c]) .trivia := hstands.trivia.lineComment_concat hslashes hfeed
        have hend : Ends (t ++ [c]) .trivia [] := fun _ d hd => absurd hd (Option.not_mem_none d)
        have hwhole := hpiece.stands hend
        rw [List.append_nil] at hwhole
        rw [segmented_unique hrest .nil, List.append_nil]
        exact ⟨_, .singleton hne' hwhole, views_concat hfeed t fun d hd => by cases hd⟩
      · obtain ⟨segs', hsegs', hviews⟩ := ih
        have hbehind : Stands (t ++ (rest ++ [c])) t f :=
          hstands.transfer hopen fun hends =>
            hends.append_blank hc fun hrest hf hp => hcomment ⟨hrest, hf, hp⟩
        rw [List.append_assoc]
        refine ⟨(t, f) :: segs', .cons hne hbehind hsegs', fun k => ?_⟩
        obtain ⟨htok, hrep⟩ := hviews (k + Text.lineBreaks t)
        cases f with
        | token d => exact ⟨congrArg (_ :: ·) htok, hrep⟩
        | trivia => exact ⟨htok, hrep⟩
        | fault e => exact ⟨htok, congrArg (_ :: ·) hrep⟩

/-- **A scan does not see blanks at the end of its source**, unless there is a line feed among
them. -/
theorem scan_append_blanks {e : Text} (h : ∀ c ∈ e, isBlank c = true ∧ c ≠ '\n') (v : Text) :
    scan (v ++ e) = scan v := by
  induction e generalizing v with
  | nil => rw [List.append_nil]
  | cons c e ih =>
    obtain ⟨⟨hc, hfeed⟩, he⟩ := List.forall_mem_cons.1 h
    obtain ⟨segs, hsegs⟩ := exists_segmented v
    obtain ⟨segs', hsegs', hviews⟩ := hsegs.append_blank hc hfeed
    rw [List.append_cons, ih he, scan_of_segmented hsegs', scan_of_segmented hsegs,
      lineBreaks_concat hfeed, (hviews 1).1, (hviews 1).2]

end Lexical

/-- What is written back of a source is read off its scan. -/
theorem Emit.render_congr {s t : Text} (h : scan s = scan t) (emit : Emit) :
    emit.render s = emit.render t := by
  have hparse : parseSource s = parseSource t := by rw [parseSource, parseSource, h]
  cases emit with
  | lisp | flat | polish => rw [render, render, hparse]
  | tokens => rw [render, render, dumpTokens, dumpTokens, h]

end Lox
