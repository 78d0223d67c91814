import Lox.Proofs.Grammar.Strings
import Lox.Proofs.Lexical.BlockComment
import Lox.Proofs.Lexical.TrailingBlanks
import Lox.Proofs.Text.LineEnds
/-!
# Line ends and segments

The carriage return of a line end is a blank by itself, the last character of
a line comment, or a part of a string or of a block comment. Without it the
blank is gone, the line comment is shorter, and the text of the string or of
the block comment is another one; each other segment stays as it is. So the
same tokens are found on the same lines, apart from the text in strings, and
the same faults.
-/


namespace Lox

open Text (unifyLineEnds)

/-! ## Comments -/

namespace Comment

/-- Two characters that are part of no line end stand behind each other exactly if they did. -/
theorem pair_prefix_unifyLineEnds_iff {c d e : Char} (hfeed : e ≠ '\n') (hreturn : e ≠ '\r')
    (t : Text) : [d, e] <+: c :: unifyLineEnds t ↔ [d, e] <+: c :: t := by
  rw [List.cons_prefix_cons, List.cons_prefix_cons, List.singleton_prefix_iff_head?_eq_some,
    List.singleton_prefix_iff_head?_eq_some, Text.head?_unifyLineEnds_eq_some_iff hfeed hreturn]

/-- **A block comment is read to the same end**, whatever the line ends in it and behind it. -/
theorem read?_unifyLineEnds (t : Text) :
    read? (unifyLineEnds t) = (read? t).map unifyLineEnds := by
  -- by the length of the text, since what is left behind a comment inside is read next
  induction hn : t.length using Nat.strongRecOn generalizing t with
  | ind n ih =>
    subst hn
    by_cases ho : ['/', '*'] <+: t
    · obtain ⟨t, rfl⟩ := ho
      have hlen : t.length < (['/', '*'] ++ t).length := by
        simp only [List.cons_append, List.nil_append, List.length_cons]
        omega
      have hunify : unifyLineEnds (['/', '*'] ++ t) = '/' :: '*' :: unifyLineEnds t := by
        simp
      rw [hunify, read?_opener, ih _ hlen t rfl, List.cons_append, List.cons_append,
        List.nil_append, read?_opener]
      cases hread : read? t with
      | none => rfl
      | some rest => exact ih _ (Nat.lt_trans (length_lt_of_read? hread) hlen) rest rfl
    by_cases hc : ['*', '/'] <+: t
    · obtain ⟨t, rfl⟩ := hc
      simp
    cases t with
    | nil => simp
    | cons c t =>
      rw [read?_other ho hc, ← ih _ (Nat.lt_succ_self _) t rfl, unifyLineEnds]
      split
      · rfl
      · refine read?_other (fun hp => ho ?_) fun hp => hc ?_
        · exact (pair_prefix_unifyLineEnds_iff (by decide) (by decide) t).1 hp
        · exact (pair_prefix_unifyLineEnds_iff (by decide) (by decide) t).1 hp

theorem Tail.unified {t : Text} (h : Tail t) : Tail (unifyLineEnds t) := by
  have hread := h.read? []
  rw [List.append_nil] at hread
  have hread' : Comment.read? (unifyLineEnds t) = some [] := by
    rw [read?_unifyLineEnds, hread]
    rfl
  obtain ⟨u, hu, htail⟩ := exists_tail_of_read? hread'
  rwa [htail, List.append_nil]

end Comment

/-- What is found, with `f` applied to a string. -/
def Finding.mapString (f : Text → Text) : Finding → Finding
  | token d => token (d.mapString f)
  | g => g

namespace Lexical

/-! ## Pieces -/

/-- A lexeme that is no string stays. -/
theorem Piece.unifyLineEnds_eq_self {p : Text} {d : TokenData} (h : Piece p (.token d))
    (hd : ∀ v, d ≠ .str v) : unifyLineEnds p = p :=
  Text.unifyLineEnds_eq_self (h.lineFeed_not_mem hd)

/-- A string has its line ends in its value and in its lexeme alike. -/
theorem unifyLineEnds_quoted (v : Text) :
    unifyLineEnds ('"' :: (v ++ ['"'])) = '"' :: (unifyLineEnds v ++ ['"']) := by
  have hquote : ['"'].head? ≠ some '\n' := by decide
  rw [Text.unifyLineEnds_cons (by decide), Text.unifyLineEnds_append fun _ => hquote,
    Text.unifyLineEnds_singleton]

theorem quote_not_mem_unifyLineEnds {t : Text} (h : '"' ∉ t) : '"' ∉ unifyLineEnds t :=
  fun hmem => h ((Text.unifyLineEnds_sublist t).subset hmem)

/-- **A piece stays a piece**, and is read as before but for the line ends in a string. -/
theorem Piece.unified {p : Text} {f : Finding} (h : Piece p f) :
    Piece (unifyLineEnds p) (f.mapString unifyLineEnds) := by
  cases f with
  | token d =>
    rcases d.exists_eq_str_or with ⟨v, rfl⟩ | hd
    · cases h with
      | quoted hv =>
        rw [unifyLineEnds_quoted]
        exact .quoted (quote_not_mem_unifyLineEnds hv)
    · rw [h.unifyLineEnds_eq_self hd, Finding.mapString, TokenData.mapString_eq_self hd]
      exact h
  | trivia =>
    cases h with
    | blank hc =>
      rw [Text.unifyLineEnds_singleton]
      exact .blank hc
    | @lineComment v hv =>
      have hmem : '\n' ∉ '/' :: '/' :: v := by simpa using hv
      rw [Text.unifyLineEnds_eq_self hmem]
      exact .lineComment hv
    | blockComment ht =>
      rw [Text.unifyLineEnds_cons (by decide), Text.unifyLineEnds_cons (by decide)]
      exact .blockComment ht.unified
  | fault => cases h

/-- A carriage return is no part of what a lexeme could go on with. -/
theorem Ends.unified {p rest : Text} {d : TokenData} (h : Ends p (.token d) rest) :
    Ends p (.token d) (unifyLineEnds rest) := by
  cases d with
  | symbol s => exact Text.forall_mem_head?_unifyLineEnds (by cases s <;> rfl) h
  | keyword | identifier => exact Text.forall_mem_head?_unifyLineEnds rfl h
  | number =>
    refine ⟨Text.forall_mem_head?_unifyLineEnds rfl h.1, fun hp => ?_⟩
    have hfraction := fractionAhead_eq_nil_iff.1 (h.2 hp)
    refine fractionAhead_eq_nil_iff.2 fun hpoint => ?_
    rw [Text.head?_unifyLineEnds_eq_some_iff (by decide) (by decide)] at hpoint
    obtain ⟨t, rfl⟩ := List.head?_eq_some_iff.1 hpoint
    rw [Text.unifyLineEnds_cons (by decide)]
    exact Text.forall_mem_head?_unifyLineEnds rfl (hfraction rfl)
  | str | eof => trivial

/-! ## Segments -/

/-- What stands in front of a text still does, whatever the line ends in it and behind it. -/
theorem Stands.unified {t rest : Text} {f : Finding} (h : Stands (t ++ rest) t f)
    (hopen : ¬ IsOpen f) :
    Stands (unifyLineEnds t ++ unifyLineEnds rest) (unifyLineEnds t)
      (f.mapString unifyLineEnds) := by
  by_cases hf : ∃ c, f = .fault (.unexpectedCharacter c)
  · obtain ⟨c, rfl⟩ := hf
    obtain ⟨rfl, r, -, hstray⟩ := stands_unexpected_iff.1 h
    rw [Text.unifyLineEnds_singleton]
    exact stands_unexpected_iff.2 ⟨rfl, _, rfl, hstray⟩
  · obtain ⟨hp, hends⟩ := h.piece_and_ends hopen fun c hc => hf ⟨c, hc⟩
    refine hp.unified.stands ?_
    cases f with
    | token d =>
      rcases d.exists_eq_str_or with ⟨v, rfl⟩ | hd
      · trivial
      · rw [hp.unifyLineEnds_eq_self hd, Finding.mapString, TokenData.mapString_eq_self hd]
        exact hends.unified
    | trivia =>
      cases hp with
      | blank =>
        rw [Text.unifyLineEnds_singleton]
        rintro ⟨u, hu⟩
        cases hu
      | lineComment => exact fun _ => Text.forall_mem_head?_unifyLineEnds rfl (hends ⟨_, rfl⟩)
      | blockComment =>
        rw [Text.unifyLineEnds_cons (by decide), Text.unifyLineEnds_cons (by decide)]
        rintro ⟨u, hu⟩
        cases hu
    | fault => trivial

/-- What is never closed is not closed by another line end. -/
theorem Stands.unified_of_isOpen {t : Text} {f : Finding} (h : Stands t t f)
    (hopen : IsOpen f) : Stands (unifyLineEnds t) (unifyLineEnds t) f := by
  rcases hopen with rfl | rfl
  · cases h with
    | longest _ hp => cases hp
    | unterminatedString hnot =>
      rw [Text.unifyLineEnds_cons (by decide)]
      exact .unterminatedString (quote_not_mem_unifyLineEnds hnot)
  · cases h with
    | longest _ hp => cases hp
    | unterminatedBlockComment hnot =>
      rw [Text.unifyLineEnds_cons (by decide), Text.unifyLineEnds_cons (by decide)]
      refine .unterminatedBlockComment (Comment.read?_eq_none_iff.1 ?_)
      rw [Comment.read?_unifyLineEnds, Comment.read?_eq_none_iff.2 hnot]
      rfl

/-- **What can end with a carriage return**: the blank, and a line comment, which is one without it
too. -/
theorem Piece.trivia_of_concat_return {p : Text} {f : Finding} (h : Piece (p ++ ['\r']) f) :
    f = .trivia ∧ (p = [] ∨ Piece p .trivia) := by
  have hmem : '\r' ∈ p ++ ['\r'] := by simp
  have hlast : (p ++ ['\r']).getLast? = some '\r' := List.getLast?_concat
  generalize ht : p ++ ['\r'] = t at h hmem hlast
  cases f with
  | token d =>
    rcases d.exists_eq_str_or with ⟨v, rfl⟩ | hd
    · cases h with
      | quoted =>
        rw [← List.cons_append, List.getLast?_concat] at hlast
        exact absurd (Option.some.inj hlast) (by decide)
    · exact absurd (h.not_isBlank hd _ hmem) (by decide)
  | trivia =>
    refine ⟨rfl, ?_⟩
    cases h with
    | blank =>
      rcases List.append_eq_singleton_iff.1 ht with ⟨hnil, -⟩ | ⟨-, hnil⟩
      · exact .inl hnil
      · cases hnil
    | @lineComment v hv =>
      rcases List.eq_nil_or_concat v with rfl | ⟨w, c, rfl⟩
      · exact absurd (Option.some.inj hlast) (by decide)
      · rw [List.concat_eq_append] at ht hv
        rw [← List.cons_append, ← List.cons_append] at ht
        rw [List.append_inj_left' ht rfl]
        exact .inr (.lineComment fun hw => hv (List.mem_append_left _ hw))
    | @blockComment u hu =>
      have hend : (['/', '*'] ++ u).getLast? = some '/' := by
        rw [List.getLast?_append, hu.getLast?_eq, Option.some_or]
      exact absurd (Option.some.inj (hlast.symm.trans hend)) (by decide)
  | fault => cases h

theorem Stands.trivia_of_concat_return {u rest : Text} {f : Finding}
    (h : Stands (u ++ ['\r'] ++ rest) (u ++ ['\r']) f) (hopen : ¬ IsOpen f) :
    f = .trivia ∧ (u = [] ∨ Piece u .trivia) := by
  refine (h.piece_and_ends hopen ?_).1.trivia_of_concat_return
  rintro c rfl
  obtain ⟨hu, r, -, hstray⟩ := stands_unexpected_iff.1 h
  rcases List.append_eq_singleton_iff.1 hu with ⟨-, hc⟩ | ⟨-, hc⟩
  · cases hc
    exact hstray [] _ (.blank (by simp))
  · cases hc

/-! ## Segmentations -/

/-- Whether the segments `segs'` give the tokens of `segs`, apart from the line ends in strings, and
the same reports. -/
def SameViews (segs segs' : List (Text × Finding)) : Prop :=
  ∀ k, tokensFrom k segs' = (tokensFrom k segs).map (Token.mapString unifyLineEnds) ∧
    reportsFrom k segs' = reportsFrom k segs

theorem sameViews_nil : SameViews [] [] := fun _ => ⟨rfl, rfl⟩

section

variable {segs segs' : List (Text × Finding)}

/-- The token of a lexeme has its line ends in the lexeme and in the string alike. -/
theorem Piece.mapString_token {p : Text} {d : TokenData} (h : Piece p (.token d)) (k : Nat) :
    (Token.mk d p k).mapString unifyLineEnds =
      ⟨d.mapString unifyLineEnds, unifyLineEnds p, k⟩ := by
  rcases d.exists_eq_str_or with ⟨v, rfl⟩ | hd
  · rfl
  · rw [Token.mapString_eq_self hd, TokenData.mapString_eq_self hd, h.unifyLineEnds_eq_self hd]

theorem SameViews.behind (h : SameViews segs segs') {m n : Nat} (hmn : m = n) (k : Nat) :
    tokensFrom (k + m) segs' = (tokensFrom (k + n) segs).map (Token.mapString unifyLineEnds) ∧
      reportsFrom (k + m) segs' = reportsFrom (k + n) segs :=
  hmn ▸ h (k + m)

/-- Blanks or comments in front that break as many lines. -/
theorem SameViews.trivia (h : SameViews segs segs') {t u : Text}
    (hlines : Text.lineBreaks u = Text.lineBreaks t) :
    SameViews ((t, .trivia) :: segs) ((u, .trivia) :: segs') :=
  h.behind hlines

/-- A segment with its line ends unified in front. -/
theorem SameViews.cons (h : SameViews segs segs') {t : Text} {f : Finding}
    (hf : ∀ d, f = .token d → Piece t (.token d)) :
    SameViews ((t, f) :: segs) ((unifyLineEnds t, f.mapString unifyLineEnds) :: segs') := by
  intro k
  have hlines := Text.lineBreaks_unifyLineEnds t
  obtain ⟨htok, hrep⟩ := h.behind hlines k
  cases f with
  | token d => exact ⟨congrArg₂ List.cons ((hf d rfl).mapString_token k).symm htok, hrep⟩
  | trivia => exact ⟨htok, hrep⟩
  | fault e =>
    refine ⟨htok, congrArg₂ List.cons ?_ hrep⟩
    rw [hlines]

/-- **A line end half in a segment and half behind it.** The segment is gone, or shorter. -/
theorem Segmented.unified_return {u rest : Text} (hu : u = [] ∨ Piece u .trivia)
    (hfeed : rest.head? = some '\n') (hrest : Segmented (unifyLineEnds rest) segs')
    (hviews : SameViews segs segs') :
    ∃ segs'', Segmented (unifyLineEnds (u ++ ['\r'] ++ rest)) segs'' ∧
      SameViews ((u ++ ['\r'], .trivia) :: segs) segs'' := by
  have hreturn : ('\r' :: rest).head? ≠ some '\n' := by simp
  have htext : unifyLineEnds (u ++ ['\r'] ++ rest) = unifyLineEnds u ++ unifyLineEnds rest := by
    rw [List.append_assoc, List.singleton_append, Text.unifyLineEnds_append fun _ => hreturn,
      Text.unifyLineEnds_return hfeed]
  rw [htext]
  rcases hu with rfl | hu
  · exact ⟨segs', hrest, hviews⟩
  · have hlines : Text.lineBreaks (unifyLineEnds u) = Text.lineBreaks (u ++ ['\r']) := by
      rw [Text.lineBreaks_unifyLineEnds, lineBreaks_concat (by decide)]
    -- a line comment still ends at the line feed
    have hends : Ends (unifyLineEnds u) .trivia (unifyLineEnds rest) := fun _ =>
      Text.forall_mem_head?_unifyLineEnds rfl fun c hc => by
        rw [hfeed] at hc
        exact (Option.some.inj hc).symm
    exact ⟨_, .cons (Text.unifyLineEnds_ne_nil hu.ne_nil) (hu.unified.stands hends) hrest,
      hviews.trivia hlines⟩

end

/-- **A text and the one with its line ends unified are cut side by side.** -/
theorem Segmented.unified {t : Text} {segs : List (Text × Finding)} (h : Segmented t segs) :
    ∃ segs', Segmented (unifyLineEnds t) segs' ∧ SameViews segs segs' := by
  induction h with
  | nil => exact ⟨[], .nil, sameViews_nil⟩
  | @cons t rest f segs hne hstands hrest ih =>
    obtain ⟨segs', hsegs', hviews⟩ := ih
    have hne' : unifyLineEnds t ≠ [] := Text.unifyLineEnds_ne_nil hne
    have htoken : ∀ d, f = .token d → Piece t (.token d) := fun d hd => (hd ▸ hstands).piece
    by_cases hopen : IsOpen f
    · -- what is never closed is all that is left
      obtain rfl := hstands.eq_nil_of_isOpen hopen
      rw [segmented_unique hrest .nil]
      rw [List.append_nil] at hstands ⊢
      have hself : f.mapString unifyLineEnds = f := by rcases hopen with rfl | rfl <;> rfl
      have hviews' := sameViews_nil.cons htoken
      rw [hself] at hviews'
      exact ⟨_, .singleton hne' (hstands.unified_of_isOpen hopen), hviews'⟩
    by_cases hend : t.getLast? = some '\r' ∧ rest.head? = some '\n'
    · obtain ⟨⟨u, rfl⟩, hfeed⟩ := hend.imp_left List.getLast?_eq_some_iff.1
      obtain ⟨rfl, hu⟩ := hstands.trivia_of_concat_return hopen
      exact Segmented.unified_return hu hfeed hsegs' hviews
    · have htext : unifyLineEnds (t ++ rest) = unifyLineEnds t ++ unifyLineEnds rest :=
        Text.unifyLineEnds_append fun hlast hfeed => hend ⟨hlast, hfeed⟩
      rw [htext]
      exact ⟨_, .cons hne' (hstands.unified hopen) hsegs', hviews.cons htoken⟩

end Lexical

end Lox
