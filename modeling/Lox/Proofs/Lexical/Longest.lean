import Lox.Proofs.Lexical.Front
/-!
# The longest piece in front

The front of a text is taken as the lexical grammar says (`takesStanding`):
the longest lexeme or trivia if there is one, all of a text that opens and
does not close, and one character else. Nothing else stands there
(`stands_unique`).
-/


namespace Lox

namespace Lexical

theorem length_le_front_word {c : Char} {t : Text} (hc : isWordStart c = true)
    (ht : ∀ d ∈ t, isWordPart d = true) (rest : Text) :
    (c :: t).length ≤ (front (c :: t ++ rest)).length := by
  rw [List.cons_append, front, munch_of_isWordStart hc, Munch.word]
  exact length_le_takeWhile (isWordPart_of_mem hc ht) rest

/-- **Nothing longer is passed over**: what is taken has at least the length of any piece in
front. -/
theorem length_le_front {u r : Text} {g : Finding} (h : Piece u g) (hr : u <+: r) :
    u.length ≤ (front r).length := by
  obtain ⟨rest, rfl⟩ := hr
  cases h with
  | symbol s =>
    obtain ⟨c, t, hct⟩ : ∃ c t, s.spelling ++ rest = c :: t := by
      cases s <;> exact ⟨_, _, rfl⟩
    -- a slash may turn out to start a comment, which is longer still
    by_cases hs : s = .slash
    · subst hs
      rw [hct]
      exact Munch.length_pos c t
    · obtain ⟨s', hs', hlen⟩ := exists_ahead?_of_prefix (List.prefix_append s.spelling rest)
      rw [hct] at hs' ⊢
      rw [front, munch_of_symbol hs hct, Munch.symbol, hs']
      exact hlen
  | integer hw =>
    rw [front_isDigits hw, Munch.number]
    exact Nat.le_trans (length_le_takeWhile hw.digit rest)
      (length_whole_le_text (Numeral.ahead (u ++ rest)))
  | @decimal w f hw hf =>
    have hlen := length_le_takeWhile hf.digit rest
    have hne : (f ++ rest).takeWhile Char.isDigit ≠ [] := by
      intro h
      rw [h, List.length_nil, Nat.le_zero, List.length_eq_zero_iff] at hlen
      exact hf.ne_nil hlen
    rw [List.append_assoc, List.cons_append, front_isDigits hw, Munch.number, ahead_decimal hw,
      text_of_fraction_ne_nil hne]
    simp only [List.length_append, List.length_cons]
    omega
  | keyword k =>
    obtain ⟨c, t, hk, hc, ht⟩ := exists_spelling_eq_cons k
    rw [hk]
    exact length_le_front_word hc ht rest
  | identifier hc ht _ => exact length_le_front_word hc ht rest
  | quoted hv =>
    rw [List.cons_append, front, munch_quote, List.append_assoc, List.singleton_append,
      quoted_append hv]
    simp
  | blank hc => exact Munch.length_pos _ _
  | @lineComment v hv =>
    have hlen : v.length ≤ ((v ++ rest).takeWhile (· != '\n')).length := by
      refine length_le_takeWhile (fun c hc => ?_) rest
      simpa using ne_of_mem_of_not_mem hc hv
    rw [List.cons_append, front, munch_slash, List.cons_append, Munch.slash, Comment.lineLength]
    simp only [List.length_cons]
    omega
  | blockComment ht =>
    rw [List.cons_append, front, munch_slash, List.cons_append, slash_blockComment ht]
    exact Nat.le_refl _

/-- **A text is a piece in one way only.** -/
theorem Piece.finding_unique {t : Text} {f g : Finding} (hf : Piece t f) (hg : Piece t g) :
    f = g := by
  have h := front_append hf apart_nil
  rw [front_append hg apart_nil] at h
  exact (congrArg Munch.finding h).symm

/-! ## What is taken -/

/-- A piece is taken: it stands in front, and the front is read as it is. -/
def TakesPiece (r : Text) : Prop :=
  ∃ p rest f, r = p ++ rest ∧ Piece p f ∧ front r = ⟨f, p.length⟩

/-- Only a quote or a slash opens anything. -/
theorem terminated_of_ne {c : Char} {t : Text} (hq : c ≠ '"') (hs : c ≠ '/') :
    Terminated (c :: t) := by
  refine ⟨fun t' h => ?_, fun t' h => ?_⟩
  · exact absurd (List.cons.inj h).1 hq
  · exact absurd (List.cons.inj h).1 hs

theorem takesPiece_of_isBlank {c : Char} (h : isBlank c = true) (t : Text) :
    TakesPiece (c :: t) :=
  ⟨[c], t, .trivia, rfl, .blank (isBlank_iff_mem.1 h), munch_of_isBlank h t⟩

/-- The digits in front are a number, together with the point and the digits behind it if there are
any. -/
theorem takesPiece_of_isDigit {c : Char} (h : c.isDigit = true) (t : Text) :
    TakesPiece (c :: t) := by
  obtain ⟨w, rest, rfl, hdigit, hstop⟩ := exists_run Char.isDigit t
  have hw : IsDigits (c :: w) := ⟨by simp, fun d hd => by
    rcases List.mem_cons.1 hd with rfl | hd
    · exact h
    · exact hdigit d hd⟩
  -- a point counts only with a digit behind it
  by_cases hf : Numeral.fractionAhead rest = []
  · refine ⟨c :: w, rest, _, rfl, .integer hw, ?_⟩
    rw [← List.cons_append, front_isDigits hw, number_of_integer hw hstop hf]
  · obtain ⟨u, rfl⟩ : ∃ u, rest = '.' :: u := by
      cases rest with
      | nil => exact absurd rfl hf
      | cons d u =>
        by_cases hd : d = '.'
        · exact ⟨u, hd ▸ rfl⟩
        · refine absurd (fractionAhead_of_ne_point fun x hx => ?_) hf
          rw [List.head?_cons, Option.mem_some_iff] at hx
          exact hx ▸ hd
    obtain ⟨f, rest', rfl, hdigit', hstop'⟩ := exists_run Char.isDigit u
    have hfrac : IsDigits f := by
      refine ⟨fun hnil => hf ?_, hdigit'⟩
      rw [Numeral.fractionAhead, takeWhile_append_of_stop hdigit' hstop', hnil]
    refine ⟨c :: w ++ '.' :: f, rest', _, by simp, .decimal hw hfrac, ?_⟩
    rw [← List.cons_append, front_isDigits hw, number_of_decimal hw hfrac hstop']

/-- A word in front is taken up to where it ends. -/
theorem takesPiece_of_isWordStart {c : Char} (h : isWordStart c = true) (t : Text) :
    TakesPiece (c :: t) := by
  obtain ⟨w, rest, rfl, hw, hstop⟩ := exists_run isWordPart t
  refine ⟨c :: w, rest, _, rfl, .word h hw, ?_⟩
  rw [front, munch_of_isWordStart h]
  exact word_append h hw hstop

/-- A quotation is taken with its closing quote. -/
theorem takesPiece_of_mem_quote {t : Text} (h : '"' ∈ t) : TakesPiece ('"' :: t) := by
  obtain ⟨v, rest, rfl, hv⟩ := List.eq_append_cons_of_mem h
  refine ⟨'"' :: (v ++ ['"']), rest, _, by simp, .quoted hv, ?_⟩
  rw [front, munch_quote, quoted_append hv]
  simp

/-- Two slashes are taken with the rest of their line. -/
theorem takesPiece_of_slashes (t : Text) : TakesPiece ('/' :: '/' :: t) := by
  obtain ⟨v, rest, rfl, hv, hstop⟩ := exists_run (· != '\n') t
  have hmem : '\n' ∉ v := fun h => absurd (hv _ h) (by decide)
  refine ⟨'/' :: '/' :: v, rest, _, rfl, .lineComment hmem, ?_⟩
  rw [front, munch_slash]
  exact slash_lineComment hmem fun c hc => by simpa using hstop c hc

/-- A block comment that is closed is taken up to its closer. -/
theorem takesPiece_of_tail {t u : Text} (h : Comment.Tail u) (ht : u <+: t) :
    TakesPiece ('/' :: '*' :: t) := by
  obtain ⟨rest, rfl⟩ := ht
  refine ⟨'/' :: '*' :: u, rest, _, rfl, .blockComment h, ?_⟩
  rw [front, munch_slash]
  exact slash_blockComment h rest

/-- Where a symbol is looked for, one in front is taken. -/
theorem takesPiece_of_spelling {s : Symbol} {c : Char} {t : Text} (hm : munch c t = .symbol c t)
    (h : s.spelling <+: c :: t) : TakesPiece (c :: t) := by
  obtain ⟨s', hs', -⟩ := exists_ahead?_of_prefix h
  obtain ⟨rest, hrest⟩ := prefix_of_ahead? hs'
  refine ⟨s'.spelling, rest, _, hrest.symm, .symbol s', ?_⟩
  rw [front, hm, Munch.symbol, hs']

/-- A slash that starts no comment is taken as a symbol. -/
theorem takesPiece_of_slash {t : Text} (h : ∀ c ∈ t.head?, joins .slash c = false) :
    TakesPiece ('/' :: t) := by
  have hm : munch '/' t = .symbol '/' t := slash_symbol h
  exact takesPiece_of_spelling (s := .slash) hm ⟨t, rfl⟩

/-! ## What stands in front -/

/-- The reader takes what stands in front of `r`. -/
def TakesStanding (r : Text) : Prop := Stands r (r.take (front r).length) (front r).finding

/-- A piece that is taken is the longest. -/
theorem TakesPiece.takesStanding {r : Text} (h : TakesPiece r) (ht : Terminated r) :
    TakesStanding r := by
  obtain ⟨p, rest, f, rfl, hp, hfront⟩ := h
  rw [TakesStanding, hfront, List.take_left]
  refine .longest ht hp (List.prefix_append p rest) fun u g hu hur => ?_
  have hlen := length_le_front hu hur
  rwa [hfront] at hlen

theorem takesStanding_quote (t : Text) : TakesStanding ('"' :: t) := by
  by_cases hmem : '"' ∈ t
  · refine (takesPiece_of_mem_quote hmem).takesStanding ⟨fun t' h => ?_, fun t' h => ?_⟩
    · cases h
      exact hmem
    · cases h
  · have hkeep : ∀ d ∈ t, (d != '"') = true := by
      intro d hd
      simpa using ne_of_mem_of_not_mem hd hmem
    have hend : ∀ c ∈ ([] : Text).head?, (c != '"') = false := by simp
    have htake : t.takeWhile (· != '"') = t := by
      have h := takeWhile_append_of_stop hkeep hend
      rwa [List.append_nil] at h
    have hfront : front ('"' :: t) = ⟨.fault .unterminatedString, 1 + t.length⟩ := by
      rw [front, munch_quote, Munch.quoted, htake]
      simp
    rw [TakesStanding, hfront, List.take_of_length_le (by simp [Nat.add_comm])]
    exact .unterminatedString hmem

theorem takesStanding_slash_star (t : Text) : TakesStanding ('/' :: '*' :: t) := by
  by_cases htail : ∃ u, Comment.Tail u ∧ u <+: t
  · obtain ⟨u, hu, hut⟩ := htail
    refine (takesPiece_of_tail hu hut).takesStanding ⟨fun t' h => ?_, fun t' h => ?_⟩
    · cases h
    · cases h
      exact ⟨u, hu, hut⟩
  · have hnone : ∀ u, Comment.Tail u → ¬ u <+: t := fun u hu hut => htail ⟨u, hu, hut⟩
    have hfront : front ('/' :: '*' :: t) =
        ⟨.fault .unterminatedBlockComment, 2 + t.length⟩ := by
      simp [front, munch_slash, Munch.slash, Comment.blockLength?,
        Comment.closingLength?_eq_none_iff.2 hnone]
    rw [TakesStanding, hfront, List.take_of_length_le (by simp; omega)]
    exact .unterminatedBlockComment hnone

/-- Behind a slash only a star can open something. -/
theorem takesStanding_slash {t : Text} (h : ∀ u, t ≠ '*' :: u) : TakesStanding ('/' :: t) := by
  have hterm : Terminated ('/' :: t) := by
    refine ⟨fun t' ht' => ?_, fun t' ht' => ?_⟩
    · cases ht'
    · exact absurd (List.cons.inj ht').2 (h t')
  refine TakesPiece.takesStanding ?_ hterm
  cases t with
  | nil => exact takesPiece_of_slash (by simp)
  | cons d t =>
    by_cases hd : d = '/'
    · exact hd ▸ takesPiece_of_slashes t
    · refine takesPiece_of_slash fun d' hd' => ?_
      rw [List.head?_cons, Option.mem_some_iff] at hd'
      subst hd'
      have hstar : d ≠ '*' := by
        rintro rfl
        exact h t rfl
      simp [joins, hd, hstar]

/-- A character of no class of its own is a symbol, or starts nothing. -/
theorem takesStanding_other {c : Char} {t : Text} (hb : isBlank c = false) (hq : c ≠ '"')
    (hs : c ≠ '/') (hd : c.isDigit = false) (hw : isWordStart c = false) :
    TakesStanding (c :: t) := by
  have hterm := terminated_of_ne (t := t) hq hs
  have hm : munch c t = .symbol c t := by simp [munch, hb, hq, hs, hd, hw]
  by_cases hsym : ∃ s : Symbol, s.spelling <+: c :: t
  · obtain ⟨s, hs⟩ := hsym
    exact (takesPiece_of_spelling hm hs).takesStanding hterm
  · have hnone : ∀ u g, Piece u g → ¬ u <+: c :: t := by
      intro u g hu hut
      rcases hu.exists_cons with ⟨s, rfl⟩ | ⟨d, v, rfl, hd'⟩
      · exact hsym ⟨s, hut⟩
      · obtain ⟨rfl, -⟩ := List.cons_prefix_cons.1 hut
        simp [hb, hq, hs, hd, hw] at hd'
    have hfront : front (c :: t) = ⟨.fault (.unexpectedCharacter c), 1⟩ := by
      rw [front, hm, Munch.symbol]
      cases hs : Symbol.ahead? (c :: t) with
      | none => rfl
      | some s => exact absurd ⟨s, prefix_of_ahead? hs⟩ hsym
    rw [TakesStanding, hfront]
    exact .unexpected hterm hnone

/-- **What is taken from the front is what stands there.** -/
theorem takesStanding (c : Char) (t : Text) : TakesStanding (c :: t) := by
  -- the quote and the slash come first: nothing else can open what is never closed
  by_cases hq : c = '"'
  · exact hq ▸ takesStanding_quote t
  by_cases hs : c = '/'
  · subst hs
    by_cases hstar : ∃ u, t = '*' :: u
    · obtain ⟨u, rfl⟩ := hstar
      exact takesStanding_slash_star u
    · exact takesStanding_slash fun u hu => hstar ⟨u, hu⟩
  have hterm := terminated_of_ne (t := t) hq hs
  cases hb : isBlank c with
  | true => exact (takesPiece_of_isBlank hb t).takesStanding hterm
  | false =>
    cases hd : c.isDigit with
    | true => exact (takesPiece_of_isDigit hd t).takesStanding hterm
    | false =>
      cases hw : isWordStart c with
      | true => exact (takesPiece_of_isWordStart hw t).takesStanding hterm
      | false => exact takesStanding_other hb hq hs hd hw

/-- **One segment stands in front of a text.** -/
theorem stands_unique {r t u : Text} {f g : Finding} (h : Stands r t f) (h' : Stands r u g) :
    t = u ∧ f = g := by
  cases h with
  | unterminatedString hmem =>
    cases h' with
    | unterminatedString => exact ⟨rfl, rfl⟩
    | longest hterm => exact absurd (hterm.quoted _ rfl) hmem
    | unexpected hterm => exact absurd (hterm.quoted _ rfl) hmem
  | unterminatedBlockComment hnone =>
    cases h' with
    | unterminatedBlockComment => exact ⟨rfl, rfl⟩
    | longest hterm =>
      obtain ⟨u, hu, hut⟩ := hterm.blockComment _ rfl
      exact absurd hut (hnone u hu)
    | unexpected hterm =>
      obtain ⟨u, hu, hut⟩ := hterm.blockComment _ rfl
      exact absurd hut (hnone u hu)
  | longest hterm hp hr hmax =>
    cases h' with
    | unterminatedString hmem => exact absurd (hterm.quoted _ rfl) hmem
    | unterminatedBlockComment hnone =>
      obtain ⟨u, hu, hut⟩ := hterm.blockComment _ rfl
      exact absurd hut (hnone u hu)
    | longest _ hp' hr' hmax' =>
      have hle := hmax u g hp' hr'
      have hge := hmax' t f hp hr
      have htu : t = u := (List.prefix_of_prefix_length_le hr hr' hge).eq_of_length (by omega)
      subst htu
      exact ⟨rfl, hp.finding_unique hp'⟩
    | unexpected _ hnone => exact absurd hr (hnone t f hp)
  | unexpected hterm hnone =>
    cases h' with
    | unterminatedString hmem => exact absurd (hterm.quoted _ rfl) hmem
    | unterminatedBlockComment hnone' =>
      obtain ⟨u, hu, hut⟩ := hterm.blockComment _ rfl
      exact absurd hut (hnone' u hu)
    | longest _ hp hr => exact absurd hr (hnone _ _ hp)
    | unexpected => exact ⟨rfl, rfl⟩

end Lexical

end Lox
