import Lox.Proofs.Lexical.Longest
/-!
# What a scan looks at behind a lexeme

Which piece stands in front of a text is settled by the piece itself and by
at most two characters behind it (`Stands.congr`). What is needed of these
characters is little: the end of the text and a line feed do as well as each
other there, and so do a space and a character that starts nothing. Two texts
that differ in no more than this are cut alike.
-/


namespace Lox

namespace Lexical

/-! ## Where the longest piece ends -/

theorem Piece.ne_nil {p : Text} {f : Finding} (h : Piece p f) : p ≠ [] := by
  rcases h.exists_cons with ⟨s, rfl⟩ | ⟨c, t, rfl, -⟩
  · intro hnil
    have hlen := length_spelling s
    rw [hnil] at hlen
    simp at hlen
  · exact List.cons_ne_nil c t

/-- A piece stands in front where it ends. -/
theorem Piece.stands {p rest : Text} {f : Finding} (h : Piece p f) (hrest : Ends p f rest) :
    Stands (p ++ rest) p f := by
  have hfront := front_of_ends h hrest
  obtain ⟨c, t, rfl⟩ := List.exists_cons_of_ne_nil h.ne_nil
  have htake := takesStanding c (t ++ rest)
  rw [TakesStanding, ← List.cons_append, hfront, List.take_left] at htake
  exact htake

/-- A blank stands alone. -/
theorem stands_blank {c : Char} (h : c ∈ [' ', '\t', '\r', '\n']) (rest : Text) :
    Stands ([c] ++ rest) [c] .trivia :=
  (Piece.blank h).stands fun ⟨t, ht⟩ => by cases ht

/-- Whether a piece longer than `p` stands in front of `r`. -/
def Longer (p r : Text) : Prop := ∃ u g, Piece u g ∧ u <+: r ∧ p.length < u.length

theorem Longer.next {p rest : Text} {c : Char} {g : Finding} (h : Piece (p ++ [c]) g)
    (hc : c ∈ rest.head?) : Longer p (p ++ rest) := by
  obtain ⟨rest, rfl⟩ := List.head?_eq_some_iff.1 hc
  refine ⟨p ++ [c], g, h, ⟨rest, by rw [List.append_assoc, List.singleton_append]⟩, ?_⟩
  rw [List.length_append]
  exact Nat.lt_succ_self _

/-- What joins a symbol makes a longer piece with it, if what it opens is closed. -/
theorem longer_of_joins {s : Symbol} {c : Char} {rest : Text} (h : joins s c = true)
    (hc : c ∈ rest.head?) (hterm : Terminated (s.spelling ++ rest)) :
    Longer s.spelling (s.spelling ++ rest) := by
  cases s with
  | slash =>
    simp only [joins, Bool.or_eq_true, beq_iff_eq] at h
    rcases h with rfl | rfl
    · exact .next (.lineComment List.not_mem_nil) hc
    · obtain ⟨rest, rfl⟩ := List.head?_eq_some_iff.1 hc
      obtain ⟨u, hu, hur⟩ := hterm.blockComment rest rfl
      refine ⟨'/' :: '*' :: u, .trivia, .blockComment hu, ?_, ?_⟩
      · exact List.cons_prefix_cons.2 ⟨rfl, List.cons_prefix_cons.2 ⟨rfl, hur⟩⟩
      · exact Nat.succ_lt_succ (Nat.zero_lt_succ _)
  | bang =>
    cases beq_iff_eq.1 h
    exact .next (.symbol .bangEqual) hc
  | equal =>
    cases beq_iff_eq.1 h
    exact .next (.symbol .equalEqual) hc
  | greater =>
    cases beq_iff_eq.1 h
    exact .next (.symbol .greaterEqual) hc
  | less =>
    cases beq_iff_eq.1 h
    exact .next (.symbol .lessEqual) hc
  | _ => cases h

theorem IsDigits.concat {w : Text} {c : Char} (hw : IsDigits w) (hc : c.isDigit = true) :
    IsDigits (w ++ [c]) :=
  ⟨by simp, List.forall_mem_append.2 ⟨hw.digit, List.forall_mem_singleton.2 hc⟩⟩

theorem isDigits_singleton {c : Char} (hc : c.isDigit = true) : IsDigits [c] :=
  ⟨List.cons_ne_nil c [], List.forall_mem_singleton.2 hc⟩

/-- A fraction goes on exactly behind a point with a digit behind it. -/
theorem fractionAhead_eq_nil_iff {t : Text} :
    Numeral.fractionAhead t = [] ↔
      (t.head? = some '.' → ∀ c ∈ t.tail.head?, c.isDigit = false) := by
  by_cases hpoint : t.head? = some '.'
  · obtain ⟨u, rfl⟩ := List.head?_eq_some_iff.1 hpoint
    cases u with
    | nil => simp [Numeral.fractionAhead]
    | cons d u => simp [Numeral.fractionAhead, List.takeWhile_cons]
  · refine ⟨fun _ h => absurd h hpoint, fun _ => fractionAhead_of_ne_point fun c hc => ?_⟩
    rintro rfl
    exact hpoint hc

/-- A fraction makes a number longer. -/
theorem longer_of_fraction {w rest : Text} (hw : IsDigits w)
    (h : Numeral.fractionAhead rest ≠ []) : Longer w (w ++ rest) := by
  rw [ne_eq, fractionAhead_eq_nil_iff, Classical.not_imp, Classical.not_forall] at h
  obtain ⟨hpoint, c, hc⟩ := h
  obtain ⟨hc, hdigit⟩ := Classical.not_imp.1 hc
  obtain ⟨rest, rfl⟩ := List.head?_eq_some_iff.1 hpoint
  obtain ⟨rest, rfl⟩ := List.head?_eq_some_iff.1 hc
  refine ⟨w ++ '.' :: [c], _, .decimal hw (isDigits_singleton (by simpa using hdigit)), ?_, ?_⟩
  · exact ⟨rest, by simp⟩
  · simp

theorem longer_of_isWordPart {c d : Char} {t rest : Text} (hc : isWordStart c = true)
    (ht : ∀ d ∈ t, isWordPart d = true) (hpart : isWordPart d = true) (hd : d ∈ rest.head?) :
    Longer (c :: t) (c :: t ++ rest) :=
  .next (.word hc (List.forall_mem_append.2 ⟨ht, List.forall_mem_singleton.2 hpart⟩)) hd

/-- **The longest piece in front of a text ends where it does**: nothing behind it goes on with
it. -/
theorem Piece.ends_of_longest {p rest : Text} {f : Finding} (h : Piece p f)
    (hterm : Terminated (p ++ rest)) (hmax : ¬ Longer p (p ++ rest)) : Ends p f rest := by
  cases h with
  | symbol s =>
    exact fun c hc => Bool.eq_false_iff.2 fun hjoins => hmax (longer_of_joins hjoins hc hterm)
  | integer hw =>
    refine ⟨fun c hc => Bool.eq_false_iff.2 fun hdigit => ?_, fun _ => ?_⟩
    · exact hmax (.next (.integer (hw.concat hdigit)) hc)
    · exact Decidable.byContradiction fun hfraction => hmax (longer_of_fraction hw hfraction)
  | @decimal w f hw hf =>
    refine ⟨fun c hc => Bool.eq_false_iff.2 fun hdigit => ?_, fun hpoint => absurd (by simp) hpoint⟩
    have hlonger := Piece.decimal hw (hf.concat hdigit)
    rw [← List.cons_append, ← List.append_assoc] at hlonger
    exact hmax (.next hlonger hc)
  | keyword k =>
    obtain ⟨c, t, hk, hc, ht⟩ := exists_spelling_eq_cons k
    rw [hk] at hmax
    exact fun d hd => Bool.eq_false_iff.2 fun hpart => hmax (longer_of_isWordPart hc ht hpart hd)
  | identifier hc ht =>
    exact fun d hd => Bool.eq_false_iff.2 fun hpart => hmax (longer_of_isWordPart hc ht hpart hd)
  | quoted => trivial
  | lineComment hv =>
    refine fun _ c hc => Decidable.byContradiction fun hne => hmax (.next (.lineComment ?_) hc)
    simpa [hv] using Ne.symm hne
  | blank | blockComment =>
    rintro ⟨t, ht⟩
    cases ht

/-! ## Characters that start nothing -/

/-- Whether no piece starts with `c`. -/
def IsStray (c : Char) : Prop := ∀ t f, ¬ Piece (c :: t) f

/-- Where some piece can start with a character, one stands in front, if what it opens is closed. -/
theorem exists_prefix_of_piece {c : Char} {t r : Text} {f : Finding} (h : Piece (c :: t) f)
    (hterm : Terminated (c :: r)) : ∃ u g, Piece u g ∧ u <+: c :: r := by
  have hsingle : [c] <+: c :: r := ⟨r, rfl⟩
  rcases h.exists_cons with ⟨s, hs⟩ | ⟨d, v, hv, hd⟩
  · -- the first character of a symbol is a symbol
    have hsome : (Symbol.ofSpelling? (s.spelling.take 1)).isSome = true := by cases s <;> decide
    obtain ⟨s', hs'⟩ := Option.isSome_iff_exists.1 hsome
    have hspell := Symbol.spelling_of_ofSpelling? hs'
    rw [← hs, List.take_succ_cons, List.take_zero] at hspell
    have hpiece := Piece.symbol s'
    rw [hspell] at hpiece
    exact ⟨[c], _, hpiece, hsingle⟩
  · obtain ⟨rfl, rfl⟩ := List.cons.inj hv
    rcases hd with hd | rfl | rfl | hd | hd
    · exact ⟨[c], _, .blank (isBlank_iff_mem.1 hd), hsingle⟩
    · obtain ⟨p, rest, g, hr, hp, -⟩ := takesPiece_of_mem_quote (hterm.quoted r rfl)
      exact ⟨p, g, hp, rest, hr.symm⟩
    · exact ⟨['/'], _, .symbol .slash, hsingle⟩
    · exact ⟨[c], _, .integer (isDigits_singleton hd), hsingle⟩
    · exact ⟨[c], _, .word hd (by simp), hsingle⟩

/-- **A character is reported as unexpected exactly if it starts nothing**, whatever follows it. -/
theorem stands_unexpected_iff {c : Char} {r t : Text} :
    Stands r t (.fault (.unexpectedCharacter c)) ↔ t = [c] ∧ ∃ rest, r = c :: rest ∧ IsStray c := by
  constructor
  · intro h
    cases h with
    | longest _ hp => cases hp
    | @unexpected _ rest hterm hnone =>
      refine ⟨rfl, rest, rfl, fun t f hp => ?_⟩
      obtain ⟨u, g, hu, hur⟩ := exists_prefix_of_piece hp hterm
      exact hnone u g hu hur
  · rintro ⟨rfl, rest, rfl, hstray⟩
    have hq : c ≠ '"' := by
      rintro rfl
      exact hstray _ _ (.quoted (v := []) List.not_mem_nil)
    have hs : c ≠ '/' := by
      rintro rfl
      exact hstray _ _ (.symbol .slash)
    refine .unexpected (terminated_of_ne hq hs) fun u g hu hur => ?_
    obtain ⟨d, u, rfl⟩ := List.exists_cons_of_ne_nil hu.ne_nil
    obtain ⟨rfl, -⟩ := List.cons_prefix_cons.1 hur
    exact hstray u g hu

/-! ## What makes no difference -/

/-- What can stand in one place behind a piece and makes no difference to it: the same thing, a line
feed for the end of the text, or a space for a character that starts nothing. -/
inductive AlikeAt : Option Char → Option Char → Prop
  | refl (o : Option Char) : AlikeAt o o
  | lineFeed : AlikeAt none (some '\n')
  | space {c : Char} : IsStray c → AlikeAt (some c) (some ' ')

/-- **Texts that make no difference behind a piece**: only the next character counts, and the one
behind it if that is a point. -/
structure Alike (rest rest' : Text) : Prop where
  next : AlikeAt rest.head? rest'.head?
  point : rest.head? = some '.' → AlikeAt rest.tail.head? rest'.tail.head?

/-- What holds of a line feed and of a space, or of no character that starts nothing, carries
over. -/
theorem AlikeAt.forall {P : Char → Prop} {o o' : Option Char} (h : AlikeAt o o') (hfeed : P '\n')
    (hspace : ∀ c, IsStray c → P c → P ' ') (ho : ∀ c ∈ o, P c) : ∀ c ∈ o', P c := by
  cases h with
  | refl => exact ho
  | lineFeed =>
    intro c hc
    cases Option.mem_some_iff.1 hc
    exact hfeed
  | space hstray =>
    intro c hc
    cases Option.mem_some_iff.1 hc
    exact hspace _ hstray (ho _ rfl)

/-- A point stands there for nothing else. -/
theorem AlikeAt.eq_point {o : Option Char} (h : AlikeAt o (some '.')) : o = some '.' := by
  cases h
  rfl

theorem Ends.congr {p rest rest' : Text} {f : Finding} (h : Ends p f rest)
    (hrest : Alike rest rest') : Ends p f rest' := by
  have hnext := hrest.next
  cases f with
  | trivia =>
    refine fun hp => hnext.forall rfl (fun c hstray hc => ?_) (h hp)
    subst hc
    exact absurd (.blank (by simp)) (hstray [] _)
  | fault => trivial
  | token d =>
    cases d with
    | symbol s => exact hnext.forall (by cases s <;> rfl) (fun _ _ _ => by cases s <;> rfl) h
    | keyword | identifier => exact hnext.forall (by decide) (fun _ _ _ => by decide) h
    | number =>
      refine ⟨hnext.forall (by decide) (fun _ _ _ => by decide) h.1, fun hp => ?_⟩
      have hfraction := fractionAhead_eq_nil_iff.1 (h.2 hp)
      refine fractionAhead_eq_nil_iff.2 fun hpoint => ?_
      have hsame := (hpoint ▸ hnext).eq_point
      exact (hrest.point hsame).forall (by decide) (fun _ _ _ => by decide) (hfraction hsame)
    | str | eof => trivial

/-- Whether something was opened and never closed. -/
def IsOpen (f : Finding) : Prop :=
  f = .fault .unterminatedString ∨ f = .fault .unterminatedBlockComment

/-- What was never closed takes all that is left. -/
theorem Stands.eq_nil_of_isOpen {t rest : Text} {f : Finding} (h : Stands (t ++ rest) t f)
    (hopen : IsOpen f) : rest = [] := by
  have hself : ∀ {r}, Stands r t f → t = r := fun h => by
    rcases hopen with rfl | rfl
    · cases h with
      | unterminatedString => rfl
      | longest _ hp => cases hp
    · cases h with
      | unterminatedBlockComment => rfl
      | longest _ hp => cases hp
  exact List.self_eq_append_right.1 (hself h)

/-- A piece that stands in front of a text ends there. -/
theorem Stands.piece_and_ends {t rest : Text} {f : Finding} (h : Stands (t ++ rest) t f)
    (hopen : ¬ IsOpen f) (hf : ∀ c, f ≠ .fault (.unexpectedCharacter c)) :
    Piece t f ∧ Ends t f rest := by
  generalize hr : t ++ rest = r at h
  cases h with
  | unterminatedString => exact absurd (.inl rfl) hopen
  | unterminatedBlockComment => exact absurd (.inr rfl) hopen
  | unexpected => exact absurd rfl (hf _)
  | longest hterm hp _ hmax =>
    subst hr
    refine ⟨hp, hp.ends_of_longest hterm fun ⟨u, g, hu, hur, hlt⟩ => ?_⟩
    exact Nat.not_le_of_lt hlt (hmax u g hu hur)

/-- **What stands in front of a text stands in front of another** if it ends there too, unless it
was never closed. -/
theorem Stands.transfer {t rest rest' : Text} {f : Finding} (h : Stands (t ++ rest) t f)
    (hopen : ¬ IsOpen f) (hends : Ends t f rest → Ends t f rest') : Stands (t ++ rest') t f := by
  by_cases hf : ∃ c, f = .fault (.unexpectedCharacter c)
  · obtain ⟨c, rfl⟩ := hf
    obtain ⟨rfl, r, -, hstray⟩ := stands_unexpected_iff.1 h
    exact stands_unexpected_iff.2 ⟨rfl, rest', rfl, hstray⟩
  · obtain ⟨hp, hend⟩ := h.piece_and_ends hopen fun c hc => hf ⟨c, hc⟩
    exact hp.stands (hends hend)

/-- So it does where what follows is alike. -/
theorem Stands.congr {t rest rest' : Text} {f : Finding} (h : Stands (t ++ rest) t f)
    (hopen : ¬ IsOpen f) (hrest : Alike rest rest') : Stands (t ++ rest') t f :=
  h.transfer hopen fun hends => hends.congr hrest

end Lexical

end Lox
