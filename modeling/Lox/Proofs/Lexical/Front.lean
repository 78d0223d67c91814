import Lox.Proofs.Lexical.Pieces
/-!
# What is taken from the front of a text

A lexeme or trivia is taken as a whole where what follows does not go on with
it (`front_of_ends`), and never is less taken than the longest one in front
(`length_le_front`). Both go by the kinds of the lexical grammar, with one
lemma on the reader for each way it can branch.
-/


namespace Lox

namespace Lexical

/-- What is taken from the front of `r`, nothing if `r` is empty. -/
def front : Text → Munch
  | [] => ⟨.trivia, 0⟩
  | c :: t => munch c t

/-! ## The branches of the reader -/

theorem munch_of_isBlank {c : Char} (h : isBlank c = true) (t : Text) :
    munch c t = ⟨.trivia, 1⟩ := by
  simp [munch, h]

theorem munch_quote (t : Text) : munch '"' t = .quoted t := rfl

theorem munch_slash (t : Text) : munch '/' t = .slash t := rfl

theorem munch_of_isDigit {c : Char} (h : c.isDigit = true) (t : Text) :
    munch c t = .number (c :: t) := by
  have hq : c ≠ '"' := by rintro rfl; exact absurd h (by decide)
  have hs : c ≠ '/' := by rintro rfl; exact absurd h (by decide)
  simp [munch, h, hq, hs, not_isBlank_of_isDigit h]

theorem munch_of_isWordStart {c : Char} (h : isWordStart c = true) (t : Text) :
    munch c t = .word (c :: t) := by
  have hq : c ≠ '"' := by rintro rfl; exact absurd h (by decide)
  have hs : c ≠ '/' := by rintro rfl; exact absurd h (by decide)
  simp [munch, h, hq, hs, not_isBlank_of_isWordStart h, not_isDigit_of_isWordStart h]

/-- A symbol other than the slash starts with a character that starts nothing else. -/
theorem munch_of_symbol {s : Symbol} (hs : s ≠ .slash) {c : Char} {t rest : Text}
    (h : s.spelling ++ rest = c :: t) : munch c t = .symbol c t := by
  cases s
  case slash => exact absurd rfl hs
  all_goals
    cases h
    rfl

/-! ## Runs of characters -/

/-- A run ends where its text ends, if what follows does not belong to it. -/
theorem takeWhile_append_of_stop {p : Char → Bool} {body rest : Text} (h : ∀ c ∈ body, p c = true)
    (hstop : ∀ c ∈ rest.head?, p c = false) : (body ++ rest).takeWhile p = body := by
  rw [List.takeWhile_append_of_pos h]
  cases rest with
  | nil => simp
  | cons c rest => simp [hstop c rfl]

theorem dropWhile_append_of_stop {p : Char → Bool} {body rest : Text} (h : ∀ c ∈ body, p c = true)
    (hstop : ∀ c ∈ rest.head?, p c = false) : (body ++ rest).dropWhile p = rest := by
  rw [List.dropWhile_append_of_pos h]
  cases rest with
  | nil => simp
  | cons c rest => simp [hstop c rfl]

/-- Every text is a run and what stops it. -/
theorem exists_run (p : Char → Bool) (t : Text) :
    ∃ body rest, t = body ++ rest ∧ (∀ c ∈ body, p c = true) ∧ ∀ c ∈ rest.head?, p c = false := by
  refine ⟨t.takeWhile p, t.dropWhile p, List.takeWhile_append_dropWhile.symm,
    List.all_eq_true.1 List.all_takeWhile, fun c hc => ?_⟩
  have h := List.head?_dropWhile_not p t
  rw [Option.mem_def.1 hc] at h
  simpa using h

/-- A run is at least as long as a text of its characters in front. -/
theorem length_le_takeWhile {p : Char → Bool} {body : Text} (h : ∀ c ∈ body, p c = true)
    (rest : Text) : body.length ≤ ((body ++ rest).takeWhile p).length := by
  rw [List.takeWhile_append_of_pos h, List.length_append]
  exact Nat.le_add_right _ _

/-! ## Symbols -/

theorem length_spelling (s : Symbol) : s.spelling.length = 1 ∨ s.spelling.length = 2 := by
  cases s <;> decide

/-- What is found stands in front. -/
theorem prefix_of_ahead? {s : Symbol} {r : Text} (h : Symbol.ahead? r = some s) :
    s.spelling <+: r := by
  unfold Symbol.ahead? at h
  cases h₂ : Symbol.ofSpelling? (r.take 2) with
  | some s' =>
    rw [h₂] at h
    cases h
    rw [Symbol.spelling_of_ofSpelling? h₂]
    exact List.take_prefix 2 r
  | none =>
    rw [h₂] at h
    rw [Symbol.spelling_of_ofSpelling? (t := r.take 1) h]
    exact List.take_prefix 1 r

/-- The symbol found is at least as long as any in front. -/
theorem exists_ahead?_of_prefix {s : Symbol} {r : Text} (h : s.spelling <+: r) :
    ∃ s', Symbol.ahead? r = some s' ∧ s.spelling.length ≤ s'.spelling.length := by
  have htake : r.take s.spelling.length = s.spelling := (List.prefix_iff_eq_take.1 h).symm
  have hfound := Symbol.ofSpelling?_spelling s
  rw [← htake] at hfound
  unfold Symbol.ahead?
  rcases length_spelling s with hlen | hlen
  · rw [hlen] at hfound ⊢
    cases h₂ : Symbol.ofSpelling? (r.take 2) with
    | some s' => exact ⟨s', rfl, by rcases length_spelling s' with h' | h' <;> omega⟩
    | none => exact ⟨s, hfound, by omega⟩
  · rw [hlen] at hfound
    rw [hfound]
    exact ⟨s, rfl, Nat.le_refl _⟩

/-- Whether a symbol read before the character `c` would have been another one, or the start of a
comment. -/
def joins (s : Symbol) (c : Char) : Bool :=
  match s with
  | .slash => c == '/' || c == '*'
  | .bang | .equal | .greater | .less => c == '='
  | _ => false

/-- A symbol is found where nothing that joins it follows. -/
theorem ahead?_append {s : Symbol} {rest : Text} (h : ∀ c ∈ rest.head?, joins s c = false) :
    Symbol.ahead? (s.spelling ++ rest) = some s := by
  unfold Symbol.ahead?
  rcases length_spelling s with hlen | hlen
  · have h₁ : (s.spelling ++ rest).take 1 = s.spelling := List.take_left' hlen
    rw [h₁, Symbol.ofSpelling?_spelling]
    cases h₂ : Symbol.ofSpelling? ((s.spelling ++ rest).take 2) with
    | none => rfl
    | some s' =>
      have hs' := Symbol.spelling_of_ofSpelling? h₂
      cases rest with
      | nil =>
        rw [List.append_nil, List.take_of_length_le (by omega)] at hs'
        exact congrArg some (Symbol.spelling_injective hs')
      | cons d rest =>
        have hd := h d rfl
        cases s <;> cases hlen <;> simp only [Symbol.spelling, List.cons_append, List.nil_append,
          List.take_succ_cons, List.take_zero] at hs' <;> cases s' <;> cases hs' <;> cases hd
  · have h₂ : (s.spelling ++ rest).take 2 = s.spelling := List.take_left' hlen
    rw [h₂, Symbol.ofSpelling?_spelling]
    rfl

/-! ## Numerals -/

theorem fractionAhead_of_ne_point {t : Text} (h : ∀ c ∈ t.head?, c ≠ '.') :
    Numeral.fractionAhead t = [] := by
  unfold Numeral.fractionAhead
  split
  · exact absurd rfl (h '.' rfl)
  · rfl

/-- A run of digits with no fraction behind it is a numeral of its own. -/
theorem ahead_integer {w rest : Text} (hw : IsDigits w)
    (hstop : ∀ c ∈ rest.head?, c.isDigit = false) (hf : Numeral.fractionAhead rest = []) :
    Numeral.ahead (w ++ rest) = ⟨w, []⟩ := by
  unfold Numeral.ahead
  rw [takeWhile_append_of_stop hw.digit hstop, dropWhile_append_of_stop hw.digit hstop, hf]

/-- A run of digits, a point and the run of digits behind it are one numeral. -/
theorem ahead_decimal {w : Text} (hw : IsDigits w) (t : Text) :
    Numeral.ahead (w ++ '.' :: t) = ⟨w, t.takeWhile Char.isDigit⟩ := by
  have hstop : ∀ c ∈ ('.' :: t).head?, c.isDigit = false := by
    rintro c hc
    cases Option.mem_some_iff.1 hc
    decide
  unfold Numeral.ahead
  rw [takeWhile_append_of_stop hw.digit hstop, dropWhile_append_of_stop hw.digit hstop]
  rfl

theorem length_whole_le_text (n : Numeral) : n.whole.length ≤ n.text.length := by
  unfold Numeral.text
  split <;> simp

theorem text_of_fraction_ne_nil {w f : Text} (hf : f ≠ []) :
    (Numeral.mk w f).text = w ++ '.' :: f := by
  simp [Numeral.text, hf]

/-! ## A piece with its surroundings -/

/-- Whether the character `c` behind a lexeme with the data `d` could belong to it. A point behind a
number counts, since a digit may come next. -/
def extends? (d : TokenData) (c : Char) : Bool :=
  match d with
  | .symbol s => joins s c
  | .number _ => c.isDigit || c == '.'
  | .keyword _ | .identifier => isWordPart c
  | _ => false

/-- What may follow a piece so that it is taken as a whole and nothing more. Behind trivia only a
line feed is let in, which ends every comment. -/
def Apart : Finding → Text → Prop
  | .token d, rest => ∀ c ∈ rest.head?, extends? d c = false
  | .trivia, rest => ∀ c ∈ rest.head?, c = '\n'
  | .fault _, _ => True

theorem apart_nil {f : Finding} : Apart f [] := by
  cases f <;> simp [Apart]

theorem apart_number {n : Number} {rest : Text} :
    Apart (.token (.number n)) rest ↔ ∀ c ∈ rest.head?, c.isDigit = false ∧ c ≠ '.' := by
  simp [Apart, extends?]

/-- **Where a piece ends**: exactly what may follow the piece `p`, read as a finding, so that it is
taken as a whole and nothing more. Behind a number without a point, a point may follow if no digit
comes next; quotations, blanks and block comments end whatever follows. -/
def Ends (p : Text) : Finding → Text → Prop
  | .token (.symbol s), rest => ∀ c ∈ rest.head?, joins s c = false
  | .token (.number _), rest =>
    (∀ c ∈ rest.head?, c.isDigit = false) ∧ ('.' ∉ p → Numeral.fractionAhead rest = [])
  | .token (.keyword _), rest => ∀ c ∈ rest.head?, isWordPart c = false
  | .token .identifier, rest => ∀ c ∈ rest.head?, isWordPart c = false
  | .trivia, rest => ['/', '/'] <+: p → ∀ c ∈ rest.head?, c = '\n'
  | _, _ => True

theorem Apart.ends {f : Finding} {rest : Text} (h : Apart f rest) (p : Text) : Ends p f rest := by
  cases f with
  | trivia => exact fun _ => h
  | fault => trivial
  | token d =>
    cases d with
    | symbol | keyword | identifier => exact h
    | number =>
      have h := apart_number.1 h
      exact ⟨fun c hc => (h c hc).1, fun _ => fractionAhead_of_ne_point fun c hc => (h c hc).2⟩
    | str | eof => trivial

theorem number_of_integer {w rest : Text} (hw : IsDigits w)
    (hstop : ∀ c ∈ rest.head?, c.isDigit = false) (hf : Numeral.fractionAhead rest = []) :
    Munch.number (w ++ rest) =
      ⟨.token (.number (Numeral.mk w []).value), w.length⟩ := by
  rw [Munch.number, ahead_integer hw hstop hf, Numeral.text]
  rfl

theorem number_of_decimal {w f rest : Text} (hw : IsDigits w) (hf : IsDigits f)
    (h : ∀ c ∈ rest.head?, c.isDigit = false) :
    Munch.number (w ++ '.' :: (f ++ rest)) =
      ⟨.token (.number (Numeral.mk w f).value), (w ++ '.' :: f).length⟩ := by
  rw [Munch.number, ahead_decimal hw, takeWhile_append_of_stop hf.digit h,
    text_of_fraction_ne_nil hf.ne_nil]

theorem word_append {c : Char} {t rest : Text} (hc : isWordStart c = true)
    (ht : ∀ d ∈ t, isWordPart d = true) (h : ∀ d ∈ rest.head?, isWordPart d = false) :
    Munch.word (c :: t ++ rest) = ⟨.token (.ofWord (c :: t)), (c :: t).length⟩ := by
  rw [Munch.word, takeWhile_append_of_stop (isWordPart_of_mem hc ht) h]

theorem quoted_append {v : Text} (hv : '"' ∉ v) (rest : Text) :
    Munch.quoted (v ++ '"' :: rest) = ⟨.token (.str v), v.length + 2⟩ := by
  have htake : (v ++ '"' :: rest).takeWhile (· != '"') = v := by
    refine takeWhile_append_of_stop (fun c hc => ?_) (by simp)
    simpa using ne_of_mem_of_not_mem hc hv
  unfold Munch.quoted
  simp [htake]

theorem slash_lineComment {v rest : Text} (hv : '\n' ∉ v) (h : ∀ c ∈ rest.head?, c = '\n') :
    Munch.slash ('/' :: (v ++ rest)) = ⟨.trivia, v.length + 2⟩ := by
  have htake : (v ++ rest).takeWhile (· != '\n') = v := by
    refine takeWhile_append_of_stop (fun c hc => ?_) (fun c hc => by simpa using h c hc)
    simpa using ne_of_mem_of_not_mem hc hv
  simp [Munch.slash, Comment.lineLength, htake, Nat.add_comm]

theorem slash_blockComment {t : Text} (ht : Comment.Tail t) (rest : Text) :
    Munch.slash ('*' :: (t ++ rest)) = ⟨.trivia, t.length + 2⟩ := by
  simp [Munch.slash, Comment.blockLength?, (Comment.closingLength?_append ht rest).1]

/-- Where no comment starts, a slash is a symbol. -/
theorem slash_symbol {rest : Text} (h : ∀ c ∈ rest.head?, joins .slash c = false) :
    Munch.slash rest = .symbol '/' rest := by
  unfold Munch.slash
  split
  · exact absurd (h '/' rfl) (by decide)
  · exact absurd (h '*' rfl) (by decide)
  · rfl

/-- Digits are read as a number. -/
theorem front_isDigits {w : Text} (hw : IsDigits w) (rest : Text) :
    front (w ++ rest) = .number (w ++ rest) := by
  obtain ⟨c, t, rfl⟩ := List.exists_cons_of_ne_nil hw.ne_nil
  exact munch_of_isDigit (hw.digit c List.mem_cons_self) (t ++ rest)

theorem IsDigits.point_not_mem {w : Text} (hw : IsDigits w) : '.' ∉ w := fun hmem =>
  absurd (hw.digit _ hmem) (by decide)

/-- **A piece is taken as a whole** where it ends. -/
theorem front_of_ends {p rest : Text} {f : Finding} (h : Piece p f) (hrest : Ends p f rest) :
    front (p ++ rest) = ⟨f, p.length⟩ := by
  cases h with
  | symbol s =>
    have hahead := ahead?_append hrest
    obtain ⟨c, t, hct⟩ : ∃ c t, s.spelling ++ rest = c :: t := by
      cases s <;> exact ⟨_, _, rfl⟩
    have hmunch : munch c t = .symbol c t := by
      -- a slash is tried as the start of a comment first
      by_cases hs : s = .slash
      · subst hs
        cases hct
        exact slash_symbol hrest
      · exact munch_of_symbol hs hct
    rw [hct, front, hmunch, Munch.symbol, ← hct, hahead]
  | integer hw =>
    rw [front_isDigits hw, number_of_integer hw hrest.1 (hrest.2 hw.point_not_mem)]
  | decimal hw hf =>
    rw [List.append_assoc, List.cons_append, front_isDigits hw, number_of_decimal hw hf hrest.1]
  | keyword k =>
    obtain ⟨c, t, hk, hc, ht⟩ := exists_spelling_eq_cons k
    rw [hk, List.cons_append, front, munch_of_isWordStart hc]
    have hword := word_append hc ht hrest
    rwa [← hk, TokenData.ofWord, Keyword.ofSpelling?_spelling, hk] at hword
  | @identifier c t hc ht hk =>
    have hnone : Keyword.ofSpelling? (c :: t) = none := by
      cases hs : Keyword.ofSpelling? (c :: t) with
      | none => rfl
      | some k => exact absurd (Keyword.spelling_of_ofSpelling? hs) (hk k)
    rw [List.cons_append, front, munch_of_isWordStart hc]
    have hword := word_append hc ht hrest
    rwa [TokenData.ofWord, hnone] at hword
  | quoted hv =>
    rw [List.cons_append, front, munch_quote, List.append_assoc, List.singleton_append,
      quoted_append hv]
    simp
  | blank hc => exact munch_of_isBlank (isBlank_iff_mem.2 hc) _
  | lineComment hv =>
    rw [List.cons_append, front, munch_slash, List.cons_append, slash_lineComment hv (hrest ⟨_, rfl⟩)]
    rfl
  | blockComment ht =>
    rw [List.cons_append, front, munch_slash, List.cons_append, slash_blockComment ht]
    rfl

/-- In particular a piece is taken as a whole where what follows does not belong to it. -/
theorem front_append {p rest : Text} {f : Finding} (h : Piece p f) (hrest : Apart f rest) :
    front (p ++ rest) = ⟨f, p.length⟩ :=
  front_of_ends h (hrest.ends p)

end Lexical

end Lox
