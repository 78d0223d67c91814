import Lox.Proofs.Lexical.BlockComment
import Lox.Proofs.Lexical.Lookahead
import Lox.Proofs.Text.Cursor
import Lox.Scanner
import Mathlib.Data.List.TakeWhile
/-!
# What a scanner asks for

Each round of a scanner takes a stretch of the source: between two characters
it starts, and between two characters it stops, further on. What the scanner
has passed of a lexeme says what it can ask for: both quotes of a quoted text
are there once it has passed the second one, and the digits it has passed are
a number. So it panics at most where the count of open comments goes out of
range, which takes a stretch of 2^32 characters. In a source shorter than 2^32
bytes the stretches are the segments of the source.
-/


namespace Lox

open Lexical

open Cursor (between)

open Text (utf8Size lineBreaks)

/-- **What is asked for is there.** -/
def Access.IsThere (source : Text) : Access → Prop
  | lexeme start stop =>
    start.IsPlaceOf source ∧ stop.IsPlaceOf source ∧ start.offset ≤ stop.offset
  | unquoted quoted =>
    2 ≤ (Text.utf8 quoted).length ∧ (Text.utf8 quoted).head? = some 34 ∧
      (Text.utf8 quoted).getLast? = some 34 ∧
      ∃ v, Text.slice? quoted 1 (utf8Size quoted - 1) = some v ∧ '"' ∉ v
  | number spelling =>
    ∃ w, IsDigits w ∧ (spelling = w ∨ ∃ f, IsDigits f ∧ spelling = w ++ '.' :: f)

/-- The value of a literal has been read from its lexeme. -/
def TokenData.IsReadFrom (accesses : List Access) (lexeme : Text) : TokenData → Prop
  | str v => .unquoted lexeme ∈ accesses ∧ Text.slice? lexeme 1 (utf8Size lexeme - 1) = some v
  | number n => .number lexeme ∈ accesses ∧ Number.ofNumeral? lexeme = some n
  | _ => True

/-- What a token holds has been asked for. -/
structure Token.IsMadeFrom (accesses : List Access) (token : Token) : Prop where
  lexeme : token.data ≠ .eof → ∃ start stop,
    .lexeme start stop ∈ accesses ∧ stop.sliceFrom start = pure token.lexeme
  value : token.data.IsReadFrom accesses token.lexeme

/-- **What has been asked for is there**, and the tokens have been made from it. -/
structure Asked (source : Text) (accesses : List Access) (tokens : List Token) : Prop where
  isThere : ∀ access ∈ accesses, access.IsThere source
  isMadeFrom : ∀ token ∈ tokens, token.IsMadeFrom accesses

variable {a b t u v : Text} {s : Scanner}

/-! ## What is asked for -/

theorem TokenData.IsReadFrom.mono {data : TokenData} {xs ys : List Access} (hsub : xs ⊆ ys)
    (h : data.IsReadFrom xs t) : data.IsReadFrom ys t := by
  cases data with
  | str v => exact ⟨hsub h.1, h.2⟩
  | number n => exact ⟨hsub h.1, h.2⟩
  | symbol | keyword | identifier | eof => trivial

theorem Token.IsMadeFrom.mono {token : Token} {xs ys : List Access} (hsub : xs ⊆ ys)
    (h : token.IsMadeFrom xs) : token.IsMadeFrom ys where
  lexeme hdata :=
    let ⟨start, stop, hmem, hslice⟩ := h.lexeme hdata
    ⟨start, stop, hsub hmem, hslice⟩
  value := h.value.mono hsub

/-- The end marker holds nothing. -/
theorem Token.isMadeFrom_eof (accesses : List Access) (line : Nat) :
    (Token.eof line).IsMadeFrom accesses :=
  ⟨fun h => absurd rfl h, trivial⟩

theorem Asked.nil (source : Text) : Asked source [] [] := ⟨nofun, nofun⟩

theorem Asked.append {source : Text} {xs ys : List Access} {ts us : List Token}
    (h : Asked source xs ts) (h' : Asked source ys us) : Asked source (xs ++ ys) (ts ++ us) where
  isThere := List.forall_mem_append.2 ⟨h.isThere, h'.isThere⟩
  isMadeFrom := List.forall_mem_append.2
    ⟨fun token ht => (h.isMadeFrom token ht).mono (List.subset_append_left xs ys),
      fun token ht => (h'.isMadeFrom token ht).mono (List.subset_append_right xs ys)⟩

/-! ## Places -/

/-- The position between two parts of a source. -/
def Position.between (passed ahead : Text) : Position :=
  ⟨ahead, utf8Size passed, 1 + lineBreaks passed⟩

theorem Position.past_between (a t : Text) (n : Nat) :
    (Position.between a t).past n = .between (a ++ t.take n) (t.drop n) := by
  simp [Position.past, Position.between, Nat.add_assoc]

namespace Scanner

/-- The scanner that has passed `t` of a lexeme that starts behind `a`, and has `b` ahead of it. -/
def placed (s : Scanner) (a t b : Text) : Scanner :=
  { s with start := .between a (t ++ b), cursor := .between (a ++ t) b }

/-- The scanner with some more put down and some more tokens. -/
def add (s : Scanner) (accesses : List Access) (tokens : List Token) : Scanner :=
  { s with accesses := s.accesses ++ accesses, tokens := s.tokens ++ tokens }

theorem add_nil (s : Scanner) : s.add [] [] = s := by
  rw [add, List.append_nil, List.append_nil]

theorem add_add (s : Scanner) (xs ys : List Access) (ts us : List Token) :
    (s.add xs ts).add ys us = s.add (xs ++ ys) (ts ++ us) := by
  simp only [add, List.append_assoc]

/-! ## Moves -/

theorem run_attempt {α : Type} {y : Attempt α} {x : α} (h : y = pure x) :
    (attempt y).run s = .ok x s := by
  rw [h]
  rfl

/-- A move over `u`. -/
theorem run_move_placed {α : Type} {f : Cursor → Attempt (α × Cursor)} {x : α}
    (h : f (between (a ++ t) (u ++ b)) = pure (x, between (a ++ t ++ u) b)) :
    (move f).run (s.placed a t (u ++ b)) = .ok x (s.placed a (t ++ u) b) := by
  have hget : (get : Scanning Scanner).run (s.placed a t (u ++ b)) = .ok _ _ := rfl
  have hmove : (attempt (f (s.placed a t (u ++ b)).cursor)).run (s.placed a t (u ++ b)) =
      .ok _ _ := run_attempt h
  rw [move, run_bind_of_ok hget, run_bind_of_ok hmove]
  simp only [placed, List.append_assoc]
  rfl

theorem run_next (c : Char) :
    (move Cursor.next).run (s.placed a t (c :: b)) = .ok (some c) (s.placed a (t ++ [c]) b) :=
  run_move_placed (u := [c]) Cursor.next_between

theorem run_advanceWhile {keep : Char → Bool} (hu : ∀ c ∈ u, keep c = true)
    (hb : ∀ c ∈ b.head?, keep c = false) :
    (move (·.advanceWhile keep)).run (s.placed a t (u ++ b)) =
      .ok () (s.placed a (t ++ u) b) := by
  refine run_move_placed (f := (·.advanceWhile keep)) ?_
  rw [Cursor.advanceWhile_between, takeWhile_append_of_stop hu hb, dropWhile_append_of_stop hu hb]

theorem run_advanceIf_self (c : Char) :
    (move (·.advanceIf c)).run (s.placed a t (c :: b)) = .ok true (s.placed a (t ++ [c]) b) := by
  refine run_move_placed (f := (·.advanceIf c)) (u := [c]) ?_
  rw [Cursor.advanceIf_between]
  exact congrArg pure (if_pos rfl)

theorem run_advanceIf_of_ne {c : Char} (hb : ∀ d ∈ b.head?, d ≠ c) :
    (move (·.advanceIf c)).run (s.placed a t b) = .ok false (s.placed a t b) := by
  have hne : b[0]? ≠ some c := fun h => hb c (List.head?_eq_getElem? ▸ h) rfl
  have hmove : (between (a ++ t) ([] ++ b)).advanceIf c =
      pure (false, between (a ++ t ++ []) b) := by
    rw [Cursor.advanceIf_between, List.nil_append, if_neg hne, List.append_nil]
  have h := run_move_placed (s := s) (f := (·.advanceIf c)) hmove
  rwa [List.append_nil] at h

theorem run_look {α : Type} {f : Cursor → Attempt α} {x : α}
    (h : f (between (a ++ t) b) = pure x) :
    (look f).run (s.placed a t b) = .ok x (s.placed a t b) :=
  run_attempt h

/-! ## Asking -/

theorem run_ask {α : Type} {y : Access} {x : Attempt α} {r : α} (h : x = pure r) :
    (ask y x).run (s.placed a t b) = .ok r ((s.add [y] []).placed a t b) := by
  subst h
  simp only [add, List.append_nil]
  rfl

/-- The text of a lexeme is asked for. -/
def slice (a t b : Text) : Access := .lexeme (between a (t ++ b)) (between (a ++ t) b)

theorem isThere_slice (a t b : Text) : (slice a t b).IsThere (a ++ (t ++ b)) :=
  ⟨⟨a, t ++ b, rfl, rfl⟩, ⟨a ++ t, b, (List.append_assoc a t b).symm, rfl⟩, by
    simp only [Cursor.offset_between, Text.utf8Size_append, Nat.le_add_right]⟩

theorem run_lexeme :
    lexeme.run (s.placed a t b) = .ok t ((s.add [slice a t b] []).placed a t b) :=
  run_ask (y := slice a t b) Cursor.sliceFrom_between

theorem run_addToken (data : TokenData) : (addToken data).run (s.placed a t b) =
    .ok () ((s.add [slice a t b] [⟨data, t, 1 + lineBreaks a⟩]).placed a t b) := by
  rw [addToken, run_bind_of_ok run_lexeme]
  simp only [add, List.append_nil]
  rfl

/-- A quoted text without its first and its last byte. -/
theorem slice?_quoted (v : Text) :
    Text.slice? ('"' :: (v ++ ['"'])) 1 (utf8Size ('"' :: (v ++ ['"'])) - 1) = some v := by
  have hquote : '"'.utf8Size = 1 := rfl
  have hstop : utf8Size ('"' :: (v ++ ['"'])) - 1 = utf8Size (['"'] ++ v) := by
    simp only [Text.utf8Size_cons, Text.utf8Size_append, Text.utf8Size_nil, hquote]
    omega
  rw [hstop]
  exact Text.slice?_append ['"'] v ['"']

theorem isThere_unquoted (hv : '"' ∉ v) (source : Text) :
    (Access.unquoted ('"' :: (v ++ ['"']))).IsThere source := by
  have hquote : String.utf8EncodeChar '"' = [34] := rfl
  have hbytes : Text.utf8 ('"' :: (v ++ ['"'])) = 34 :: (Text.utf8 v ++ [34]) := by
    rw [Text.utf8_cons, Text.utf8_append, Text.utf8_cons, Text.utf8_nil, hquote]
    rfl
  refine ⟨?_, ?_, ?_, v, slice?_quoted v, hv⟩
  · rw [hbytes, List.length_cons, List.length_append, List.length_singleton]
    omega
  · rw [hbytes, List.head?_cons]
  · rw [hbytes, ← List.cons_append, List.getLast?_concat]

theorem run_unquoted (v : Text) : (unquoted ('"' :: (v ++ ['"']))).run (s.placed a t b) =
    .ok v ((s.add [.unquoted ('"' :: (v ++ ['"']))] []).placed a t b) :=
  run_ask (by rw [slice?_quoted, Attempt.demand_some])

/-- Digits are a number, -/
theorem ofNumeral?_integer (hu : IsDigits u) :
    Number.ofNumeral? u = some (Numeral.mk u []).value := by
  have hahead : Numeral.ahead (u ++ []) = ⟨u, []⟩ := ahead_integer hu (by simp) rfl
  rw [List.append_nil] at hahead
  rw [Number.ofNumeral?, hahead]
  exact if_pos ⟨hu.ne_nil, rfl⟩

/-- and so are digits on both sides of a point. -/
theorem ofNumeral?_decimal (hu : IsDigits u) (hv : IsDigits v) :
    Number.ofNumeral? (u ++ '.' :: v) = some (Numeral.mk u v).value := by
  have hahead := ahead_decimal hu v
  rw [List.takeWhile_eq_self_iff.2 hv.digit] at hahead
  rw [Number.ofNumeral?, hahead]
  exact if_pos ⟨hu.ne_nil, text_of_fraction_ne_nil hv.ne_nil⟩

theorem run_numberOf {n : Number} (h : Number.ofNumeral? u = some n) :
    (numberOf u).run (s.placed a t b) = .ok n ((s.add [.number u] []).placed a t b) :=
  run_ask (by rw [h, Attempt.demand_some])

/-! ## What is taken -/

/-- What a round comes to where this is found. -/
def resultOf : Finding → Except ScanError Unit
  | .fault error => .error error
  | _ => .ok ()

/-- The token that is added where this is found. -/
def tokensOf (a t : Text) : Finding → List Token
  | .token data => [⟨data, t, 1 + lineBreaks a⟩]
  | _ => []

/-- **What is taken behind `a`**: the scanner has passed `t` when it has found `f`, and has `b`
ahead of it. What it has asked for is there. -/
structure Takes (s : Scanner) (a t b : Text) (f : Finding)
    (x : Outcome (Except ScanError Unit)) : Prop where
  exists_eq : ∃ accesses, Asked (a ++ (t ++ b)) accesses (tokensOf a t f) ∧
    x = .ok (resultOf f) ((s.add accesses (tokensOf a t f)).placed a t b)
  ne_nil : t ≠ []
  /-- In a short source it is what stands there. -/
  front_eq : (t ++ b).length < 2 ^ 32 → front (t ++ b) = ⟨f, t.length⟩

variable {x : Outcome (Except ScanError Unit)}

/-- Where there is no token, nothing is asked for. -/
theorem exists_eq_of_nil {f : Finding} (hf : tokensOf a t f = [])
    (hx : x = .ok (resultOf f) (s.placed a t b)) :
    ∃ accesses, Asked (a ++ (t ++ b)) accesses (tokensOf a t f) ∧
      x = .ok (resultOf f) ((s.add accesses (tokensOf a t f)).placed a t b) := by
  rw [hf]
  exact ⟨[], .nil _, by rw [hx, add_nil]⟩

theorem run_accept {y : Scanning Unit} {s s' : Scanner} (h : y.run s = .ok () s') :
    (accept y).run s = .ok (.ok ()) s' := by
  rw [accept, run_bind_of_ok h]
  rfl

/-- Trivia are taken where they end, -/
theorem takes_trivia (hp : Piece t .trivia) (he : Ends t .trivia b)
    (hx : x = .ok (.ok ()) (s.placed a t b)) : s.Takes a t b .trivia x :=
  ⟨exists_eq_of_nil rfl hx, hp.ne_nil, fun _ => front_of_ends hp he⟩

/-- and so is a token that has been read from what has been asked for. -/
theorem takes_token {data : TokenData} (accesses : List Access) (hp : Piece t (.token data))
    (he : Ends t (.token data) b) (hthere : ∀ y ∈ accesses, y.IsThere (a ++ (t ++ b)))
    (hdata : data.IsReadFrom accesses t) :
    s.Takes a t b (.token data)
      ((accept (addToken data)).run ((s.add accesses []).placed a t b)) := by
  refine ⟨⟨accesses ++ [slice a t b], ⟨?_, ?_⟩, ?_⟩, hp.ne_nil, fun _ => front_of_ends hp he⟩
  · exact List.forall_mem_append.2 ⟨hthere, List.forall_mem_singleton.2 (isThere_slice a t b)⟩
  · refine List.forall_mem_singleton.2 ⟨fun _ =>
      ⟨between a (t ++ b), between (a ++ t) b, ?_, Cursor.sliceFrom_between⟩, ?_⟩
    · exact List.mem_append_right accesses List.mem_cons_self
    · exact hdata.mono (List.subset_append_left accesses _)
  · rw [run_accept (run_addToken data), add_add]
    rfl

/-- A symbol is taken where nothing that joins it follows. -/
theorem takes_symbol {symbol : Symbol}
    (h : ∀ c ∈ b.head?, joins symbol c = false) :
    s.Takes a symbol.spelling b (.token (.symbol symbol))
      ((accept (addToken (.symbol symbol))).run (s.placed a symbol.spelling b)) := by
  have htakes := takes_token (s := s) (a := a) [] (.symbol symbol) h nofun trivial
  rwa [add_nil] at htakes

theorem takes_single {c : Char} {symbol : Symbol} (h : single? c = some symbol) :
    s.Takes a [c] b (.token (.symbol symbol))
      ((accept (addToken (.symbol symbol))).run (s.placed a [c] b)) := by
  have hsymbol : symbol.spelling = [c] ∧ ∀ d, joins symbol d = false := by
    unfold single? at h
    split at h <;> cases h <;> exact ⟨rfl, fun _ => rfl⟩
  rw [← hsymbol.1]
  exact takes_symbol fun d _ => hsymbol.2 d

/-- Some of `r`, which stands behind `a`, is taken. -/
def TakesSome (s : Scanner) (a r : Text) (x : Outcome (Except ScanError Unit)) : Prop :=
  ∃ t b f, r = t ++ b ∧ s.Takes a t b f x

/-- A step that gives a result is passed over. -/
theorem run_accept_bind_of_eq {α : Type} {y : Scanning α} {g : α → Scanning Unit} {n : α}
    {s s' : Scanner} (h : y.run s = .ok n s') :
    (accept (y >>= g)).run s = (accept (g n)).run s' := by
  rw [accept, bind_assoc, run_bind_of_ok h]
  rfl

/-- Of two symbols that start alike the longer one is taken, if it is there. -/
theorem takesSome_withEqual {c : Char} {matched otherwise : Symbol} (r : Text)
    (h : withEqual? c = some (matched, otherwise)) :
    s.TakesSome a (c :: r)
      ((accept (addTokenIf '=' (.symbol matched) (.symbol otherwise))).run (s.placed a [c] r)) := by
  have hmatched : matched.spelling = [c, '='] ∧ ∀ d, joins matched d = false := by
    unfold withEqual? at h
    split at h <;> cases h <;> exact ⟨rfl, fun _ => rfl⟩
  have hother : otherwise.spelling = [c] ∧ ∀ d, joins otherwise d = (d == '=') := by
    unfold withEqual? at h
    split at h <;> cases h <;> exact ⟨rfl, fun _ => rfl⟩
  by_cases hr : r.head? = some '='
  · obtain ⟨b, rfl⟩ := List.head?_eq_some_iff.1 hr
    refine ⟨matched.spelling, b, .token (.symbol matched), by rw [hmatched.1]; rfl, ?_⟩
    rw [addTokenIf, run_accept_bind_of_eq (run_advanceIf_self '='), if_pos rfl,
      List.singleton_append, ← hmatched.1]
    exact takes_symbol fun d _ => hmatched.2 d
  · have hne : ∀ d ∈ r.head?, d ≠ '=' := fun d hd hd' => hr (hd' ▸ hd)
    refine ⟨otherwise.spelling, r, .token (.symbol otherwise), by rw [hother.1]; rfl, ?_⟩
    rw [addTokenIf, run_accept_bind_of_eq (run_advanceIf_of_ne hne), if_neg Bool.false_ne_true,
      ← hother.1]
    exact takes_symbol fun d hd => by simpa [hother.2] using hne d hd

/-! ## Strings, numbers and words -/

/-- A quotation that is not closed is all that is left. -/
theorem front_unclosed (hv : '"' ∉ v) :
    front ('"' :: v) = ⟨.fault .unterminatedString, ('"' :: v).length⟩ := by
  have hkeep : ∀ c ∈ v, (c != '"') = true := fun c hc => by
    simpa using ne_of_mem_of_not_mem hc hv
  rw [front, munch_quote, Munch.quoted, List.takeWhile_eq_self_iff.2 hkeep]
  simp [Nat.add_comm]

theorem takesSome_string (r : Text) :
    s.TakesSome a ('"' :: r) (string.run (s.placed a ['"'] r)) := by
  obtain ⟨v, rest, rfl, hv, hrest⟩ := exists_run (· != '"') r
  have hmem : '"' ∉ v := fun h => absurd (hv _ h) (by decide)
  rw [string, run_bind_of_ok (run_advanceWhile hv hrest)]
  cases rest with
  | nil =>
    refine ⟨'"' :: v, [], .fault .unterminatedString, rfl, exists_eq_of_nil rfl ?_,
      List.cons_ne_nil _ _, fun _ => ?_⟩
    · rw [run_bind_of_ok (run_advanceIf_of_ne (by simp)), if_neg Bool.false_ne_true]
      rfl
    · rw [List.append_nil, front_unclosed hmem]
  | cons d b =>
    obtain rfl : d = '"' := by simpa using hrest d rfl
    refine ⟨'"' :: (v ++ ['"']), b, .token (.str v), by simp, ?_⟩
    rw [run_bind_of_ok (run_advanceIf_self '"'), if_pos rfl, List.singleton_append,
      List.cons_append, run_bind_of_ok run_lexeme, run_bind_of_ok (run_unquoted v), add_add]
    refine takes_token _ (.quoted hmem) trivial ?_ ⟨by simp, slice?_quoted v⟩
    exact List.forall_mem_cons.2
      ⟨isThere_slice a _ b, List.forall_mem_singleton.2 (isThere_unquoted hmem _)⟩

/-- A number that has been passed is added. -/
theorem takes_number {n : Number} (hp : Piece t (.token (.number n)))
    (he : Ends t (.token (.number n)) b) (hn : Number.ofNumeral? t = some n)
    (hdigits : ∃ w, IsDigits w ∧ (t = w ∨ ∃ f, IsDigits f ∧ t = w ++ '.' :: f)) :
    s.Takes a t b (.token (.number n)) ((accept (do
      let value ← numberOf (← lexeme)
      addToken (.number value))).run (s.placed a t b)) := by
  rw [run_accept_bind_of_eq run_lexeme, run_accept_bind_of_eq (run_numberOf hn), add_add]
  refine takes_token _ hp he ?_ ⟨by simp, hn⟩
  exact List.forall_mem_cons.2 ⟨isThere_slice a t b, List.forall_mem_singleton.2 hdigits⟩

/-- Where no point with a digit behind it follows, there is no fraction. -/
theorem run_fraction_nil (hb : Numeral.fractionAhead b = []) :
    fraction.run (s.placed a t b) = .ok () (s.placed a t b) := by
  rw [fraction, run_bind_of_ok (run_look Cursor.peek_between)]
  split
  · rename_i hpoint
    rw [← List.head?_eq_getElem?] at hpoint
    have hdigit := fractionAhead_eq_nil_iff.1 hb hpoint
    obtain ⟨u, rfl⟩ := List.head?_eq_some_iff.1 hpoint
    rw [run_bind_of_ok (run_look Cursor.peekNext_between), List.getElem?_cons_succ,
      ← List.head?_eq_getElem?]
    cases u with
    | nil => rfl
    | cons d u =>
      have hd : d.isDigit = false := hdigit d rfl
      simp only [List.head?_cons, Option.any_some, hd, Bool.false_eq_true, if_false]
      rfl
  · rfl

/-- The digits behind a point are the fraction. -/
theorem run_fraction (hv : IsDigits v) (hb : ∀ c ∈ b.head?, c.isDigit = false) :
    fraction.run (s.placed a t ('.' :: (v ++ b))) = .ok () (s.placed a (t ++ '.' :: v) b) := by
  obtain ⟨d, u, rfl⟩ := List.exists_cons_of_ne_nil hv.ne_nil
  have hd : d.isDigit = true := hv.digit d List.mem_cons_self
  rw [fraction, run_bind_of_ok (run_look Cursor.peek_between), List.getElem?_cons_zero, if_pos rfl,
    run_bind_of_ok (run_look Cursor.peekNext_between), List.getElem?_cons_succ, List.cons_append,
    List.getElem?_cons_zero, Option.any_some, if_pos hd, run_bind_of_ok (run_next '.'),
    ← List.cons_append, run_advanceWhile hv.digit hb, List.append_assoc]
  rfl

/-- The digits in front are a number, together with the point and the digits behind it if there are
any. -/
theorem takesSome_number {c : Char} (hc : c.isDigit = true) (r : Text) :
    s.TakesSome a (c :: r) ((accept number).run (s.placed a [c] r)) := by
  obtain ⟨w, rest, rfl, hdigit, hstop⟩ := exists_run Char.isDigit r
  have hw : IsDigits (c :: w) := ⟨List.cons_ne_nil c w, List.forall_mem_cons.2 ⟨hc, hdigit⟩⟩
  rw [number, run_accept_bind_of_eq (run_advanceWhile hdigit hstop)]
  by_cases hf : Numeral.fractionAhead rest = []
  · refine ⟨c :: w, rest, .token (.number (Numeral.mk (c :: w) []).value), rfl, ?_⟩
    rw [run_accept_bind_of_eq (run_fraction_nil hf)]
    exact takes_number (.integer hw) ⟨hstop, fun _ => hf⟩ (ofNumeral?_integer hw)
      ⟨c :: w, hw, .inl rfl⟩
  · rw [fractionAhead_eq_nil_iff, Classical.not_imp] at hf
    obtain ⟨hpoint, hbehind⟩ := hf
    obtain ⟨u, rfl⟩ := List.head?_eq_some_iff.1 hpoint
    obtain ⟨f, b, rfl, hdigit', hstop'⟩ := exists_run Char.isDigit u
    have hne : f ≠ [] := by
      rintro rfl
      exact hbehind hstop'
    have hfrac : IsDigits f := ⟨hne, hdigit'⟩
    refine ⟨c :: w ++ '.' :: f, b, .token (.number (Numeral.mk (c :: w) f).value), by simp, ?_⟩
    rw [run_accept_bind_of_eq (run_fraction hfrac hstop')]
    exact takes_number (.decimal hw hfrac) ⟨hstop', fun hpoint' => absurd (by simp) hpoint'⟩
      (ofNumeral?_decimal hw hfrac) ⟨c :: w, hw, .inr ⟨f, hfrac, rfl⟩⟩

theorem takesSome_word {c : Char} (hc : isWordStart c = true) (r : Text) :
    s.TakesSome a (c :: r) ((accept word).run (s.placed a [c] r)) := by
  obtain ⟨w, b, rfl, hw, hb⟩ := exists_run isWordPart r
  have hpiece : Piece (c :: w) (.token (.ofWord (c :: w))) := .word hc hw
  have hends : Ends (c :: w) (.token (.ofWord (c :: w))) b := by
    rw [TokenData.ofWord]
    cases Keyword.ofSpelling? (c :: w) <;> exact hb
  have hdata (accesses : List Access) :
      (TokenData.ofWord (c :: w)).IsReadFrom accesses (c :: w) := by
    rw [TokenData.ofWord]
    cases Keyword.ofSpelling? (c :: w) <;> trivial
  refine ⟨c :: w, b, .token (.ofWord (c :: w)), rfl, ?_⟩
  rw [word, run_accept_bind_of_eq (run_advanceWhile hw hb), run_accept_bind_of_eq run_lexeme]
  exact takes_token _ hpiece hends (List.forall_mem_singleton.2 (isThere_slice a _ b)) (hdata _)

/-! ## Comments -/

/-- The cursor at a position of a source. -/
def cursorAt (source : Text) (p : Position) : Cursor := ⟨source, p.offset, p.line⟩

theorem cursorAt_past (a t : Text) (n : Nat) :
    cursorAt (a ++ t) ((Position.between a t).past n) =
      between (a ++ t.take n) (t.drop n) := by
  rw [Position.past_between]
  simp only [cursorAt, Position.between, Cursor.between, List.append_assoc, List.take_append_drop]

/-- What the first two characters are starts the text. -/
theorem prefix_of_getElem? {c d : Char} (hc : t[0]? = some c) (hd : t[1]? = some d) :
    [c, d] <+: t := by
  cases t with
  | nil => cases hc
  | cons x u =>
    cases hc
    obtain ⟨v, rfl⟩ := List.head?_eq_some_iff.1 (List.head?_eq_getElem? ▸ hd)
    exact ⟨v, rfl⟩

/-- As long as a comment is open, one less is in range. -/
theorem toInt_sub_one {depth : Int32} (h : 0 < depth) :
    (depth - 1).toInt = depth.toInt - (1 : Int32).toInt := by
  have hpos : 0 < depth.toInt := Int32.lt_iff_toInt_lt.1 h
  have hlt := depth.toInt_lt
  rw [Int32.toInt_sub, Int32.toInt_one]
  exact Int.bmod_eq_of_le (by omega) (by omega)

/-- At an opener one more is counted. -/
theorem commentRound_opener (overflow : Overflow) (depth : Int32) (a u : Text) :
    commentRound overflow depth (between a ('/' :: '*' :: u)) =
      (overflow.add depth 1).map fun depth' => some (depth', between (a ++ ['/', '*']) u) := by
  rw [commentRound, Cursor.peek_between, Cursor.peekNext_between, pure_bind, pure_bind]
  simp only [List.getElem?_cons_zero, List.getElem?_cons_succ, Cursor.nth_between, pure_bind]
  cases overflow.add depth 1 <;> rfl

/-- At a closer one less is counted. -/
theorem commentRound_closer (overflow : Overflow) {depth : Int32} (hdepth : 0 < depth)
    (a u : Text) :
    commentRound overflow depth (between a ('*' :: '/' :: u)) =
      pure (some (depth - 1, between (a ++ ['*', '/']) u)) := by
  rw [commentRound, Cursor.peek_between, Cursor.peekNext_between, pure_bind, pure_bind]
  simp only [List.getElem?_cons_zero, List.getElem?_cons_succ, Cursor.nth_between, pure_bind]
  rw [Overflow.sub, Overflow.settle_of_eq (toInt_sub_one hdepth)]
  rfl

/-- Any other character is passed alone. -/
theorem commentRound_other (overflow : Overflow) (depth : Int32) (a : Text) {c : Char} {u : Text}
    (hopener : ¬ ['/', '*'] <+: c :: u) (hcloser : ¬ ['*', '/'] <+: c :: u) :
    commentRound overflow depth (between a (c :: u)) = pure (some (depth, between (a ++ [c]) u)) := by
  rw [commentRound, Cursor.peek_between, Cursor.peekNext_between, pure_bind, pure_bind,
    Cursor.next_between]
  split
  case h_1 hnone => cases hnone
  case h_2 hc hu => exact (hopener (prefix_of_getElem? hc hu)).elim
  case h_3 hc hu => exact (hcloser (prefix_of_getElem? hc hu)).elim
  case h_4 => rfl

/-- **One round at a cursor is one round at its position**, unless the count has no room for one
more comment: then it can be a panic. -/
theorem commentRound_eq_or (overflow : Overflow) {c : BlockComment} (hdepth : 0 < c.depth)
    (hc : c.place = .between a t) :
    commentRound overflow c.depth (between a t) =
        pure (c.round?.map fun b => (b.depth, cursorAt (a ++ t) b.place)) ∨
      overflow = .panics ∧ ¬ c.HasRoom ∧
        commentRound overflow c.depth (between a t) = throw .overflow := by
  cases hround : c.round? with
  | none =>
    have hnil := BlockComment.round?_eq_none_iff.1 hround
    rw [hc] at hnil
    obtain rfl : t = [] := hnil
    refine .inl ?_
    rw [commentRound, Cursor.peek_between, Cursor.peekNext_between]
    rfl
  | some b =>
    cases BlockComment.round_of_round? hround with
    | @opener u hahead =>
      obtain rfl : t = '/' :: '*' :: u := by rwa [hc] at hahead
      have hcursor : cursorAt (a ++ '/' :: '*' :: u) (c.place.past 2) =
          between (a ++ ['/', '*']) u := by
        rw [hc]
        exact cursorAt_past a _ 2
      rw [commentRound_opener, Overflow.add, Option.map_some, hcursor, Int32.toInt_one]
      rcases overflow.settle_eq_pure_or (c.depth + 1) (c.depth.toInt + 1) with
        h | ⟨hpanics, hne, h⟩
      · rw [h]
        exact .inl rfl
      · rw [h]
        exact .inr ⟨hpanics, fun hroom => hne (hroom.toInt_add_one (by simp [hahead])), rfl⟩
    | @closer u hahead =>
      obtain rfl : t = '*' :: '/' :: u := by rwa [hc] at hahead
      refine .inl ?_
      rw [commentRound_closer overflow hdepth, hc, Option.map_some]
      exact congrArg (fun e => pure (some (c.depth - 1, e)))
        (cursorAt_past a ('*' :: '/' :: u) 2).symm
    | @other d u hahead hopener hcloser =>
      obtain rfl : t = d :: u := by rwa [hc] at hahead
      refine .inl ?_
      rw [commentRound_other overflow c.depth a hopener hcloser, hc, Option.map_some]
      exact congrArg (fun e => pure (some (c.depth, e))) (cursorAt_past a (d :: u) 1).symm

theorem closeComment_of_round (overflow : Overflow) {depth : Int32} {c : Cursor}
    {o : Option (Int32 × Cursor)} (hdepth : 0 < depth)
    (h : commentRound overflow depth c = .ok o) :
    closeComment overflow depth c = match o with
      | none => pure (.error .unterminatedBlockComment, c)
      | some (depth', c') => closeComment overflow depth' c' := by
  rw [closeComment, if_pos hdepth]
  split <;> rename_i h' <;> cases h.symm.trans h' <;> rfl

theorem closeComment_of_error (overflow : Overflow) {depth : Int32} {c : Cursor} {panic : Panic}
    (hdepth : 0 < depth) (h : commentRound overflow depth c = .error panic) :
    closeComment overflow depth c = throw panic := by
  rw [closeComment, if_pos hdepth]
  split <;> rename_i h' <;> cases h.symm.trans h'
  rfl

/-- **The loop at a cursor is the loop at its position**, and stops at the cursor of the position
where that one stops. Only without room for the comments that it counts can it panic. -/
theorem exists_closeComment_eq (overflow : Overflow) (c : BlockComment)
    (hc : c.place = .between a t) :
    (∃ n, n ≤ t.length ∧ c.close.2 = c.place.past n ∧
      closeComment overflow c.depth (between a t) =
        pure (c.close.1, between (a ++ t.take n) (t.drop n))) ∨
      overflow = .panics ∧ ¬ c.HasRoom ∧
        closeComment overflow c.depth (between a t) = throw .overflow := by
  fun_induction BlockComment.close c generalizing a t with
  | case1 c hdepth hround =>
    -- the end of the source
    rcases commentRound_eq_or overflow hdepth hc with hcursor | ⟨hpanics, hroom, hcursor⟩
    · rw [hround] at hcursor
      refine .inl ⟨0, Nat.zero_le _, c.place.past_zero.symm, ?_⟩
      rw [closeComment_of_round overflow hdepth hcursor, List.take_zero, List.append_nil,
        List.drop_zero]
      rfl
    · exact .inr ⟨hpanics, hroom, closeComment_of_error overflow hdepth hcursor⟩
  | case2 c hdepth c' hround ih =>
    rcases commentRound_eq_or overflow hdepth hc with hcursor | ⟨hpanics, hroom, hcursor⟩
    · rw [hround] at hcursor
      obtain ⟨n, -, hle, hplace⟩ := BlockComment.exists_past_of_round? hround
      rw [hc, Position.past_between] at hplace
      have hat : cursorAt (a ++ t) c'.place = between (a ++ t.take n) (t.drop n) := by
        rw [hplace, ← Position.past_between, cursorAt_past]
      have hgo : closeComment overflow c.depth (between a t) =
          closeComment overflow c'.depth (between (a ++ t.take n) (t.drop n)) := by
        rw [closeComment_of_round overflow hdepth hcursor, ← hat]
        rfl
      rw [hgo]
      rcases ih hplace with ⟨m, hm, hclose, hrun⟩ | ⟨hpanics, hroom, hrun⟩
      · rw [List.length_drop] at hm
        rw [hc] at hle
        have hlen : (Position.between a t).ahead.length = t.length := rfl
        refine .inl ⟨n + m, by omega, ?_, ?_⟩
        · rw [hclose, hplace, hc, ← Position.past_between, Position.past_past]
        · rw [hrun, List.take_add, ← List.append_assoc, ← List.drop_drop]
      · -- a round keeps the room there is, so it was lacking before
        have hkeep := (BlockComment.round_of_round? hround).hasRoom
        exact .inr ⟨hpanics, fun hroom' => hroom (hkeep hroom' hdepth), hrun⟩
    · exact .inr ⟨hpanics, hroom, closeComment_of_error overflow hdepth hcursor⟩
  | case3 c hdepth =>
    refine .inl ⟨0, Nat.zero_le _, c.place.past_zero.symm, ?_⟩
    rw [closeComment, if_neg hdepth, List.take_zero, List.append_nil, List.drop_zero]

/-- In a short source the loop stops where the comment ends. -/
theorem front_blockComment {result : Except ScanError Unit} {n : Nat} {r : Text} (hn : n ≤ r.length)
    (hlen : r.length + 2 < 2 ^ 32)
    (hread : BlockComment.read (.between (a ++ ['/', '*']) r) =
      (result, (Position.between (a ++ ['/', '*']) r).past n)) :
    front ('/' :: '*' :: r) = ⟨BlockComment.finding result, n + 2⟩ := by
  have hopener : (Position.between a ('/' :: '*' :: r)).past 2 = .between (a ++ ['/', '*']) r :=
    Position.past_between a _ 2
  obtain ⟨result', m, hm, hread', hslash⟩ :=
    BlockComment.exists_slash_eq (p := .between a ('/' :: '*' :: r)) rfl hlen
  rw [← hopener, Position.past_past, hread', Prod.mk.injEq] at hread
  obtain ⟨rfl, hplace⟩ := hread
  have hahead := congrArg (fun q => q.ahead.length) hplace
  simp only [Position.ahead_past, List.length_drop] at hahead
  have hlength : (Position.between a ('/' :: '*' :: r)).ahead.length = r.length + 2 := rfl
  rw [front, munch_slash, hslash, Munch.mk.injEq]
  exact ⟨rfl, by omega⟩

theorem resultOf_finding (result : Except ScanError Unit) :
    resultOf (BlockComment.finding result) = result := by
  cases result <;> rfl

/-- **The count of open comments goes out of range** in the text `r`, which then is long, and that
is a panic. Nothing has been asked for since `s`. -/
structure Overflows {α : Type} (s : Scanner) (overflow : Overflow) (r : Text) (x : Outcome α) :
    Prop where
  panics : overflow = .panics
  le_length : 2 ^ 32 ≤ r.length
  exists_eq : ∃ s', x = .error .overflow s' ∧ s'.accesses = s.accesses ∧ s'.tokens = s.tokens

theorem run_move_of_error {α : Type} {f : Cursor → Attempt (α × Cursor)} {panic : Panic}
    (h : f s.cursor = throw panic) : (move f).run s = .error panic s := by
  have hget : (get : Scanning Scanner).run s = .ok _ _ := rfl
  have hmove : (attempt (f s.cursor)).run s = .error panic s := by
    rw [h]
    rfl
  rw [move, run_bind_of_ok hget, run_bind_of_error hmove]

/-- **A block comment** is taken as far as its loop goes. -/
theorem takesSome_blockComment (overflow : Overflow) (r : Text) :
    s.TakesSome a ('/' :: '*' :: r) ((blockComment overflow).run (s.placed a ['/', '*'] r)) ∨
      s.Overflows overflow ('/' :: '*' :: r)
        ((blockComment overflow).run (s.placed a ['/', '*'] r)) := by
  rcases exists_closeComment_eq overflow (.start (.between (a ++ ['/', '*']) r)) rfl with
    ⟨n, hn, hclose, hrun⟩ | ⟨hpanics, hroom, hrun⟩
  · rcases hread : BlockComment.read (.between (a ++ ['/', '*']) r) with ⟨result, q⟩
    rw [← BlockComment.read, hread] at hclose hrun
    obtain rfl : q = (Position.between (a ++ ['/', '*']) r).past n := hclose
    have hmove := run_move_placed (s := s) (a := a) (t := ['/', '*']) (u := r.take n)
      (b := r.drop n) (f := closeComment overflow 1) (x := result)
      (by rwa [List.take_append_drop])
    rw [List.take_append_drop] at hmove
    have htokens : tokensOf a (['/', '*'] ++ r.take n) (BlockComment.finding result) = [] := by
      cases result <;> rfl
    refine .inl ⟨['/', '*'] ++ r.take n, r.drop n, BlockComment.finding result, by simp,
      exists_eq_of_nil htokens ?_, List.cons_ne_nil _ _, fun hlen => ?_⟩
    · rw [resultOf_finding]
      exact hmove
    · rw [List.append_assoc, List.take_append_drop] at hlen ⊢
      rw [List.length_append, List.length_take_of_le hn]
      have hfront := front_blockComment hn hlen hread
      rwa [Nat.add_comm] at hfront
  · refine .inr ⟨hpanics, Nat.le_of_not_lt fun hlt => hroom (BlockComment.hasRoom_start hlt), ?_⟩
    exact ⟨_, run_move_of_error (s := s.placed a ['/', '*'] r) hrun, rfl, rfl⟩

theorem takesSome_slash (overflow : Overflow) (r : Text) :
    s.TakesSome a ('/' :: r) ((slash overflow).run (s.placed a ['/'] r)) ∨
      s.Overflows overflow ('/' :: r) ((slash overflow).run (s.placed a ['/'] r)) := by
  rw [slash]
  by_cases hline : r.head? = some '/'
  · obtain ⟨r, rfl⟩ := List.head?_eq_some_iff.1 hline
    obtain ⟨v, b, rfl, hv, hb⟩ := exists_run (· != '\n') r
    have hmem : '\n' ∉ v := fun h => absurd (hv _ h) (by decide)
    refine .inl ⟨'/' :: '/' :: v, b, .trivia, rfl, takes_trivia (.lineComment hmem)
      (fun _ c hc => by simpa using hb c hc) ?_⟩
    rw [run_bind_of_ok (run_advanceIf_self '/'), if_pos rfl, run_accept (run_advanceWhile hv hb)]
    rfl
  have hne : ∀ d ∈ r.head?, d ≠ '/' := fun d hd hd' => hline (hd' ▸ hd)
  rw [run_bind_of_ok (run_advanceIf_of_ne hne), if_neg Bool.false_ne_true]
  by_cases hblock : r.head? = some '*'
  · obtain ⟨r, rfl⟩ := List.head?_eq_some_iff.1 hblock
    rw [run_bind_of_ok (run_advanceIf_self '*'), if_pos rfl]
    exact takesSome_blockComment overflow r
  · have hne' : ∀ d ∈ r.head?, d ≠ '*' := fun d hd hd' => hblock (hd' ▸ hd)
    rw [run_bind_of_ok (run_advanceIf_of_ne hne'), if_neg Bool.false_ne_true]
    refine .inl ⟨Symbol.slash.spelling, r, .token (.symbol .slash), rfl,
      takes_symbol fun d hd => ?_⟩
    simp [joins, hne d hd, hne' d hd]

/-! ## Any character -/

/-- How the symbols start. -/
theorem exists_spelling_eq (symbol : Symbol) : ∃ c t, symbol.spelling = c :: t ∧
    (single? c ≠ none ∨ withEqual? c ≠ none ∨ c = '/') := by
  cases symbol <;> exact ⟨_, _, rfl, by decide⟩

/-- A character that starts nothing is a fault by itself. -/
theorem front_unexpected {c : Char} {r : Text} (hsingle : single? c = none)
    (hequal : withEqual? c = none) (hslash : c ≠ '/') (hblank : isBlank c = false)
    (hquote : c ≠ '"') (hdigit : c.isDigit = false) (hword : isWordStart c = false) :
    front (c :: r) = ⟨.fault (.unexpectedCharacter c), 1⟩ := by
  have hnone : Symbol.ahead? (c :: r) = none := by
    cases h : Symbol.ahead? (c :: r) with
    | none => rfl
    | some symbol =>
      obtain ⟨rest, hrest⟩ := prefix_of_ahead? h
      obtain ⟨d, t, hspelling, hd⟩ := exists_spelling_eq symbol
      rw [hspelling, List.cons_append, List.cons.injEq] at hrest
      obtain ⟨rfl, -⟩ := hrest
      rcases hd with hd | hd | hd
      · exact absurd hsingle hd
      · exact absurd hequal hd
      · exact absurd hd hslash
  rw [front, munch, hblank, if_neg Bool.false_ne_true, if_neg hquote, if_neg hslash, hdigit,
    if_neg Bool.false_ne_true, hword, if_neg Bool.false_ne_true, Munch.symbol, hnone]

/-- **Whatever character has been passed**, what starts with it is taken, as long as the count of
open comments stays in range. -/
theorem takesSome_classify (overflow : Overflow) (c : Char) (r : Text) :
    s.TakesSome a (c :: r) ((classify overflow c).run (s.placed a [c] r)) ∨
      s.Overflows overflow (c :: r) ((classify overflow c).run (s.placed a [c] r)) := by
  unfold classify
  split
  case h_1 symbol _ hsingle => exact .inl ⟨[c], r, _, rfl, takes_single hsingle⟩
  case h_2 matched otherwise _ hequal => exact .inl (takesSome_withEqual r hequal)
  case h_3 hsingle hequal =>
    by_cases hslash : c = '/'
    · subst hslash
      exact takesSome_slash overflow r
    refine .inl ?_
    rw [if_neg hslash]
    by_cases hblank : isBlank c = true
    · rw [if_pos hblank]
      have hends : Ends [c] .trivia r := fun hprefix => absurd hprefix.length_le (by simp)
      exact ⟨[c], r, .trivia, rfl, takes_trivia (.blank (isBlank_iff_mem.1 hblank)) hends rfl⟩
    rw [if_neg hblank]
    by_cases hquote : c = '"'
    · subst hquote
      exact takesSome_string r
    rw [if_neg hquote]
    by_cases hdigit : c.isDigit = true
    · rw [if_pos hdigit]
      exact takesSome_number hdigit r
    rw [if_neg hdigit]
    by_cases hword : isWordStart c = true
    · rw [if_pos hword]
      exact takesSome_word hword r
    rw [if_neg hword]
    refine ⟨[c], r, .fault (.unexpectedCharacter c), rfl, exists_eq_of_nil rfl rfl,
      List.cons_ne_nil _ _, fun _ => ?_⟩
    rw [Bool.not_eq_true] at hblank hdigit hword
    exact front_unexpected hsingle hequal hslash hblank hquote hdigit hword

/-! ## Rounds -/

/-- What is reported where this is found. -/
def faultsOf (a t : Text) : Finding → Diagnostics
  | .fault error => [⟨1 + lineBreaks (a ++ t), [], error.message⟩]
  | _ => []

/-- **A round** behind `a` takes `t`, which it finds to be `f`, and leaves `b`. It reports `f` if it
is a fault. -/
structure Rounds (s : Scanner) (overflow : Overflow) (a t b : Text) (f : Finding) (s' : Scanner) :
    Prop where
  cursor : s.cursor = between a (t ++ b)
  run_eq : (round overflow).run s = .ok () s'
  start_eq : s'.start = s.cursor
  cursor_eq : s'.cursor = between (a ++ t) b
  tokens_eq : s'.tokens = s.tokens ++ tokensOf a t f
  reports_eq : s'.reports = s.reports ++ faultsOf a t f
  accesses_eq : ∃ accesses, s'.accesses = s.accesses ++ accesses ∧
    Asked (a ++ (t ++ b)) accesses (tokensOf a t f)
  ne_nil : t ≠ []
  /-- In a short source it is what stands there. -/
  front_eq : (t ++ b).length < 2 ^ 32 → front (t ++ b) = ⟨f, t.length⟩

/-- In front of a character a round reads what starts with it. -/
theorem run_round (overflow : Overflow) {c : Char} {r : Text} (hs : s.cursor = between a (c :: r)) :
    (round overflow).run s = (classify overflow c >>= report).run (s.placed a [c] r) := by
  have hstart : { s with start := s.cursor } = s.placed a [] (c :: r) := by
    rw [placed, hs, List.nil_append, List.append_nil, ← hs]
  have hround : (round overflow).run s =
      (scanToken overflow >>= report).run (s.placed a [] (c :: r)) := by
    rw [← hstart]
    rfl
  rw [hround, scanToken, bind_assoc, run_bind_of_ok (run_next c)]
  rfl

/-- In front of the end of the source there is a round, as long as the count of open comments stays
in range. -/
theorem exists_rounds (overflow : Overflow) {c : Char} {r : Text}
    (hs : s.cursor = between a (c :: r)) :
    (∃ t b f s', c :: r = t ++ b ∧ s.Rounds overflow a t b f s') ∨
      s.Overflows overflow (c :: r) ((round overflow).run s) := by
  have hround := run_round overflow hs
  rcases s.takesSome_classify (a := a) overflow c r with
    ⟨t, b, f, hr, ⟨accesses, hasked, hrun⟩, hne, hfront⟩ | ⟨hpanics, hlen, s', hrun, hkept⟩
  · rw [run_bind_of_ok hrun] at hround
    refine .inl ⟨t, b, f, { (s.add accesses (tokensOf a t f)).placed a t b with
      reports := s.reports ++ faultsOf a t f }, hr, hr ▸ hs, ?_, ?_, rfl, rfl, rfl,
      ⟨accesses, rfl, hasked⟩, hne, hfront⟩
    · rw [hround]
      cases f with
      | token | trivia =>
        simp only [faultsOf, List.append_nil]
        rfl
      | fault => rfl
    · rw [hs, hr]
      rfl
  · exact .inr ⟨hpanics, hlen, s', hround.trans (run_bind_of_error hrun), hkept⟩

end Scanner

end Lox
