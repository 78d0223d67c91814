import Lox.Attempt
import Lox.Segment
import Lox.Text.Cursor
/-!
# Scanners

A scanner works on a source with two cursors, one at the start of the lexeme
that it reads and one that moves ahead. Each round it passes a character,
decides by it what to look for, and passes what belongs to that; the lexeme is
the slice between the cursors. What it asks for on the way, a slice or the
number that a lexeme spells, could lack, and then it panics. So it does where
the count of open comments goes out of range, if it is built that way. What it
has asked for is put down, and nothing depends on that.
-/


namespace Lox

/-- What a scanner asks for. -/
inductive Access
  /-- The text between the cursor at the start of a lexeme and the one ahead. -/
  | lexeme (start stop : Cursor)
  /-- A quoted text without its first and its last byte. -/
  | unquoted (quoted : Text)
  /-- The number that a text spells. -/
  | number (spelling : Text)
deriving DecidableEq

/-- What a scanner works on. -/
structure Scanner where
  /-- The cursor at the start of the lexeme. -/
  start : Cursor
  cursor : Cursor
  /-- The tokens so far. -/
  tokens : List Token
  /-- The reports so far. -/
  reports : Diagnostics
  /-- What has been asked for so far. -/
  accesses : List Access
deriving DecidableEq

/-- A computation on a scanner that may panic. What has been done up to then stays done. -/
abbrev Scanning := EStateM Panic Scanner

/-- What such a computation comes to: a result or a panic, and the scanner that it leaves. -/
abbrev Scanner.Outcome := EStateM.Result Panic Scanner

namespace Scanner

/-- A scanner in front of a source. -/
def ofSource (source : Text) : Scanner := ⟨.start source, .start source, [], [], []⟩

/-- An attempt leaves the scanner as it is. -/
def attempt {α : Type} (x : Attempt α) : Scanning α := fun s =>
  match x with
  | .ok a => .ok a s
  | .error panic => .error panic s

/-! ## What is asked for -/

/-- Puts down what is asked for, and gives what there is of it. -/
def ask {α : Type} (a : Access) (x : Attempt α) : Scanning α := do
  modify fun s => { s with accesses := s.accesses ++ [a] }
  attempt x

/-- The text passed since the start of the lexeme. -/
def lexeme : Scanning Text := do
  let s ← get
  ask (.lexeme s.start s.cursor) (s.cursor.sliceFrom s.start)

/-- A quoted text without the quotes. -/
def unquoted (quoted : Text) : Scanning Text :=
  ask (.unquoted quoted) (.demand .noSlice (Text.slice? quoted 1 (Text.utf8Size quoted - 1)))

/-- The number that a text spells. -/
def numberOf (spelling : Text) : Scanning Number :=
  ask (.number spelling) (.demand .noNumeral (Number.ofNumeral? spelling))

/-! ## What is done -/

/-- Moves the cursor. -/
def move {α : Type} (f : Cursor → Attempt (α × Cursor)) : Scanning α := do
  let (a, cursor) ← attempt (f (← get).cursor)
  modify fun s => { s with cursor }
  return a

/-- Looks at what is in front of the cursor. -/
def look {α : Type} (f : Cursor → Attempt α) : Scanning α := do attempt (f (← get).cursor)

/-- Adds a token with the text passed. -/
def addToken (data : TokenData) : Scanning Unit := do
  let text ← lexeme
  modify fun s => { s with tokens := s.tokens ++ [⟨data, text, s.start.line⟩] }

/-- Adds the first token if `expected` follows, and passes it, or else the second one. -/
def addTokenIf (expected : Char) (matched otherwise : TokenData) : Scanning Unit := do
  if ← move (·.advanceIf expected) then addToken matched else addToken otherwise

/-! ## Block comments -/

variable (overflow : Overflow)

/-- One round of reading a block comment: how many comments are open behind what it passes, and the
cursor there. There is no round at the end of the source. -/
def commentRound (depth : Int32) (c : Cursor) : Attempt (Option (Int32 × Cursor)) := do
  match ← c.peek, ← c.peekNext with
  | none, _ => return none
  | some '/', some '*' =>
    let (_, c) ← c.nth 1
    return some (← overflow.add depth 1, c)
  | some '*', some '/' =>
    let (_, c) ← c.nth 1
    return some (← overflow.sub depth 1, c)
  | _, _ => return some (depth, (← c.next).2)

theorem ensures_commentRound (depth : Int32) (c : Cursor) :
    (commentRound overflow depth c).Ensures fun o => ∀ r ∈ o, r.2.left < c.left := by
  refine (Attempt.ensures_self c.peek).bind fun o ho => ?_
  refine (Attempt.ensures_self c.peekNext).bind fun o' _ => ?_
  have hend := Cursor.isAtEnd_of_peek ho
  split
  · exact .pure nofun
  · refine (Cursor.ensures_nth_lt hend 1).bind fun r hr => ?_
    exact (Attempt.ensures_self (overflow.add depth 1)).bind fun _ _ => .pure (by simpa using hr)
  · refine (Cursor.ensures_nth_lt hend 1).bind fun r hr => ?_
    exact (Attempt.ensures_self (overflow.sub depth 1)).bind fun _ _ => .pure (by simpa using hr)
  · rename_i hnone _ _
    cases o with
    | none => exact absurd rfl hnone
    | some x => exact (Cursor.ensures_next_lt hend).bind fun r hr => .pure (by simpa using hr)

/-- Goes on until no comment is open. -/
def closeComment (depth : Int32) (c : Cursor) : Attempt (Except ScanError Unit × Cursor) :=
  if 0 < depth then
    match _h : commentRound overflow depth c with
    | .error panic => throw panic
    | .ok none => return (.error .unterminatedBlockComment, c)
    | .ok (some (depth', c')) => closeComment depth' c'
  else
    return (.ok (), c)
termination_by c.left
decreasing_by exact ensures_commentRound _ _ _ _ _h _ rfl

/-- Reads the block comment whose opener has just been passed. -/
def blockComment : Scanning (Except ScanError Unit) := move (closeComment overflow 1)

/-! ## What stands behind a character -/

/-- Reads what cannot be at fault. -/
def accept (x : Scanning Unit) : Scanning (Except ScanError Unit) := do
  x
  return .ok ()

/-- Reads what starts with a slash. -/
def slash : Scanning (Except ScanError Unit) := do
  if ← move (·.advanceIf '/') then
    accept (move (·.advanceWhile (· != '\n')))
  else if ← move (·.advanceIf '*') then
    blockComment overflow
  else
    accept (addToken (.symbol .slash))

/-- Reads a quoted text. -/
def string : Scanning (Except ScanError Unit) := do
  move (·.advanceWhile (· != '"'))
  if ← move (·.advanceIf '"') then
    let value ← unquoted (← lexeme)
    accept (addToken (.str value))
  else
    return .error .unterminatedString

/-- Reads the point of a number and the digits behind it, if there are any. -/
def fraction : Scanning Unit := do
  if (← look Cursor.peek) = some '.' then
    if (← look Cursor.peekNext).any Char.isDigit then
      let _ ← move Cursor.next
      move (·.advanceWhile Char.isDigit)

/-- Reads a number. -/
def number : Scanning Unit := do
  move (·.advanceWhile Char.isDigit)
  fraction
  let value ← numberOf (← lexeme)
  addToken (.number value)

/-- Reads a word. -/
def word : Scanning Unit := do
  move (·.advanceWhile isWordPart)
  addToken (.ofWord (← lexeme))

/-- The symbol that a character is whatever follows it. -/
def single? : Char → Option Symbol
  | '(' => some .leftParen
  | ')' => some .rightParen
  | '\x7b' => some .leftBrace
  | '\x7d' => some .rightBrace
  | ',' => some .comma
  | '.' => some .dot
  | '-' => some .minus
  | '+' => some .plus
  | ';' => some .semicolon
  | '*' => some .star
  | _ => none

/-- The symbols that a character is with an equals sign behind it and without one. -/
def withEqual? : Char → Option (Symbol × Symbol)
  | '!' => some (.bangEqual, .bang)
  | '=' => some (.equalEqual, .equal)
  | '<' => some (.lessEqual, .less)
  | '>' => some (.greaterEqual, .greater)
  | _ => none

/-- Reads what starts with the character `c`, which has just been passed. -/
def classify (c : Char) : Scanning (Except ScanError Unit) :=
  match single? c, withEqual? c with
  | some symbol, _ => accept (addToken (.symbol symbol))
  | none, some (matched, otherwise) =>
    accept (addTokenIf '=' (.symbol matched) (.symbol otherwise))
  | none, none =>
    if c = '/' then slash overflow
    else if isBlank c then return .ok ()
    else if c = '"' then string
    else if c.isDigit then accept number
    else if isWordStart c then accept word
    else return .error (.unexpectedCharacter c)

/-- Reads what is in front of the cursor. -/
def scanToken : Scanning (Except ScanError Unit) := do
  match ← move Cursor.next with
  | none => return .ok ()
  | some c => classify overflow c

/-- Reports a fault where it was met. -/
def report : Except ScanError Unit → Scanning Unit
  | .ok _ => return ()
  | .error e => modify fun s => { s with reports := s.reports ++ [⟨s.cursor.line, [], e.message⟩] }

/-- **One round.** -/
def round : Scanning Unit := do
  modify fun s => { s with start := s.cursor }
  report (← scanToken overflow)

/-! ## Rounds go forward -/

/-- If there is a result, it satisfies `P`, and so does the scanner that it leaves. -/
def Ensures {α : Type} (x : Scanning α) (s : Scanner) (P : α → Scanner → Prop) : Prop :=
  ∀ a s', x.run s = .ok a s' → P a s'

/-- A computation does not bring bytes back that are passed. -/
def Forward {α : Type} (x : Scanning α) : Prop :=
  ∀ s, Ensures x s fun _ s' => s'.cursor.left ≤ s.cursor.left

variable {α β : Type} {x : Scanning α} {f : α → Scanning β} {s s' : Scanner}

/-- A step that gives a result is passed over, -/
theorem run_bind_of_ok {a : α} (h : x.run s = .ok a s') : (x >>= f).run s = (f a).run s' := by
  show EStateM.bind x f s = f a s'
  rw [EStateM.run] at h
  rw [EStateM.bind, h]

/-- and one that panics ends it all. -/
theorem run_bind_of_error {panic : Panic} (h : x.run s = .error panic s') :
    (x >>= f).run s = .error panic s' := by
  show EStateM.bind x f s = _
  rw [EStateM.run] at h
  rw [EStateM.bind, h]

theorem Ensures.pure {a : α} {P : α → Scanner → Prop} (h : P a s) : Ensures (pure a) s P := by
  intro b s' hrun
  cases hrun
  exact h

/-- What holds of the result is there to go on with. -/
theorem Ensures.bind {P : α → Scanner → Prop} {Q : β → Scanner → Prop} (hx : Ensures x s P)
    (hf : ∀ a s', P a s' → Ensures (f a) s' Q) : Ensures (x >>= f) s Q := by
  intro b s'' h
  cases hrun : x.run s with
  | error panic s' => cases (run_bind_of_error hrun).symm.trans h
  | ok a s' => exact hf a s' (hx a s' hrun) b s'' ((run_bind_of_ok hrun).symm.trans h)

theorem ensures_attempt {y : Attempt α} {P : α → Prop} (hy : y.Ensures P) :
    Ensures (attempt y) s fun a s' => P a ∧ s' = s := by
  intro a s' hrun
  cases y with
  | error panic => cases hrun
  | ok b =>
    cases hrun
    exact ⟨hy a rfl, rfl⟩

/-- A move leaves the scanner with the cursor that it gives. -/
theorem ensures_move {g : Cursor → Attempt (α × Cursor)} {P : α × Cursor → Prop}
    (hg : (g s.cursor).Ensures P) : Ensures (move g) s fun a s' => P (a, s'.cursor) :=
  (ensures_attempt hg).bind fun r s' hr => Ensures.pure (s := { s' with cursor := r.2 }) hr.1

theorem Forward.pure (a : α) : Forward (pure a) := fun _ => .pure (Nat.le_refl _)

theorem Forward.bind (hx : Forward x) (hf : ∀ a, Forward (f a)) : Forward (x >>= f) := fun s =>
  (hx s).bind fun a s' hle b s'' h => Nat.le_trans (hf a s' b s'' h) hle

theorem forward_attempt (y : Attempt α) : Forward (attempt y) := by
  intro s a s' h
  obtain ⟨-, rfl⟩ := ensures_attempt y.ensures_self a s' h
  exact Nat.le_refl _

theorem forward_move {g : Cursor → Attempt (α × Cursor)} (hg : Cursor.Forward g) :
    Forward (move g) := fun s => ensures_move (hg s.cursor)

theorem forward_look (g : Cursor → Attempt α) : Forward (look g) := fun s =>
  forward_attempt (g s.cursor) s

theorem forward_ask (a : Access) (y : Attempt α) : Forward (ask a y) := fun s =>
  forward_attempt y { s with accesses := s.accesses ++ [a] }

theorem forward_lexeme : Forward lexeme := fun s =>
  forward_ask (.lexeme s.start s.cursor) (s.cursor.sliceFrom s.start) s

theorem forward_addToken (data : TokenData) : Forward (addToken data) :=
  forward_lexeme.bind fun text s =>
    Ensures.pure (s := { s with tokens := s.tokens ++ [⟨data, text, s.start.line⟩] })
      (Nat.le_refl _)

theorem forward_closeComment (depth : Int32) :
    Cursor.Forward (closeComment overflow depth) := by
  intro c
  fun_induction closeComment overflow depth c with
  | case1 => exact .throw
  | case2 => exact .pure (Nat.le_refl _)
  | case3 depth c hpos depth' c' hround ih =>
    exact fun r hr => Nat.le_trans (ih r hr)
      (Nat.le_of_lt (ensures_commentRound overflow depth c _ hround _ rfl))
  | case4 => exact .pure (Nat.le_refl _)

theorem forward_accept {x : Scanning Unit} (hx : Forward x) : Forward (accept x) :=
  hx.bind fun _ => .pure _

theorem forward_slash : Forward (slash overflow) := by
  refine (forward_move (Cursor.forward_advanceIf '/')).bind fun line => ?_
  split
  · exact forward_accept (forward_move (Cursor.forward_advanceWhile _))
  refine (forward_move (Cursor.forward_advanceIf '*')).bind fun block => ?_
  split
  · exact forward_move (forward_closeComment overflow 1)
  · exact forward_accept (forward_addToken _)

theorem forward_string : Forward string := by
  refine (forward_move (Cursor.forward_advanceWhile _)).bind fun _ => ?_
  refine (forward_move (Cursor.forward_advanceIf '"')).bind fun closed => ?_
  split
  · exact forward_lexeme.bind fun _ => (forward_ask _ _).bind fun _ =>
      forward_accept (forward_addToken _)
  · exact .pure _

theorem forward_number : Forward number := by
  refine (forward_move (Cursor.forward_advanceWhile _)).bind fun _ => Forward.bind ?_ fun _ => ?_
  · refine (forward_look _).bind fun o => ?_
    split
    · refine (forward_look _).bind fun o' => ?_
      split
      · exact (forward_move Cursor.forward_next).bind fun _ =>
          forward_move (Cursor.forward_advanceWhile _)
      · exact .pure _
    · exact .pure _
  · exact forward_lexeme.bind fun _ => (forward_ask _ _).bind fun _ => forward_addToken _

theorem forward_word : Forward word :=
  (forward_move (Cursor.forward_advanceWhile _)).bind fun _ =>
    forward_lexeme.bind fun _ => forward_addToken _

theorem forward_classify (c : Char) : Forward (classify overflow c) := by
  unfold classify
  split
  · exact forward_accept (forward_addToken _)
  · refine forward_accept ((forward_move (Cursor.forward_advanceIf '=')).bind fun joined => ?_)
    split
    · exact forward_addToken _
    · exact forward_addToken _
  · split
    · exact forward_slash overflow
    split
    · exact .pure _
    split
    · exact forward_string
    split
    · exact forward_accept forward_number
    split
    · exact forward_accept forward_word
    · exact .pure _

/-- **A round in front of the end moves on.** -/
theorem ensures_round (hs : s.cursor.isAtEnd = false) :
    Ensures (round overflow) s fun _ s' => s'.cursor.left < s.cursor.left := by
  have htoken : Ensures (scanToken overflow) { s with start := s.cursor } fun _ s' =>
      s'.cursor.left < s.cursor.left := by
    refine (ensures_move (s := { s with start := s.cursor })
      (Cursor.ensures_next_lt hs)).bind fun o s' hlt => ?_
    cases o with
    | none => exact .pure hlt
    | some c => exact fun a s'' h => Nat.lt_of_le_of_lt (forward_classify overflow c s' a s'' h) hlt
  refine Ensures.bind (P := fun _ s' => s' = { s with start := s.cursor }) ?_ ?_
  · exact Ensures.pure (s := { s with start := s.cursor }) rfl
  rintro _ _ rfl
  refine htoken.bind fun result s' hlt => ?_
  cases result with
  | ok => exact .pure hlt
  | error e =>
    exact Ensures.pure (s := { s' with reports := s'.reports ++ [⟨s'.cursor.line, [], e.message⟩] })
      hlt

/-- Makes rounds up to the end of the source, and adds the end marker. -/
def scanTokens (s : Scanner) : Outcome Unit :=
  if _hs : s.cursor.isAtEnd = true then
    .ok () { s with tokens := s.tokens ++ [.eof s.cursor.line] }
  else
    match _h : (round overflow).run s with
    | .error panic s' => .error panic s'
    | .ok _ s' => scanTokens s'
termination_by s.cursor.left
decreasing_by exact ensures_round _ (Bool.eq_false_iff.2 _hs) _ _ _h

/-- **Scans a source.** -/
def scan (source : Text) : Attempt Scan :=
  match (ofSource source).scanTokens overflow with
  | .ok _ s => return ⟨s.tokens, s.reports⟩
  | .error panic _ => throw panic

end Scanner

end Lox
