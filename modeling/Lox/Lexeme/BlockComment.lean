import Lox.Lexeme
import Lox.Text.Position
/-!
# Reading a block comment

Behind the opener of a block comment a loop moves on through the source and
counts the comments that are open, in a signed machine integer of 32 bits.
Each round looks at the next two characters: an opener or a closer is passed
as a whole and counted, and any other character is passed alone. The loop ends
when no comment is open any more, or at the end of the source.
-/


namespace Lox

/-- A block comment of which the front has been read. -/
structure BlockComment where
  /-- How far it has been read. -/
  place : Position
  /-- How many comments are open there. The count wraps around. -/
  depth : Int32
deriving DecidableEq

namespace BlockComment

/-- A comment of which the opener alone has been read. -/
def start (p : Position) : BlockComment := ⟨p, 1⟩

/-- **One round.** There is none at the end of the source. -/
def round? (b : BlockComment) : Option BlockComment :=
  match b.place.peek?, b.place.peekNext? with
  | none, _ => none
  | some '/', some '*' => some ⟨(b.place.nth 1).2, b.depth + 1⟩
  | some '*', some '/' => some ⟨(b.place.nth 1).2, b.depth - 1⟩
  | _, _ => some ⟨b.place.next.2, b.depth⟩

/-- What a round can do, by what stands ahead. -/
inductive Round (b : BlockComment) : BlockComment → Prop
  | opener {t : Text} :
      b.place.ahead = '/' :: '*' :: t → Round b ⟨b.place.past 2, b.depth + 1⟩
  | closer {t : Text} :
      b.place.ahead = '*' :: '/' :: t → Round b ⟨b.place.past 2, b.depth - 1⟩
  | other {c : Char} {t : Text} : b.place.ahead = c :: t → ¬ ['/', '*'] <+: c :: t →
      ¬ ['*', '/'] <+: c :: t → Round b ⟨b.place.past 1, b.depth⟩

/-- A round is lacking only at the end of the source. -/
theorem round?_eq_none_iff {b : BlockComment} : b.round? = none ↔ b.place.ahead = [] := by
  constructor
  · intro h
    unfold round? at h
    split at h
    · rename_i hnone
      exact List.length_eq_zero_iff.1 (Nat.le_zero.1 (List.getElem?_eq_none_iff.1 hnone))
    all_goals cases h
  · intro h
    simp [round?, Position.peek?, h]

/-- **A round does what stands ahead.** -/
theorem round_of_round? {b b' : BlockComment} (h : b.round? = some b') : b.Round b' := by
  unfold round? Position.peek? Position.peekNext? at h
  cases hahead : b.place.ahead with
  | nil => simp [hahead] at h
  | cons c t =>
    rw [hahead, List.getElem?_cons_zero, List.getElem?_cons_succ, ← List.head?_eq_getElem?] at h
    split at h
    · cases h
    · rename_i hc ht
      cases hc
      obtain ⟨u, rfl⟩ := List.head?_eq_some_iff.1 ht
      cases h
      exact .opener hahead
    · rename_i hc ht
      cases hc
      obtain ⟨u, rfl⟩ := List.head?_eq_some_iff.1 ht
      cases h
      exact .closer hahead
    · rename_i hopen hclose
      cases h
      refine .other hahead ?_ ?_
      · rintro ⟨u, hu⟩
        cases hu
        exact hopen rfl rfl
      · rintro ⟨u, hu⟩
        cases hu
        exact hclose rfl rfl

/-- **Every round moves on** by one or two characters that are there. -/
theorem exists_past_of_round? {b b' : BlockComment} (h : b.round? = some b') :
    ∃ n, 0 < n ∧ n ≤ b.place.ahead.length ∧ b'.place = b.place.past n := by
  cases round_of_round? h with
  | opener hahead | closer hahead => exact ⟨2, Nat.two_pos, by simp [hahead], rfl⟩
  | other hahead => exact ⟨1, Nat.one_pos, by simp [hahead], rfl⟩

/-- So less of the source is ahead. -/
theorem length_ahead_lt {b b' : BlockComment} (h : b.round? = some b') :
    b'.place.ahead.length < b.place.ahead.length := by
  obtain ⟨n, hpos, hle, hplace⟩ := exists_past_of_round? h
  rw [hplace, Position.ahead_past, List.length_drop]
  omega

/-- **Goes on until no comment is open**, and gives the place reached. -/
def close (b : BlockComment) : Except ScanError Unit × Position :=
  if 0 < b.depth then
    match _h : b.round? with
    | none => (.error .unterminatedBlockComment, b.place)
    | some b' => close b'
  else
    (.ok (), b.place)
termination_by b.place.ahead.length
decreasing_by exact length_ahead_lt _h

/-- Reads the block comment whose opener has just been passed. -/
def read (p : Position) : Except ScanError Unit × Position := close (start p)

/-- What a comment that was read with this result is in a scan. -/
def finding : Except ScanError Unit → Finding
  | .ok _ => .trivia
  | .error error => .fault error

end BlockComment

end Lox
