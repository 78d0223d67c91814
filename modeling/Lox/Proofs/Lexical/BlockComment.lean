import Lox.Lexeme.BlockComment
import Lox.Proofs.Lexical.Lines
import Mathlib.Algebra.Ring.Int.Defs
import Mathlib.Algebra.Ring.Nat
/-!
# The comment loop and the nesting of comments

What closes a block comment can be found by reading: a comment inside is read
to its end before the outer one goes on. The loop keeps no such readings, only
their number. What ties the two together is that the readings still pending
are all alike, so that a count of them says what is left behind the last one
(`Round.readOpen?_eq`). The count has room for every opener that is still
ahead, two characters each, and hence never wraps around.
-/


namespace Lox

namespace Comment

/-! ## The recursion -/

/-- Reads the text behind an opener up to where its comment is closed, and gives what is left, which
is shorter. -/
def readShorter? : (t : Text) → Option {rest : Text // rest.length < t.length}
  | [] => none
  | '*' :: '/' :: t => some ⟨t, Nat.lt_succ_of_lt (Nat.lt_succ_self _)⟩
  | '/' :: '*' :: t => do
    let ⟨u, hu⟩ ← readShorter? t
    let ⟨v, hv⟩ ← readShorter? u
    return ⟨v, Nat.lt_succ_of_lt (Nat.lt_succ_of_lt (Nat.lt_trans hv hu))⟩
  | _ :: t => do
    let ⟨u, hu⟩ ← readShorter? t
    return ⟨u, Nat.lt_succ_of_lt hu⟩
termination_by t => t.length
decreasing_by all_goals simp only [List.length_cons]; omega

/-- **What is left behind a block comment** whose opener is followed by `t`, if it is closed. -/
def read? (t : Text) : Option Text := (readShorter? t).map Subtype.val

@[simp] theorem read?_nil : read? [] = none := by
  simp [read?, readShorter?]

@[simp] theorem read?_closer (t : Text) : read? ('*' :: '/' :: t) = some t := by
  simp [read?, readShorter?]

/-- A comment inside is read first, and then what is left behind it. -/
@[simp] theorem read?_opener (t : Text) : read? ('/' :: '*' :: t) = (read? t).bind read? := by
  rw [read?, readShorter?, read?]
  cases readShorter? t with
  | none => rfl
  | some u =>
    simp only [Option.bind_eq_bind, Option.bind_some, Option.map_some, read?]
    cases readShorter? u.val with
    | none => rfl
    | some v => rfl

theorem read?_other {c : Char} {t : Text} (ho : ¬ ['/', '*'] <+: c :: t)
    (hc : ¬ ['*', '/'] <+: c :: t) : read? (c :: t) = read? t := by
  have hopen : ∀ u, c = '/' → t = '*' :: u → False := by
    rintro u rfl rfl
    exact ho ⟨u, rfl⟩
  have hclose : ∀ u, c = '*' → t = '/' :: u → False := by
    rintro u rfl rfl
    exact hc ⟨u, rfl⟩
  rw [read?, readShorter?, read?]
  · cases readShorter? t with
    | none => rfl
    | some u => rfl
  · exact hclose
  · exact hopen

theorem length_lt_of_read? {t rest : Text} (h : read? t = some rest) :
    rest.length < t.length := by
  obtain ⟨u, -, rfl⟩ := Option.map_eq_some_iff.1 h
  exact u.property

/-! ## The recursion reads a tail -/

/-- A tail is read, whatever follows it. -/
theorem Tail.read? {u : Text} (h : Tail u) : ∀ rest, Comment.read? (u ++ rest) = some rest := by
  induction h with
  | close => exact read?_closer
  | nest _ _ iht ihu =>
    intro rest
    simp [iht, ihu]
  | skip ho hc ht ih =>
    intro rest
    rw [List.cons_append, read?_other (ht.not_prefix_append rest ho) (ht.not_prefix_append rest hc),
      ih]

/-- **What is read is a tail.** -/
theorem exists_tail_of_read? {t rest : Text} (h : read? t = some rest) :
    ∃ u, Tail u ∧ t = u ++ rest := by
  -- by the length of the text, since the second reading starts where the first one stopped
  induction hn : t.length using Nat.strongRecOn generalizing t rest with
  | ind n ih =>
    subst hn
    by_cases ho : ['/', '*'] <+: t
    · obtain ⟨t, rfl⟩ := ho
      obtain ⟨v, hv, hrest⟩ := Option.bind_eq_some_iff.1 ((read?_opener t).symm.trans h)
      have hlt := length_lt_of_read? hv
      have hlen : t.length < (['/', '*'] ++ t).length := by
        simp only [List.cons_append, List.nil_append, List.length_cons]
        omega
      obtain ⟨u, hu, rfl⟩ := ih _ hlen hv rfl
      obtain ⟨w, hw, rfl⟩ := ih _ (Nat.lt_trans hlt hlen) hrest rfl
      exact ⟨_, .nest hu hw, by simp⟩
    by_cases hc : ['*', '/'] <+: t
    · obtain ⟨t, rfl⟩ := hc
      cases (read?_closer t).symm.trans h
      exact ⟨['*', '/'], .close, rfl⟩
    cases t with
    | nil =>
      rw [read?_nil] at h
      cases h
    | cons c t =>
      rw [read?_other ho hc] at h
      obtain ⟨u, hu, rfl⟩ := ih _ (by simp) h rfl
      refine ⟨c :: u, .skip (fun hp => ho ?_) (fun hp => hc ?_) hu, rfl⟩
      · exact hp.trans (List.prefix_append (c :: u) rest)
      · exact hp.trans (List.prefix_append (c :: u) rest)

/-- Nothing is read exactly if no tail is in front. -/
theorem read?_eq_none_iff {t : Text} : read? t = none ↔ ∀ u, Tail u → ¬ u <+: t := by
  constructor
  · rintro h u hu ⟨rest, rfl⟩
    rw [hu.read?] at h
    cases h
  · intro h
    cases hread : read? t with
    | none => rfl
    | some rest =>
      obtain ⟨u, hu, rfl⟩ := exists_tail_of_read? hread
      exact absurd (List.prefix_append u rest) (h u hu)

/-- So the count over a text and the recursion agree. -/
theorem closingLength?_eq_read? (t : Text) :
    closingLength? 0 t = (read? t).map fun rest => t.length - rest.length := by
  cases h : read? t with
  | some rest =>
    obtain ⟨u, hu, rfl⟩ := exists_tail_of_read? h
    rw [(closingLength?_append hu rest).1]
    simp
  | none => exact closingLength?_eq_none_iff.2 (read?_eq_none_iff.1 h)

/-- What is left when `n` open comments are read to their ends, the innermost one first. -/
def readOpen? : (n : Nat) → Text → Option Text
  | 0, t => some t
  | n + 1, t => (read? t).bind (readOpen? n)

theorem length_le_of_readOpen? {n : Nat} {t rest : Text} (h : readOpen? n t = some rest) :
    rest.length ≤ t.length := by
  induction n generalizing t with
  | zero =>
    cases h
    exact Nat.le_refl _
  | succ n ih =>
    obtain ⟨u, hu, hrest⟩ := Option.bind_eq_some_iff.1 h
    exact Nat.le_of_lt (Nat.lt_of_le_of_lt (ih hrest) (length_lt_of_read? hu))

/-- By how much the number of open comments changes at the front of a text. -/
def turn : Text → Int
  | '/' :: '*' :: _ => 1
  | '*' :: '/' :: _ => -1
  | _ => 0

theorem turn_other {c : Char} {t : Text} (ho : ¬ ['/', '*'] <+: c :: t)
    (hc : ¬ ['*', '/'] <+: c :: t) : turn (c :: t) = 0 := by
  unfold turn
  split
  · rename_i u hu
    exact absurd ⟨u, hu.symm⟩ ho
  · rename_i u hu
    exact absurd ⟨u, hu.symm⟩ hc
  · rfl

theorem neg_one_le_turn (t : Text) : -1 ≤ turn t := by
  unfold turn
  split <;> decide

end Comment

namespace BlockComment

open Comment

variable {b b' c : BlockComment}

/-! ## The count does not wrap around -/

/-- **The count is a number of comments**, and stays one if all that is ahead are openers. -/
structure HasRoom (b : BlockComment) : Prop where
  nonneg : 0 ≤ b.depth.toInt
  room : 2 * b.depth.toInt + b.place.ahead.length < 2 ^ 32

theorem HasRoom.toInt_add_one (h : b.HasRoom) (hlen : 2 ≤ b.place.ahead.length) :
    (b.depth + 1).toInt = b.depth.toInt + 1 := by
  have hnonneg := h.nonneg
  have hroom := h.room
  rw [Int32.toInt_add, Int32.toInt_one]
  exact Int.bmod_eq_of_le (by omega) (by omega)

theorem HasRoom.toInt_sub_one (h : b.HasRoom) : (b.depth - 1).toInt = b.depth.toInt - 1 := by
  have hnonneg := h.nonneg
  have hroom := h.room
  rw [Int32.toInt_sub, Int32.toInt_one]
  exact Int.bmod_eq_of_le (by omega) (by omega)

/-- **A round counts exactly** what it passes. -/
theorem Round.toInt_depth (h : b.Round b') (hroom : b.HasRoom) :
    b'.depth.toInt = b.depth.toInt + turn b.place.ahead := by
  cases h with
  | opener hahead =>
    rw [hahead]
    exact hroom.toInt_add_one (by simp [hahead])
  | closer hahead =>
    rw [hahead]
    exact hroom.toInt_sub_one
  | other hahead ho hc => rw [hahead, turn_other ho hc, Int.add_zero]

/-- An opener is paid for by the two characters it takes. -/
theorem Round.length_add_turn_le (h : b.Round b') :
    b'.place.ahead.length + 2 * turn b.place.ahead ≤ b.place.ahead.length := by
  cases h with
  | opener hahead | closer hahead =>
    simp only [Position.ahead_past, hahead, turn, List.drop_succ_cons, List.drop_zero,
      List.length_cons]
    omega
  | other hahead ho hc =>
    rw [Position.ahead_past, hahead, turn_other ho hc, List.drop_succ_cons, List.drop_zero,
      List.length_cons]
    omega

/-- The loop makes a round only if some comment is open, and then keeps room. -/
theorem Round.hasRoom (h : b.Round b') (hroom : b.HasRoom) (hpos : 0 < b.depth) : b'.HasRoom := by
  have hturn := h.toInt_depth hroom
  have hlen := h.length_add_turn_le
  have hlower := neg_one_le_turn b.place.ahead
  have hone : 0 < b.depth.toInt := Int32.lt_iff_toInt_lt.1 hpos
  have hle := hroom.room
  exact ⟨by omega, by omega⟩

/-- `Reaches b c`: the loop gets from `b` to `c`. -/
inductive Reaches (b : BlockComment) : BlockComment → Prop
  | refl : Reaches b b
  | round {c d : BlockComment} : Reaches b c → 0 < c.depth → c.round? = some d → Reaches b d

/-- **Wherever the loop gets, there is room.** -/
theorem Reaches.hasRoom (h : b.Reaches c) (hroom : b.HasRoom) : c.HasRoom := by
  induction h with
  | refl => exact hroom
  | round _ hpos hround ih => exact (round_of_round? hround).hasRoom ih hpos

/-! ## The loop reads what the recursion reads -/

/-- The number of comments that are open. -/
def opened (b : BlockComment) : Nat := b.depth.toInt.toNat

theorem exists_opened_eq_succ (hpos : 0 < b.depth) : ∃ n, b.opened = n + 1 := by
  have hone : 0 < b.depth.toInt := Int32.lt_iff_toInt_lt.1 hpos
  exact ⟨b.opened - 1, by unfold opened; omega⟩

/-- **The invariant of the loop**: a round does not change what is left when all open comments are
read. -/
theorem Round.readOpen?_eq (h : b.Round b') (hroom : b.HasRoom) (hpos : 0 < b.depth) :
    readOpen? b'.opened b'.place.ahead = readOpen? b.opened b.place.ahead := by
  have hturn := h.toInt_depth hroom
  obtain ⟨n, hn⟩ := exists_opened_eq_succ hpos
  cases h with
  | opener hahead =>
    have hopened : opened ⟨b.place.past 2, b.depth + 1⟩ = n + 2 := by
      simp only [hahead, turn, opened] at hturn hn ⊢
      omega
    rw [hopened, hn, Position.ahead_past, hahead, readOpen?, readOpen?, read?_opener,
      Option.bind_assoc]
    rfl
  | closer hahead =>
    have hopened : opened ⟨b.place.past 2, b.depth - 1⟩ = n := by
      simp only [hahead, turn, opened] at hturn hn ⊢
      omega
    rw [hopened, hn, Position.ahead_past, hahead, readOpen?, read?_closer]
    rfl
  | other hahead ho hc =>
    have hopened : opened ⟨b.place.past 1, b.depth⟩ = n + 1 := hn
    rw [hopened, hn, Position.ahead_past, hahead, readOpen?, readOpen?, read?_other ho hc]
    rfl

/-- How a reading from `p` ends that leaves this text, or finds no end. -/
def ending (p : Position) : Option Text → Except ScanError Unit × Position
  | some rest => (.ok (), p.past (p.ahead.length - rest.length))
  | none => (.error .unterminatedBlockComment, p.past p.ahead.length)

/-- It ends in the same way if it starts further on. -/
theorem ending_past {p : Position} {n : Nat} {left : Option Text} (hn : n ≤ p.ahead.length)
    (hleft : ∀ rest ∈ left, rest.length ≤ (p.past n).ahead.length) :
    ending (p.past n) left = ending p left := by
  rw [Position.ahead_past, List.length_drop] at hleft
  cases left with
  | none =>
    rw [ending, ending, Position.past_past, Position.ahead_past, List.length_drop,
      Nat.add_sub_cancel' hn]
  | some rest =>
    have hlen := hleft rest rfl
    rw [ending, ending, Position.past_past, Position.ahead_past, List.length_drop]
    congr 2
    omega

/-- **The loop ends where the pending readings end.** -/
theorem close_eq (hroom : b.HasRoom) :
    close b = ending b.place (readOpen? b.opened b.place.ahead) := by
  fun_induction close b with
  | case1 b hpos hnone =>
    have hnil := round?_eq_none_iff.1 hnone
    obtain ⟨n, hn⟩ := exists_opened_eq_succ hpos
    rw [hn, hnil, readOpen?, read?_nil, Option.bind_none, ending, hnil, List.length_nil,
      Position.past_zero]
  | case2 b hpos b' hround ih =>
    have h := round_of_round? hround
    obtain ⟨n, -, hn, hplace⟩ := exists_past_of_round? hround
    rw [ih (h.hasRoom hroom hpos), h.readOpen?_eq hroom hpos, hplace]
    refine ending_past hn fun rest hrest => ?_
    rw [← hplace]
    exact length_le_of_readOpen? ((h.readOpen?_eq hroom hpos).trans hrest)
  | case3 b hpos =>
    have hzero : b.opened = 0 := by
      have hle := Int32.le_iff_toInt_le.1 (Int32.not_lt.1 hpos)
      have hnonneg := hroom.nonneg
      rw [Int32.toInt_zero] at hle
      unfold opened
      omega
    rw [hzero, readOpen?, ending, Nat.sub_self, Position.past_zero]

theorem hasRoom_start {p : Position} (h : p.ahead.length + 2 < 2 ^ 32) : (start p).HasRoom := by
  have hone : (start p).depth.toInt = 1 := Int32.toInt_one
  have hplace : (start p).place = p := rfl
  exact ⟨by omega, by rw [hone, hplace]; omega⟩

/-- Behind its opener a comment is read as by the recursion. -/
theorem read_eq {p : Position} (h : p.ahead.length + 2 < 2 ^ 32) :
    read p = ending p (read? p.ahead) := by
  rw [read, close_eq (hasRoom_start h)]
  show ending p ((read? p.ahead).bind some) = _
  rw [Option.bind_fun_some]

/-! ## The loop in a scan -/

section

variable {p : Position} {t : Text}

theorem ahead_past_opener (hp : p.ahead = '/' :: '*' :: t) : (p.past 2).ahead = t := by
  rw [Position.ahead_past, hp]
  rfl

theorem read_past_opener (hp : p.ahead = '/' :: '*' :: t) (h : t.length + 2 < 2 ^ 32) :
    read (p.past 2) = ending (p.past 2) (read? t) := by
  have hahead := ahead_past_opener hp
  rw [read_eq (by rwa [hahead]), hahead]

/-- **The scanner takes what the loop reads**, and finds what the loop says. -/
theorem exists_slash_eq (hp : p.ahead = '/' :: '*' :: t) (h : t.length + 2 < 2 ^ 32) :
    ∃ result n, n ≤ p.ahead.length ∧ read (p.past 2) = (result, p.past n) ∧
      Munch.slash ('*' :: t) = ⟨finding result, n⟩ := by
  have hahead := ahead_past_opener hp
  rw [read_past_opener hp h, Munch.slash, blockLength?, closingLength?_eq_read?]
  cases read? t with
  | none =>
    refine ⟨.error .unterminatedBlockComment, 2 + t.length, ?_, ?_, rfl⟩
    · simp only [hp, List.length_cons]
      omega
    · rw [ending, Position.past_past, hahead]
  | some rest =>
    refine ⟨.ok (), t.length - rest.length + 2, ?_, ?_, rfl⟩
    · simp only [hp, List.length_cons]
      omega
    · rw [ending, Position.past_past, hahead, Nat.add_comm]

/-- So a scan cuts it off. -/
theorem cut_of_opener (hp : p.ahead = '/' :: '*' :: t) (h : t.length + 2 < 2 ^ 32) :
    Segment.cut p =
      ⟨p, finding (read (p.past 2)).1, p.ahead.length - (read (p.past 2)).2.ahead.length⟩ ::
        Segment.cut (read (p.past 2)).2 := by
  obtain ⟨result, n, hn, hread, hslash⟩ := exists_slash_eq hp h
  rw [hread, Segment.cut_of_cons hp, Lexical.munch_slash, hslash, Position.ahead_past,
    List.length_drop, Nat.sub_sub_self hn]

/-- A comment that is not closed gives one report, on the line where the loop stops. -/
theorem reports_of_unclosed (hp : p.ahead = '/' :: '*' :: t) (h : t.length + 2 < 2 ^ 32)
    (hnone : read? t = none) :
    (Segment.cut p).filterMap Segment.diagnostic? =
      [⟨(read (p.past 2)).2.line, [], ScanError.unterminatedBlockComment.message⟩] := by
  have hahead := ahead_past_opener hp
  have hread : read (p.past 2) = (.error .unterminatedBlockComment, (p.past 2).past t.length) := by
    rw [read_past_opener hp h, hnone, ending, hahead]
  have hend : ((p.past 2).past t.length).ahead = [] := by
    rw [Position.ahead_past, hahead, List.drop_length]
  have hlen : p.ahead.length = 2 + t.length := by
    rw [hp, List.length_cons, List.length_cons]
    omega
  rw [cut_of_opener hp h, hread, Segment.cut_of_nil hend, hend, hlen, List.length_nil, Nat.sub_zero]
  simp [Segment.diagnostic?, Segment.stop, finding, Position.past_past]

end

/-! ## The loop is the recursion -/

/-- The place before the opener in the source that is `a`, the opener and `t`. -/
def openerPlace (a t : Text) : Position := (Position.start (a ++ '/' :: '*' :: t)).past a.length

/-- **The loop behind an opener is the recursion.** The source is `a`, the opener and `t`. -/
structure IsRecursion (a t : Text) : Prop where
  /-- The comment is closed exactly if the recursion closes it, -/
  ok_iff : (read ((openerPlace a t).past 2)).1 = .ok () ↔ (read? t).isSome
  /-- and then behind the same text, on the line that the line breaks up to there give. -/
  closed : ∀ rest, read? t = some rest → ∃ body, t = body ++ rest ∧
    read ((openerPlace a t).past 2) =
      (.ok (), ⟨rest, Text.utf8Size (a ++ '/' :: '*' :: body),
        1 + Text.lineBreaks (a ++ '/' :: '*' :: body)⟩)
  /-- Otherwise the end of the source is reached. -/
  unclosed : read? t = none →
    read ((openerPlace a t).past 2) =
      (.error .unterminatedBlockComment, ⟨[], Text.utf8Size (a ++ '/' :: '*' :: t),
        1 + Text.lineBreaks (a ++ '/' :: '*' :: t)⟩)
  /-- A scan that gets to the opener goes on where the loop stops, -/
  cut : Segment.cut (openerPlace a t) =
    ⟨openerPlace a t, finding (read ((openerPlace a t).past 2)).1,
      (openerPlace a t).ahead.length - (read ((openerPlace a t).past 2)).2.ahead.length⟩ ::
        Segment.cut (read ((openerPlace a t).past 2)).2
  /-- and has one report to add where the comment is not closed, the last one. -/
  reported : read? t = none → ∀ before,
    Segment.cut (.start (a ++ '/' :: '*' :: t)) = before ++ Segment.cut (openerPlace a t) →
    (scan (a ++ '/' :: '*' :: t)).diagnostics = before.filterMap Segment.diagnostic? ++
      [⟨1 + Text.lineBreaks (a ++ '/' :: '*' :: t), [], "Unterminated block comment.".toList⟩]
  /-- The count changes by what a round passes, as a number and not only up to its 32 bits, -/
  counted : ∀ b b', Reaches (start ((openerPlace a t).past 2)) b → 0 < b.depth →
    b.round? = some b' → b'.depth.toInt = b.depth.toInt + turn b.place.ahead
  /-- and each round passes something. -/
  forward : ∀ b b', Reaches (start ((openerPlace a t).past 2)) b → 0 < b.depth →
    b.round? = some b' → ∃ n, 0 < n ∧ n ≤ b.place.ahead.length ∧ b'.place = b.place.past n

/-- The place behind some text of the comment. -/
theorem openerPlace_past (a body rest : Text) :
    ((openerPlace a (body ++ rest)).past 2).past body.length =
      ⟨rest, Text.utf8Size (a ++ '/' :: '*' :: body),
        1 + Text.lineBreaks (a ++ '/' :: '*' :: body)⟩ := by
  have hsource : a ++ '/' :: '*' :: (body ++ rest) = (a ++ '/' :: '*' :: body) ++ rest := by simp
  have hlen : a.length + (2 + body.length) = (a ++ '/' :: '*' :: body).length := by
    simp only [List.length_append, List.length_cons]
    omega
  rw [openerPlace, Position.past_past, Position.past_past, hlen, hsource]
  exact Position.past_start_append _ rest

/-- **The comment loop is the recursion**, at every opener of a source shorter than 2^32 bytes. -/
theorem isRecursion_of_utf8Size_lt {a t : Text}
    (h : Text.utf8Size (a ++ '/' :: '*' :: t) < 2 ^ 32) : IsRecursion a t := by
  have hlen := Text.length_le_utf8Size (a ++ '/' :: '*' :: t)
  have ht : t.length + 2 < 2 ^ 32 := by
    rw [List.length_append, List.length_cons, List.length_cons] at hlen
    omega
  have hopener : (openerPlace a t).ahead = '/' :: '*' :: t := List.drop_left
  have hbehind := ahead_past_opener hopener
  have hread := read_past_opener hopener ht
  have hroom : (start ((openerPlace a t).past 2)).HasRoom := hasRoom_start (by rwa [hbehind])
  have hunclosed : read? t = none → read ((openerPlace a t).past 2) =
      (.error .unterminatedBlockComment, ⟨[], Text.utf8Size (a ++ '/' :: '*' :: t),
        1 + Text.lineBreaks (a ++ '/' :: '*' :: t)⟩) := by
    intro hnone
    have hplace := openerPlace_past a t []
    rw [List.append_nil] at hplace
    rw [hread, hnone, ending, hbehind, hplace]
  constructor
  case ok_iff =>
    rw [hread]
    cases read? t with
    | none => simp [ending]
    | some rest => simp [ending]
  case closed =>
    intro rest hrest
    obtain ⟨body, -, rfl⟩ := exists_tail_of_read? hrest
    refine ⟨body, rfl, ?_⟩
    rw [hread, hrest, ending, hbehind, List.length_append, Nat.add_sub_cancel, openerPlace_past]
  case unclosed => exact hunclosed
  case cut => exact cut_of_opener hopener ht
  case reported =>
    intro hnone before hbefore
    show (Segment.cut (.start (a ++ '/' :: '*' :: t))).filterMap Segment.diagnostic? = _
    rw [hbefore, List.filterMap_append, reports_of_unclosed hopener ht hnone, hunclosed hnone]
    rfl
  case counted =>
    exact fun b b' hreach _ hround => (round_of_round? hround).toInt_depth (hreach.hasRoom hroom)
  case forward => exact fun b b' _ _ hround => exists_past_of_round? hround

/-- Marks that share a character: the first one counts, so the comment goes on behind `/*/`. -/
theorem read_overlapping :
    read ((openerPlace "(\n".toList "/*/ */*/ x".toList).past 2) =
        (.ok (), ⟨" x".toList, 12, 2⟩) ∧
      read ((openerPlace [] "/".toList).past 2) =
        (.error .unterminatedBlockComment, ⟨[], 3, 1⟩) ∧
      (scan "/*/".toList).diagnostics = [⟨1, [], "Unterminated block comment.".toList⟩] := by
  have hopen : read? "/".toList = none := by simp [read?_other]
  have hunclosed : IsRecursion [] "/".toList := isRecursion_of_utf8Size_lt (by decide)
  refine ⟨?_, hunclosed.unclosed hopen, hunclosed.reported hopen [] rfl⟩
  have hclosed : IsRecursion "(\n".toList "/*/ */*/ x".toList :=
    isRecursion_of_utf8Size_lt (by decide)
  obtain ⟨body, hbody, hread⟩ := hclosed.closed " x".toList (by simp [read?_other])
  obtain rfl : body = "/*/ */*/".toList := (List.append_cancel_right hbody).symm
  exact hread

end BlockComment

end Lox
