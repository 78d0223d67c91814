import Lox.Proofs.Text.Encoding
import Lox.Text.Cursor
/-!
# Where cursors stand

A cursor that has been moved forward from the start of its source, however
often it was saved and set back on the way, stands between two characters:
its number of bytes is the size of the text it has passed, and its line
counts the line breaks in it. So what lies ahead of it can be seen, no move
panics, and a slice between two such cursors is there exactly if they are
given in order.
-/


namespace Lox

namespace Text

/-- The size of a text is the number of its bytes. -/
theorem length_utf8 (t : Text) : (utf8 t).length = utf8Size t := by
  induction t with
  | nil => rw [utf8_nil, List.length_nil, utf8Size_nil]
  | cons c t ih =>
    rw [utf8_cons, List.length_append, String.length_utf8EncodeChar, ih, utf8Size_cons]

/-- Only the empty text has no bytes. -/
theorem utf8Size_eq_zero_iff {t : Text} : utf8Size t = 0 ↔ t = [] := by
  constructor
  · intro h
    exact List.length_eq_zero_iff.1 (Nat.le_zero.1 (h ▸ length_le_utf8Size t))
  · rintro rfl
    rfl

end Text

open Text (utf8Size lineBreaks)

namespace Cursor

/-- **The cursor between two parts of a source.** -/
def between (passed ahead : Text) : Cursor :=
  ⟨passed ++ ahead, utf8Size passed, 1 + lineBreaks passed⟩

variable {a b s t : Text}

@[simp] theorem source_between : (between s t).source = s ++ t := rfl

@[simp] theorem offset_between : (between s t).offset = utf8Size s := rfl

/-! ## What is seen -/

theorem start_eq_between (source : Text) : start source = between [] source := rfl

theorem isAtEnd_between : (between s t).isAtEnd = t.isEmpty := by
  rw [Bool.eq_iff_iff, List.isEmpty_iff, ← Text.utf8Size_eq_zero_iff]
  simp only [isAtEnd, source_between, offset_between, Text.utf8Size_append, decide_eq_true_eq]
  omega

theorem rest_between : (between s t).rest = pure t := by
  rw [rest, between, Text.dropBytes?_append, Attempt.demand_some]

theorem peek_between : (between s t).peek = pure t[0]? := by
  rw [peek, rest_between]
  rfl

theorem peekNext_between : (between s t).peekNext = pure t[1]? := by
  rw [peekNext, rest_between]
  rfl

/-! ## Moves -/

theorem behind_between (x : Char) : (between s (x :: t)).behind x = between (s ++ [x]) t := by
  have hline : lineBreaks [x] = if x = '\n' then 1 else 0 := by
    simp [Text.lineBreaks, List.count_singleton]
  simp only [behind, between, Text.utf8Size_append, Text.utf8Size_cons, Text.utf8Size_nil,
    Text.lineBreaks_append, hline, List.append_assoc, List.singleton_append, Nat.add_zero]
  split <;> rfl

theorem next_between :
    (between s t).next = pure (t[0]?, between (s ++ t.take 1) (t.drop 1)) := by
  rw [next, peek_between, pure_bind]
  cases t with
  | nil => simp
  | cons x t => simp [behind_between]

theorem nth_between (n : Nat) :
    (between s t).nth n = pure (t[n]?, between (s ++ t.take (n + 1)) (t.drop (n + 1))) := by
  induction n generalizing s t with
  | zero => rw [nth, next_between]
  | succ n ih =>
    rw [nth, next_between, pure_bind]
    cases t with
    | nil => simp
    | cons x t => simp [ih]

theorem advanceIf_between (x : Char) :
    (between s t).advanceIf x =
      pure (if t[0]? = some x then (true, between (s ++ t.take 1) (t.drop 1))
        else (false, between s t)) := by
  rw [advanceIf, peek_between, pure_bind, next_between, pure_bind]
  split <;> rfl

/-- **A loop passes the longest run** of characters that satisfy its condition. -/
theorem advanceWhile_between (keep : Char → Bool) :
    (between s t).advanceWhile keep =
      pure ((), between (s ++ t.takeWhile keep) (t.dropWhile keep)) := by
  induction t generalizing s with
  | nil =>
    rw [advanceWhile]
    split <;> rename_i h <;> rw [peek_between] at h <;> cases h
    simp
  | cons x t ih =>
    rw [advanceWhile]
    split <;> rename_i h <;> rw [peek_between] at h <;> cases h
    rw [behind_between, ih]
    by_cases hx : keep x = true <;> simp [hx]

/-- **The slice between two cursors** is the text between them. -/
theorem sliceFrom_between : (between (a ++ s) b).sliceFrom (between a (s ++ b)) = pure s := by
  rw [sliceFrom, between, between, List.append_assoc, Text.slice?_append, Attempt.demand_some]

/-! ## Places of a source -/

/-- A cursor is a place of a source if it stands between two parts of it. -/
def IsPlaceOf (source : Text) (c : Cursor) : Prop :=
  ∃ passed ahead, source = passed ++ ahead ∧ c = between passed ahead

variable {source : Text} {c d e : Cursor}

theorem isPlaceOf_start : (start source).IsPlaceOf source :=
  ⟨[], source, rfl, start_eq_between source⟩

/-- A place that is not in front of another one has some more text behind it. -/
theorem IsPlaceOf.exists_between (hd : d.IsPlaceOf (s ++ t)) (hle : utf8Size s ≤ d.offset) :
    ∃ u v, t = u ++ v ∧ d = between (s ++ u) v := by
  obtain ⟨s', t', hsource, rfl⟩ := hd
  rcases List.append_eq_append_iff.1 hsource with ⟨u, rfl, rfl⟩ | ⟨u, rfl, rfl⟩
  · exact ⟨u, t', rfl, rfl⟩
  · -- what lies between them then has no bytes
    have hu : u = [] := by
      simp only [offset_between, Text.utf8Size_append] at hle
      exact Text.utf8Size_eq_zero_iff.1 (by omega)
    subst hu
    exact ⟨[], t, rfl, by simp⟩

/-- **The slice between two places** that are given in order. -/
theorem exists_sliceFrom_eq (hc : c.IsPlaceOf source) (hd : d.IsPlaceOf source)
    (hle : c.offset ≤ d.offset) :
    ∃ s t u, source = s ++ (t ++ u) ∧ c = between s (t ++ u) ∧ d = between (s ++ t) u ∧
      d.sliceFrom c = pure t := by
  obtain ⟨s, v, rfl, rfl⟩ := hc
  obtain ⟨t, u, rfl, rfl⟩ := hd.exists_between hle
  exact ⟨s, t, u, rfl, rfl, rfl, sliceFrom_between⟩

/-- **A slice panics exactly if** it would end before it starts. -/
theorem sliceFrom_eq_throw_iff (hc : c.IsPlaceOf source) (hd : d.IsPlaceOf source) :
    d.sliceFrom c = throw .noSlice ↔ d.offset < c.offset := by
  constructor
  · intro h
    refine Nat.lt_of_not_le fun hle => ?_
    obtain ⟨s, t, u, -, -, -, hslice⟩ := exists_sliceFrom_eq hc hd hle
    cases hslice.symm.trans h
  · intro hlt
    rw [sliceFrom, Text.slice?_of_lt _ hlt, Attempt.demand_none]

/-- **Two slices in a row are one longer slice.** -/
theorem exists_sliceFrom_append (hc : c.IsPlaceOf source) (hd : d.IsPlaceOf source)
    (he : e.IsPlaceOf source) (hcd : c.offset ≤ d.offset) (hde : d.offset ≤ e.offset) :
    ∃ s t, d.sliceFrom c = pure s ∧ e.sliceFrom d = pure t ∧ e.sliceFrom c = pure (s ++ t) := by
  obtain ⟨a, v, rfl, rfl⟩ := hc
  obtain ⟨s, w, rfl, rfl⟩ := hd.exists_between hcd
  rw [← List.append_assoc] at he
  obtain ⟨t, u, rfl, rfl⟩ := he.exists_between hde
  refine ⟨s, t, sliceFrom_between, sliceFrom_between, ?_⟩
  rw [List.append_assoc a, ← List.append_assoc s, sliceFrom_between]

/-! ## Everything about a place -/

/-- **What a cursor shows and does** that has passed `passed` and has `ahead` ahead of it. -/
structure Stands (c : Cursor) (passed ahead : Text) : Prop where
  source : c.source = passed ++ ahead
  offset : c.offset = (Text.utf8 passed).length
  line : c.line = 1 + passed.count '\n'
  isAtEnd : c.isAtEnd = true ↔ passed = c.source
  peek : c.peek = pure ahead[0]?
  peekNext : c.peekNext = pure ahead[1]?
  next : c.next = pure (ahead[0]?, between (passed ++ ahead.take 1) (ahead.drop 1))
  /-- As many characters are passed as are there, and the last one is returned if none lacks. -/
  nth (n : Nat) : ∃ taken rest, ahead = taken ++ rest ∧
    taken.length = min (n + 1) ahead.length ∧
    c.nth n = pure (if n + 1 ≤ ahead.length then taken.getLast? else none,
      between (passed ++ taken) rest)
  advanceIf (x : Char) : c.advanceIf x =
    pure (if ahead[0]? = some x then (true, between (passed ++ [x]) ahead.tail) else (false, c))
  /-- The longest run of characters that satisfy `keep` is passed. -/
  advanceWhile (keep : Char → Bool) : ∃ run rest, ahead = run ++ rest ∧
    (∀ x ∈ run, keep x = true) ∧ (∀ x ∈ rest.head?, keep x = false) ∧
    c.advanceWhile keep = pure ((), between (passed ++ run) rest)

theorem stands_between (s t : Text) : (between s t).Stands s t where
  source := rfl
  offset := (Text.length_utf8 s).symm
  line := rfl
  isAtEnd := by
    simp [isAtEnd_between]
  peek := peek_between
  peekNext := peekNext_between
  next := next_between
  nth n := by
    refine ⟨t.take (n + 1), t.drop (n + 1), (List.take_append_drop _ _).symm,
      List.length_take, ?_⟩
    rw [nth_between]
    split
    · rename_i hle
      rw [List.getLast?_eq_getElem?, List.length_take, Nat.min_eq_left hle, Nat.add_sub_cancel,
        List.getElem?_take_of_lt (Nat.lt_succ_self n)]
    · rename_i hlt
      rw [List.getElem?_eq_none (by omega)]
  advanceIf x := by
    rw [advanceIf_between]
    split
    · rename_i hx
      obtain ⟨u, rfl⟩ := List.head?_eq_some_iff.1 (List.head?_eq_getElem? ▸ hx)
      rfl
    · rfl
  advanceWhile keep := by
    refine ⟨t.takeWhile keep, t.dropWhile keep, List.takeWhile_append_dropWhile.symm,
      List.all_eq_true.1 List.all_takeWhile, fun x hx => ?_, advanceWhile_between keep⟩
    have hstop := List.head?_dropWhile_not keep t
    rwa [Option.mem_def.1 hx] at hstop

end Cursor

/-! ## Walks -/

namespace Walk

open Cursor

variable {source : Text} {w : Walk}

/-- The cursor and the saved ones. -/
def places (w : Walk) : List Cursor := w.cursor :: w.marks

/-- A walk keeps to its source if all its cursors are places of it. -/
def KeepsTo (w : Walk) (source : Text) : Prop := ∀ c ∈ w.places, c.IsPlaceOf source

/-- A move of the cursor that passes some of what is ahead of it does not panic, and keeps to the
source. -/
theorem KeepsTo.move {α : Type} {f : Cursor → Attempt (α × Cursor)} (h : w.KeepsTo source)
    (hf : ∀ s t, ∃ a taken rest, t = taken ++ rest ∧
      f (between s t) = pure (a, between (s ++ taken) rest)) :
    ∃ w', w.move f = pure w' ∧ w'.KeepsTo source := by
  obtain ⟨⟨s, t, hsource, hcursor⟩, hmarks⟩ := List.forall_mem_cons.1 h
  obtain ⟨a, taken, rest, rfl, hmove⟩ := hf s t
  refine ⟨{ w with cursor := between (s ++ taken) rest }, ?_, ?_⟩
  · rw [Walk.move, hcursor, hmove, pure_bind]
  · exact List.forall_mem_cons.2
      ⟨⟨_, _, hsource.trans (List.append_assoc s taken rest).symm, rfl⟩, hmarks⟩

/-- **A step** is taken without a panic, and keeps to the source. -/
theorem KeepsTo.step (h : w.KeepsTo source) (step : Step) :
    ∃ w', w.step step = pure w' ∧ w'.KeepsTo source := by
  cases step with
  | next =>
    exact h.move fun s t => ⟨_, _, _, (List.take_append_drop 1 t).symm, next_between⟩
  | nth n =>
    exact h.move (f := (·.nth n)) fun s t =>
      ⟨_, _, _, (List.take_append_drop (n + 1) t).symm, nth_between n⟩
  | advanceIf x =>
    refine h.move (f := (·.advanceIf x)) fun s t => ?_
    by_cases hx : t[0]? = some x
    · exact ⟨true, _, _, (List.take_append_drop 1 t).symm, by rw [advanceIf_between, if_pos hx]⟩
    · exact ⟨false, [], t, rfl, by rw [advanceIf_between, if_neg hx, List.append_nil]⟩
  | advanceWhile keep =>
    exact h.move (f := (·.advanceWhile keep)) fun s t =>
      ⟨_, _, _, List.takeWhile_append_dropWhile.symm, advanceWhile_between keep⟩
  | mark =>
    refine ⟨_, rfl, List.forall_mem_cons.2 ⟨h _ List.mem_cons_self, ?_⟩⟩
    refine List.forall_mem_append.2 ⟨fun c hc => h c (List.mem_cons_of_mem _ hc), ?_⟩
    exact List.forall_mem_singleton.2 (h _ List.mem_cons_self)
  | restore i =>
    refine ⟨_, rfl, List.forall_mem_cons.2 ⟨?_, fun c hc => h c (List.mem_cons_of_mem _ hc)⟩⟩
    cases hi : w.marks[i]? with
    | none => exact h _ List.mem_cons_self
    | some c => exact h c (List.mem_cons_of_mem _ (List.mem_of_getElem? hi))

/-- **So is every sequence of steps.** -/
theorem KeepsTo.steps (h : w.KeepsTo source) (ss : List Step) :
    ∃ w', w.steps ss = pure w' ∧ w'.KeepsTo source := by
  induction ss generalizing w with
  | nil => exact ⟨w, rfl, h⟩
  | cons s ss ih =>
    obtain ⟨w', hw', hkeeps⟩ := h.step s
    obtain ⟨w'', hw'', hkeeps'⟩ := ih hkeeps
    refine ⟨w'', ?_, hkeeps'⟩
    rw [Walk.steps, List.foldlM_cons, hw', pure_bind]
    exact hw''

theorem keepsTo_start (source : Text) : (start source).KeepsTo source :=
  List.forall_mem_singleton.2 isPlaceOf_start

/-- **What holds of the cursors of a walk**: where each one stands, and which slices between them
are there. -/
structure Sound (w : Walk) (source : Text) : Prop where
  stands : ∀ c ∈ w.places, ∃ passed ahead, source = passed ++ ahead ∧ c.source = source ∧
    c.Stands passed ahead
  slice_panics : ∀ c ∈ w.places, ∀ d ∈ w.places,
    d.sliceFrom c = throw .noSlice ↔ d.offset < c.offset
  slice : ∀ c ∈ w.places, ∀ d ∈ w.places, c.offset ≤ d.offset →
    ∃ s t u, source = s ++ (t ++ u) ∧ c.offset = (Text.utf8 s).length ∧
      d.offset = (Text.utf8 (s ++ t)).length ∧ d.sliceFrom c = pure t
  slice_append : ∀ c ∈ w.places, ∀ d ∈ w.places, ∀ e ∈ w.places,
    c.offset ≤ d.offset → d.offset ≤ e.offset →
      ∃ s t, d.sliceFrom c = pure s ∧ e.sliceFrom d = pure t ∧ e.sliceFrom c = pure (s ++ t)

theorem KeepsTo.sound (h : w.KeepsTo source) : w.Sound source where
  stands c hc := by
    obtain ⟨s, t, hsource, rfl⟩ := h c hc
    exact ⟨s, t, hsource, hsource.symm, stands_between s t⟩
  slice_panics c hc d hd := sliceFrom_eq_throw_iff (h c hc) (h d hd)
  slice c hc d hd hle := by
    obtain ⟨s, t, u, hsource, rfl, rfl, hslice⟩ := exists_sliceFrom_eq (h c hc) (h d hd) hle
    exact ⟨s, t, u, hsource, (Text.length_utf8 s).symm, (Text.length_utf8 (s ++ t)).symm, hslice⟩
  slice_append c hc d hd e he := exists_sliceFrom_append (h c hc) (h d hd) (h e he)

/-- **Cursors stay where they should be.** Whatever steps are taken from the start of a source, none
of them panics, and behind the last one every cursor stands between two parts of the source, shows
what is ahead of it and moves over it, and gives the slices between it and the others. -/
theorem exists_steps_start (source : Text) (ss : List Step) :
    ∃ w, (start source).steps ss = pure w ∧ w.Sound source := by
  obtain ⟨w, hw, hkeeps⟩ := (keepsTo_start source).steps ss
  exact ⟨w, hw, hkeeps.sound⟩

/-- A mark behind a character of two bytes, and the slice from there behind one of three. -/
example :
    (do
      let w ← (start "é\n€".toList).steps [.next, .mark, .nth 1]
      return (w.cursor.offset, w.cursor.line, ← w.marks.mapM w.cursor.sliceFrom)) =
      .ok (6, 2, ["\n€".toList]) := by
  rfl

end Walk

end Lox
