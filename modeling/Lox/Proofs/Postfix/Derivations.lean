import Lox.Proofs.Postfix.Moves
import Lox.Proofs.Postfix.Parentheses
/-!
# The grammar of postfix order

A grammar of two levels whose operands may be empty derives exactly the
balanced texts, each in one way, and postfix order lists the derivation with
each operator behind its operands. That a derivation is the only one of its
text is shown by reading the text back: what has been read so far is the
derivation of the innermost sum that is open, and those around it.
-/


namespace Lox

namespace Shunting

/-- What the grammar derives. -/
inductive Phrase
  | sum
  | product
  | run
  | atom
deriving DecidableEq

/-- **The derivations**, one constructor for each rule of the grammar. -/
inductive Derivation : Phrase → Type
  /-- `sum := sum ('+' | '-') product` -/
  | addition (left : Derivation .sum) (c : Char) (hc : c ∈ ['+', '-'])
      (right : Derivation .product) : Derivation .sum
  /-- `sum := product` -/
  | product (p : Derivation .product) : Derivation .sum
  /-- `product := product ('*' | '/') run` -/
  | multiplication (left : Derivation .product) (c : Char) (hc : c ∈ ['*', '/'])
      (right : Derivation .run) : Derivation .product
  /-- `product := run` -/
  | run (r : Derivation .run) : Derivation .product
  /-- A run may be empty. -/
  | empty : Derivation .run
  /-- `run := run atom` -/
  | more (r : Derivation .run) (a : Derivation .atom) : Derivation .run
  /-- An atom is a character that is neither an operator nor a parenthesis, -/
  | char (c : Char) (hc : c ∉ ['+', '-', '*', '/', '(', ')']) : Derivation .atom
  /-- or `atom := '(' sum ')'`. -/
  | group (s : Derivation .sum) : Derivation .atom

namespace Derivation

/-- The text that is derived. -/
def text : {n : Phrase} → Derivation n → Text
  | _, addition l c _ r => l.text ++ c :: r.text
  | _, product p => p.text
  | _, multiplication l c _ r => l.text ++ c :: r.text
  | _, run r => r.text
  | _, empty => []
  | _, more r a => r.text ++ a.text
  | _, char c _ => [c]
  | _, group s => '(' :: s.text ++ [')']

/-- **The derivation in post-order**: an operator behind its operands, and no parentheses. -/
def post : {n : Phrase} → Derivation n → Text
  | _, addition l c _ r => l.post ++ r.post ++ [c]
  | _, product p => p.post
  | _, multiplication l c _ r => l.post ++ r.post ++ [c]
  | _, run r => r.post
  | _, empty => []
  | _, more r a => r.post ++ a.post
  | _, char c _ => [c]
  | _, group s => s.post

end Derivation

/-- How tightly the operators bind that stand outside of parentheses. -/
def Phrase.binding : Phrase → Nat
  | sum => 1
  | product => 2
  | run | atom => 3

namespace Derivation

theorem precedence?_of_mem_additive {c : Char} (hc : c ∈ ['+', '-']) : precedence? c = some 1 := by
  rcases List.mem_pair.1 hc with rfl | rfl <;> rfl

theorem precedence?_of_mem_multiplicative {c : Char} (hc : c ∈ ['*', '/']) :
    precedence? c = some 2 := by
  rcases List.mem_pair.1 hc with rfl | rfl <;> rfl

/-- **A derived text settles to its post-order.** -/
theorem settles {n : Phrase} (d : Derivation n) : Settles n.binding d.text d.post := by
  induction d with
  | addition _ c hc _ ihl ihr => exact ihl.operation (precedence?_of_mem_additive hc) ihr
  | product _ ih => exact ih.mono (by decide)
  | multiplication _ c hc _ ihl ihr =>
    exact ihl.operation (precedence?_of_mem_multiplicative hc) ihr
  | run _ ih => exact ih.mono (by decide)
  | empty => exact .of_not_mark nofun
  | more _ _ ihr iha => exact ihr.append iha
  | char c hc => exact .of_not_mark (List.forall_mem_singleton.2 hc)
  | group _ ih => exact ih.group

/-- **A derived text is balanced.** -/
theorem balanced {n : Phrase} (d : Derivation n) : Balanced d.text := by
  induction d with
  | addition _ c hc _ ihl ihr =>
    obtain ⟨hopen, hclose⟩ := ne_paren_of_precedence? (precedence?_of_mem_additive hc)
    exact ihl.append (.cons hopen hclose ihr)
  | product _ ih => exact ih
  | multiplication _ c hc _ ihl ihr =>
    obtain ⟨hopen, hclose⟩ := ne_paren_of_precedence? (precedence?_of_mem_multiplicative hc)
    exact ihl.append (.cons hopen hclose ihr)
  | run _ ih => exact ih
  | empty => exact .of_not_mem List.not_mem_nil List.not_mem_nil
  | more _ _ ihr iha => exact ihr.append iha
  | char c hc =>
    obtain ⟨hopen, hclose⟩ := ne_paren_of_not_mark hc
    exact .cons hopen hclose (.of_not_mem List.not_mem_nil List.not_mem_nil)
  | group _ ih => exact ih.group

/-! ## One more character -/

/-- The sum of the empty text. -/
def blank : Derivation .sum := product (run empty)

/-- The product with an atom behind it. -/
def attachToProduct : Derivation .product → Derivation .atom → Derivation .product
  | multiplication l c hc r, a => multiplication l c hc (more r a)
  | run r, a => run (more r a)

/-- The sum with an atom behind it. -/
def attach : Derivation .sum → Derivation .atom → Derivation .sum
  | addition l c hc p, a => addition l c hc (p.attachToProduct a)
  | product p, a => product (p.attachToProduct a)

/-- The sum with an operator of its own level behind it. -/
def plus (s : Derivation .sum) (c : Char) (hc : c ∈ ['+', '-']) : Derivation .sum :=
  addition s c hc (run empty)

/-- The sum with an operator of the next level behind it. -/
def times : Derivation .sum → (c : Char) → c ∈ ['*', '/'] → Derivation .sum
  | addition l d hd p, c, hc => addition l d hd (multiplication p c hc empty)
  | product p, c, hc => product (multiplication p c hc empty)

theorem text_attach (s : Derivation .sum) (a : Derivation .atom) :
    (s.attach a).text = s.text ++ a.text := by
  cases s with
  | addition l c hc p => cases p <;> simp [attach, attachToProduct, text]
  | product p => cases p <;> simp [attach, attachToProduct, text]

theorem text_plus (s : Derivation .sum) {c : Char} (hc : c ∈ ['+', '-']) :
    (s.plus c hc).text = s.text ++ [c] := rfl

theorem text_times (s : Derivation .sum) {c : Char} (hc : c ∈ ['*', '/']) :
    (s.times c hc).text = s.text ++ [c] := by
  cases s <;> simp [times, text]

/-- How a sum can end. -/
inductive Ending : Derivation .sum → Prop
  | blank : Ending blank
  | plus (s : Derivation .sum) {c : Char} (hc : c ∈ ['+', '-']) : Ending (s.plus c hc)
  | times (s : Derivation .sum) {c : Char} (hc : c ∈ ['*', '/']) : Ending (s.times c hc)
  | attach (s : Derivation .sum) (a : Derivation .atom) : Ending (s.attach a)

theorem ending (s : Derivation .sum) : Ending s := by
  cases s with
  | addition l c hc p =>
    cases p with
    | multiplication q d hd r =>
      cases r with
      | empty => exact .times (addition l c hc q) hd
      | more r a => exact .attach (addition l c hc (multiplication q d hd r)) a
    | run r =>
      cases r with
      | empty => exact .plus l hc
      | more r a => exact .attach (addition l c hc (run r)) a
  | product p =>
    cases p with
    | multiplication q d hd r =>
      cases r with
      | empty => exact .times (product q) hd
      | more r a => exact .attach (product (multiplication q d hd r)) a
    | run r =>
      cases r with
      | empty => exact .blank
      | more r a => exact .attach (product (run r)) a

end Derivation

/-! ## Reading a text back -/

/-- What has been read of a text: the sum inside of all open parentheses, and those outside of each,
innermost first. -/
structure Reader where
  inner : Derivation .sum
  outer : List (Derivation .sum)

namespace Reader

open Shunting.Derivation

/-- Nothing has been read. -/
def start : Reader := ⟨blank, []⟩

/-- The text in front of the innermost sum. -/
def lead : List (Derivation .sum) → Text
  | [] => []
  | s :: outer => lead outer ++ s.text ++ ['(']

/-- The text that has been read. -/
def text (r : Reader) : Text := lead r.outer ++ r.inner.text

/-- Reads one character. A closing parenthesis that closes nothing is passed over. -/
def step (r : Reader) (c : Char) : Reader :=
  if hopen : c = '(' then ⟨blank, r.inner :: r.outer⟩
  else if hclose : c = ')' then
    match r.outer with
    | [] => r
    | s :: outer => ⟨s.attach (.group r.inner), outer⟩
  else if hc : c ∈ ['+', '-'] then ⟨r.inner.plus c hc, r.outer⟩
  else if hc' : c ∈ ['*', '/'] then ⟨r.inner.times c hc', r.outer⟩
  else ⟨r.inner.attach (.char c (by simp_all)), r.outer⟩

/-- The characters of a text are read one after another. -/
def read (t : Text) : Reader := t.foldl step start

theorem read_concat (t : Text) (c : Char) : read (t ++ [c]) = (read t).step c :=
  List.foldl_concat step start c t

/-- **The text grows by what is read**, unless it is passed over. -/
theorem text_step {r : Reader} {c : Char} (h : c = ')' → r.outer ≠ []) :
    (r.step c).text = r.text ++ [c] := by
  obtain ⟨s, outer⟩ := r
  unfold step
  split
  · subst c
    simp [text, lead, blank, Derivation.text]
  split
  · subst c
    cases outer with
    | nil => exact absurd rfl (h rfl)
    | cons o outer => simp [text, lead, text_attach, Derivation.text]
  split
  · simp [text, text_plus]
  split
  · simp [text, text_times]
  · simp [text, text_attach, Derivation.text]

theorem step_plus (s : Derivation .sum) (outer : List (Derivation .sum)) {c : Char}
    (hc : c ∈ ['+', '-']) : step ⟨s, outer⟩ c = ⟨s.plus c hc, outer⟩ := by
  obtain ⟨hopen, hclose⟩ := ne_paren_of_precedence? (precedence?_of_mem_additive hc)
  rw [step, dif_neg hopen, dif_neg hclose, dif_pos hc]

theorem step_times (s : Derivation .sum) (outer : List (Derivation .sum)) {c : Char}
    (hc : c ∈ ['*', '/']) : step ⟨s, outer⟩ c = ⟨s.times c hc, outer⟩ := by
  have hprec := precedence?_of_mem_multiplicative hc
  obtain ⟨hopen, hclose⟩ := ne_paren_of_precedence? hprec
  have hadd : c ∉ ['+', '-'] := by
    intro hadd
    cases hprec.symm.trans (precedence?_of_mem_additive hadd)
  rw [step, dif_neg hopen, dif_neg hclose, dif_neg hadd, dif_pos hc]

theorem step_char (s : Derivation .sum) (outer : List (Derivation .sum)) {c : Char}
    (hc : c ∉ ['+', '-', '*', '/', '(', ')']) :
    step ⟨s, outer⟩ c = ⟨s.attach (.char c hc), outer⟩ := by
  obtain ⟨hopen, hclose⟩ := ne_paren_of_not_mark hc
  rw [step, dif_neg hopen, dif_neg hclose, dif_neg (fun h => hc (by simp_all)),
    dif_neg (fun h => hc (by simp_all))]

/-- **A reading that has begun has a last step**, one that passes nothing over. -/
theorem eq_start_or_exists_step (r : Reader) :
    r = start ∨ ∃ (r' : Reader) (c : Char), r'.step c = r ∧ (c = ')' → r'.outer ≠ []) := by
  obtain ⟨s, outer⟩ := r
  cases s.ending with
  | blank =>
    cases outer with
    | nil => exact .inl rfl
    | cons o outer => exact .inr ⟨⟨o, outer⟩, '(', rfl, fun h => absurd h (by decide)⟩
  | plus s hc =>
    refine .inr ⟨⟨s, outer⟩, _, step_plus s outer hc, ?_⟩
    rintro rfl
    cases precedence?_of_mem_additive hc
  | times s hc =>
    refine .inr ⟨⟨s, outer⟩, _, step_times s outer hc, ?_⟩
    rintro rfl
    cases precedence?_of_mem_multiplicative hc
  | attach s a =>
    cases a with
    | char c hc =>
      have hclose := (ne_paren_of_not_mark hc).2
      exact .inr ⟨⟨s, outer⟩, c, step_char s outer hc, fun h => absurd h hclose⟩
    | group g => exact .inr ⟨⟨g, s :: outer⟩, ')', rfl, fun _ => List.cons_ne_nil s outer⟩

/-- **Each reading is that of its text.** -/
theorem read_text (r : Reader) : read r.text = r := by
  -- by the length of the text, which the last step has made longer
  induction hlen : r.text.length using Nat.strongRecOn generalizing r with
  | ind n ih =>
    rcases r.eq_start_or_exists_step with rfl | ⟨r', c, rfl, hc⟩
    · rfl
    · rw [text_step hc, List.length_append, List.length_singleton] at hlen
      rw [text_step hc, read_concat, ih _ (by omega) r' rfl]

/-- The open parentheses are those without a partner. -/
theorem length_outer_read (t : Text) : (read t).outer.length = (unmatched t).length := by
  induction t using List.reverseRecOn with
  | nil => rfl
  | append_singleton t c ih =>
    rw [read_concat, unmatched_concat, matchNext, step]
    by_cases hopen : c = '('
    · rw [dif_pos hopen, if_pos hopen, List.length_cons, List.length_cons, ih]
    rw [dif_neg hopen, if_neg hopen]
    by_cases hclose : c = ')'
    · rw [dif_pos hclose, if_pos hclose, List.length_tail, ← ih]
      cases houter : (read t).outer with
      | nil => simp [houter]
      | cons s outer => rfl
    rw [dif_neg hclose, if_neg hclose]
    split
    · exact ih
    split <;> exact ih

/-- **Where nothing is passed over, a reading has the text that was read.** -/
theorem text_read {t : Text} (h : ∀ u, u <+: t → u.count ')' ≤ u.count '(') :
    (read t).text = t := by
  induction t using List.reverseRecOn with
  | nil => rfl
  | append_singleton t c ih =>
    have ht : ∀ u, u <+: t → u.count ')' ≤ u.count '(' := fun u hu =>
      h u (hu.trans (List.prefix_append t [c]))
    have hopen : c = ')' → (read t).outer ≠ [] := by
      rintro rfl hnil
      have hlen := length_unmatched ht
      have hle := h (t ++ [')']) (List.prefix_refl _)
      rw [← length_outer_read, hnil, List.length_nil] at hlen
      simp at hle
      omega
    rw [read_concat, text_step hopen, ih ht]

end Reader

namespace Derivation

/-- **A text has one derivation at most.** -/
theorem eq_of_text_eq {d d' : Derivation .sum} (h : d.text = d'.text) : d = d' := by
  have hread : Reader.read d.text = ⟨d, []⟩ := Reader.read_text ⟨d, []⟩
  have hread' : Reader.read d'.text = ⟨d', []⟩ := Reader.read_text ⟨d', []⟩
  rw [h, hread'] at hread
  exact (congrArg Reader.inner hread).symm

/-- **A balanced text has one.** -/
theorem exists_text_eq {t : Text} (h : Balanced t) : ∃ d : Derivation .sum, d.text = t := by
  have houter : (Reader.read t).outer = [] := by
    rw [← List.length_eq_zero_iff, Reader.length_outer_read, h.unmatched_eq_nil]
    rfl
  have htext := Reader.text_read h.prefix_le
  rw [Reader.text, houter] at htext
  exact ⟨_, htext⟩

end Derivation

/-- **Postfix order is the post-order of the grammar**, on every balanced text. The balanced texts
are those with exactly one derivation, and the postfix order of a derived text is that derivation in
post-order. So parentheses around a balanced text change nothing. -/
theorem toPostfix_eq_post (t : Text) :
    (Balanced t ↔ ∃! d : Derivation .sum, d.text = t) ∧
      (∀ d : Derivation .sum, d.text = t → toPostfix t = d.post) ∧
      (Balanced t → toPostfix ('(' :: t ++ [')']) = toPostfix t) := by
  have hpost : ∀ d : Derivation .sum, d.text = t → toPostfix t = d.post := by
    rintro d rfl
    exact d.settles.toPostfix_eq
  refine ⟨⟨fun h => ?_, ?_⟩, hpost, fun h => ?_⟩
  · obtain ⟨d, hd⟩ := Derivation.exists_text_eq h
    exact ⟨d, hd, fun d' hd' => Derivation.eq_of_text_eq (hd'.trans hd.symm)⟩
  · rintro ⟨d, rfl, -⟩
    exact d.balanced
  · obtain ⟨d, rfl⟩ := Derivation.exists_text_eq h
    have hgroup : Settles 1 ('(' :: d.text ++ [')']) d.post := d.settles.group.mono (by decide)
    rw [hgroup.toPostfix_eq, hpost d rfl]

/-- A minus without a left operand, and a run with a group in it. -/
theorem toPostfix_eq_post_signs :
    Balanced "-a(b+c)d*2".toList ∧ (∃! d : Derivation .sum, d.text = "-a(b+c)d*2".toList) ∧
      toPostfix "(-a(b+c)d*2)".toList = "abc+d2*-".toList := by
  have hprefix : ∀ u ∈ "-a(b+c)d*2".toList.inits, u.count ')' ≤ u.count '(' := by decide
  have h : Balanced "-a(b+c)d*2".toList :=
    ⟨fun u hu => hprefix u ((List.mem_inits u _).2 hu), by decide⟩
  obtain ⟨hiff, -, hgroup⟩ := toPostfix_eq_post "-a(b+c)d*2".toList
  exact ⟨h, hiff.1 h, (hgroup h).trans (by decide)⟩

/-- Operators without any operands. -/
example : toPostfix "--()1*2".toList = "-12*-".toList := by decide

end Shunting

end Lox
