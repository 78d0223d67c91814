import Lox.Proofs.Lexical.Lookahead
import Lox.Proofs.Lexical.Tokens
import Lox.Proofs.RoundTrip.Rendered
/-!
# Trees from nested lists

A tree written as nested lists can be read back from its text: a literal ends
where a blank or a closing parenthesis follows, and a list says with its head
whether it is a grouping or which operator it applies, and with what follows
the first operand whether there is a second one. So trees of sources that are
written alike are alike, but for the lines of their operators, which are not
written. A string could hold blanks and parentheses and is left out.
-/


namespace Lox

open Lexical

/-! ## Literals -/

/-- There is one infinite number without a sign. -/
theorem Number.unsigned_of_not_isFinite {m : Nat} (h : ¬ (unsigned m).isFinite = true) :
    unsigned m = unsigned infinity := by
  have hle : infinity ≤ min infinity m := Nat.not_lt.1 (mt decide_eq_true h)
  have hmin : min infinity m = min infinity infinity := by
    rw [Nat.min_self]
    exact Nat.le_antisymm (Nat.min_le_left _ _) hle
  simp only [unsigned, hmin]

namespace Literal

/-- What a literal is read from. -/
def data : Literal → TokenData
  | number n => .number n
  | str s => .str s
  | boolean true => .keyword .trueWord
  | boolean false => .keyword .falseWord
  | nil => .keyword .nilWord

/-- Apart from strings, literals are written as numbers and words. -/
theorem piece {v : Literal} (h : v.Lexical) (hstr : ∀ s, v ≠ .str s) :
    Piece v.text (.token v.data.echo) := by
  cases v with
  | number n =>
    obtain ⟨m, rfl⟩ := h
    exact (Token.IsVisible.number (t := ⟨.number (.unsigned m), [], 1⟩) rfl).piece
  | str s => exact absurd rfl (hstr s)
  | boolean b =>
    cases b with
    | true => exact .keyword .trueWord
    | false => exact .keyword .falseWord
  | nil => exact .keyword .nilWord

/-- The literal that is written as such a number or word: a word that is no keyword is how infinity
is written. -/
def ofEcho? : TokenData → Option Literal
  | .identifier => some (.number (.unsigned Number.infinity))
  | d => d.literal?

/-- **What a literal is read as tells which one it is.** -/
theorem ofEcho?_echo {v : Literal} (h : v.Lexical) : ofEcho? v.data.echo = some v := by
  cases v with
  | number n =>
    obtain ⟨m, rfl⟩ := h
    rw [data, TokenData.echo]
    split
    · rfl
    · rename_i hfin
      rw [Number.unsigned_of_not_isFinite hfin]
      rfl
  | boolean b => cases b <;> rfl
  | str | nil => rfl

/-- So literals that are written alike are the same. -/
theorem eq_of_text_eq {v w : Literal} (hv : v.Lexical) (hw : w.Lexical)
    (hvstr : ∀ s, v ≠ .str s) (hwstr : ∀ s, w ≠ .str s) (h : v.text = w.text) : v = w := by
  have hpiece := piece hv hvstr
  rw [h] at hpiece
  have hecho : v.data.echo = w.data.echo :=
    Finding.token.inj (hpiece.finding_unique (piece hw hwstr))
  have hsome := ofEcho?_echo hv
  rw [hecho, ofEcho?_echo hw] at hsome
  exact (Option.some.inj hsome).symm

/-- A literal but a string is written as a number or as a word. -/
theorem echo_data {v : Literal} (hstr : ∀ s, v ≠ .str s) :
    (∃ n, v.data.echo = .number n) ∨ (∃ k, v.data.echo = .keyword k) ∨
      v.data.echo = .identifier := by
  cases v with
  | number n =>
    rw [data, TokenData.echo]
    split
    · exact .inl ⟨n, rfl⟩
    · exact .inr (.inr rfl)
  | str s => exact absurd rfl (hstr s)
  | boolean b => cases b <;> exact .inr (.inl ⟨_, rfl⟩)
  | nil => exact .inr (.inl ⟨_, rfl⟩)

end Literal

/-! ## Operators -/

theorem Token.IsSpelled.blank_not_mem {o : Token} (h : o.IsSpelled) : ' ' ∉ o.lexeme := by
  obtain ⟨s, -, hs⟩ := h
  rw [hs]
  cases s <;> decide

theorem Token.IsSpelled.lexeme_ne_group {o : Token} (h : o.IsSpelled) :
    o.lexeme ≠ "group".toList := by
  obtain ⟨s, -, hs⟩ := h
  rw [hs]
  cases s <;> decide

/-- Operators that are written alike are alike, but for their lines. -/
theorem Token.IsSpelled.eq_of_lexeme_eq {o p : Token} (ho : o.IsSpelled) (hp : p.IsSpelled)
    (h : o.lexeme = p.lexeme) (k : Nat) : { o with line := k } = { p with line := k } := by
  obtain ⟨s, hd, hs⟩ := ho
  obtain ⟨s', hd', hs'⟩ := hp
  have hss : s = s' := Symbol.spelling_injective (hs ▸ hs' ▸ h)
  rw [hd, hd', hss, h]

/-! ## Lists -/

namespace Expr

/-- **The trees that nested lists can express**: trees of sources without a string. -/
inductive Readable : Expr → Prop
  | literal {v : Literal} : v.Lexical → (∀ s, v ≠ .str s) → Readable (.literal v)
  | group {e : Expr} : Readable e → Readable (.group e)
  | unary {o : Token} {e : Expr} : o.IsSpelled → Readable e → Readable (.unary o e)
  | binary {l r : Expr} {o : Token} : Readable l → o.IsSpelled → Readable r →
      Readable (.binary l o r)

theorem readable_of_lexical {e : Expr} (h : e.Lexical) (hstr : ∀ s, Literal.str s ∉ e.literals) :
    e.Readable := by
  induction e with
  | literal v =>
    exact .literal (h.literals v List.mem_cons_self) fun s hs => hstr s (hs ▸ List.mem_cons_self)
  | group e ih => exact .group (ih (lexical_group.1 h) hstr)
  | unary o e ih =>
    obtain ⟨ho, he⟩ := lexical_unary.1 h
    exact .unary ho (ih he hstr)
  | binary l o r ihl ihr =>
    obtain ⟨hl, ho, hr⟩ := lexical_binary.1 h
    exact .binary (ihl hl fun s hs => hstr s (List.mem_append_left _ hs)) ho
      (ihr hr fun s hs => hstr s (List.mem_append_right _ hs))

/-- What may stand behind a tree: a blank, a closing parenthesis or nothing. -/
def Delimits (rest : Text) : Prop := ∀ c ∈ rest.head?, c = ' ' ∨ c = ')'

/-- A list: its head, and what follows the blank behind that. -/
def listText (head tail : Text) : Text := '(' :: (head ++ ' ' :: tail)

theorem lispText_group (e : Expr) (rest : Text) :
    (group e).lispText ++ rest = listText "group".toList (e.lispText ++ ')' :: rest) := by
  have hopen : "(group ".toList = '(' :: ("group".toList ++ [' ']) := rfl
  have htext : (group e).lispText = "(group ".toList ++ e.lispText ++ [')'] := rfl
  rw [htext, listText, hopen]
  simp only [List.append_assoc, List.cons_append, List.nil_append]

theorem lispText_unary (o : Token) (e : Expr) (rest : Text) :
    (unary o e).lispText ++ rest = listText o.lexeme (e.lispText ++ ')' :: rest) := by
  have htext : (unary o e).lispText = '(' :: o.lexeme ++ ' ' :: e.lispText ++ [')'] := rfl
  rw [htext, listText]
  simp only [List.append_assoc, List.cons_append, List.nil_append]

theorem lispText_binary (l : Expr) (o : Token) (r : Expr) (rest : Text) :
    (binary l o r).lispText ++ rest =
      listText o.lexeme (l.lispText ++ ' ' :: (r.lispText ++ ')' :: rest)) := by
  have htext : (binary l o r).lispText =
      '(' :: o.lexeme ++ ' ' :: l.lispText ++ ' ' :: r.lispText ++ [')'] := rfl
  rw [htext, listText]
  simp only [List.append_assoc, List.cons_append, List.nil_append]

/-- A text without a certain kind of character, in front of one of that kind or of nothing, is read
in one way. -/
theorem append_inj_of_stop {p : Char → Bool} {s s' t t' : Text} (hs : ∀ c ∈ s, p c = true)
    (hs' : ∀ c ∈ s', p c = true) (ht : ∀ c ∈ t.head?, p c = false)
    (ht' : ∀ c ∈ t'.head?, p c = false) (h : s ++ t = s' ++ t') : s = s' ∧ t = t' := by
  have htake := congrArg (List.takeWhile p) h
  have hdrop := congrArg (List.dropWhile p) h
  rw [takeWhile_append_of_stop hs ht, takeWhile_append_of_stop hs' ht'] at htake
  rw [dropWhile_append_of_stop hs ht, dropWhile_append_of_stop hs' ht'] at hdrop
  exact ⟨htake, hdrop⟩

/-- So is a text in front of a character that it does not hold. -/
theorem append_cons_inj {c : Char} {s s' t t' : Text} (hs : c ∉ s) (hs' : c ∉ s')
    (h : s ++ c :: t = s' ++ c :: t') : s = s' ∧ t = t' := by
  have hkeep : ∀ {u : Text}, c ∉ u → ∀ d ∈ u, (d != c) = true := fun hnot d hd =>
    bne_iff_ne.2 (ne_of_mem_of_not_mem hd hnot)
  have hstop : ∀ u : Text, ∀ d ∈ (c :: u).head?, (d != c) = false := fun u d hd => by
    cases Option.mem_some_iff.1 hd
    exact bne_self_eq_false c
  obtain ⟨rfl, hbehind⟩ := append_inj_of_stop (hkeep hs) (hkeep hs') (hstop t) (hstop t') h
  exact ⟨rfl, (List.cons.inj hbehind).2⟩

/-- A list is read in one way as its head and what follows it. -/
theorem listText_inj {head head' tail tail' : Text} (h : ' ' ∉ head) (h' : ' ' ∉ head')
    (heq : listText head tail = listText head' tail') : head = head' ∧ tail = tail' :=
  append_cons_inj h h' (List.cons.inj heq).2

/-! ## Trees -/

theorem onLine_group (k : Nat) (e : Expr) : (group e).onLine k = group (e.onLine k) := rfl

theorem onLine_unary (k : Nat) (o : Token) (e : Expr) :
    (unary o e).onLine k = unary { o with line := k } (e.onLine k) := rfl

theorem onLine_binary (k : Nat) (l : Expr) (o : Token) (r : Expr) :
    (binary l o r).onLine k = binary (l.onLine k) { o with line := k } (r.onLine k) := rfl

/-- What ends a literal is no character of one. -/
theorem Delimits.not_isAtom {rest : Text} (h : Delimits rest) :
    ∀ c ∈ rest.head?, (isWordPart c || c == '.') = false := by
  intro c hc
  rcases h c hc with rfl | rfl <;> decide

theorem delimits_blank (rest : Text) : Delimits (' ' :: rest) := fun _ hc =>
  .inl (Option.mem_some_iff.1 hc).symm

theorem delimits_close (rest : Text) : Delimits (')' :: rest) := fun _ hc =>
  .inr (Option.mem_some_iff.1 hc).symm

/-- A literal is no list. -/
theorem text_append_ne_listText {w : Literal} (hw : w.Lexical) (hstr : ∀ s, w ≠ .str s)
    {rest head tail : Text} : (literal w).lispText ++ rest ≠ listText head tail := by
  have hpiece := Literal.piece hw hstr
  obtain ⟨c, t, ht⟩ := List.exists_cons_of_ne_nil hpiece.ne_nil
  have hmem : c ∈ w.text := ht.symm ▸ List.mem_cons_self
  have hc := hpiece.isWordPart_or_point (Literal.echo_data hstr) c hmem
  have htext : (literal w).lispText = c :: t := ht
  rw [htext]
  intro h
  rw [(List.cons.inj h).1] at hc
  exact absurd hc (by decide)

/-- A literal is read in one way as itself and what follows it. -/
theorem literal_inj {w x : Literal} (hw : w.Lexical) (hwstr : ∀ s, w ≠ .str s) (hx : x.Lexical)
    (hxstr : ∀ s, x ≠ .str s) {u v : Text} (hu : Delimits u) (hv : Delimits v)
    (h : (literal w).lispText ++ u = (literal x).lispText ++ v) : w = x ∧ u = v := by
  have hatom : ∀ {y : Literal}, y.Lexical → (∀ s, y ≠ .str s) → ∀ c ∈ y.text,
      (isWordPart c || c == '.') = true := fun hy hystr c hc => by
    rw [Bool.or_eq_true, beq_iff_eq]
    exact (Literal.piece hy hystr).isWordPart_or_point (Literal.echo_data hystr) c hc
  obtain ⟨htext, hrest⟩ :=
    append_inj_of_stop (hatom hw hwstr) (hatom hx hxstr) hu.not_isAtom hv.not_isAtom h
  exact ⟨Literal.eq_of_text_eq hw hx hwstr hxstr htext, hrest⟩

/-- **Unique readability**: from a text that starts with a tree, the tree is read back but for the
lines of its operators, and so is what stands behind it. -/
theorem Readable.inj {a b : Expr} (ha : a.Readable) (hb : b.Readable) {u v : Text}
    (hu : Delimits u) (hv : Delimits v) (h : a.lispText ++ u = b.lispText ++ v) :
    a.onLine 1 = b.onLine 1 ∧ u = v := by
  -- a blank or a parenthesis stands behind each operand, so the operands are read back first
  induction ha generalizing b u v with
  | literal hlex hstr =>
    cases hb with
    | literal hlex' hstr' =>
      obtain ⟨rfl, hrest⟩ := literal_inj hlex hstr hlex' hstr' hu hv h
      exact ⟨rfl, hrest⟩
    | group => exact absurd (h.trans (lispText_group _ v)) (text_append_ne_listText hlex hstr)
    | unary => exact absurd (h.trans (lispText_unary _ _ v)) (text_append_ne_listText hlex hstr)
    | binary =>
      exact absurd (h.trans (lispText_binary _ _ _ v)) (text_append_ne_listText hlex hstr)
  | group _ ih =>
    rw [lispText_group] at h
    cases hb with
    | literal hlex hstr => exact absurd h.symm (text_append_ne_listText hlex hstr)
    | group hb =>
      rw [lispText_group] at h
      obtain ⟨-, htail⟩ := listText_inj (by decide) (by decide) h
      obtain ⟨he, hrest⟩ := ih hb (delimits_close u) (delimits_close v) htail
      rw [onLine_group, onLine_group, he]
      exact ⟨rfl, (List.cons.inj hrest).2⟩
    | unary hp hb =>
      rw [lispText_unary] at h
      exact absurd (listText_inj (by decide) hp.blank_not_mem h).1.symm hp.lexeme_ne_group
    | binary hl hp hr =>
      rw [lispText_binary] at h
      exact absurd (listText_inj (by decide) hp.blank_not_mem h).1.symm hp.lexeme_ne_group
  | unary ho _ ih =>
    rw [lispText_unary] at h
    cases hb with
    | literal hlex hstr => exact absurd h.symm (text_append_ne_listText hlex hstr)
    | group hb =>
      rw [lispText_group] at h
      exact absurd (listText_inj ho.blank_not_mem (by decide) h).1 ho.lexeme_ne_group
    | unary hp hb =>
      rw [lispText_unary] at h
      obtain ⟨hop, htail⟩ := listText_inj ho.blank_not_mem hp.blank_not_mem h
      obtain ⟨he, hrest⟩ := ih hb (delimits_close u) (delimits_close v) htail
      rw [onLine_unary, onLine_unary, ho.eq_of_lexeme_eq hp hop, he]
      exact ⟨rfl, (List.cons.inj hrest).2⟩
    | binary hl hp hr =>
      -- a parenthesis stands behind the only operand, and a blank behind the first one of two
      rw [lispText_binary] at h
      obtain ⟨-, htail⟩ := listText_inj ho.blank_not_mem hp.blank_not_mem h
      obtain ⟨-, hrest⟩ := ih hl (delimits_close u) (delimits_blank _) htail
      cases (List.cons.inj hrest).1
  | binary _ ho _ ihl ihr =>
    rw [lispText_binary] at h
    cases hb with
    | literal hlex hstr => exact absurd h.symm (text_append_ne_listText hlex hstr)
    | group hb =>
      rw [lispText_group] at h
      exact absurd (listText_inj ho.blank_not_mem (by decide) h).1 ho.lexeme_ne_group
    | unary hp hb =>
      rw [lispText_unary] at h
      obtain ⟨-, htail⟩ := listText_inj ho.blank_not_mem hp.blank_not_mem h
      obtain ⟨-, hrest⟩ := ihl hb (delimits_blank _) (delimits_close v) htail
      cases (List.cons.inj hrest).1
    | binary hl hp hr =>
      rw [lispText_binary] at h
      obtain ⟨hop, htail⟩ := listText_inj ho.blank_not_mem hp.blank_not_mem h
      obtain ⟨hleft, hrest⟩ := ihl hl (delimits_blank _) (delimits_blank _) htail
      obtain ⟨hright, hrest⟩ := ihr hr (delimits_close u) (delimits_close v)
        (List.cons.inj hrest).2
      rw [onLine_binary, onLine_binary, ho.eq_of_lexeme_eq hp hop, hleft, hright]
      exact ⟨rfl, (List.cons.inj hrest).2⟩

/-- The lines of operators are not written. -/
theorem lispText_onLine_append (k : Nat) (e : Expr) (rest : Text) :
    (e.onLine k).lispText ++ rest = e.lispText ++ rest := by
  induction e generalizing rest with
  | literal v => rfl
  | group e ih => rw [onLine_group, lispText_group, lispText_group, ih]
  | unary o e ih => rw [onLine_unary, lispText_unary, lispText_unary, ih]
  | binary l o r ihl ihr => rw [onLine_binary, lispText_binary, lispText_binary, ihl, ihr]

theorem lispText_onLine (k : Nat) (e : Expr) : (e.onLine k).lispText = e.lispText :=
  List.append_cancel_right (lispText_onLine_append k e [])

end Expr

/-- **The nested lists determine the tree.** Two sources that parse to trees without strings are
written alike if and only if their trees are the same but for the lines of their operators. -/
theorem lispText_eq_iff_onLine_eq {a b : Text} {ea eb : Expr} (ha : parseSource a = .ok ea)
    (hb : parseSource b = .ok eb) (hstra : ∀ v, Literal.str v ∉ ea.literals)
    (hstrb : ∀ v, Literal.str v ∉ eb.literals) :
    ea.lispText = eb.lispText ↔ ea.onLine 1 = eb.onLine 1 := by
  constructor
  · intro h
    have hnil : Expr.Delimits [] := fun c hc => absurd hc (Option.not_mem_none c)
    have hra := Expr.readable_of_lexical (lexical_of_parseSource ha) hstra
    have hrb := Expr.readable_of_lexical (lexical_of_parseSource hb) hstrb
    exact (hra.inj hrb hnil hnil (congrArg (· ++ []) h)).1
  · intro h
    rw [← Expr.lispText_onLine 1 ea, h, Expr.lispText_onLine]

/-- Two sources are written alike, and their operators are on different lines. -/
theorem lispText_eq_iff_onLine_eq_second_line :
    ∃ ea eb, parseSource "8.5\n< -(nil)".toList = .ok ea ∧
      parseSource "8.50 < -(nil) // the same".toList = .ok eb ∧
      ea ≠ eb ∧ ea.lispText = eb.lispText := by
  let e (line : Nat) : Expr :=
    .binary (.literal (.number (.ofBits 0x4021000000000000))) ⟨.symbol .less, ['<'], line⟩
      (.unary ⟨.symbol .minus, ['-'], line⟩ (.group (.literal .nil)))
  have ha : parseSource "8.5\n< -(nil)".toList = .ok (e 2) :=
    parseSource_eq_ok_of_toOption (by decide +kernel)
  have hb : parseSource "8.50 < -(nil) // the same".toList = .ok (e 1) :=
    parseSource_eq_ok_of_toOption (by decide +kernel)
  have hstr : ∀ line v, Literal.str v ∉ (e line).literals := fun line v => by
    simp [e, Expr.literals]
  exact ⟨e 2, e 1, ha, hb, by decide,
    (lispText_eq_iff_onLine_eq ha hb (hstr 2) (hstr 1)).2 rfl⟩

end Lox
