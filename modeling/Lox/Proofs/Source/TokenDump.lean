import Lox.Emit
import Lox.Proofs.Tree.Readability
import Mathlib.Data.List.Forall2
/-!
# Token dumps

A dump can be read back although a line feed or a blank in a string looks like
the end of an entry or of a field: a lexeme starts with a quote and ends with
the next one, or else it holds neither a quote nor a blank. So where a lexeme
stands in a dump it ends in one place only. The lexeme tells the data, and the
data what is written behind it, so an entry ends in one place only too.
-/


namespace Lox

open Lexical

/-! ## Fields -/

/-- **The lexemes, as texts whose end can be seen**: a quoted text, or one that holds neither a
quote nor a blank. -/
inductive Framed : Text → Prop
  | plain {p : Text} : ' ' ∉ p → '"' ∉ p → Framed p
  | quoted {v : Text} : '"' ∉ v → Framed ('"' :: (v ++ ['"']))

/-- A text without a quote is not a quoted one. -/
theorem append_ne_quoted {p v s t : Text} (hquote : '"' ∉ p) :
    p ++ ' ' :: s ≠ '"' :: (v ++ ['"']) ++ t := by
  intro h
  cases p with
  | nil => cases h
  | cons c p =>
    obtain ⟨rfl, -⟩ := List.cons.inj h
    exact hquote List.mem_cons_self

/-- **A framed text in front of a blank is read in one way.** -/
theorem Framed.append_inj {p q s t : Text} (hp : Framed p) (hq : Framed q)
    (h : p ++ ' ' :: s = q ++ ' ' :: t) : p = q ∧ s = t := by
  cases hp with
  | plain hblank hquote =>
    cases hq with
    | plain hblank' =>
      exact Expr.append_cons_inj hblank hblank' h
    | quoted => exact absurd h (append_ne_quoted hquote)
  | quoted hv =>
    cases hq with
    | plain _ hquote => exact absurd h.symm (append_ne_quoted hquote)
    | quoted hw =>
      simp only [List.cons_append, List.append_assoc, List.nil_append, List.cons.injEq,
        true_and] at h
      obtain ⟨rfl, hrest⟩ := Expr.append_cons_inj hv hw h
      exact ⟨rfl, (List.cons.inj hrest).2⟩

/-- A lexeme is framed. -/
theorem Lexical.Piece.framed {p : Text} {d : TokenData} (h : Piece p (.token d)) : Framed p := by
  have hatom : (∃ n, d = .number n) ∨ (∃ k, d = .keyword k) ∨ d = .identifier → Framed p := by
    refine fun hd => .plain (fun hmem => ?_) fun hmem => ?_
    · exact absurd (h.isWordPart_or_point hd _ hmem) (by decide)
    · exact absurd (h.isWordPart_or_point hd _ hmem) (by decide)
  cases d with
  | symbol s =>
    rw [h.eq_spelling]
    exact .plain (by cases s <;> decide) (by cases s <;> decide)
  | keyword k => exact hatom (.inr (.inl ⟨k, rfl⟩))
  | identifier => exact hatom (.inr (.inr rfl))
  | str v =>
    cases h with
    | quoted hv => exact .quoted hv
  | number n => exact hatom (.inl ⟨n, rfl⟩)
  | eof => exact absurd rfl h.ne_eof

/-- No kind of token has a blank in its name. -/
theorem TokenData.blank_not_mem_name (d : TokenData) : ' ' ∉ d.name.toList := by
  cases d with
  | symbol s => cases s <;> decide
  | keyword k => cases k <;> decide
  | identifier | eof => decide
  | str =>
    have hname : ' ' ∉ "Str".toList := by decide
    exact hname
  | number =>
    have hname : ' ' ∉ "Number".toList := by decide
    exact hname

/-! ## Entries -/

namespace Token

/-- **The tokens of a scan**: lexemes, read as their data, and the end marker. -/
inductive IsScanned (t : Token) : Prop
  | lexeme : Piece t.lexeme (.token t.data) → IsScanned t
  | marker : t.data = .eof → t.lexeme = [] → IsScanned t

theorem isScanned_of_mem_tokens {source : Text} {t : Token} (h : t ∈ (scan source).tokens) :
    t.IsScanned := by
  rw [tokens_scan] at h
  rcases List.mem_append.1 h with h | h
  · exact .lexeme (piece_of_mem_tokensOf h)
  · cases List.mem_singleton.1 h
    exact .marker rfl rfl

theorem IsScanned.framed {t : Token} (h : t.IsScanned) : Framed t.lexeme := by
  cases h with
  | lexeme hp => exact hp.framed
  | marker _ ht => exact ht ▸ .plain List.not_mem_nil List.not_mem_nil

/-- **The lexeme tells the data**, and only the end marker has none. -/
theorem IsScanned.data_eq {t u : Token} (ht : t.IsScanned) (hu : u.IsScanned)
    (h : t.lexeme = u.lexeme) : t.data = u.data := by
  cases ht with
  | lexeme hp =>
    cases hu with
    | lexeme hq => exact Finding.token.inj (hp.finding_unique (h ▸ hq))
    | marker _ hnil => exact absurd (h.trans hnil) hp.ne_nil
  | marker hd hnil =>
    cases hu with
    | lexeme hq => exact absurd (h.symm.trans hnil) hq.ne_nil
    | marker hd' => exact hd.trans hd'.symm

/-- Whether two tokens are the same but for their lines. -/
def SameButLine (t u : Token) : Prop := t.data = u.data ∧ t.lexeme = u.lexeme

/-- What a dump holds of a token does not depend on its line. -/
theorem SameButLine.describe_eq {t u : Token} (h : t.SameButLine u) : t.describe = u.describe := by
  obtain ⟨d, x, k⟩ := t
  obtain ⟨d', x', k'⟩ := u
  obtain ⟨rfl, rfl⟩ := h
  rfl

/-- The kind and the lexeme of an entry, and what follows them. -/
theorem exists_describe_append (t : Token) (rest : Text) :
    ∃ tail, t.describe ++ rest = t.data.name.toList ++ ' ' :: (t.lexeme ++ ' ' :: tail) := by
  rw [describe]
  simp only [List.append_assoc, List.cons_append]
  exact ⟨_, rfl⟩

/-- **An entry is read in one way**, whatever stands behind it. -/
theorem describe_append_inj {t u : Token} {rest rest' : Text} (ht : t.IsScanned)
    (hu : u.IsScanned) (h : t.describe ++ rest = u.describe ++ rest') :
    t.SameButLine u ∧ rest = rest' := by
  obtain ⟨tail, htext⟩ := t.exists_describe_append rest
  obtain ⟨tail', htext'⟩ := u.exists_describe_append rest'
  have hfields := h
  rw [htext, htext'] at hfields
  obtain ⟨-, hbehind⟩ := Expr.append_cons_inj t.data.blank_not_mem_name
    u.data.blank_not_mem_name hfields
  have hlexeme := (ht.framed.append_inj hu.framed hbehind).1
  have hsame : t.SameButLine u := ⟨ht.data_eq hu hlexeme, hlexeme⟩
  rw [hsame.describe_eq] at h
  exact ⟨hsame, List.append_cancel_left h⟩

end Token

/-! ## Dumps -/

/-- The lines of a text, each behind a line break. -/
theorem Text.lineFeed_cons_joinLines {parts : List Text} (h : parts ≠ []) :
    '\n' :: joinLines parts = parts.flatMap ('\n' :: ·) := by
  induction parts with
  | nil => exact absurd rfl h
  | cons part parts ih =>
    cases parts with
    | nil => simp [joinLines]
    | cons next parts =>
      rw [List.flatMap_cons, ← ih (List.cons_ne_nil next parts)]
      simp [joinLines]

/-- **Entries behind line breaks are read in one way**, one after another. -/
theorem sameButLine_of_flatMap_eq {ts us : List Token} (hts : ∀ t ∈ ts, t.IsScanned)
    (hus : ∀ u ∈ us, u.IsScanned)
    (h : (ts.map Token.describe).flatMap ('\n' :: ·) =
      (us.map Token.describe).flatMap ('\n' :: ·)) :
    List.Forall₂ Token.SameButLine ts us := by
  induction ts generalizing us with
  | nil =>
    cases us with
    | nil => exact .nil
    | cons u us => cases h
  | cons t ts ih =>
    cases us with
    | nil => cases h
    | cons u us =>
      obtain ⟨ht, hts⟩ := List.forall_mem_cons.1 hts
      obtain ⟨hu, hus⟩ := List.forall_mem_cons.1 hus
      simp only [List.map_cons, List.flatMap_cons, List.cons_append, List.cons.injEq,
        true_and] at h
      obtain ⟨hsame, hrest⟩ := Token.describe_append_inj ht hu h
      exact .cons hsame (ih hts hus hrest)

theorem render_tokens_eq_ok_iff {source output : Text} :
    Emit.tokens.render source = .ok output ↔
      (scan source).diagnostics = [] ∧
        Text.joinLines ((scan source).tokens.map Token.describe) = output := by
  rw [Emit.render, dumpTokens]
  cases (scan source).diagnostics <;> simp [outcome]

/-- **A dump tells the tokens.** Two sources are dumped as the same text exactly if neither has a
fault and they have the same tokens, as many and one by one, but for the lines: kind, decoded value
and lexeme. -/
theorem render_tokens_eq_iff {a b output : Text} (h : Emit.tokens.render a = .ok output) :
    Emit.tokens.render b = .ok output ↔
      (scan b).diagnostics = [] ∧
        List.Forall₂ Token.SameButLine (scan a).tokens (scan b).tokens := by
  obtain ⟨-, ha⟩ := render_tokens_eq_ok_iff.1 h
  rw [render_tokens_eq_ok_iff]
  refine and_congr_right fun _ => ⟨fun hb => ?_, fun hsame => ?_⟩
  · have hne : ∀ source, (scan source).tokens.map Token.describe ≠ [] := fun source => by
      rw [tokens_scan]
      simp
    refine sameButLine_of_flatMap_eq (fun t => Token.isScanned_of_mem_tokens)
      (fun u => Token.isScanned_of_mem_tokens) ?_
    rw [← Text.lineFeed_cons_joinLines (hne a), ← Text.lineFeed_cons_joinLines (hne b), ha, hb]
  · have hmap : (scan a).tokens.map Token.describe = (scan b).tokens.map Token.describe := by
      rw [← List.forall₂_eq_eq_eq, List.forall₂_map_left_iff, List.forall₂_map_right_iff]
      exact hsame.imp fun _ _ => Token.SameButLine.describe_eq
    rw [← hmap, ha]

/-- The string holds what looks like a line of a dump, and the second source has its tokens on other
lines. -/
theorem render_tokens_eq_iff_lookalike :
    let a := "\"x\nPlus + null\n\" - 1.0".toList
    let b := " \n\"x\nPlus + null\n\"// \n\n-1.0".toList
    let output := "Str \"x\nPlus + null\n\" x\nPlus + null\n\nMinus - null\nNumber 1.0 1\nEof  null".toList
    Emit.tokens.render a = .ok output ∧ Emit.tokens.render b = .ok output ∧
      List.Forall₂ Token.SameButLine (scan a).tokens (scan b).tokens := by
  intro a b output
  have ha : Emit.tokens.render a = .ok output := by decide +kernel
  have hb : Emit.tokens.render b = .ok output := by decide +kernel
  exact ⟨ha, hb, ((render_tokens_eq_iff ha).1 hb).2⟩

end Lox
