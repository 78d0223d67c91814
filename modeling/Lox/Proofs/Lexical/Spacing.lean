import Lox.Proofs.Lexical.Joining
import Lox.Proofs.Lexical.Tokens
/-!
# Lexemes with blanks between them

A lexeme that a scan has cut out of some source means the same wherever a
blank or the end of the text follows it. So lexemes of any sources, written
one after another with blanks between them, are scanned as the tokens they
come from.
-/


namespace Lox

namespace Lexical

/-- The lexemes of tokens, each with the blanks that are written behind it. -/
def spaced (items : List (Token × Text)) : Text := items.flatMap fun i => i.1.lexeme ++ i.2

@[simp] theorem spaced_nil : spaced [] = [] := rfl

@[simp] theorem spaced_cons (i : Token × Text) (items : List (Token × Text)) :
    spaced (i :: items) = i.1.lexeme ++ (i.2 ++ spaced items) := by
  rw [spaced, List.flatMap_cons, List.append_assoc]
  rfl

/-- The tokens again, each on the line where its lexeme stands if the first one stands on line
`k`. -/
def placed (k : Nat) (items : List (Token × Text)) : List Token :=
  items.mapIdx fun n i =>
    ⟨i.1.data, i.1.lexeme, k + Text.lineBreaks (spaced (items.take n))⟩

theorem placed_cons (k : Nat) (i : Token × Text) (items : List (Token × Text)) :
    placed k (i :: items) = ⟨i.1.data, i.1.lexeme, k⟩ ::
      placed (k + Text.lineBreaks i.1.lexeme + Text.lineBreaks i.2) items := by
  simp [placed, List.mapIdx_cons, Nat.add_assoc]

/-! ## Blanks -/

/-- A blank goes on with no lexeme. -/
theorem extends?_of_isBlank {c : Char} (h : isBlank c = true) (d : TokenData) :
    extends? d c = false := by
  simp only [isBlank, Bool.or_eq_true, beq_iff_eq] at h
  cases d with
  | symbol s => rcases h with ((rfl | rfl) | rfl) | rfl <;> cases s <;> rfl
  | _ => rcases h with ((rfl | rfl) | rfl) | rfl <;> rfl

/-- The segments of blanks: each stands alone. -/
def blanks (v : Text) : List (Text × Finding) := v.map fun c => ([c], .trivia)

theorem Segmented.blanks {v rest : Text} {segs : List (Text × Finding)}
    (hv : ∀ c ∈ v, isBlank c = true) (h : Segmented rest segs) :
    Segmented (v ++ rest) (blanks v ++ segs) := by
  induction v with
  | nil => exact h
  | cons c v ih =>
    obtain ⟨hc, hv⟩ := List.forall_mem_cons.1 hv
    exact (ih hv).blank (isBlank_iff_mem.1 hc)

/-- Blanks give nothing, and what stands behind them is on the lines behind them. -/
theorem views_blanks (v : Text) (segs : List (Text × Finding)) (k : Nat) :
    tokensFrom k (blanks v ++ segs) = tokensFrom (k + Text.lineBreaks v) segs ∧
      reportsFrom k (blanks v ++ segs) = reportsFrom (k + Text.lineBreaks v) segs := by
  induction v generalizing k with
  | nil => exact ⟨rfl, rfl⟩
  | cons c v ih =>
    have ih := ih (k + Text.lineBreaks [c])
    rw [Nat.add_assoc, ← Text.lineBreaks_append] at ih
    exact ih

/-! ## Lexemes -/

/-- Every token of a scan but its end marker is a lexeme, read as its data. -/
theorem piece_of_mem_tokens {source : Text} {t : Token} (h : t ∈ (scan source).tokens)
    (ht : t.isEof = false) : Piece t.lexeme (.token t.data) := by
  rw [tokens_scan] at h
  rcases List.mem_append.1 h with h | h
  · exact piece_of_mem_tokensOf h
  · cases List.mem_singleton.1 h
    cases ht

/-- **Spaced lexemes are cut into what they are**, one token for each, and there is nothing to
report. -/
theorem exists_segmented_spaced {items : List (Token × Text)}
    (hpiece : ∀ i ∈ items, Piece i.1.lexeme (.token i.1.data))
    (hblank : ∀ i ∈ items, ∀ c ∈ i.2, isBlank c = true)
    (hsep : ∀ i ∈ items.dropLast, i.2 ≠ []) :
    ∃ segs, Segmented (spaced items) segs ∧
      ∀ k, tokensFrom k segs = placed k items ∧ reportsFrom k segs = [] := by
  induction items with
  | nil => exact ⟨[], .nil, fun k => ⟨rfl, rfl⟩⟩
  | cons i items ih =>
    obtain ⟨hi, hpiece⟩ := List.forall_mem_cons.1 hpiece
    obtain ⟨hiblank, hblank⟩ := List.forall_mem_cons.1 hblank
    -- only behind the last lexeme there may be no blank, and there the text ends
    have hbehind : ∀ c ∈ (i.2 ++ spaced items).head?, isBlank c = true := by
      cases hv : i.2 with
      | cons c v =>
        intro d hd
        cases Option.mem_some_iff.1 hd
        exact hiblank c (hv ▸ List.mem_cons_self)
      | nil =>
        cases items with
        | nil => simp
        | cons j items => exact absurd hv (hsep i List.mem_cons_self)
    have hrest : ∀ j ∈ items.dropLast, j.2 ≠ [] := by
      cases items with
      | nil => simp
      | cons j items => exact fun j' hj' => hsep j' (List.mem_cons_of_mem i hj')
    obtain ⟨segs, hsegs, hviews⟩ := ih hpiece hblank hrest
    have hapart : Apart (.token i.1.data) (i.2 ++ spaced items) := fun c hc =>
      extends?_of_isBlank (hbehind c hc) i.1.data
    refine ⟨(i.1.lexeme, .token i.1.data) :: (blanks i.2 ++ segs), ?_, fun k => ?_⟩
    · rw [spaced_cons]
      exact .cons hi.ne_nil (hi.stands (hapart.ends _)) (hsegs.blanks hiblank)
    · obtain ⟨htok, hrep⟩ := views_blanks i.2 segs (k + Text.lineBreaks i.1.lexeme)
      obtain ⟨htok', hrep'⟩ := hviews (k + Text.lineBreaks i.1.lexeme + Text.lineBreaks i.2)
      refine ⟨?_, hrep.trans hrep'⟩
      rw [tokensFrom, htok, htok', placed_cons]

/-- **Lexemes scan back to their tokens.** Whatever sources the tokens are from, their lexemes with
blanks between them are scanned as these tokens, each on the line on which its lexeme stands now,
and there is nothing to report. -/
theorem scan_spaced {items : List (Token × Text)} {w : Text}
    (hscan : ∀ i ∈ items, i.1.isEof = false ∧ ∃ source, i.1 ∈ (scan source).tokens)
    (hblank : ∀ v ∈ w :: items.map Prod.snd, ∀ c ∈ v, c ∈ [' ', '\t', '\r', '\n'])
    (hsep : ∀ v ∈ (items.map Prod.snd).dropLast, v ≠ []) :
    (scan (w ++ spaced items)).diagnostics = [] ∧
      (scan (w ++ spaced items)).tokens =
        items.mapIdx (fun n i =>
          ⟨i.1.data, i.1.lexeme, 1 + Text.lineBreaks (w ++ spaced (items.take n))⟩) ++
        [Token.eof (1 + Text.lineBreaks (w ++ spaced items))] := by
  obtain ⟨hw, hblank⟩ := List.forall_mem_cons.1 hblank
  have hpiece : ∀ i ∈ items, Piece i.1.lexeme (.token i.1.data) := fun i hi => by
    obtain ⟨ht, source, hmem⟩ := hscan i hi
    exact piece_of_mem_tokens hmem ht
  have hitems : ∀ i ∈ items, ∀ c ∈ i.2, isBlank c = true := fun i hi c hc =>
    isBlank_iff_mem.2 (hblank i.2 (List.mem_map_of_mem hi) c hc)
  have hseps : ∀ i ∈ items.dropLast, i.2 ≠ [] := fun i hi => by
    refine hsep i.2 ?_
    rw [← List.map_dropLast]
    exact List.mem_map_of_mem hi
  obtain ⟨segs, hsegs, hviews⟩ := exists_segmented_spaced hpiece hitems hseps
  obtain ⟨htok, hrep⟩ := views_blanks w segs 1
  obtain ⟨htok', hrep'⟩ := hviews (1 + Text.lineBreaks w)
  have hblanks := hsegs.blanks fun c hc => isBlank_iff_mem.2 (hw c hc)
  rw [scan_of_segmented hblanks]
  refine ⟨hrep.trans hrep', ?_⟩
  rw [htok, htok']
  simp only [placed, Text.lineBreaks_append, Nat.add_assoc]

/-- The `8` of `8.`, a string with a line feed in it, and a slash: behind the slash a star opens no
comment any more. -/
theorem scan_spaced_slash_star :
    let items : List (Token × Text) :=
      [(⟨.number (.ofBits 0x4020000000000000), ['8'], 1⟩, "\t".toList),
        (⟨.str "a\n//".toList, "\"a\n//\"".toList, 1⟩, "\n".toList),
        (⟨.symbol .slash, ['/'], 2⟩, " ".toList), (⟨.symbol .star, ['*'], 1⟩, [])]
    (∀ i ∈ items, i.1.isEof = false ∧ ∃ source, i.1 ∈ (scan source).tokens) ∧
      (∀ v ∈ " \n".toList :: items.map Prod.snd, ∀ c ∈ v, c ∈ [' ', '\t', '\r', '\n']) ∧
      (∀ v ∈ (items.map Prod.snd).dropLast, v ≠ []) ∧
      (scan (" \n".toList ++ spaced items)).diagnostics = [] ∧
      (scan (" \n".toList ++ spaced items)).tokens =
        items.mapIdx (fun n i =>
          ⟨i.1.data, i.1.lexeme,
            1 + Text.lineBreaks (" \n".toList ++ spaced (items.take n))⟩) ++
        [Token.eof (1 + Text.lineBreaks (" \n".toList ++ spaced items))] := by
  intro items
  have hscan : ∀ i ∈ items, i.1.isEof = false ∧ ∃ source, i.1 ∈ (scan source).tokens := by
    intro i hi
    simp only [items, List.mem_cons, List.not_mem_nil, or_false] at hi
    rcases hi with rfl | rfl | rfl | rfl
    · exact ⟨rfl, "8.".toList, by decide +kernel⟩
    · exact ⟨rfl, "\"a\n//\"".toList, by decide +kernel⟩
    · exact ⟨rfl, "@\n/".toList, by decide +kernel⟩
    · exact ⟨rfl, "2**3".toList, by decide +kernel⟩
  have hblank : ∀ v ∈ " \n".toList :: items.map Prod.snd, ∀ c ∈ v,
      c ∈ [' ', '\t', '\r', '\n'] := by simp [items]
  have hsep : ∀ v ∈ (items.map Prod.snd).dropLast, v ≠ [] := by simp [items]
  exact ⟨hscan, hblank, hsep, scan_spaced hscan hblank hsep⟩

end Lexical

end Lox
