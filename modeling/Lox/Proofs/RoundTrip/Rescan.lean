import Lox.Proofs.Lexical.Tokens
import Lox.Proofs.RoundTrip.Rendered
/-!
# Scanning flat text

The flat text of a derived token string is cut into the tokens it was rendered
from, one lexeme for each, all on one line and with nothing to report. The
induction is on the derivation: what stands behind a part of the text is
either the operand after an operator or something that may follow an operand,
and neither joins the lexeme in front of it.
-/


namespace Lox

open Lexical Grammar

/-- The token that `t` is read as once it is rendered, on line `k`. -/
def Token.reread (k : Nat) (t : Token) : Token := ⟨t.data.echo, t.rendered, k⟩

/-- In front of `rest` the text `u` is cut into tokens, those of `ts` on the line where it starts,
and the cut goes on behind it on the same line. -/
def CutsInto (u rest : Text) (ts : Nat → List Token) : Prop :=
  ∀ p : Position, p.ahead = u ++ rest →
    (p.past u.length).line = p.line ∧
      ∃ segs, Segment.cut p = segs ++ Segment.cut (p.past u.length) ∧
        segs.filterMap Segment.token? = ts p.line ∧ segs.filterMap Segment.diagnostic? = []

namespace CutsInto

variable {u v rest : Text} {ts vs : Nat → List Token}

/-- Two cuts in a row are one. -/
theorem append (hu : CutsInto u (v ++ rest) ts) (hv : CutsInto v rest vs) :
    CutsInto (u ++ v) rest fun k => ts k ++ vs k := by
  intro p hp
  obtain ⟨hline, segs, hcut, htok, hrep⟩ := hu p (by rw [hp, List.append_assoc])
  have hahead : (p.past u.length).ahead = v ++ rest := by
    rw [Position.ahead_past, hp, List.append_assoc, List.drop_left]
  obtain ⟨hline', segs', hcut', htok', hrep'⟩ := hv _ hahead
  rw [Position.past_past, ← List.length_append] at hline' hcut'
  refine ⟨hline'.trans hline, segs ++ segs', ?_, ?_, ?_⟩
  · rw [hcut, hcut', List.append_assoc]
  · rw [List.filterMap_append, htok, htok', hline]
  · rw [List.filterMap_append, hrep, hrep', List.append_nil]

/-- A lexeme is cut into its token where what follows does not belong to it. -/
theorem of_piece {d : TokenData} (h : Piece u (.token d)) (hd : ∀ v, d ≠ .str v)
    (hrest : Apart (.token d) rest) : CutsInto u rest fun k => [⟨d, u, k⟩] := by
  intro p hp
  have hne : p.ahead ≠ [] := by
    have hfront := front_append h hrest
    intro hnil
    rw [← hp, hnil] at hfront
    cases hfront
  obtain ⟨c, t, hct⟩ := List.exists_cons_of_ne_nil hne
  have hmunch : munch c t = ⟨.token d, u.length⟩ := by
    rw [← front_append h hrest, ← hp, hct, front]
  have htake : p.ahead.take u.length = u := by rw [hp, List.take_left]
  have hcut := Segment.cut_of_cons hct
  rw [hmunch] at hcut
  refine ⟨?_, [⟨p, .token d, u.length⟩], hcut, ?_, rfl⟩
  · simp only [Position.past]
    rw [htake, Text.lineBreaks, List.count_eq_zero.2 (h.lineFeed_not_mem hd), Nat.add_zero]
  · simp [Segment.token?, Segment.lexeme, htake]

end CutsInto

/-- A visible token is cut off what does not join it. -/
theorem Token.IsVisible.cutsInto {t : Token} (h : t.IsVisible) {rest : Text}
    (hrest : Apart (.token t.data.echo) rest) :
    CutsInto t.rendered rest fun k => [t.reread k] :=
  .of_piece h.piece h.echo_ne_str hrest

/-- An operator or a parenthesis is cut off an operand. -/
theorem Token.IsVisible.cutsInto_of_opens {t : Token} (h : t.IsVisible) {s : Symbol}
    (hs : t.data = .symbol s) {rest : Text} (hrest : Opens rest) :
    CutsInto t.rendered rest fun k => [t.reread k] := by
  refine h.cutsInto ?_
  rw [Token.IsVisible.echo_of_symbol hs]
  exact hrest.apart s

namespace Grammar.Derives

variable {n : Nonterminal} {c : List Token} {e : Expr}

/-- The flat text of an expression starts as an operand does. -/
theorem opens (h : Derives n c e) (hv : ∀ t ∈ c, t.IsVisible) :
    Opens (c.map Token.rendered).flatten := by
  induction h with
  | unit _ _ ih => exact ih hv
  | binary _ _ _ _ ihl _ =>
    rw [List.map_append, List.flatten_append]
    exact (ihl (List.forall_mem_append.1 hv).1).append _
  | unary hs ht =>
    obtain ⟨ho, -⟩ := List.forall_mem_cons.1 hv
    rw [List.map_cons, List.flatten_cons, ho.rendered_of_symbol ht]
    cases hs with
    | bang => exact ⟨'!', _, rfl, .inr (.inr (.inl rfl))⟩
    | minus => exact ⟨'-', _, rfl, .inr (.inr (.inr rfl))⟩
  | literal hl =>
    have ht := List.forall_mem_singleton.1 hv
    rw [List.map_cons, List.flatten_cons]
    exact (ht.piece.opens (ht.echo_of_literal hl)).append _
  | group ho =>
    obtain ⟨hv, -⟩ := List.forall_mem_append.1 hv
    obtain ⟨hopen, -⟩ := List.forall_mem_cons.1 hv
    rw [List.map_append, List.map_cons, List.flatten_append, List.flatten_cons,
      hopen.rendered_of_symbol ho]
    exact ⟨'(', _, rfl, .inr (.inl rfl)⟩

/-- **Flat text is cut into the tokens it was rendered from**, if what stands behind it may follow
an operand. -/
theorem cutsInto (h : Derives n c e) (hv : ∀ t ∈ c, t.IsVisible) {rest : Text}
    (hrest : Closes rest) :
    CutsInto (c.map Token.rendered).flatten rest fun k => c.map (Token.reread k) := by
  induction h generalizing rest with
  | unit _ _ ih => exact ih hv hrest
  | @binary n m s ls rs t l r hs ht _ hr ihl ihr =>
    obtain ⟨hvl, hvr⟩ := List.forall_mem_append.1 hv
    obtain ⟨ho, hvr⟩ := List.forall_mem_cons.1 hvr
    -- the right operand does not join the operator, nor the operator the left operand
    have hop := ho.cutsInto_of_opens ht ((hr.opens hvr).append rest)
    have hleft : Closes (t.rendered ++ (rs.map Token.rendered).flatten ++ rest) := by
      rw [ho.rendered_of_symbol ht, List.append_assoc]
      exact closes_of_binaryRule hs _
    have hcut := (ihl hvl hleft).append (hop.append (ihr hvr hrest))
    simpa using hcut
  | unary hs ht hder ih =>
    obtain ⟨ho, hv⟩ := List.forall_mem_cons.1 hv
    have hop := ho.cutsInto_of_opens ht ((hder.opens hv).append rest)
    exact hop.append (ih hv hrest)
  | literal hl =>
    have ht := List.forall_mem_singleton.1 hv
    have hcut := ht.cutsInto (hrest.apart (ht.echo_of_literal hl))
    simpa using hcut
  | @group opening closing ts e ho hc hder ih =>
    obtain ⟨hv, hclose⟩ := List.forall_mem_append.1 hv
    obtain ⟨hopen, hv⟩ := List.forall_mem_cons.1 hv
    have hclose := List.forall_mem_singleton.1 hclose
    have hinner : Closes (closing.rendered ++ rest) := by
      rw [hclose.rendered_of_symbol hc]
      intro c hc
      cases Option.mem_some_iff.1 hc
      decide
    -- nothing joins a parenthesis, whatever stands behind it
    have hlast : CutsInto closing.rendered rest fun k => [closing.reread k] := by
      refine hclose.cutsInto ?_
      rw [Token.IsVisible.echo_of_symbol hc]
      intro c _
      rfl
    have hfirst := hopen.cutsInto_of_opens ho
      ((hder.opens hv).append (closing.rendered ++ rest))
    rw [← List.append_assoc] at hfirst
    have hcut := hfirst.append ((ih hv hinner).append hlast)
    simpa using hcut

end Grammar.Derives

/-- **The tokens of flat text** are those it was rendered from, read again, and there is nothing to
report about it. -/
theorem scan_flatten_rendered {c : List Token} {e : Expr} (h : Derives .comma c e)
    (hv : ∀ t ∈ c, t.IsVisible) :
    tokensOf (c.map Token.rendered).flatten = c.map (Token.reread 1) ∧
      (scan (c.map Token.rendered).flatten).diagnostics = [] := by
  have hend : Closes [] := fun d hd => absurd hd (by simp)
  obtain ⟨-, segs, hcut, htok, hrep⟩ :=
    h.cutsInto hv hend (.start _) (List.append_nil _).symm
  have hrest : Segment.cut ((Position.start (c.map Token.rendered).flatten).past
      (c.map Token.rendered).flatten.length) = [] := by
    refine Segment.cut_of_nil ?_
    rw [Position.ahead_past]
    exact List.drop_length
  rw [hrest, List.append_nil] at hcut
  refine ⟨?_, ?_⟩
  · rw [tokensOf, hcut, htok]
    rfl
  · rw [scan]
    simp only [hcut, hrep]

end Lox
