import Lox.Proofs.Lexical.Joining
import Lox.Proofs.Lexical.Strays
/-!
# Text behind a source

What is appended to a source is seen by the lexemes at its end and by no
others. A lexeme with two characters behind it has ended, and so have all in
front of it; a character that starts nothing ends what stands in front of it,
and none need stand behind it. What was cut up to there is cut there again.
-/


namespace Lox

namespace Lexical

/-- **What a text must be so that nothing in front of it sees its end**: a point alone could turn
out to be that of a number. -/
structure Settled (rest : Text) : Prop where
  ne_nil : rest ≠ []
  ne_point : rest ≠ ['.']

theorem settled_of_two_le {rest : Text} (h : 2 ≤ rest.length) : Settled rest := by
  constructor
  · rintro rfl
    exact absurd h (by decide)
  · rintro rfl
    exact absurd h (by decide)

theorem settled_cons {c : Char} (hc : c ≠ '.') (rest : Text) : Settled (c :: rest) :=
  ⟨List.cons_ne_nil c rest, fun h => hc (List.cons.inj h).1⟩

/-- Nor is the end seen from further in front. -/
theorem Settled.append {rest : Text} (h : Settled rest) (t : Text) : Settled (t ++ rest) := by
  refine ⟨List.append_ne_nil_of_right_ne_nil t h.ne_nil, fun hpoint => ?_⟩
  rcases List.append_eq_singleton_iff.1 hpoint with ⟨-, hrest⟩ | ⟨-, hrest⟩
  · exact h.ne_point hrest
  · exact h.ne_nil hrest

/-- So more text behind it makes no difference. -/
theorem Settled.alike {rest : Text} (h : Settled rest) (b : Text) : Alike rest (rest ++ b) := by
  cases rest with
  | nil => exact absurd rfl h.ne_nil
  | cons c rest =>
    refine ⟨.refl _, fun hpoint => ?_⟩
    cases rest with
    | nil => exact absurd (congrArg (fun d => [d]) (Option.some.inj hpoint)) h.ne_point
    | cons d rest => exact .refl _

theorem joined_append (segs segs' : List (Text × Finding)) :
    joined (segs ++ segs') = joined segs ++ joined segs' := by
  rw [joined, joined, joined, List.map_append, List.flatten_append]

/-- **The segments in front of a settled text stay**, whatever is appended. -/
theorem Segmented.append_text {a b : Text} {segs segs' segs'' : List (Text × Finding)}
    (ha : Segmented a (segs ++ segs')) (hs : Settled (joined segs'))
    (hb : Segmented (joined segs' ++ b) segs'') : Segmented (a ++ b) (segs ++ segs'') := by
  induction segs generalizing a with
  | nil =>
    have htext : joined segs' = a := ha.flatten
    rwa [← htext]
  | cons s segs ih =>
    generalize hsegs : s :: segs ++ segs' = all at ha
    cases ha with
    | nil => cases hsegs
    | @cons t rest f _ hne hstands hrest =>
      obtain ⟨rfl, rfl⟩ := List.cons.inj hsegs
      have htext : joined segs ++ joined segs' = rest := (joined_append _ _).symm.trans hrest.flatten
      have hsettled : Settled rest := htext ▸ hs.append (joined segs)
      have hopen : ¬ IsOpen f := fun hopen => hsettled.ne_nil (hstands.eq_nil_of_isOpen hopen)
      rw [List.append_assoc]
      exact .cons hne (hstands.congr hopen (hsettled.alike b)) (ih hrest)

/-! ## What two scans share -/

/-- **Texts that are cut alike in front** have the tokens and the reports of that part in common. -/
theorem getElem?_scan_of_segmented {a a' : Text} {segs segs' segs'' : List (Text × Finding)}
    (h : Segmented a (segs ++ segs')) (h' : Segmented a' (segs ++ segs'')) (i : Nat) :
    (i < (tokensFrom 1 segs).length → (scan a').tokens[i]? = (scan a).tokens[i]?) ∧
      (i < (reportsFrom 1 segs).length →
        (scan a').diagnostics[i]? = (scan a).diagnostics[i]?) := by
  obtain ⟨htok, hrep⟩ := views_append segs segs' 1
  obtain ⟨htok', hrep'⟩ := views_append segs segs'' 1
  rw [scan_of_segmented h, scan_of_segmented h']
  refine ⟨fun hi => ?_, fun hi => ?_⟩
  · rw [htok, htok', List.append_assoc, List.append_assoc, List.getElem?_append_left hi,
      List.getElem?_append_left hi]
  · rw [hrep, hrep', List.getElem?_append_left hi, List.getElem?_append_left hi]

/-- As many tokens and reports as segments that give one. -/
theorem length_views (segs : List Segment) (k : Nat) :
    (tokensFrom k (segs.map Segment.view)).length = (segs.filterMap Segment.token?).length ∧
      (reportsFrom k (segs.map Segment.view)).length =
        (segs.filterMap Segment.diagnostic?).length := by
  induction segs generalizing k with
  | nil => exact ⟨rfl, rfl⟩
  | cons s segs ih =>
    obtain ⟨p, f, n⟩ := s
    obtain ⟨htok, hrep⟩ := ih (k + Text.lineBreaks (Segment.mk p f n).lexeme)
    cases f with
    | token => exact ⟨congrArg Nat.succ htok, hrep⟩
    | trivia => exact ⟨htok, hrep⟩
    | fault => exact ⟨htok, congrArg Nat.succ hrep⟩

open Segment

/-- **The lexemes up to one with two characters behind it** are those of every longer text. -/
theorem getElem?_tokens_append {a b : Text} {before after : List Segment} {s : Segment} {t : Token}
    (h : cut (.start a) = before ++ s :: after) (ht : s.token? = some t)
    (hbehind : 2 ≤ (textOf after).length) :
    (scan (a ++ b)).tokens[(before.filterMap token?).length]? =
      (scan a).tokens[(before.filterMap token?).length]? := by
  have ha : Segmented a ((before ++ [s]).map view ++ after.map view) := by
    have hcut := (segmented_cut (.start a)).1
    rw [h, List.append_cons, List.map_append] at hcut
    exact hcut
  have htext : joined (after.map view) = textOf after := by
    rw [joined, List.map_map]
    rfl
  obtain ⟨segs, hsegs⟩ := exists_segmented (joined (after.map view) ++ b)
  have hab := ha.append_text (settled_of_two_le (htext ▸ hbehind)) hsegs
  refine (getElem?_scan_of_segmented ha hab _).1 ?_
  rw [(length_views _ 1).1, List.filterMap_append, List.filterMap_cons_some ht, List.length_append]
  exact Nat.lt_add_of_pos_right Nat.one_pos

/-- **A character that starts nothing** is reported in every longer text, whatever stands behind
it. -/
theorem getElem?_diagnostics_append {a b : Text} {before after : List Segment} {s : Segment}
    {c : Char} (h : cut (.start a) = before ++ s :: after)
    (hs : s.finding = .fault (.unexpectedCharacter c)) :
    (scan (a ++ b)).diagnostics[(before.filterMap diagnostic?).length]? =
      (scan a).diagnostics[(before.filterMap diagnostic?).length]? := by
  have ha : Segmented a (before.map view ++ s.view :: after.map view) := by
    have hcut := (segmented_cut (.start a)).1
    rw [h, List.map_append] at hcut
    exact hcut
  obtain ⟨-, hstands⟩ := of_cut_eq_append h
  rw [hs] at hstands
  obtain ⟨hlexeme, rest, hrest, hstray⟩ := stands_unexpected_iff.1 hstands
  have htext : joined (s.view :: after.map view) = c :: joined (after.map view) :=
    congrArg (· ++ joined (after.map view)) hlexeme
  have hpoint : c ≠ '.' := by
    rintro rfl
    exact hstray _ _ (.symbol .dot)
  -- the character is cut off alone again, so it belongs to what the two cuts share
  obtain ⟨segs, hsegs⟩ := exists_segmented (joined (after.map view) ++ b)
  have hagain : Segmented (joined (s.view :: after.map view) ++ b) (s.view :: segs) := by
    have hview : s.view = ([c], .fault (.unexpectedCharacter c)) := Prod.ext hlexeme hs
    rw [htext, hview]
    exact .cons (List.cons_ne_nil c []) (stands_unexpected_iff.2 ⟨rfl, _, rfl, hstray⟩) hsegs
  have hab := ha.append_text (htext ▸ settled_cons hpoint _) hagain
  have hdiagnostic : ∃ d, s.diagnostic? = some d := ⟨_, by rw [diagnostic?, hs]⟩
  obtain ⟨d, hd⟩ := hdiagnostic
  have hshared : ∀ segs : List (Text × Finding),
      before.map view ++ s.view :: segs = (before ++ [s]).map view ++ segs := fun segs => by
    rw [List.map_append, List.append_assoc]
    rfl
  rw [hshared] at ha hab
  refine (getElem?_scan_of_segmented ha hab _).2 ?_
  rw [(length_views _ 1).2, List.filterMap_append, List.filterMap_cons_some hd, List.length_append]
  exact Nat.lt_add_of_pos_right Nat.one_pos

/-- **A scan looks at most two characters past a lexeme.** Each token of a source has its lexeme at
one place in it, and if two characters or more stand behind that, the token has the same number in
the scan of every text that begins with the source. A report about a character that starts nothing
has the same number there even if nothing stands behind the character. -/
theorem scan_append_text (a b : Text) :
    (∀ (i : Nat) (t : Token), (scan a).tokens[i]? = some t → t.isEof = false →
      ∃ before s after, cut (.start a) = before ++ s :: after ∧
        (before.filterMap token?).length = i ∧ s.token? = some t ∧
        a = textOf before ++ t.lexeme ++ textOf after ∧
        (2 ≤ (textOf after).length → (scan (a ++ b)).tokens[i]? = some t)) ∧
      ∀ (i : Nat) (d : Diagnostic), (scan a).diagnostics[i]? = some d →
        d.message = "Unexpected character.".toList →
        (scan (a ++ b)).diagnostics[i]? = some d := by
  refine ⟨fun i t h ht => ?_, fun i d h hmessage => ?_⟩
  · obtain ⟨before, s, after, hcut, rfl, hs⟩ :=
      exists_of_getElem?_filterMap (getElem?_tokensOf h ht)
    obtain ⟨data, -, rfl⟩ := exists_of_token? hs
    refine ⟨before, s, after, hcut, rfl, hs, ?_, fun hbehind => ?_⟩
    · have htext : textOf (cut (.start a)) = a := textOf_cut _
      rw [← htext, hcut]
      simp [textOf]
    · rw [getElem?_tokens_append hcut hs hbehind]
      exact h
  · obtain ⟨before, s, after, hcut, rfl, hs⟩ := exists_of_getElem?_filterMap h
    obtain ⟨error, herror, rfl⟩ := exists_of_diagnostic? hs
    change error.message = "Unexpected character.".toList at hmessage
    cases error with
    | unexpectedCharacter c =>
      rw [getElem?_diagnostics_append hcut herror]
      exact h
    | unterminatedString => exact absurd hmessage (by decide)
    | unterminatedBlockComment => exact absurd hmessage (by decide)

/-- With a digit behind it the point at the end belongs to the number; the word has two characters
behind it and stays. -/
example :
    (scan "a 8.".toList).tokens.map Token.lexeme = [['a'], ['8'], ['.'], []] ∧
      (scan ("a 8.".toList ++ ['5'])).tokens.map Token.lexeme =
        [['a'], ['8', '.', '5'], []] := by
  decide +kernel

end Lexical

end Lox
