import Lox.Text
/-!
# Texts as bytes

Bytes are a text exactly if they are the UTF-8 form of one, and of one only.
The byte of a line feed occurs in that form only where a line feed stands, so
bytes that are cut behind such a byte are a text exactly if both parts are.
-/


namespace Lox

namespace Text

/-- Whether `bytes` are well-formed UTF-8: they encode some text. -/
def IsUtf8 (bytes : List UInt8) : Prop := ∃ t, utf8 t = bytes

/-! ## Reading bytes back -/

/-- The bytes of an array behind some of its first ones are collected in their order. -/
theorem toList_loop_append (passed ahead r : List UInt8) :
    ByteArray.toList.loop (passed ++ ahead).toByteArray passed.length r = r.reverse ++ ahead := by
  induction ahead generalizing passed r with
  | nil =>
    rw [ByteArray.toList.loop, if_neg (by simp), List.append_nil]
  | cons b ahead ih =>
    have hnext := ih (passed ++ [b]) (b :: r)
    rw [List.append_assoc, List.singleton_append, List.length_append, List.length_singleton,
      List.reverse_cons, List.append_assoc, List.singleton_append] at hnext
    have hget : (passed ++ b :: ahead).toByteArray.get! passed.length = b := by
      simp [ByteArray.get!]
    rw [ByteArray.toList.loop, if_pos (by simp), hget, hnext]

theorem toList_toByteArray (l : List UInt8) : l.toByteArray.toList = l :=
  toList_loop_append [] l []

/-- A text is encoded character by character. -/
theorem utf8_eq_flatMap (t : Text) : utf8 t = t.flatMap String.utf8EncodeChar := by
  rw [utf8, String.toUTF8, String.toByteArray_ofList, List.utf8Encode, toList_toByteArray]

@[simp] theorem utf8_nil : utf8 [] = [] := by
  rw [utf8_eq_flatMap, List.flatMap_nil]

theorem utf8_cons (c : Char) (t : Text) : utf8 (c :: t) = String.utf8EncodeChar c ++ utf8 t := by
  simp only [utf8_eq_flatMap, List.flatMap_cons]

theorem utf8_append (s t : Text) : utf8 (s ++ t) = utf8 s ++ utf8 t := by
  simp only [utf8_eq_flatMap, List.flatMap_append]

theorem toByteArray_utf8 (t : Text) : (utf8 t).toByteArray = (String.ofList t).toByteArray := by
  rw [utf8_eq_flatMap, String.toByteArray_ofList, List.utf8Encode]

theorem ofUtf8?_utf8 (t : Text) : ofUtf8? (utf8 t) = some t := by
  have hvalid : (utf8 t).toByteArray.IsValidUTF8 := by
    rw [toByteArray_utf8]
    exact String.isValidUTF8 _
  have hstring : String.fromUTF8 (utf8 t).toByteArray hvalid = String.ofList t :=
    String.toByteArray_inj.1 (toByteArray_utf8 t)
  rw [ofUtf8?, String.fromUTF8?, dif_pos hvalid, hstring, Option.map_some, String.toList_ofList]

/-- **Reading is the inverse of encoding.** -/
theorem ofUtf8?_eq_some_iff {bytes : List UInt8} {t : Text} :
    ofUtf8? bytes = some t ↔ utf8 t = bytes := by
  refine ⟨fun h => ?_, fun h => h ▸ ofUtf8?_utf8 t⟩
  obtain ⟨s, hs, rfl⟩ := Option.map_eq_some_iff.1 h
  unfold String.fromUTF8? at hs
  split at hs
  · cases hs
    rw [utf8, String.ofList_toList]
    exact toList_toByteArray bytes
  · cases hs

/-- Bytes that encode no text are not read. -/
theorem ofUtf8?_eq_none_iff {bytes : List UInt8} : ofUtf8? bytes = none ↔ ¬ IsUtf8 bytes := by
  simp only [Option.eq_none_iff_forall_ne_some, ne_eq, ofUtf8?_eq_some_iff, IsUtf8, not_exists]

/-! ## The byte of the line feed -/

theorem utf8EncodeChar_lineFeed : String.utf8EncodeChar '\n' = [10] := rfl

/-- A character of several bytes has none below 128. -/
theorem eq_lineFeed_of_mem_utf8EncodeChar {c : Char} (h : 10 ∈ String.utf8EncodeChar c) :
    c = '\n' := by
  have hval : ∀ n : Nat, (10 : UInt8) = UInt8.ofNat n → n % 256 = 10 := fun n hn => by
    simpa using (congrArg UInt8.toNat hn).symm
  have hc : c.val.toNat = 10 := by
    unfold String.utf8EncodeChar at h
    simp only at h
    generalize c.val.toNat = v at h
    -- the encoding has one byte up to four, by the size of the character
    split at h
    · have := hval _ (List.mem_singleton.1 h)
      omega
    split at h
    · simp only [List.mem_cons, List.not_mem_nil, or_false] at h
      rcases h with h | h <;> exact absurd (hval _ h) (by omega)
    split at h
    · simp only [List.mem_cons, List.not_mem_nil, or_false] at h
      rcases h with h | h | h <;> exact absurd (hval _ h) (by omega)
    · simp only [List.mem_cons, List.not_mem_nil, or_false] at h
      rcases h with h | h | h | h <;> exact absurd (hval _ h) (by omega)
  exact Char.ext (UInt32.toNat_inj.1 hc)

/-- Where the byte of a line feed stands in an encoding, a line feed stands in the text. -/
theorem exists_of_utf8_eq_append {t : Text} {a b : List UInt8} (h : utf8 t = a ++ 10 :: b) :
    ∃ u v, t = u ++ '\n' :: v ∧ utf8 u = a ∧ utf8 v = b := by
  induction t generalizing a with
  | nil => simp at h
  | cons c t ih =>
    rw [utf8_cons] at h
    by_cases hc : c = '\n'
    · subst hc
      rw [utf8EncodeChar_lineFeed, List.singleton_append] at h
      cases a with
      | nil => exact ⟨[], t, rfl, utf8_nil, (List.cons.inj h).2⟩
      | cons x a =>
        obtain ⟨rfl, hrest⟩ := List.cons.inj h
        obtain ⟨u, v, rfl, rfl, rfl⟩ := ih hrest
        exact ⟨'\n' :: u, v, rfl, utf8_cons _ _, rfl⟩
    · -- the bytes of any other character lie before the byte in question
      have hmem : (10 : UInt8) ∉ String.utf8EncodeChar c := fun hmem =>
        hc (eq_lineFeed_of_mem_utf8EncodeChar hmem)
      obtain ⟨a', rfl, hrest⟩ : ∃ a', a = String.utf8EncodeChar c ++ a' ∧ utf8 t = a' ++ 10 :: b := by
        rcases List.append_eq_append_iff.1 h with ⟨a', ha, hb⟩ | ⟨b', ha, hb⟩
        · exact ⟨a', ha, hb⟩
        · cases b' with
          | nil => exact ⟨[], by simpa using ha.symm, by simpa using hb.symm⟩
          | cons x b' =>
            obtain ⟨rfl, -⟩ := List.cons.inj hb
            exact absurd (ha ▸ List.mem_append_right a List.mem_cons_self) hmem
      obtain ⟨u, v, rfl, rfl, rfl⟩ := ih hrest
      exact ⟨c :: u, v, rfl, utf8_cons _ _, rfl⟩

/-- **Bytes cut behind a line feed are a text exactly if both parts are.** -/
theorem isUtf8_append_lineFeed {a b : List UInt8} :
    IsUtf8 (a ++ 10 :: b) ↔ IsUtf8 (a ++ [10]) ∧ IsUtf8 b := by
  constructor
  · rintro ⟨t, ht⟩
    obtain ⟨u, v, -, rfl, rfl⟩ := exists_of_utf8_eq_append ht
    refine ⟨⟨u ++ ['\n'], ?_⟩, v, rfl⟩
    rw [utf8_append, utf8_cons, utf8EncodeChar_lineFeed, utf8_nil, List.append_nil]
  · rintro ⟨⟨u, hu⟩, v, rfl⟩
    exact ⟨u ++ v, by rw [utf8_append, hu, List.append_assoc, List.singleton_append]⟩

/-! ## The end of a line -/

/-- The characters that are dropped at the end of a line. -/
def IsLineEnd (c : Char) : Prop := c = '\n' ∨ c = '\r'

/-- What is left of a text without its line end. -/
theorem trimLineEnd_append {t e : Text} (he : ∀ c ∈ e, IsLineEnd c)
    (ht : ∀ c ∈ t.getLast?, ¬ IsLineEnd c) : trimLineEnd (t ++ e) = t := by
  have hdrop : ∀ c ∈ e.reverse, (c == '\n' || c == '\r') = true := fun c hc => by
    simpa [IsLineEnd] using he c (List.mem_reverse.1 hc)
  rw [trimLineEnd, List.reverse_append, List.dropWhile_append_of_pos hdrop]
  cases hrev : t.reverse with
  | nil => simpa using hrev.symm
  | cons c u =>
    have hlast : t.getLast? = some c := by
      rw [← List.head?_reverse, hrev, List.head?_cons]
    have hstop : (c == '\n' || c == '\r') = false := by
      simpa [IsLineEnd] using ht c hlast
    rw [List.dropWhile_cons_of_neg (by rw [hstop]; decide), ← hrev, List.reverse_reverse]

/-- Every text is what is left of it and a line end. -/
theorem exists_trimLineEnd_append (t : Text) :
    ∃ e, t = trimLineEnd t ++ e ∧ (∀ c ∈ e, IsLineEnd c) ∧
      ∀ c ∈ (trimLineEnd t).getLast?, ¬ IsLineEnd c := by
  let p : Char → Bool := fun c => c == '\n' || c == '\r'
  refine ⟨(t.reverse.takeWhile p).reverse, ?_, fun c hc => ?_, fun c hc => ?_⟩
  · rw [trimLineEnd, ← List.reverse_append, List.takeWhile_append_dropWhile, List.reverse_reverse]
  · have hp := List.all_eq_true.1 List.all_takeWhile c (List.mem_reverse.1 hc)
    simpa [p, IsLineEnd] using hp
  · rw [trimLineEnd, List.getLast?_reverse] at hc
    have hp := List.head?_dropWhile_not p t.reverse
    rw [Option.mem_def.1 hc] at hp
    simpa [p, IsLineEnd] using hp

end Text

end Lox
