/-!
# Texts

A text is a list of characters. Sources, lexemes, string values and
everything the program writes are texts; a character is one Unicode scalar
value. A file or a stream holds bytes, and a text is read off them only if
they are well-formed UTF-8.
-/


namespace Lox

/-- A text, first character first. -/
abbrev Text := List Char

namespace Text

/-- The number of bytes `t` takes in UTF-8. -/
def utf8Size : Text → Nat
  | [] => 0
  | c :: t => c.utf8Size + utf8Size t

/-- The number of line breaks in `t`. Only the line feed breaks a line. -/
def lineBreaks (t : Text) : Nat := t.count '\n'

/-- The UTF-8 form of `t`. -/
def utf8 (t : Text) : List UInt8 := (String.ofList t).toUTF8.toList

/-- The text that `bytes` encode, if they are well-formed UTF-8. -/
def ofUtf8? (bytes : List UInt8) : Option Text :=
  (String.fromUTF8? bytes.toByteArray).map String.toList

/-- `parts` with a line break between neighbours. -/
def joinLines (parts : List Text) : Text := List.intercalate ['\n'] parts

/-- `t` without the line feeds and carriage returns at its end. -/
def trimLineEnd (t : Text) : Text := (t.reverse.dropWhile fun c => c == '\n' || c == '\r').reverse

@[simp] theorem utf8Size_nil : utf8Size [] = 0 := rfl

@[simp] theorem utf8Size_cons (c : Char) (t : Text) : utf8Size (c :: t) = c.utf8Size + utf8Size t :=
  rfl

@[simp] theorem utf8Size_append (s t : Text) : utf8Size (s ++ t) = utf8Size s + utf8Size t := by
  induction s with
  | nil => simp
  | cons c s ih => simp [ih, Nat.add_assoc]

/-- A character takes at least one byte. -/
theorem length_le_utf8Size (t : Text) : t.length ≤ utf8Size t := by
  induction t with
  | nil => exact Nat.le_refl _
  | cons c t ih =>
    have hpos := Char.utf8Size_pos c
    rw [List.length_cons, utf8Size_cons]
    omega

@[simp] theorem lineBreaks_nil : lineBreaks [] = 0 := rfl

@[simp] theorem lineBreaks_append (s t : Text) :
    lineBreaks (s ++ t) = lineBreaks s + lineBreaks t :=
  List.count_append

end Text

end Lox
