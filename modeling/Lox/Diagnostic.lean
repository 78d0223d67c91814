import Lox.Text
/-!
# Diagnostics

A diagnostic is one report of a fault: a line, a location on it and a
message. Diagnostics are kept in the order in which they were reported, and a
run has failed once there is one.
-/


namespace Lox

/-- A report of a fault. The location is empty or starts with a blank. -/
structure Diagnostic where
  line : Nat
  location : Text
  message : Text
deriving DecidableEq

namespace Diagnostic

/-- The report in words. -/
def text (d : Diagnostic) : Text :=
  "[line ".toList ++ Nat.toDigits 10 d.line ++ "] Error".toList ++ d.location ++ ": ".toList ++
    d.message

end Diagnostic

/-- Reports in the order in which they were made. -/
abbrev Diagnostics := List Diagnostic

namespace Diagnostics

/-- The reports in words, one below the other. -/
def text (ds : Diagnostics) : Text := Text.joinLines (ds.map Diagnostic.text)

/-- Whether something was reported. -/
def hadError (ds : Diagnostics) : Bool := !ds.isEmpty

end Diagnostics

end Lox
