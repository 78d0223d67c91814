import Lox.Command.Arguments
import Lox.Command.Help
/-!
# Running the command

With a file the command writes it back once, and its status tells whether it
could. Without one it answers line by line: a prompt, then what the line
gives, and a last prompt when the input ends. A line is what stands before
each line feed, without the line feeds and carriage returns at its end.
Output goes to one stream and reports to another; both are texts here. How
the arguments are read, and how a file is, is left open.
-/


namespace Lox

namespace Command

/-- Why a file cannot be read. -/
inductive ReadError
  | noSuchFile
  | isDirectory
  | notDirectory
  /-- Any other reason, in words. -/
  | other (reason : Text)
deriving DecidableEq

/-- The reason in words. -/
def ReadError.message : ReadError → Text
  | noSuchFile => "No such file or directory (os error 2)".toList
  | isDirectory => "Is a directory (os error 21)".toList
  | notDirectory => "Not a directory (os error 20)".toList
  | other reason => reason

/-- How a run ends. -/
inductive Status
  | success
  /-- Something could not be read. -/
  | failure
  /-- The arguments cannot be right. -/
  | misuse
  /-- There is something to report about the file. -/
  | dataError
deriving DecidableEq

/-- The number by which the system knows a status. -/
def Status.code : Status → Nat
  | success => 0
  | failure => 1
  | misuse => 64
  | dataError => 65

/-- What a run leaves behind: its status and what it wrote to the two streams. -/
structure Output where
  status : Status
  stdout : Text
  stderr : Text
deriving DecidableEq

/-- What is asked of the user before each line. -/
def promptSign : Text := "> ".toList

/-- A failure to read, as reported to the user. -/
def failureText (reason : Text) : Text := "Error: ".toList ++ reason ++ ['\n']

/-- The reason given for bytes that are no text. -/
def notUtf8 : Text := "stream did not contain valid UTF-8".toList

/-- What writing a text back leaves behind. -/
def answer (emit : Emit) (source : Text) : Output :=
  match emit.render source with
  | .ok output => ⟨.success, output ++ ['\n'], []⟩
  | .error reports => ⟨.dataError, [], reports.text ++ ['\n']⟩

/-- Writes a file back. -/
def runFile (emit : Emit) (content : Except ReadError (List UInt8)) : Output :=
  match content with
  | .error e => ⟨.failure, [], failureText e.message⟩
  | .ok bytes =>
    match Text.ofUtf8? bytes with
    | none => ⟨.failure, [], failureText notUtf8⟩
    | some source => answer emit source

/-- The lines of an input, each with the line feed that ends it. The last one may have none. -/
def linesOf : List UInt8 → List (List UInt8)
  | [] => []
  | b :: bs =>
    if b = 10 then
      [b] :: linesOf bs
    else
      match linesOf bs with
      | [] => [[b]]
      | line :: rest => (b :: line) :: rest

/-- What one line gives, if it is a text. -/
def answerLine? (emit : Emit) (line : List UInt8) : Option Output :=
  (Text.ofUtf8? line).map fun t => answer emit (Text.trimLineEnd t)

/-- Answers lines one by one. A line that is no text ends the run. -/
def answerLines (emit : Emit) : List (List UInt8) → Output
  | [] => ⟨.success, promptSign, []⟩
  | line :: rest =>
    match answerLine? emit line with
    | none => ⟨.failure, promptSign, failureText notUtf8⟩
    | some now =>
      let later := answerLines emit rest
      ⟨later.status, promptSign ++ now.stdout ++ later.stdout, now.stderr ++ later.stderr⟩

/-- Answers an input line by line. -/
def runPrompt (emit : Emit) (stdin : List UInt8) : Output := answerLines emit (linesOf stdin)

/-- **One run of the command**: `reading` tells what the arguments ask for, `read` reads a file by
its path, `stdin` is the input. -/
def run (reading : List Text → Request) (args : List Text)
    (read : Text → Except ReadError (List UInt8)) (stdin : List UInt8) : Output :=
  match reading args with
  | .summary => ⟨.success, summary, []⟩
  | .manual => ⟨.success, manual, []⟩
  | .misuse => ⟨.misuse, [], usage⟩
  | .run emit (some path) => runFile emit (read path)
  | .run emit none => runPrompt emit stdin

end Command

end Lox
