import Lox.Command.Run
/-!
# The command line

The outer layer: it takes the arguments, reads files and lines, and writes
what the library answers. The input is read byte by byte, so that a line is
answered before the next one is asked for.
-/


namespace Lox

namespace Command

/-- Why a file could not be read. The system names the path when it refuses to open a file, and
does not when it refuses to read one that is open. -/
def ReadError.ofSystem : IO.Error → ReadError
  | .noFileOrDirectory .. => noSuchFile
  | .inappropriateType (some _) .. => notDirectory
  | .inappropriateType none .. => isDirectory
  | e => other (toString e).toList

/-- Reads the file at a path. -/
def readFile (path : Text) : IO (Except ReadError (List UInt8)) := do
  try
    return .ok (← IO.FS.readBinFile (String.ofList path)).toList
  catch e =>
    return .error (.ofSystem e)

/-- Reads up to and with the next line feed, or up to the end of the input. The bytes of the line
so far are given last one first. -/
partial def readLine (stdin : IO.FS.Stream) (soFar : List UInt8) : IO (List UInt8) := do
  match (← stdin.read 1).toList with
  | [] => return soFar.reverse
  | b :: _ => if b = 10 then return (b :: soFar).reverse else readLine stdin (b :: soFar)

/-- Writes to the output. -/
def put (t : Text) : IO Unit := do
  let stdout ← IO.getStdout
  stdout.putStr (String.ofList t)
  stdout.flush

/-- Writes to the reports. -/
def putReport (t : Text) : IO Unit := do (← IO.getStderr).putStr (String.ofList t)

/-- Writes what a finished run left behind and returns its status. -/
def conclude (output : Output) : IO UInt32 := do
  put output.stdout
  putReport output.stderr
  return output.status.code.toUInt32

/-- Asks for lines and answers them. -/
partial def converse (emit : Emit) : IO UInt32 := do
  put promptSign
  let line ← readLine (← IO.getStdin) []
  if line.isEmpty then
    return Status.success.code.toUInt32
  match answerLine? emit line with
  | some output =>
    let _ ← conclude output
    converse emit
  | none => conclude ⟨.failure, [], failureText notUtf8⟩

end Command

end Lox

open Lox Lox.Command in
/-- **The command.** -/
def main (args : List String) : IO UInt32 := do
  let args := args.map String.toList
  match Request.ofArguments args with
  | .run emit none => converse emit
  | .run _ (some path) =>
    let content ← readFile path
    conclude (run .ofArguments args (fun _ => content) [])
  | _ => conclude (run .ofArguments args (fun _ => .error .noSuchFile) [])
