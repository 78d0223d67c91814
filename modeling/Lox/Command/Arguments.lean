import Lox.Emit
/-!
# Command-line arguments

The arguments are taken from left to right, and the first one that asks for
help or cannot be right decides. One option sets the form of the output, at
most once; at most one other argument names a file. Two dashes end the
options.
-/


namespace Lox

namespace Command

/-- What one argument is. -/
inductive Argument
  /-- The form of the output is the next argument. -/
  | emit
  /-- The form of the output, in the same argument. -/
  | emitAs (name : Text)
  /-- A request for the short help. -/
  | summary
  /-- A request for the long help. -/
  | manual
  /-- Every argument from here on names a file. -/
  | endOfOptions
  | unknown
  | file (name : Text)
deriving DecidableEq

/-- What an argument with two dashes in front of `name` is. -/
def Argument.ofLongOption (name : Text) : Argument :=
  if name = [] then .endOfOptions
  else if name = "emit".toList then .emit
  else if "emit=".toList.isPrefixOf name then .emitAs (name.drop 5)
  else if name = "help".toList then .manual
  else .unknown

/-- What an argument is. A lone dash is a file name. -/
def Argument.ofText : Text → Argument
  | '-' :: '-' :: name => ofLongOption name
  | '-' :: 'h' :: _ => summary
  | '-' :: _ :: _ => unknown
  | name => file name

/-- What the arguments as a whole ask for. -/
inductive Request
  | summary
  | manual
  | misuse
  /-- Write a file back, or answer line by line if there is none. -/
  | run (emit : Emit) (file : Option Text)
deriving DecidableEq

/-- What the arguments seen so far have set. -/
structure Settings where
  emit : Option Emit
  file : Option Text
deriving DecidableEq

namespace Settings

/-- Nothing set. -/
def start : Settings := ⟨none, none⟩

/-- Sets the form of the output by its name, unless it is set already. -/
def setEmit? (s : Settings) (name : Text) : Option Settings :=
  match s.emit, Emit.ofName? name with
  | none, some e => some { s with emit := some e }
  | _, _ => none

/-- Sets the file, unless one is set already. A file has a name. -/
def setFile? (s : Settings) (name : Text) : Option Settings :=
  match s.file, name with
  | none, _ :: _ => some { s with file := some name }
  | _, _ => none

/-- What is asked for when the arguments end. -/
def request (s : Settings) : Request := .run (s.emit.getD .lisp) s.file

end Settings

namespace Request

/-- What is asked for, all further arguments being file names. -/
def ofFiles (s : Settings) : List Text → Request
  | [] => s.request
  | name :: rest =>
    match s.setFile? name with
    | some s => ofFiles s rest
    | none => misuse

/-- What is asked for, given what is set so far. -/
def ofSettings (s : Settings) : List Text → Request
  | [] => s.request
  | arg :: rest =>
    match Argument.ofText arg, rest with
    | .summary, _ => summary
    | .manual, _ => manual
    | .endOfOptions, rest => ofFiles s rest
    | .emitAs name, rest =>
      match s.setEmit? name with
      | some s => ofSettings s rest
      | none => misuse
    | .emit, name :: rest =>
      match s.setEmit? name with
      | some s => ofSettings s rest
      | none => misuse
    | .file name, rest =>
      match s.setFile? name with
      | some s => ofSettings s rest
      | none => misuse
    | _, _ => misuse

/-- **What the arguments ask for.** -/
def ofArguments (args : List Text) : Request := ofSettings .start args

end Request

end Command

end Lox
