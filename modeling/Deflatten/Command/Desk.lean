import Deflatten.Collections.Table
import Deflatten.Dispatch.ConfigFile
import Deflatten.Dispatch.EngineError
import Deflatten.Elf.Functions
import Deflatten.Flattening.Flatten
import Deflatten.Arm64.Lift
import Deflatten.Microcode.Exchange
import Deflatten.Text.Path
import Deflatten.Text.Bytes

/-!
# Command/Desk — what a command reads and writes

A command works at a desk: it reads the files it was handed and leaves behind the files it writes and
the lines it prints.  When it fails, the desk stays as it was at that moment.
-/

namespace Deflatten

/-- **The files and the output of a command.** -/
structure Desk where
  /-- The files at hand, by their shortest path. -/
  files : Table String ByteArray := .empty
  /-- The files written, in order. -/
  written : List (String × String) := []
  /-- Standard output. -/
  out : String := ""
  /-- Standard error. -/
  err : String := ""

/-- Why a command fails. -/
inductive CommandCause where
  /-- The options make no sense. -/
  | flags (message : String)
  /-- Options are missing. -/
  | usage (message : String)
  /-- There is no such file. -/
  | noFile (path : String)
  /-- A file stands where a directory should, and is named as such. -/
  | notDirectory (path : String)
  /-- A file stands where a directory is to be made. -/
  | fileExists (path : String)
  /-- Functions cannot be read. -/
  | read (error : ReadFailure)
  /-- A configuration cannot be used. -/
  | config (error : ConfigFileError)
  /-- An image cannot be used. -/
  | elf (error : Elf.Error)
  /-- A function cannot be lifted. -/
  | lift (error : LiftError)
  /-- A function cannot be flattened. -/
  | flatten (error : FlattenError)
  /-- The engine gave up on a function. -/
  | engine (error : EngineError)
deriving DecidableEq, Repr

/-- The wording of a cause. -/
def CommandCause.message : CommandCause → String
  | flags m | usage m => m
  | noFile path => "open " ++ path ++ ": no such file or directory"
  | notDirectory path => "mkdir " ++ path ++ ": not a directory"
  | fileExists path => "mkdir " ++ path ++ ": file exists"
  | read e => e.message
  | config e => e.message
  | elf e => e.message
  | lift e => e.message
  | flatten e => e.message
  | engine e => e.message

/-- **Why a command fails**, and what it was doing. -/
structure CommandError where
  /-- What it was doing, in front of the wording. -/
  context : String := ""
  /-- What went wrong. -/
  cause : CommandCause
deriving DecidableEq, Repr

/-- The wording of an error. -/
def CommandError.message (e : CommandError) : String := e.context ++ e.cause.message

/-- **A command.** -/
abbrev Command (α : Type) := EStateM CommandError Desk α

namespace Command

/-- Fails. -/
def fail {α : Type} (context : String) (cause : CommandCause) : Command α := throw ⟨context, cause⟩

/-- A result, or a failure. -/
def ofExcept {ε α : Type} (context : String) (wrap : ε → CommandCause) : Except ε α → Command α
  | .ok a => pure a
  | .error e => fail context (wrap e)

/-- Prints. -/
def print (s : String) : Command Unit := modify fun d => { d with out := d.out ++ s }

/-- Prints a line to standard error. -/
def note (s : String) : Command Unit := modify fun d => { d with err := d.err ++ s ++ "\n" }

/-- The contents of a file. -/
def readFile (context path : String) : Command ByteArray := do
  match (← get).files.get? (Path.clean path) with
  | some b => pure b
  | none => fail context (.noFile path)

/-- The contents of a file as text. -/
def readText (context path : String) : Command String := do
  pure (Text.ofUtf8 (← readFile context path).data.toList)

/-- Whether a path names a file. -/
def isFile (d : Desk) (path : String) : Bool :=
  (d.files.get? (Path.clean path)).isSome || d.written.any fun w => w.1 == Path.clean path

/-- **Makes a directory and those above it.**  A file in their place is in the way. -/
def makeDirs (context path : String) : Command Unit := do
  let d ← get
  if isFile d path then
    if path.endsWith "/" then fail context (.fileExists path)
    else fail context (.notDirectory path)
  else
    match (Path.ancestors path).find? (isFile d) with
    | some p => fail context (.fileExists (p ++ "/"))
    | none => pure ()

/-- Writes a file. -/
def writeFile (path contents : String) : Command Unit :=
  modify fun d => { d with written := d.written ++ [(Path.clean path, contents)] }

end Command

end Deflatten
