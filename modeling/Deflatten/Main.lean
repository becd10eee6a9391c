import Deflatten.Command.Program

/-!
# Main — the command line

Every argument that names a file is read before the program runs; what it writes goes to disk
afterwards.
-/

open Deflatten

/-- The paths that arguments may name: each argument, and what follows an equals sign in it. -/
def candidatePaths (args : List String) : List String :=
  args.flatMap fun a =>
    let value := String.ofList ((a.toList.dropWhile (· ≠ '=')).drop 1)
    if value = "" then [a] else [a, value]

/-- Reads the files among paths. -/
def loadFiles : List String → IO (Table String ByteArray)
  | [] => pure .empty
  | p :: ps => do
    let files ← loadFiles ps
    try
      let contents ← IO.FS.readBinFile p
      pure (files.insert (Path.clean p) contents)
    catch _ => pure files

/-- Writes files, making the directories they are in. -/
def saveFiles (written : List (String × String)) : IO Unit :=
  written.forM fun (path, contents) => do
    let dir := (Path.split path).1
    if dir ≠ "" then IO.FS.createDirAll dir
    IO.FS.writeFile path contents

/-- The program. -/
def main (args : List String) : IO UInt32 := do
  let outcome := Outcome.ofArgs (← loadFiles (candidatePaths args)) args
  saveFiles outcome.desk.written
  (← IO.getStdout).putStr outcome.desk.out
  (← IO.getStderr).putStr outcome.desk.err
  pure (UInt32.ofNat outcome.exit)
