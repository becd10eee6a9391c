import Deflatten.Command.Desk
import Deflatten.Command.Flags
import Deflatten.Dispatch.Stages
import Deflatten.Publish.Diagnostics
import Deflatten.Publish.Grid

/-!
# Command/Batch — what several commands do

Reading functions and a configuration, taking every function through the stages, writing functions
and the table of what became of them.
-/

namespace Deflatten.Command

/-- The options of a command. -/
def parseFlags (kinds : List (String × FlagKind)) (args : List String) : Command Flags :=
  ofExcept "" .flags (Flags.parse kinds .empty args)

/-- The configuration in a file, or the defaults if none is named. -/
def loadConfig (path : String) : Command Config := do
  if path = "" then pure {}
  else ofExcept "" .config (Config.ofText (← readText "unflat: read config: " path))

/-- **The functions in a file.**  The commands that load functions look at their instructions, and
break off if one is not there. -/
def loadFuncs (path : String) : Command (List Func) := do
  let context := "read " ++ path ++ ": "
  match readFuncs (← readText (context ++ "mcode: open: ") path) with
  | (_, some e) => fail context (.read e)
  | (ds, none) =>
    note ("read " ++ Text.decimal ds.length ++ " functions")
    match ds.findIdx? fun d => !d.gaps.isEmpty with
    | some i => fail context (.read ⟨i + 1, .absent⟩)
    | none => pure (ds.map Draft.func)

/-- Writes functions to a file in a directory, and gives its path. -/
def saveFuncs (dir name : String) (fs : List Func) : Command String := do
  makeDirs "output: mkdir: " dir
  let path := Path.join [dir, name]
  writeFile path (writeFuncs fs)
  pure path

/-- How much a run puts up with. -/
def tolerance (strict : Bool) : Tolerance := if strict then .strict else .bestEffort

/-- Takes note of a problem with a function, or fails. -/
def report (t : Tolerance) (ds : List Diagnostic) (func kind : String) (cause : CommandCause) :
    Command (List Diagnostic) :=
  match t.check ds ⟨func, kind, cause.message⟩ with
  | .error _ => fail (func ++ ": ") cause
  | .ok ds => pure ds

/-- What became of functions. -/
structure Batch where
  /-- The functions afterwards. -/
  funcs : List Func := []
  /-- The record of each. -/
  results : List Result := []
  /-- The problems. -/
  diagnostics : List Diagnostic := []

/-- Takes one more function through the stages. -/
def advanceOne (cfg : Config) (t : Tolerance) (b : Batch) (f : Func) : Command Batch := do
  let (a, r) := f.advance cfg false
  let ds ← match a.error? with
    | some e => report t b.diagnostics f.name Diagnostic.unflatten (.engine e)
    | none =>
      pure (if r.exhausted = "" then b.diagnostics
        else b.diagnostics ++ [⟨f.name, Diagnostic.budget, r.exhausted⟩])
  pure ⟨b.funcs ++ [a.func], b.results ++ [r], ds⟩

/-- **Takes functions through the stages.** -/
def advanceAll (cfg : Config) (t : Tolerance) (ds : List Diagnostic) (fs : List Func) :
    Command Batch :=
  fs.foldlM (advanceOne cfg t) { diagnostics := ds }

/-- The table of what became of functions. -/
def summaryGrid (rs : List Result) : Grid :=
  { header := ["Function", "Regions", "Blocks before", "Blocks after", "Note"]
    rows := rs.map fun r =>
      [.text r.func, .num r.dispatchers, .num r.blocksBefore, .num r.blocksAfter,
       .text r.exhausted]
    footer? := some
      [.text "total", total fun r => r.dispatchers, total Result.blocksBefore,
       total Result.blocksAfter, .text ""] }
where
  total (n : Result → Int) := .num (rs.foldl (fun acc r => acc + n r) 0)

/-- Prints the problems. -/
def warn (ds : List Diagnostic) : Command Unit :=
  (Diagnostic.sorted ds).forM fun d => note ("warning: " ++ d.text)

end Deflatten.Command
