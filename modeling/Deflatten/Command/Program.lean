import Deflatten.Command.Commands

/-!
# Command/Program — the whole program

The first argument names a command, which gets the others.  A failure is told on standard error and
in the exit status.
-/

namespace Deflatten

namespace Command

/-- **The command of a name.** -/
def named? (name : String) : Option (List String → Command Unit) :=
  match name with
  | "detect" => some detect
  | "unflatten" => some unflatten
  | "lift" => some lift
  | "flatten" => some flatten
  | "render" => some render
  | _ => none

/-- How the program is used. -/
def usage : String :=
  "unflat: control-flow flattening remover\n\nUsage:\n" ++
  "  unflat detect    --in <jsonl>                    List dispatcher regions\n" ++
  "  unflat unflatten --in <jsonl> --out <dir>         Unflatten every function\n" ++
  "  unflat lift      --elf <path> --sym <names> --out <dir>  Lift ARM64 functions to JSONL\n" ++
  "  unflat flatten   --in <jsonl> --out <file>        Flatten functions (test fixtures)\n" ++
  "  unflat render    --in <jsonl> --out <dir>         Per-function CFGs and call graph\n\n" ++
  "Flags:\n  --config <file>    YAML engine configuration\n" ++
  "  --strict           Fail on the first per-function error\n" ++
  "  --jobs <n>         Functions processed in parallel\n" ++
  "  --verbose          Debug logging\n"

end Command

/-- **What a run of the program leaves behind.** -/
structure Outcome where
  /-- The exit status. -/
  exit : Nat
  /-- Files and output. -/
  desk : Desk

/-- The desk with more on standard error. -/
def Desk.withErr (d : Desk) (s : String) : Desk := { d with err := d.err ++ s }

/-- Runs a command: its desk, and its error if it failed. -/
def Command.run (c : Command Unit) (d : Desk) : Desk × Option CommandError :=
  match c d with
  | .ok _ d => (d, none)
  | .error e d => (d, some e)

/-- **Runs the program on the files at hand.** -/
def Outcome.ofArgs (files : Table String ByteArray) (args : List String) : Outcome :=
  let desk : Desk := { files := files }
  match args with
  | [] => ⟨1, desk.withErr Command.usage⟩
  | name :: rest =>
    match Command.named? name with
    | some c =>
      match (c rest).run desk with
      | (d, none) => ⟨0, d⟩
      | (d, some ⟨_, .flags m⟩) => ⟨2, d.withErr (m ++ "\n")⟩
      | (d, some e) => ⟨1, d.withErr ("error: " ++ e.message ++ "\n")⟩
    | none =>
      if name = "help" || name = "-h" || name = "--help" then ⟨0, desk.withErr Command.usage⟩
      else ⟨1, desk.withErr ("unknown command: " ++ name ++ "\n" ++ Command.usage)⟩

end Deflatten
