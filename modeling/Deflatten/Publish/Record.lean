import Deflatten.Binary64.Decimal
import Deflatten.Dispatch.Stages
import Deflatten.Json.Writer
import Deflatten.Publish.Diagnostics

/-!
# Publish/Record — the record of a run, as data

The record lists what happened to each function.  Members that are zero or empty are left out where
they would say nothing.
-/

namespace Deflatten

/-- A member that is left out when it is zero. -/
def Json.unlessZero (name : String) (i : Int) : List (String × Json) :=
  if i = 0 then [] else [(name, .int i)]

/-- A share of set bits. -/
def Json.share (x : Binary64) : Json := .num (x.format .record)

/-- A region. -/
def Summary.toJson (s : Summary) : Json :=
  .obj ([("pass", .int s.pass), ("entry", .int s.entry), ("internal", .ints s.internal),
    ("exits", .ints s.exits), ("values", .arr (s.values.map fun v => .nat v.toNat)),
    ("entropy", .share s.entropy)] ++ if s.viaHub then [("via_hub", .bool true)] else [])

/-- A removal. -/
def Report.toJson (r : Report) : Json :=
  .obj ([("func", .str r.func), ("maturity", .str r.maturity), ("passes", .int r.passes)] ++
    (if r.dispatchers.isEmpty then []
      else [("dispatchers", .arr (r.dispatchers.map Summary.toJson))]) ++
    [("redirected", .int r.redirected), ("duplicated", .int r.duplicated),
     ("unresolved", .int r.unresolved), ("blocks_before", .int r.blocksBefore),
     ("blocks_after", .int r.blocksAfter)] ++
    if r.exhausted = "" then [] else [("exhausted", .str r.exhausted)])

/-- A stage. -/
def Stage.toJson (s : Stage) : Json :=
  .obj ([("maturity", .str s.maturity)] ++ Json.unlessZero "dead_stores" s.deadStores ++
    Json.unlessZero "threaded" s.threaded ++ Json.unlessZero "dropped" s.dropped ++
    s.unflatten?.toList.map fun r => ("unflatten", r.toJson))

/-- A function's way. -/
def Result.toJson (r : Result) : Json :=
  .obj [("func", .str r.func), ("blocks_before", .int r.blocksBefore),
    ("blocks_after", .int r.blocksAfter), ("stages", .arr (r.stages.map Stage.toJson))]

/-- A problem. -/
def Diagnostic.toJson (d : Diagnostic) : Json :=
  .obj [("func", .str d.func), ("kind", .str d.kind), ("msg", .str d.message)]

/-- **The record of a run.** -/
structure RunRecord where
  /-- What was read. -/
  input : String
  /-- What happened to each function. -/
  results : List Result
  /-- The problems. -/
  diagnostics : List Diagnostic
deriving DecidableEq, Repr, Inhabited

namespace RunRecord

/-- The number of functions with a dispatcher. -/
def changed (r : RunRecord) : Nat := (r.results.filter fun x => 0 < x.dispatchers).length

/-- The record as data. -/
def toJson (r : RunRecord) : Json :=
  .obj ([("input", .str r.input), ("funcs", .nat r.results.length), ("changed", .nat r.changed),
    ("results", .arr (r.results.map Result.toJson))] ++
    if r.diagnostics.isEmpty then []
    else [("diagnostics", .arr (r.diagnostics.map Diagnostic.toJson))])

/-- **The record as a file.** -/
def text (r : RunRecord) : String := r.toJson.indented ++ "\n"

end RunRecord

end Deflatten
