import Deflatten.Arm64.Assembly
import Deflatten.Arm64.Lift
import Deflatten.Command.Batch
import Deflatten.Flattening.Samples
import Deflatten.Graph.Dot
import Deflatten.Publish.Page
import Deflatten.Publish.Record

/-!
# Command/Commands — the five commands

`detect` lists dispatchers, `unflatten` removes them, `lift` reads machine code, `flatten` puts
dispatchers in and `render` draws functions.
-/

namespace Deflatten.Command

/-! ## Detection -/

/-- The regions of each function that has some. -/
def regionsOf (cfg : Config) : List Func → Command (List (String × List Summary))
  | [] => pure []
  | f :: fs => do
    let c := f.collect cfg
    if let some e := c.error? then fail ("detect " ++ f.name ++ ": ") (.engine e)
    let rest ← regionsOf cfg fs
    pure (if c.regions.isEmpty then rest
      else (f.name, c.regions.map fun d => d.summarize 0) :: rest)

/-- A line for a function with its regions. -/
def regionsRecord (r : String × List Summary) : String :=
  (Json.obj [("func", .str r.1), ("dispatchers", .arr (r.2.map Summary.toJson))]).compact ++ "\n"

/-- The table of regions. -/
def regionsGrid (rs : List (String × List Summary)) : Grid :=
  { header := ["Function", "Entry", "Internal", "Exits", "Values", "Entropy"]
    rows := rs.flatMap fun r => r.2.map fun d =>
      [.text r.1, .num d.entry, .text (",".intercalate (d.internal.map Text.decimal)),
       .num d.exits.length, .num d.values.length, .text (d.entropy.fixed 3)] }

/-- **Lists the dispatchers of functions.** -/
def detect (args : List String) : Command Unit := do
  let flags ← parseFlags
    [("in", .text), ("config", .text), ("json", .switch), ("verbose", .switch)] args
  let input := flags.text "in"
  if input = "" then fail "" (.usage "--in is required")
  let cfg ← loadConfig (flags.text "config")
  let records ← regionsOf cfg (← loadFuncs input)
  if flags.switch "json" then print (String.join (records.map regionsRecord))
  else
    let grid := regionsGrid records
    print grid.render
    note (Text.decimal grid.rows.length ++ " dispatcher(s) in " ++ Text.decimal records.length ++
      " function(s)")

/-! ## Drawings -/

/-- Writes the drawing of a function, and gives its path. -/
def saveDot (dir name dot : String) : Command String := do
  let path := Path.join [dir, "cfg", Text.fileName name ++ ".dot"]
  makeDirs "output: mkdir cfg: " (Path.join [dir, "cfg"])
  writeFile path dot
  pure path

/-- The drawing of a function with its regions filled. -/
def drawRegions (f : Func) (regions : List Region) : String :=
  f.dot .standard (.ofSummaries (regions.map fun d => d.summarize 0))

/-! ## Removal -/

/-- Draws functions as they are before the stages. -/
def drawBefore (dir : String) (cfg : Config) (t : Tolerance) :
    List Diagnostic → List Func → Command (List Diagnostic)
  | ds, [] => pure ds
  | ds, f :: fs => do
    let c := f.collect cfg
    let ds ← match c.error? with
      | some e => report t ds f.name Diagnostic.unflatten (.engine e)
      | none => pure ds
    let _ ← saveDot dir (f.name ++ ".before") (drawRegions f c.regions)
    drawBefore dir cfg t ds fs

/-- **Removes the dispatchers of functions.** -/
def unflatten (args : List String) : Command Unit := do
  let flags ← parseFlags
    [("in", .text), ("out", .text), ("config", .text), ("dot", .switch), ("html", .switch),
     ("strict", .switch), ("jobs", .int), ("verbose", .switch)] args
  let input := flags.text "in"
  let dir := flags.text "out"
  if input = "" || dir = "" then fail "" (.usage "--in and --out are required")
  let cfg ← loadConfig (flags.text "config")
  let fs ← loadFuncs input
  makeDirs "mkdir output: " dir
  let t := tolerance (flags.switch "strict")
  let drawn ← if flags.switch "dot" then drawBefore dir cfg t [] fs else pure []
  let b ← advanceAll cfg t drawn fs
  note ("wrote " ++ (← saveFuncs dir "unflattened.jsonl" b.funcs))
  let recordPath := Path.join [dir, "report.json"]
  writeFile recordPath (RunRecord.text ⟨input, b.results, Diagnostic.sorted b.diagnostics⟩)
  note ("wrote " ++ recordPath)
  if flags.switch "dot" then
    b.funcs.forM fun f => do
      let _ ← saveDot dir (f.name ++ ".after") (drawRegions f [])
    note ("wrote " ++ Text.decimal b.funcs.length ++ " CFG pairs to " ++ Path.join [dir, "cfg"])
  if flags.switch "html" then
    writeFile (Path.join [dir, "index.html"])
      (Page.render ("unflat: " ++ Path.base input) b.results false)
  print (summaryGrid b.results).render
  warn b.diagnostics

/-! ## Lifting -/

/-- Blanks around a name. -/
def isSpace (c : Char) : Bool :=
  c.isWhitespace || [0x0b, 0x0c, 0x85, 0xa0, 0x1680, 0x2028, 0x2029, 0x202f, 0x205f,
    0x3000].contains c.toNat || (0x2000 ≤ c.toNat && c.toNat ≤ 0x200a)

/-- A name without blanks around it. -/
def trimmed (s : String) : String :=
  String.ofList ((s.toList.dropWhile isSpace).reverse.dropWhile isSpace).reverse

/-- **The functions that are asked for**, in the order of their names; all if none is named.  Of
several functions with one name the last counts. -/
def selectFunctions (all : List Elf.Function) (names : String) : Command (List Elf.Function) :=
  if names = "" then pure all
  else
    ((names.splitOn ",").map trimmed).mapM fun name =>
      match all.reverse.find? fun f => f.name == name with
      | some f => pure f
      | none => fail "" (.elf (.noSymbol name))

/-- What lifting needs to know. -/
structure LiftJob where
  /-- The image. -/
  image : Elf.Image
  /-- The names of functions. -/
  nameOf : UInt64 → Option String
  /-- Whether everything must be modelled. -/
  strict : Bool
  /-- The most instructions of a function. -/
  limit : Int
  /-- Where listings go, if they are wanted. -/
  listings? : Option String

/-- Writes the listing of a function. -/
def saveListing (j : LiftJob) (name : String) (is : List Inst) : Command Unit :=
  match j.listings? with
  | none => pure ()
  | some dir => do
    makeDirs "output: mkdir asm: " (Path.join [dir, "asm"])
    writeFile (Path.join [dir, "asm", Text.fileName name ++ ".txt"])
      (listing j.nameOf [Inst.microcode j.nameOf] is)

/-- The kind of problem that an error of lifting is. -/
def liftKind : LiftError → String
  | .flow .. => Diagnostic.input
  | _ => Diagnostic.lift

/-- Lifts functions one after the other. -/
def liftAll (j : LiftJob) :
    List Diagnostic → List Elf.Function → Command (List Func × List Diagnostic)
  | ds, [] => pure ([], ds)
  | ds, f :: fs => do
    let t := tolerance j.strict
    match j.image.code f with
    | .error e => liftAll j (← report t ds f.name Diagnostic.input (.elf e)) fs
    | .ok code =>
      let is := Inst.disassemble f.addr j.limit code.data.toList
      let lifted := (MachineFunc.ofInsts f.name is).lift { nameOf := j.nameOf, strict := j.strict }
      match lifted with
      | .error e => liftAll j (← report t ds f.name (liftKind e) (.lift e)) fs
      | .ok g =>
        saveListing j f.name is
        let (gs, ds) ← liftAll j ds fs
        pure (g :: gs, ds)

/-- **Lifts functions from an image.** -/
def lift (args : List String) : Command Unit := do
  let flags ← parseFlags
    [("elf", .text), ("sym", .text), ("out", .text), ("asm", .switch), ("unflatten", .switch),
     ("config", .text), ("strict", .switch), ("max-steps", .int), ("verbose", .switch)] args
  let input := flags.text "elf"
  let dir := flags.text "out"
  if input = "" || dir = "" then fail "" (.usage "--elf and --out are required")
  let image ← ofExcept "open: " .elf (Elf.Image.ofFile (← readFile "open: elfx: open: " input))
  let all ← ofExcept "" .elf image.functions
  let chosen ← selectFunctions all (flags.text "sym")
  note ("lifting " ++ Text.decimal chosen.length ++ " of " ++ Text.decimal all.length ++ " functions")
  let strict := flags.switch "strict"
  let job : LiftJob :=
    { image := image, nameOf := Elf.nameAt? all, strict := strict, limit := flags.int "max-steps" 0
      listings? := if flags.switch "asm" then some dir else none }
  let (fs, ds) ← liftAll job [] chosen
  let path ← saveFuncs dir "lifted.jsonl" fs
  note ("wrote " ++ path ++ " (" ++ Text.decimal fs.length ++ " functions)")
  if flags.switch "unflatten" then
    let cfg ← loadConfig (flags.text "config")
    let b ← advanceAll cfg (tolerance strict) ds fs
    note ("wrote " ++ (← saveFuncs dir "unflattened.jsonl" b.funcs))
    writeFile (Path.join [dir, "report.json"])
      (RunRecord.text ⟨input, b.results, Diagnostic.sorted b.diagnostics⟩)
    print (summaryGrid b.results).render
    warn b.diagnostics
  else warn ds

/-! ## Flattening -/

/-- Flattens functions, each with the next seed. -/
def flattenAll (loopEnd : Bool) : (seed : UInt64) → List Func → Command (List Func)
  | _, [] => pure []
  | seed, f :: fs => do
    let g ← ofExcept "" .flatten (f.flatten { seed := seed, loopEnd := loopEnd })
    let gs ← flattenAll loopEnd (seed + 1) fs
    pure (g :: gs)

/-- **Puts dispatchers into functions.** -/
def flatten (args : List String) : Command Unit := do
  let flags ← parseFlags
    [("in", .text), ("samples", .switch), ("out", .text), ("seed", .word), ("loopend", .switch),
     ("keep", .switch)] args
  let input := flags.text "in"
  let output := flags.text "out"
  if output = "" || (input == "") != flags.switch "samples" then
    fail "" (.usage "--out and exactly one of --in or --samples are required")
  let fs ← if flags.switch "samples" then pure Samples.all else loadFuncs input
  let flat ← flattenAll (flags.switch "loopend") (flags.word "seed" 1) fs
  let (dir, name) := Path.split output
  let dir := if dir = "" then "." else dir
  let path ← saveFuncs dir name flat
  note ("wrote " ++ path ++ " (" ++ Text.decimal flat.length ++ " functions)")
  if flags.switch "keep" then
    let kept := Path.stem name ++ ".orig" ++ Path.extension name
    note ("wrote " ++ (← saveFuncs dir kept fs))

/-! ## Rendering -/

/-- Draws each function with its regions filled, and gives the paths. -/
def drawAll (dir : String) (cfg : Config) : List Func → Command (List String)
  | [] => pure []
  | f :: fs => do
    let c := f.collect cfg
    if let some e := c.error? then note ("warning: " ++ f.name ++ ": " ++ e.message)
    let path ← saveDot dir f.name (drawRegions f c.regions)
    let paths ← drawAll dir cfg fs
    pure (path :: paths)

/-- **Draws functions and who calls whom.**  Drawings stay text: turning them into pictures is left
to other programs. -/
def render (args : List String) : Command Unit := do
  let flags ← parseFlags
    [("in", .text), ("out", .text), ("config", .text), ("title", .text), ("svg", .switch)] args
  let input := flags.text "in"
  let dir := flags.text "out"
  if input = "" || dir = "" then fail "" (.usage "--in and --out are required")
  let title := if flags.text "title" = "" then Path.base input else flags.text "title"
  let cfg ← loadConfig (flags.text "config")
  let fs ← loadFuncs input
  makeDirs "mkdir output: " dir
  let paths ← drawAll dir cfg fs
  note ("wrote " ++ Text.decimal paths.length ++ " function CFGs")
  let calls := Path.join [dir, "callgraph.dot"]
  let sites := Path.join [dir, "calls_cfg.dot"]
  writeFile calls ((CallGraph.ofFuncs fs).dot .standard title)
  writeFile sites (CallGraph.sitesDot .standard (title ++ " (calls)") fs)
  note ("wrote " ++ calls ++ ", " ++ sites)
  if flags.switch "svg" then
    (paths ++ [calls, sites]).forM fun p =>
      note ("warning: " ++ p ++
        ": SVG failed: exec: \"dot\": executable file not found in $PATH")

end Deflatten.Command
