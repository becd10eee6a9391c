import Deflatten.Dispatch.Config
import Deflatten.Yaml.Reader

/-!
# Dispatch/ConfigFile — configurations written as text

A file names the tunables that differ from the defaults.  Names that mean nothing are passed over; a
name that is given twice, or a value of the wrong kind, spoils the file.
-/

namespace Deflatten

/-- Why a file gives no configuration. -/
inductive ConfigFileError where
  /-- It cannot be read as names with values of the right kind. -/
  | malformed
  /-- It gives a configuration that is refused. -/
  | invalid (error : ConfigError)
deriving DecidableEq, Repr

/-- The wording of an error. -/
def ConfigFileError.message : ConfigFileError → String
  | malformed => "unflat: parse config"
  | invalid e => e.message

namespace Yaml.Node

/-- A scalar over a default: nothing leaves the default, and what does not fit is no value. -/
def scalarOr {α : Type} (n : Node) (default : α) (fit : Scalar → Option α) : Option α :=
  match n.scalar? with
  | some .null => some default
  | some s => fit s
  | none => none

/-- An integer of 64 bits; a number with a fraction loses it. -/
def readInt? (n : Node) (default : Int) : Option Int :=
  n.scalarOr default fun
    | .int i => if i < 0x8000000000000000 then some i else none
    | .float x =>
      if x.isNaN || (Binary64.ofInt 0x8000000000000000).lt x then none
      else if Text.isInt64 x.truncated then some x.truncated
      else some (-0x8000000000000000)
    | _ => none

/-- A number. -/
def readFloat? (n : Node) (default : Binary64) : Option Binary64 :=
  n.scalarOr default fun
    | .int i => some (.ofInt i)
    | .float x => some x
    | _ => none

/-- The other words for yes. -/
def yesWords : List String := ["y", "Y", "yes", "Yes", "YES", "on", "On", "ON"]

/-- The other words for no. -/
def noWords : List String := ["n", "N", "no", "No", "NO", "off", "Off", "OFF"]

/-- A truth value. -/
def readBool? (n : Node) (default : Bool) : Option Bool :=
  n.scalarOr default fun
    | .bool b => some b
    | .text s =>
      if yesWords.contains s then some true else if noWords.contains s then some false else none
    | _ => none

/-- A text; any scalar is one. -/
def readText? (n : Node) (default : String) : Option String :=
  match n with
  | .scalar s _ => n.scalarOr default fun _ => some s
  | _ => none

/-- A list of stages; items that are nothing are passed over. -/
def readStages? (n : Node) : Option (List Maturity) :=
  match n with
  | .list items =>
    (items.filter fun i => i.scalar? ≠ some .null).mapM fun i => (i.readText? "").bind Maturity.ofName?
  | _ => n.scalarOr [] fun _ => none

end Yaml.Node

namespace Config

/-- A configuration with the tunable of a name set. -/
def set? (c : Config) (key : String) (n : Yaml.Node) : Option Config :=
  match key with
  | "min_predecessors" =>
    (n.readInt? c.minPredecessors).map fun v => { c with minPredecessors := v }
  | "min_internal_blocks" =>
    (n.readInt? c.minInternalBlocks).map fun v => { c with minInternalBlocks := v }
  | "min_exit_blocks" => (n.readInt? c.minExitBlocks).map fun v => { c with minExitBlocks := v }
  | "min_comparison_values" =>
    (n.readInt? c.minComparisonValues).map fun v => { c with minComparisonValues := v }
  | "entropy_min" => (n.readFloat? c.entropyMin).map fun v => { c with entropyMin := v }
  | "entropy_max" => (n.readFloat? c.entropyMax).map fun v => { c with entropyMax := v }
  | "strict_external_fathers" =>
    (n.readBool? c.strictExternalFathers).map fun v => { c with strictExternalFathers := v }
  | "entry_policy" =>
    (n.readText? c.entryPolicy.name).map fun v => { c with entryPolicy := .ofName v }
  | "max_passes" => (n.readInt? c.maxPasses).map fun v => { c with maxPasses := v }
  | "max_duplications" => (n.readInt? c.maxDuplications).map fun v => { c with maxDuplications := v }
  | "max_track_depth" => (n.readInt? c.maxTrackDepth).map fun v => { c with maxTrackDepth := v }
  | "maturities" => n.readStages?.map fun v => { c with maturities := v }
  | _ => some c

/-- The tunables that a document names, over a configuration. -/
def overlay? (c : Config) (n : Yaml.Node) : Option Config :=
  match n with
  | .mapping entries =>
    if (entries.map Prod.fst).Nodup then entries.foldlM (fun c e => c.set? e.1 e.2) c else none
  | _ => n.scalarOr c fun _ => none

/-- **The configuration that a file gives.** -/
def ofText (s : String) : Except ConfigFileError Config :=
  match (Yaml.parse? s).bind fun n => overlay? {} n with
  | none => .error .malformed
  | some c =>
    match c.validate with
    | .ok _ => .ok c
    | .error e => .error (.invalid e)

end Config

end Deflatten
