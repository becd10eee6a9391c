import Deflatten.Arm64.Blocks
import Deflatten.Dispatch.Report
import Deflatten.Graph.Calls
import Deflatten.Text.Bytes
import Deflatten.Text.Escape

/-!
# Graph/Dot — functions as drawings

A drawing has a node for every block, labelled with its instructions, and an edge for every way that
control can go.  Blocks of dispatchers are filled by the part they play.
-/

namespace Deflatten

/-! ## Themes -/

/-- The colors of a drawing. -/
structure Theme where
  /-- Behind everything. -/
  background : String
  /-- Inside a node. -/
  nodeFill : String
  /-- Around a node. -/
  nodeBorder : String
  /-- Text. -/
  text : String
  /-- Edges of jumps taken. -/
  taken : String
  /-- Edges of jumps not taken. -/
  fallThrough : String
  /-- Other edges. -/
  direct : String
  /-- Around the entry. -/
  entryBorder : String
  /-- Inside blocks that return. -/
  returnFill : String
  /-- Inside the blocks of a dispatcher. -/
  dispatchFill : String
  /-- Around the entry of a dispatcher. -/
  dispatchBorder : String
  /-- Inside the exits of a dispatcher. -/
  exitFill : String
deriving DecidableEq, Repr

/-- **The standard colors**: monochrome, with sparse blue and red. -/
def Theme.standard : Theme :=
  { background := "#F5F5F5", nodeFill := "white", nodeBorder := "#1A1A1A", text := "#1A1A1A"
    taken := "#0B3D91", fallThrough := "#FC3D21", direct := "#424242", entryBorder := "#0B3D91"
    returnFill := "#ECEFF1", dispatchFill := "#FFE0B2", dispatchBorder := "#E65100"
    exitFill := "#E0F2F1" }

/-! ## Highlights -/

/-- The blocks of dispatchers, by serial. -/
structure Highlight where
  /-- Entries. -/
  entries : List Int := []
  /-- Internal blocks. -/
  internal : List Int := []
  /-- Exits. -/
  exits : List Int := []
deriving DecidableEq, Repr, Inhabited

/-- The blocks of the regions of one pass. -/
def Highlight.ofSummaries (rs : List Summary) : Highlight :=
  { entries := rs.map Summary.entry
    internal := rs.flatMap Summary.internal
    exits := rs.flatMap Summary.exits }

/-- The part a block plays. -/
inductive Role where
  | plain | exit | internal | entry
deriving DecidableEq, Repr, Inhabited

/-- **The part of a block**: the most important of those it is named for. -/
def Highlight.role (h : Highlight) (serial : Int) : Role :=
  if h.entries.contains serial then .entry
  else if h.internal.contains serial then .internal
  else if h.exits.contains serial then .exit
  else .plain

/-! ## The text of a drawing -/

namespace Dot

/-- An attribute value between quotes. -/
def quoted (s : String) : String := "\"" ++ s ++ "\""

/-- The longest label of an instruction, in bytes. -/
def labelLimit : Nat := 72

/-- A label cut to a limit, with dots for what is missing. -/
def shorten (limit : Nat) (s : String) : String :=
  if Text.byteLength s ≤ limit then s else Text.cut (limit - 3) s ++ "..."

/-- The first and last five of more than twelve lines. -/
def elide (lines : List String) : List String :=
  if lines.length ≤ 12 then lines
  else
    lines.take 5 ++ ["... (" ++ Text.decimal (lines.length - 10 : Nat) ++ " more)"] ++
      lines.drop (lines.length - 5)

/-- The opening of a drawing. -/
def header (title : String) (t : Theme) : String :=
  "digraph cfg \x7b\n  rankdir=TB;\n  nodesep=0.3;\n  ranksep=0.4;\n" ++
  "  bgcolor=" ++ quoted t.background ++ ";\n" ++
  "  node [shape=rect, style=filled, fillcolor=" ++ quoted t.nodeFill ++
  ", color=" ++ quoted t.nodeBorder ++
  ", penwidth=0.5, fontname=\"Courier,monospace\", fontsize=8, fontcolor=" ++ quoted t.text ++
  ", margin=\"0.08,0.04\"];\n" ++
  "  edge [penwidth=0.7, arrowsize=0.5, arrowhead=vee];\n" ++
  "  labelloc=t;\n  labeljust=l;\n" ++
  "  label=<<font face=\"Helvetica Neue,Helvetica\" point-size=\"9\" color=\"" ++ t.text ++ "\">" ++
  Markup.escape title ++ "</font>>;\n\n"

/-- A node with its lines. -/
def node (id : Int) (lines : List String) (attributes : String) : String :=
  let label := String.join ((elide lines).map fun l => l ++ "<br align=\"left\"/>")
  "  bb" ++ Text.decimal id ++ " [label=<" ++ label ++ ">" ++ attributes ++ "];\n"

/-- An edge. -/
def edge (t : Theme) (src dst : Int) (label : EdgeLabel) : String :=
  let ends := "  bb" ++ Text.decimal src ++ " -> bb" ++ Text.decimal dst ++ " [color="
  let marked (color : String) :=
    quoted color ++ ", label=<<font point-size=\"7\" color=\"" ++ color ++ "\">" ++ label.mark ++
      "</font>>];\n"
  match label with
  | .taken => ends ++ marked t.taken
  | .fallThrough => ends ++ marked t.fallThrough
  | .always => ends ++ quoted t.direct ++ "];\n"

/-- A fill color. -/
def filled (color : String) : String := ", fillcolor=" ++ quoted color

/-- A border around the entry. -/
def entryBorder (t : Theme) : String := ", penwidth=1.5, color=" ++ quoted t.entryBorder

/-- A drawing of nodes and edges. -/
def graph (title : String) (t : Theme) (nodes edges : List String) : String :=
  header title t ++ String.join nodes ++ "\n" ++ String.join edges ++ "\x7d\n"

end Dot

/-- **A function of machine code as a drawing**; nothing for one without blocks. -/
def MachineFunc.dot (t : Theme) (f : MachineFunc) : String :=
  if f.blocks.isEmpty then ""
  else
    Dot.graph f.name t
      (f.blocks.map fun b =>
        Dot.node b.id
          (b.code.map fun i => Markup.escape ("0x" ++ Text.hex i.addr.toNat ++ ": " ++ i.text))
          ((if b.isEntry then Dot.entryBorder t else "") ++
            if b.isTerminal then Dot.filled t.returnFill else ""))
      (f.blocks.flatMap fun b => b.edges.map fun e => Dot.edge t b.id e.1 e.2)

namespace Block

/-- The lines of a node: the serial, then the instructions. -/
def dotLines (b : Block) : List String :=
  ("<b>" ++ Text.decimal b.serial ++ "</b>") ::
    b.insns.map fun i => Markup.escape (Dot.shorten Dot.labelLimit i.text)

/-- The look of a node. -/
def dotAttributes (t : Theme) (h : Highlight) (b : Block) : String :=
  let role := h.role b.serial
  let fill := match role with
    | .entry => Dot.filled t.dispatchFill ++ ", penwidth=2, color=" ++ Dot.quoted t.dispatchBorder
    | .internal => Dot.filled t.dispatchFill
    | .exit => Dot.filled t.exitFill
    | .plain =>
      if b.terminator?.any fun i => i.op == .ret then Dot.filled t.returnFill else ""
  fill ++ if b.serial == 0 && role != .entry then Dot.entryBorder t else ""

end Block

/-- **A function of microcode as a drawing**; nothing for one without blocks. -/
def Func.dot (t : Theme) (h : Highlight) (f : Func) : String :=
  if f.blocks.isEmpty then ""
  else
    Dot.graph (f.name ++ " (" ++ f.maturity.name ++ ")") t
      (f.blocks.map fun b => Dot.node b.serial b.dotLines (b.dotAttributes t h))
      (f.blocks.flatMap fun b => b.edges.map fun e => Dot.edge t b.serial e.1 e.2)

/-! ## Who calls whom -/

namespace CallGraph

/-- A node named by a text. -/
def dotName (s : String) : String := Text.quoted s

/-- **A call graph as a drawing.** -/
def dot (t : Theme) (title : String) (g : CallGraph) : String :=
  Dot.header title t ++ String.join (g.nodes.map fun n => "  " ++ dotName n ++ ";\n") ++ "\n" ++
    String.join (g.edges.map fun e =>
      "  " ++ dotName e.1 ++ " -> " ++ dotName e.2 ++ " [color=" ++ Dot.quoted t.direct ++ "];\n") ++
    "\x7d\n"

/-- A block by its function and serial. -/
def siteName (f : Func) (b : OutlineBlock) : String :=
  dotName (f.name ++ ":" ++ Text.decimal b.id)

/-- **The blocks of functions as a drawing**, each with the calls it makes. -/
def sitesDot (t : Theme) (title : String) (fs : List Func) : String :=
  let blocks := fs.flatMap fun f => f.outline.map fun b => (f, b)
  Dot.header title t ++
    String.join (blocks.map fun (f, b) =>
      "  " ++ siteName f b ++ " [label=" ++
        dotName ("\n".intercalate (Text.decimal b.id :: b.calls.map Prod.snd)) ++ "];\n") ++ "\n" ++
    String.join (blocks.flatMap fun (f, b) => b.edges.map fun e =>
      "  " ++ siteName f b ++ " -> " ++ dotName (f.name ++ ":" ++ Text.decimal e.1) ++ ";\n") ++
    "\x7d\n"

end CallGraph

end Deflatten
