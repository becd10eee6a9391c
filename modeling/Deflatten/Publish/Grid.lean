import Deflatten.Text.Escape

/-!
# Publish/Grid — tables drawn with lines

A column of numbers is set to the right and any other to the left.  Titles and totals are written in
capitals.  A cell with line breaks makes its row as high as it has lines.

Most characters take one place on a screen.  Ideographs, kana, hangul and pictures take two; control
characters and marks that sit on another character take none.
-/

namespace Deflatten

/-! ## The places that a text takes -/

namespace Text

/-- The lengths of the runs of characters from `0x1100` on that take two places and of the others, by
turns. -/
def wideRuns : List Nat :=
  [96, 4538, 2, 13, 2, 190, 4, 3, 1, 2, 1, 521, 2, 21, 2, 50, 12, 43, 1, 19, 1, 13, 1, 8, 2, 17, 2,
  5, 2, 8, 1, 5, 1, 21, 1, 7, 2, 1, 1, 4, 1, 2, 1, 7, 1, 4, 2, 28, 1, 35, 1, 1, 1, 4, 3, 1, 1, 61,
  3, 24, 1, 14, 1, 859, 2, 51, 1, 4, 1, 810, 26, 1, 89, 12, 214, 26, 12, 4, 63, 2, 86, 2, 103, 5,
  43, 1, 94, 1, 84, 12, 47, 1, 40, 8, 7024, 64, 22157, 3, 55, 1177, 29, 643, 11172, 8540, 512, 784,
  10, 22, 35, 1, 19, 1, 4, 149, 96, 127, 7, 28665, 5, 11, 2, 14, 6136, 8, 1238, 42, 9, 8951, 291,
  16097, 1, 202, 1, 190, 1, 2, 10, 101, 3, 13, 44, 4, 9, 7, 2, 14, 6, 154, 33, 12, 9, 1, 70, 1, 22,
  12, 43, 4, 5, 12, 17, 3, 1, 3, 71, 1, 1, 1, 187, 2, 63, 13, 4, 1, 24, 18, 1, 26, 2, 13, 1, 86,
  85, 48, 70, 6, 1, 3, 3, 2, 3, 4, 4, 11, 2, 7, 9, 227, 12, 4, 1, 283, 47, 1, 10, 1, 185, 112, 13,
  3, 9, 7, 46, 1, 7, 8, 14, 4, 9, 7, 9, 1287, 65534, 2, 65534]

/-- The lengths of the runs of characters that take no place and of the others, by turns. -/
def zeroRuns : List Nat :=
  [32, 95, 33, 13, 1, 594, 112, 275, 7, 645, 1, 4347, 4, 673, 31, 753, 64, 523, 5, 24, 7, 59, 6, 96,
  33, 56591, 16, 16, 16, 207, 1, 249, 3, 2, 2]

/-- The places that a character takes. -/
def charWidth (c : Char) : Nat :=
  let n := c.toNat
  if inRuns true zeroRuns n then 0
  else if 0x1100 ≤ n && inRuns true wideRuns (n - 0x1100) then 2
  else 1

/-- **The places that a text takes.** -/
def width (s : String) : Nat := s.toList.foldl (fun n c => n + charWidth c) 0

end Text

/-! ## Tables -/

/-- A cell of a table. -/
inductive Cell where
  /-- A number. -/
  | num (n : Int)
  /-- A text. -/
  | text (s : String)
deriving DecidableEq, Repr

namespace Cell

/-- What is written in a cell.  A tab is four blanks wide. -/
def shown : Cell → String
  | num n => Text.decimal n
  | text s => s.replace "\t" "    "

/-- Whether a cell holds a number. -/
def isNum : Cell → Bool
  | num _ => true
  | text _ => false

end Cell

/-- **A table.** -/
structure Grid where
  /-- The titles of the columns. -/
  header : List String
  /-- The rows. -/
  rows : List (List Cell)
  /-- The totals, if there are any. -/
  footer? : Option (List Cell) := none
deriving DecidableEq, Repr

namespace Grid

/-- The texts of the titles. -/
def headerTexts (g : Grid) : List String := g.header.map String.toUpper

/-- The texts of the totals. -/
def footerTexts (g : Grid) : List (List String) :=
  g.footer?.toList.map fun cs => cs.map fun c => c.shown.toUpper

/-- The texts of the rows. -/
def rowTexts (g : Grid) : List (List String) := g.rows.map fun r => r.map Cell.shown

/-- The lines of a cell. -/
def lines (s : String) : List String := s.splitOn "\n"

/-- The width of the widest line of a cell. -/
def cellWidth (s : String) : Nat := (lines s).foldl (fun n l => max n (Text.width l)) 0

/-- **The width of a column**: that of its widest cell. -/
def columnWidth (g : Grid) (i : Nat) : Nat :=
  (g.headerTexts :: g.rowTexts ++ g.footerTexts).foldl
    (fun n r => max n (cellWidth (r[i]?.getD ""))) 0

/-- Whether every row has a number in a column. -/
def isNumeric (g : Grid) (i : Nat) : Bool := g.rows.all fun r => (r[i]?).all Cell.isNum

/-- A text set to one side of a column. -/
def pad (right : Bool) (n : Nat) (s : String) : String :=
  let blanks := String.ofList (List.replicate (n - Text.width s) ' ')
  if right then blanks ++ s else s ++ blanks

/-- A line of cells. -/
def line (g : Grid) (texts : List String) : String :=
  let cells := texts.zipIdx.map fun t => " " ++ pad (g.isNumeric t.2) (g.columnWidth t.2) t.1 ++ " "
  "│" ++ "│".intercalate cells ++ "│\n"

/-- A row of cells, one line for each line of its highest cell. -/
def row (g : Grid) (texts : List String) : String :=
  let height := texts.foldl (fun n t => max n (lines t).length) 0
  String.join ((List.range height).map fun i => g.line (texts.map fun t => (lines t)[i]?.getD ""))

/-- A line between cells. -/
def rule (g : Grid) (left middle right : String) : String :=
  let bars := (List.range g.header.length).map fun i =>
    String.ofList (List.replicate (g.columnWidth i + 2) '─')
  left ++ middle.intercalate bars ++ right ++ "\n"

/-- **The drawn table.** -/
def render (g : Grid) : String :=
  let between := g.rule "├" "┼" "┤"
  g.rule "┌" "┬" "┐" ++ g.row g.headerTexts ++ between ++ String.join (g.rowTexts.map g.row) ++
    String.join (g.footerTexts.map fun t => between ++ g.row t) ++ g.rule "└" "┴" "┘"

end Grid

end Deflatten
