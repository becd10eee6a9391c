import Deflatten.Dispatch.Stages
import Deflatten.Text.Bytes
import Deflatten.Text.Escape

/-!
# Publish/Page — the record of a run, as a page

Totals first, then a row for each function, those with the most dispatchers first.
-/

namespace Deflatten.Page

/-- The look of the page. -/
def style : String :=
  "body \x7b font-family: \"Helvetica Neue\", Helvetica, Arial, sans-serif; font-size: 14px; " ++
  "color: #1A1A1A; background: #F5F5F5; margin: 2em; max-width: 900px; \x7d\n" ++
  "h1 \x7b font-size: 18px; font-weight: 600; margin-bottom: 0.5em; \x7d\n" ++
  "h2 \x7b font-size: 14px; font-weight: 600; margin-top: 1.5em; border-bottom: 1px solid #ddd; " ++
  "padding-bottom: 4px; \x7d\n" ++
  "table \x7b border-collapse: collapse; margin: 0.5em 0; \x7d\n" ++
  "th, td \x7b text-align: left; padding: 3px 12px 3px 0; font-size: 13px; \x7d\n" ++
  "th \x7b font-weight: 600; \x7d\n" ++
  "td.num \x7b text-align: right; font-variant-numeric: tabular-nums; \x7d\n" ++
  "a \x7b color: #0B3D91; \x7d\n" ++
  ".mbar \x7b height: 6px; border-radius: 2px; display: inline-block; vertical-align: middle; " ++
  "background: #0B3D91; \x7d\n" ++
  ".fn \x7b font-family: \"Courier New\", monospace; font-size: 12px; \x7d\n" ++
  ".warn \x7b color: #FC3D21; \x7d\n"

/-- The opening of the page. -/
def head (title : String) : String :=
  "<!DOCTYPE html>\n<html lang=\"en\">\n<head>\n<meta charset=\"utf-8\">\n<title>" ++
  Markup.escape title ++ "</title>\n<style>\n" ++ style ++ "</style>\n</head>\n<body>\n" ++
  "<h1>" ++ Markup.escape title ++ "</h1>\n"

/-- A total. -/
def total (label : String) (n : Int) : String :=
  "<tr><td>" ++ label ++ "</td><td class=\"num\">" ++ Text.decimal n ++ "</td></tr>\n"

/-- A sum of 64-bit numbers. -/
def sum (ns : List Int) : Int := wrapInt (ns.foldl (· + ·) 0)

/-- The totals. -/
def totals (rs : List Result) : String :=
  let count (p : Result → Bool) : Int := (rs.filter p).length
  let exhausted := count fun r => r.exhausted != ""
  "<h2>Summary</h2>\n<table>\n" ++
  total "Functions" rs.length ++
  total "Unflattened" (count fun r => 0 < r.dispatchers) ++
  total "Dispatcher regions" (sum (rs.map fun r => (r.dispatchers : Int))) ++
  total "Blocks before" (sum (rs.map Result.blocksBefore)) ++
  total "Blocks after" (sum (rs.map Result.blocksAfter)) ++
  (if 0 < exhausted then
    "<tr><td class=\"warn\">Budget exhausted</td><td class=\"num\">" ++ Text.decimal exhausted ++
      "</td></tr>\n"
  else "") ++ "</table>\n"

/-- The width of a bar, in proportion to the largest function before. -/
def barWidth (largest : Int) (r : Result) : Int :=
  max ((wrapInt (r.blocksAfter * 120)).tdiv largest) 2

/-- The row of a function. -/
def row (withGraphs : Bool) (largest : Int) (r : Result) : String :=
  let num (n : Int) := "<td class=\"num\">" ++ Text.decimal n ++ "</td>"
  let link := " <a href=\"cfg/" ++ Text.fileName r.func ++
    ".svg\" style=\"font-size:11px\">[cfg]</a>"
  let note := "<span class=\"warn\">" ++ Markup.escape r.exhausted ++ "</span>"
  "<tr><td class=\"fn\">" ++ Markup.escape r.func ++ (if withGraphs then link else "") ++ "</td>" ++
  num r.dispatchers ++ num r.blocksBefore ++ num r.blocksAfter ++
  "<td><span class=\"mbar\" style=\"width:" ++ Text.decimal (barWidth largest r) ++
  "px\"></span></td><td>" ++ (if r.exhausted = "" then "" else note) ++ "</td></tr>\n"

/-- The rows of the functions. -/
def rows (withGraphs : Bool) (rs : List Result) : String :=
  let sorted := rs.mergeSort fun a b => b.dispatchers ≤ a.dispatchers
  let largest := rs.foldl (fun m r => max m r.blocksBefore) 1
  "<h2>Functions</h2>\n<table>\n" ++
  "<tr><th>Function</th><th>Regions</th><th>Before</th><th>After</th><th></th><th></th></tr>\n" ++
  String.join (sorted.map (row withGraphs largest)) ++ "</table>\n"

/-- **The page for a run**, with links to drawings or without. -/
def render (title : String) (rs : List Result) (withGraphs : Bool) : String :=
  head title ++ totals rs ++ (if rs.isEmpty then "" else rows withGraphs rs) ++ "</body></html>\n"

end Deflatten.Page
