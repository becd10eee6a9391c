/-!
# Text/Path — paths as text

A path is a list of names with slashes between them.  `Path.clean` gives each place one spelling
without looking at any disk.
-/

namespace Deflatten.Path

/-- The names of a path, empty ones and the dot left out. -/
def names (p : String) : List String := (p.splitOn "/").filter fun n => n != "" && n != "."

/-- Whether a path starts at the root. -/
def isAbsolute (p : String) : Bool := p.toList.head? == some '/'

/-- Takes one name into a path that is kept last name first: the double dot takes one back, unless
there is none to take. -/
def descend (absolute : Bool) (trail : List String) (name : String) : List String :=
  if name = ".." then
    match trail with
    | [] => if absolute then [] else [".."]
    | n :: rest => if n = ".." then ".." :: trail else rest
  else name :: trail

/-- **The shortest spelling of a path.** -/
def clean (p : String) : String :=
  let absolute := isAbsolute p
  let trail := (names p).foldl (descend absolute) []
  let body := "/".intercalate trail.reverse
  if absolute then "/" ++ body else if body = "" then "." else body

/-- **A path with names added.** -/
def join (parts : List String) : String :=
  match parts.filter fun p => p != "" with
  | [] => ""
  | parts => clean ("/".intercalate parts)

/-- The part after the last slash, and the part up to it. -/
def split (p : String) : String × String :=
  let tail := (p.toList.reverse.takeWhile (· ≠ '/')).reverse
  (String.ofList (p.toList.take (p.length - tail.length)), String.ofList tail)

/-- Without slashes at the end. -/
def dropSlashes (p : String) : String :=
  String.ofList (p.toList.reverse.dropWhile (· = '/')).reverse

/-- **The last name of a path.** -/
def base (p : String) : String :=
  if p = "" then "."
  else
    let trimmed := dropSlashes p
    if trimmed = "" then "/" else (split trimmed).2

/-- **The extension of a name**: from its last dot on. -/
def extension (name : String) : String :=
  let tail := name.toList.reverse.takeWhile (· ≠ '.')
  if tail.length = name.length then "" else String.ofList ('.' :: tail.reverse)

/-- The name without its extension. -/
def stem (name : String) : String :=
  String.ofList (name.toList.take (name.length - (extension name).length))

/-- The proper beginnings of a path that end before a slash. -/
def ancestors (p : String) : List String :=
  let ns := names p
  let lead := if isAbsolute p then "/" else ""
  (List.range ns.length).filterMap fun i =>
    if i = 0 then none else some (lead ++ "/".intercalate (ns.take i))

end Deflatten.Path
