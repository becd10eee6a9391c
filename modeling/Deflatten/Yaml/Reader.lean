import Deflatten.Yaml.Scalar

/-!
# Yaml/Reader — documents from text

Structure comes from indentation, or from brackets in the flow forms.  Covered are mappings and lists
of both kinds, plain and quoted scalars, literal and folded text, comments and document marks; tags
and anchors are not.
-/

namespace Deflatten.Yaml

/-! ## Lines -/

/-- A line with content. -/
structure Line where
  /-- The blanks in front. -/
  indent : Nat
  /-- The characters from the first that is no blank. -/
  text : List Char
deriving DecidableEq, Repr

/-- Blanks within a line. -/
def isBlank (c : Char) : Bool := c == ' ' || c == '\t'

/-- Without the blanks at the end. -/
def trimEnd (cs : List Char) : List Char := (cs.reverse.dropWhile isBlank).reverse

/-- Without the blanks at both ends. -/
def trim (cs : List Char) : List Char := trimEnd (cs.dropWhile isBlank)

/-- Nothing but blanks and perhaps a comment. -/
def isVoid (cs : List Char) : Bool :=
  match cs.dropWhile isBlank with
  | [] => true
  | c :: _ => c == '#'

/-- A line of the text, cut into blanks and content. -/
def Line.ofChars (cs : List Char) : Line :=
  ⟨(cs.takeWhile (· == ' ')).length, trimEnd (cs.dropWhile (· == ' '))⟩

/-- Whether a line is a mark: three equal characters at its start, and nothing after them. -/
def Line.isMark (c : Char) (l : Line) : Bool :=
  l.indent == 0 && l.text.take 3 == [c, c, c] && isVoid (l.text.drop 3)

/-- **The lines of the first document** that have content. -/
def documentLines (cs : List Char) : List Line :=
  let lines := (((String.ofList cs).splitOn "\n").map fun s =>
    Line.ofChars (s.toList.filter (· ≠ '\r'))).filter fun l => !isVoid l.text
  let lines := match lines with
    | l :: rest => if l.isMark '-' then rest else lines
    | [] => []
  lines.takeWhile fun l => !l.isMark '-' && !l.isMark '.'

/-- Characters that may stand in a document. -/
def isAllowed (c : Char) : Bool :=
  c == '\t' || c == '\n' || c == '\r' || (32 ≤ c.toNat && c.toNat != 127)

/-! ## Quoted scalars -/

/-- A code point of `n` hexadecimal digits. -/
def readCodePoint? (n : Nat) (cs : List Char) : Option (Char × List Char) :=
  if cs.length < n then none
  else (Text.readHex? (cs.take n)).map fun v => (Char.ofNat v, cs.drop n)

/-- The character after a backslash. -/
def readEscape? : List Char → Option (Char × List Char)
  | [] => none
  | c :: cs =>
    match c with
    | 'x' => readCodePoint? 2 cs
    | 'u' => readCodePoint? 4 cs
    | 'U' => readCodePoint? 8 cs
    | '0' => some (Char.ofNat 0, cs)
    | 'a' => some (Char.ofNat 7, cs)
    | 'b' => some (Char.ofNat 8, cs)
    | 't' => some ('\t', cs)
    | 'n' => some ('\n', cs)
    | 'v' => some (Char.ofNat 11, cs)
    | 'f' => some (Char.ofNat 12, cs)
    | 'r' => some ('\r', cs)
    | 'e' => some (Char.ofNat 27, cs)
    | ' ' | '"' | '/' | '\\' | '\t' => some (c, cs)
    | _ => none

/-- The rest of a scalar between double quotes, and what follows it.  Fuel is one per character. -/
def readDouble? : Nat → List Char → Option (List Char × List Char)
  | 0, _ => none
  | _ + 1, [] => none
  | n + 1, c :: cs =>
    if c == '"' then some ([], cs)
    else if c == '\\' then do
      let (e, rest) ← readEscape? cs
      let (more, rest) ← readDouble? n rest
      pure (e :: more, rest)
    else do
      let (more, rest) ← readDouble? n cs
      pure ((if c == '\n' then ' ' else c) :: more, rest)

/-- The rest of a scalar between single quotes; a quote inside is written twice. -/
def readSingle? : List Char → Option (List Char × List Char)
  | [] => none
  | '\'' :: '\'' :: cs => (readSingle? cs).map fun (more, rest) => ('\'' :: more, rest)
  | c :: cs =>
    if c == '\'' then some ([], cs)
    else (readSingle? cs).map fun (more, rest) => ((if c == '\n' then ' ' else c) :: more, rest)

/-- A scalar between quotes, and what follows it. -/
def readQuoted? : List Char → Option (List Char × List Char)
  | '"' :: cs => readDouble? (cs.length + 1) cs
  | '\'' :: cs => readSingle? cs
  | _ => none

/-! ## Plain scalars -/

/-- Characters that a plain scalar does not start with. -/
def isIndicator (c : Char) : Bool :=
  [',', '[', ']', '\x7b', '\x7d', '#', '&', '*', '!', '|', '>', '\'', '"', '%', '@'].contains c ||
    c.toNat == 96

/-- Whether a plain scalar can start here: no indicator, and no dash, colon or question mark that
stands alone. -/
def startsPlain : List Char → Bool
  | [] => false
  | c :: cs =>
    !isIndicator c &&
      (!(c == '-' || c == '?' || c == ':') || match cs with
        | [] => false
        | d :: _ => !isBlank d)

/-- The characters up to a comment. -/
def dropComment : List Char → List Char
  | [] => []
  | c :: cs =>
    match cs with
    | '#' :: _ => if isBlank c then [] else c :: dropComment cs
    | _ => c :: dropComment cs

/-- Cuts at the first colon that separates a key from a value. -/
def cutColon? : List Char → Option (List Char × List Char)
  | [] => none
  | [c] => if c == ':' then some ([], []) else none
  | c :: d :: cs =>
    if c == ':' && isBlank d then some ([], d :: cs)
    else (cutColon? (d :: cs)).map fun (a, b) => (c :: a, b)

/-- **The key of a line and what follows its colon.** -/
def key? (cs : List Char) : Option (String × List Char) :=
  match readQuoted? cs with
  | some (k, rest) =>
    match rest.dropWhile isBlank with
    | ':' :: more =>
      if more.isEmpty || more.head?.any isBlank then some (String.ofList k, more) else none
    | _ => none
  | none =>
    if startsPlain cs then
      (cutColon? (dropComment cs)).map fun (k, _) =>
        (String.ofList (trimEnd k), cs.drop (k.length + 1))
    else none

/-! ## Flow forms -/

/-- Skips blanks, line breaks and comments inside brackets, perhaps from within a comment. -/
def skipFrom : (inComment : Bool) → List Char → List Char
  | _, [] => []
  | true, c :: cs => skipFrom (c != '\n') cs
  | false, c :: cs =>
    if c == '#' then skipFrom true cs
    else if isBlank c || c == '\n' then skipFrom false cs
    else c :: cs

/-- Skips blanks, line breaks and comments inside brackets. -/
def skipFlow (cs : List Char) : List Char := skipFrom false cs

/-- Characters that end a plain scalar inside brackets. -/
def endsFlowScalar (c : Char) : Bool :=
  c == ',' || c == '[' || c == ']' || c == '\x7b' || c == '\x7d' || c == '\n'

/-- A plain scalar inside brackets, and what follows it. -/
def readFlowPlain : List Char → List Char × List Char
  | [] => ([], [])
  | c :: cs =>
    if endsFlowScalar c || (isBlank c && cs.head? == some '#') then ([], c :: cs)
    else if c == ':' && cs.head?.all fun d => isBlank d || endsFlowScalar d then ([], c :: cs)
    else
      let (more, rest) := readFlowPlain cs
      (c :: more, rest)

/-- A scalar inside brackets, and what follows it. -/
def readFlowScalar? (cs : List Char) : Option (Node × List Char) :=
  match readQuoted? cs with
  | some (s, rest) => some (.scalar (String.ofList s) false, rest)
  | none =>
    if startsPlain cs then
      let (s, rest) := readFlowPlain cs
      some (.scalar (String.ofList (trim s)) true, rest)
    else none

mutual

/-- A node inside brackets, and what follows it. -/
def readFlow? : Nat → List Char → Option (Node × List Char)
  | 0, _ => none
  | n + 1, cs =>
    match skipFlow cs with
    | '[' :: rest => (readFlowItems? n rest).map fun (is, rest) => (.list is, rest)
    | '\x7b' :: rest => (readFlowEntries? n rest).map fun (es, rest) => (.mapping es, rest)
    | rest => readFlowScalar? rest

/-- The items up to the closing bracket. -/
def readFlowItems? : Nat → List Char → Option (List Node × List Char)
  | 0, _ => none
  | n + 1, cs =>
    match skipFlow cs with
    | ']' :: rest => some ([], rest)
    | cs => do
      let (i, rest) ← readFlow? n cs
      match skipFlow rest with
      | ',' :: rest =>
        let (is, rest) ← readFlowItems? n rest
        pure (i :: is, rest)
      | ']' :: rest => pure ([i], rest)
      | _ => none

/-- The entries up to the closing brace. -/
def readFlowEntries? : Nat → List Char → Option (List (String × Node) × List Char)
  | 0, _ => none
  | n + 1, cs =>
    match skipFlow cs with
    | '\x7d' :: rest => some ([], rest)
    | cs => do
      let (k, rest) ← readFlowScalar? cs
      let key := match k with
        | .scalar s _ => s
        | _ => ""
      let (v, rest) ← match skipFlow rest with
        | ':' :: rest =>
          match skipFlow rest with
          | ',' :: _ | '\x7d' :: _ => some (Node.null, rest)
          | rest => readFlow? n rest
        | rest => some (Node.null, rest)
      match skipFlow rest with
      | ',' :: rest =>
        let (es, rest) ← readFlowEntries? n rest
        pure ((key, v) :: es, rest)
      | '\x7d' :: rest => pure ([(key, v)], rest)
      | _ => none

end

/-! ## Block forms -/

/-- The characters of lines, with breaks between them. -/
def joinLines (first : List Char) (rest : List Line) : List Char :=
  first ++ rest.flatMap fun l => '\n' :: l.text

/-- The lines after a node that ends inside a line: nothing but a comment may follow it there. -/
def linesAfter? (after : List Char) (rest : List Line) : Option (List Line) :=
  if isVoid (after.takeWhile (· ≠ '\n')) then some (rest.drop (rest.length - after.count '\n'))
  else none

/-- A scalar or flow node that starts inside a line, and the lines after it.  Lines deeper than the
parent go on with a plain scalar. -/
def readInline? (parent : Int) (cs : List Char) (rest : List Line) : Option (Node × List Line) :=
  match cs with
  | [] => none
  | c :: _ =>
    if c == '"' || c == '\'' then do
      let (s, after) ← readQuoted? (joinLines cs rest)
      let rest ← linesAfter? after rest
      pure (.scalar (String.ofList s) false, rest)
    else if c == '[' || c == '\x7b' then do
      let text := joinLines cs rest
      let (n, after) ← readFlow? (2 * text.length + 2) text
      let rest ← linesAfter? after rest
      pure (n, rest)
    else
      let (deeper, rest) := rest.span fun l => parent < l.indent
      if c == '|' || c == '>' then
        let texts := deeper.map fun l => String.ofList l.text
        some (.scalar (String.join (texts.map (· ++ "\n"))) false, rest)
      else if startsPlain cs then
        let lines := cs :: deeper.map Line.text
        let texts := lines.map dropComment
        if texts.any (fun t => (cutColon? t).isSome) || texts.dropLast != lines.dropLast then none
        else some (.scalar (" ".intercalate (texts.map fun t => String.ofList (trim t))) true, rest)
      else none

/-- Whether a line is an item of a list. -/
def Line.isItem (l : Line) : Bool :=
  match l.text with
  | ['-'] => true
  | '-' :: c :: _ => isBlank c
  | _ => false

mutual

/-- The node that starts with the next line, if that is deeper than the parent. -/
def readBlock? : Nat → (parent : Int) → List Line → Option (Node × List Line)
  | 0, _, _ => none
  | _ + 1, _, [] => some (.null, [])
  | n + 1, parent, l :: rest =>
    if l.indent ≤ parent then some (.null, l :: rest)
    else if l.isItem then (readItems? n l.indent (l :: rest)).map fun (is, rest) => (.list is, rest)
    else if (key? l.text).isSome then
      (readEntries? n l.indent (l :: rest)).map fun (es, rest) => (.mapping es, rest)
    else readInline? parent l.text rest

/-- The entries of a mapping at an indentation. -/
def readEntries? : Nat → (indent : Nat) → List Line → Option (List (String × Node) × List Line)
  | 0, _, _ => none
  | _ + 1, _, [] => some ([], [])
  | n + 1, indent, l :: rest =>
    if l.indent < indent then some ([], l :: rest)
    else if indent < l.indent || l.isItem then none
    else do
      let (k, after) ← key? l.text
      let (v, rest) ←
        if !isVoid after then readInline? indent (after.dropWhile isBlank) rest
        else if rest.head?.any fun m => m.indent == indent && m.isItem then
          (readItems? n indent rest).map fun (is, rest) => (.list is, rest)
        else readBlock? n indent rest
      let (es, rest) ← readEntries? n indent rest
      pure ((k, v) :: es, rest)

/-- The items of a list at an indentation. -/
def readItems? : Nat → (indent : Nat) → List Line → Option (List Node × List Line)
  | 0, _, _ => none
  | _ + 1, _, [] => some ([], [])
  | n + 1, indent, l :: rest =>
    if l.indent < indent || (l.indent == indent && !l.isItem) then some ([], l :: rest)
    else if indent < l.indent then none
    else do
      let after := l.text.drop 1
      let content := after.dropWhile isBlank
      let (i, rest) ←
        if isVoid after then readBlock? n indent rest
        else readBlock? n indent (⟨indent + 1 + (after.length - content.length), content⟩ :: rest)
      let (is, rest) ← readItems? n indent rest
      pure (i :: is, rest)

end

/-- **Reads the first document of a text.** -/
def parse? (s : String) : Option Node :=
  if !s.toList.all isAllowed then none
  else
    let lines := documentLines s.toList
    if lines.any fun l => l.text.head? == some '\t' then none
    else
      match readBlock? (4 * s.length + 4) (-1) lines with
      | some (n, []) => some n
      | _ => none

end Deflatten.Yaml
