import Deflatten.Json.Basic

/-!
# Json/Writer — values as text

Two layouts: on one line without blanks, and indented.  In a text the three characters that mean
something to a markup reader, and the two line separators, are written by their code point, so that
the result can stand inside a page.
-/

namespace Deflatten.Json

/-- A character by its code point, in four digits. -/
def unicodeEscape (c : Char) : List Char :=
  '\\' :: 'u' :: Text.zeroPadded 4 (Text.hexDigits c.toNat)

/-- One character of a text. -/
def escapedChar (c : Char) : List Char :=
  match c with
  | '"' => ['\\', '"']
  | '\\' => ['\\', '\\']
  | '\n' => ['\\', 'n']
  | '\r' => ['\\', 'r']
  | '\t' => ['\\', 't']
  | _ =>
    if c.toNat = 0x08 then ['\\', 'b']
    else if c.toNat = 0x0c then ['\\', 'f']
    else if c.toNat < 0x20 ∨ c = '<' ∨ c = '>' ∨ c = '&' ∨ c.toNat = 0x2028 ∨ c.toNat = 0x2029 then
      unicodeEscape c
    else [c]

/-- A text between quotes. -/
def quotedChars (s : String) : List Char := '"' :: s.toList.flatMap escapedChar ++ ['"']

/-! ## On one line -/

mutual

/-- **A value on one line**, without blanks. -/
def chars : Json → List Char
  | null => ['n', 'u', 'l', 'l']
  | bool true => ['t', 'r', 'u', 'e']
  | bool false => ['f', 'a', 'l', 's', 'e']
  | num literal => literal
  | str s => quotedChars s
  | arr es => '[' :: elementChars es ++ [']']
  | obj ms => '\x7b' :: memberChars ms ++ ['\x7d']

/-- Elements with commas between them. -/
def elementChars : List Json → List Char
  | [] => []
  | [e] => chars e
  | e :: es => chars e ++ ',' :: elementChars es

/-- Members with commas between them. -/
def memberChars : List (String × Json) → List Char
  | [] => []
  | [m] => pairChars m
  | m :: ms => pairChars m ++ ',' :: memberChars ms

/-- A name, a colon and a value. -/
def pairChars : String × Json → List Char
  | (name, value) => quotedChars name ++ ':' :: chars value

end

/-- A value on one line. -/
def compact (j : Json) : String := String.ofList (chars j)

/-! ## Indented -/

/-- A line break and `depth` levels of two blanks. -/
def newline (depth : Nat) : List Char := '\n' :: List.replicate (2 * depth) ' '

mutual

/-- **A value over several lines**: each element and member on a line of its own, two blanks deeper
than its container; an empty container stays closed. -/
def indentedChars (depth : Nat) : Json → List Char
  | arr [] => ['[', ']']
  | arr (e :: es) =>
    '[' :: newline (depth + 1) ++ indentedElements (depth + 1) (e :: es) ++ newline depth ++ [']']
  | obj [] => ['\x7b', '\x7d']
  | obj (m :: ms) =>
    '\x7b' :: newline (depth + 1) ++ indentedMembers (depth + 1) (m :: ms) ++
      newline depth ++ ['\x7d']
  | null => chars null
  | bool b => chars (bool b)
  | num literal => literal
  | str s => quotedChars s

/-- Elements, each after the first on a new line. -/
def indentedElements (depth : Nat) : List Json → List Char
  | [] => []
  | [e] => indentedChars depth e
  | e :: es => indentedChars depth e ++ ',' :: newline depth ++ indentedElements depth es

/-- Members, each after the first on a new line. -/
def indentedMembers (depth : Nat) : List (String × Json) → List Char
  | [] => []
  | [m] => indentedPair depth m
  | m :: ms => indentedPair depth m ++ ',' :: newline depth ++ indentedMembers depth ms

/-- A name, a colon, a blank and a value. -/
def indentedPair (depth : Nat) : String × Json → List Char
  | (name, value) => quotedChars name ++ ':' :: ' ' :: indentedChars depth value

end

/-- A value over several lines. -/
def indented (j : Json) : String := String.ofList (indentedChars 0 j)

end Deflatten.Json
