/-!
# Text/Bytes — texts as UTF-8 bytes

A cut may fall inside a character.  The bytes that stay behind spell no character, and each of them
is shown as the replacement character.  Bytes are read in the same way, so every list of bytes is
some text.
-/

namespace Deflatten.Text

/-! ## Lengths and cuts -/

/-- The character that stands for a byte that belongs to no character. -/
def replacement : Char := Char.ofNat 0xfffd

/-- The characters that fit in `n` bytes, then one replacement for each byte of a split one. -/
def takeBytes : Nat → List Char → List Char
  | _, [] => []
  | n, c :: cs =>
    if c.utf8Size ≤ n then c :: takeBytes (n - c.utf8Size) cs
    else List.replicate n replacement

/-- The first `n` bytes of a text. -/
def cut (n : Nat) (s : String) : String := String.ofList (takeBytes n s.toList)

/-- The length in bytes. -/
def byteLength (s : String) : Nat := s.utf8ByteSize

/-- The order of texts by their bytes, which is the order by code points. -/
def byteLt (a b : String) : Bool := decide (a.toList < b.toList)

/-! ## Bytes as text -/

/-- The six low bits of a byte that continues a character. -/
def continuation? (b : UInt8) : Option Nat :=
  if b.toNat / 64 = 2 then some (b.toNat % 64) else none

/-- A character by its code point, if it needs as many bytes as it was written in. -/
def charOf? (least n : Nat) : Option Char :=
  if h : n.isValidChar then if least ≤ n then some (Char.ofNatAux n h) else none else none

/-- The character that the first bytes spell, and how many bytes it has. -/
def leadingChar? : List UInt8 → Option (Char × Nat)
  | [] => none
  | a :: rest =>
    let n := a.toNat
    let tails := (rest.take 3).map continuation?
    if n < 0x80 then (charOf? 0 n).map (·, 1)
    else if n / 32 = 6 then
      match tails with
      | some x :: _ => (charOf? 0x80 (n % 32 * 64 + x)).map (·, 2)
      | _ => none
    else if n / 16 = 14 then
      match tails with
      | some x :: some y :: _ => (charOf? 0x800 ((n % 16 * 64 + x) * 64 + y)).map (·, 3)
      | _ => none
    else if n / 8 = 30 then
      match tails with
      | some x :: some y :: some z :: _ =>
        (charOf? 0x10000 (((n % 8 * 64 + x) * 64 + y) * 64 + z)).map (·, 4)
      | _ => none
    else none

/-- The characters of bytes, of which some belong to a character that is done. -/
def decodeFrom : (skip : Nat) → List UInt8 → List Char
  | _, [] => []
  | n + 1, _ :: rest => decodeFrom n rest
  | 0, b :: rest =>
    match leadingChar? (b :: rest) with
    | some (c, n) => c :: decodeFrom (n - 1) rest
    | none => replacement :: decodeFrom 0 rest

/-- **The text that bytes spell.** -/
def ofUtf8 (bs : List UInt8) : String := String.ofList (decodeFrom 0 bs)

/-! ## Names that can stand in a path -/

/-- A character that a file name should not hold. -/
def isUnsafeInFileName (c : Char) : Bool :=
  ['/', '\\', ':', '*', '?', '"', '<', '>', '|', ' '].contains c

/-- The most bytes of a file name. -/
def fileNameLimit : Nat := 200

/-- **A file name for a text**: unsafe characters become underscores, and a long name is cut. -/
def fileName (s : String) : String :=
  cut fileNameLimit (String.ofList (s.toList.map fun c => if isUnsafeInFileName c then '_' else c))

end Deflatten.Text
