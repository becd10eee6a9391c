import Deflatten.Json.Writer
import Deflatten.Proofs.Json.Grammar
import Deflatten.Proofs.Text.Numerals

/-!
# Proofs/Json/RoundTrip — values are read back

A value on one line is spelled as the grammar asks, if its numbers are integers (`Integral.spelled`).
So it is read as it was written, whatever follows it, if its containers nest no deeper than the reader
goes (`Integral.readValue_chars`).  A text comes back character by character, since an escape names the
code point of its character and no character is half a pair.
-/

namespace Deflatten.Json

open Text

variable {j : Json} {es : List Json} {ms : List (String × Json)} {c : Char} {us : List Nat}
  {cs rest : List Char}

/-! ## Texts -/

theorem Units.unicodeEscape (h : Units cs us rest) (hc : c.toNat < 16 ^ 4) :
    Units (Json.unicodeEscape c ++ cs) (c.toNat :: us) rest := by
  have hlen := length_zeroPadded_hexDigits (by decide) hc
  have hread := readHex?_zeroPadded 4 c.toNat
  rw [Json.unicodeEscape]
  match hds : zeroPadded 4 (hexDigits c.toNat), hlen with
  | [w, x, y, z], _ => exact .hex (hds ▸ hread) h

/-- **An escaped character spells its code point.** -/
theorem Units.escapedChar (h : Units cs us rest) (c : Char) :
    Units (Json.escapedChar c ++ cs) (c.toNat :: us) rest := by
  unfold Json.escapedChar
  split
  · exact .letter rfl h
  · exact .letter rfl h
  · exact .letter rfl h
  · exact .letter rfl h
  · exact .letter rfl h
  · next hquote hslash _ _ _ =>
    split
    · next hb =>
      rw [hb]
      exact .letter (d := '\x08') rfl h
    · split
      · next hf =>
        rw [hf]
        exact .letter (d := '\x0c') rfl h
      · split
        · next hesc =>
          refine h.unicodeEscape ?_
          rcases hesc with h | rfl | rfl | rfl | h | h
          · omega
          · decide
          · decide
          · decide
          · omega
          · omega
        · next hplain => exact .plain hquote hslash (by omega) h

theorem units_flatMap (cs rest : List Char) :
    Units (cs.flatMap escapedChar ++ '"' :: rest) (cs.map Char.toNat) rest := by
  induction cs with
  | nil => exact .close
  | cons c cs ih =>
    rw [List.flatMap_cons, List.append_assoc]
    exact ih.escapedChar c

/-- No character is half a pair. -/
theorem not_half (c : Char) : isHighUnit c.toNat = false ∧ isLowUnit c.toNat = false := by
  have hvalid : c.toNat < 0xd800 ∨ 0xdfff < c.toNat ∧ c.toNat < 0x110000 := c.valid
  simp only [isHighUnit, isLowUnit, Bool.and_eq_false_iff, decide_eq_false_iff_not]
  omega

theorem loneUnit_toNat (c : Char) : loneUnit c.toNat = c := by
  simp [loneUnit, not_half]

theorem joinUnits_map_toNat (cs : List Char) : joinUnits (cs.map Char.toNat) = cs := by
  match cs with
  | [] => rfl
  | [c] => simp [joinUnits, loneUnit_toNat]
  | c :: d :: cs =>
    have ih := joinUnits_map_toNat (d :: cs)
    rw [List.map_cons] at ih
    simp [joinUnits, not_half, loneUnit_toNat, ih]

theorem ofUnits_map_toNat (s : String) : ofUnits (s.toList.map Char.toNat) = s := by
  rw [ofUnits, joinUnits_map_toNat, String.ofList_toList]

/-! ## Numbers -/

theorem whole_decimalDigits (n : Nat) : Whole (decimalDigits n) := by
  by_cases hn : n = 0
  · subst hn
    exact .zero
  · exact .digits ⟨decimalDigits_ne_nil n, fun c => isDigit_of_mem_decimalDigits⟩ (head?_decimalDigits hn)

theorem magnitude_decimalDigits (n : Nat) : Magnitude (decimalDigits n) := by
  simpa using Magnitude.mk (whole_decimalDigits n) .none .none

theorem numeral_decimalChars (i : Int) : Numeral (decimalChars i) := by
  unfold decimalChars
  split
  · exact .minus (magnitude_decimalDigits _)
  · exact .plain (magnitude_decimalDigits _)

/-! ## Values -/

/-- **A value whose numbers are integers.** -/
inductive Integral : Json → Prop
  | null : Integral null
  | bool (b : Bool) : Integral (bool b)
  | int (i : Int) : Integral (int i)
  | str (s : String) : Integral (str s)
  | arr {es : List Json} (h : ∀ e ∈ es, Integral e) : Integral (arr es)
  | obj {ms : List (String × Json)} (h : ∀ m ∈ ms, Integral m.2) : Integral (obj ms)

/-- A value that is spelled as it is written, whatever follows. -/
def Spelled (j : Json) : Prop := ∀ rest, Value (j.chars ++ rest) j rest

theorem spelled_str (s : String) : Spelled (str s) := fun rest => by
  simpa [chars, quotedChars, ofUnits_map_toNat] using Value.str (units_flatMap s.toList rest)

/-- Elements that are spelled one by one are spelled in a row. -/
theorem elements_chars (hes : ∀ e ∈ es, Spelled e) (hne : es ≠ []) (rest : List Char) :
    Elements (elementChars es ++ ']' :: rest) es rest := by
  induction es with
  | nil => exact absurd rfl hne
  | cons e es ih =>
    have he := hes e (by simp)
    cases es with
    | nil => exact .last .done (by simpa only [elementChars] using he _) .done
    | cons e' es =>
      rw [elementChars.eq_3 _ _ (by simp), List.append_assoc]
      exact .more .done (he _) .done (ih (fun e he => hes e (by simp [he])) (by simp))

theorem member_chars {m : String × Json} (hm : Spelled m.2) (rest : List Char) :
    Member (pairChars m ++ rest) m rest := by
  obtain ⟨name, v⟩ := m
  simpa [pairChars, quotedChars, ofUnits_map_toNat] using
    Member.mk .done (units_flatMap name.toList (':' :: (v.chars ++ rest))) .done .done (hm rest)

/-- Members that are spelled one by one are spelled in a row. -/
theorem members_chars (hms : ∀ m ∈ ms, Spelled m.2) (hne : ms ≠ []) (rest : List Char) :
    Members (memberChars ms ++ '\x7d' :: rest) ms rest := by
  induction ms with
  | nil => exact absurd rfl hne
  | cons m ms ih =>
    have hm := hms m (by simp)
    cases ms with
    | nil => exact .last (by simpa only [memberChars] using member_chars hm _) .done
    | cons m' ms =>
      rw [memberChars.eq_3 _ _ (by simp), List.append_assoc]
      exact .more (member_chars hm _) .done (ih (fun m hm => hms m (by simp [hm])) (by simp))

/-- **A value whose numbers are integers is spelled as it is written.** -/
theorem Integral.spelled (h : Integral j) : Spelled j := by
  induction h with
  | null => exact fun _ => .null
  | bool b => cases b with
    | true => exact fun _ => .yes
    | false => exact fun _ => .no
  | int i => exact fun _ => .num (numeral_decimalChars i)
  | str s => exact spelled_str s
  | @arr es _ ih =>
    intro rest
    rw [chars, List.cons_append, List.cons_append, List.append_assoc]
    by_cases hne : es = []
    · subst hne
      exact .noElement .done
    · exact .arr (elements_chars ih hne rest)
  | @obj ms _ ih =>
    intro rest
    rw [chars, List.cons_append, List.cons_append, List.append_assoc]
    by_cases hne : ms = []
    · subst hne
      exact .noMember .done
    · exact .obj (members_chars ih hne rest)

/-- **A value is read back from the front of a text.** -/
theorem Integral.readValue_chars (h : Integral j) (hdepth : j.depth ≤ maxDepth)
    (hrest : Stops rest) : readValue (j.chars ++ rest) = some (j, rest) :=
  (h.spelled rest).readValue_eq hdepth fun _ _ => hrest

end Deflatten.Json
