import Mathlib.Data.List.TakeDrop
import Deflatten.Json.Reader

/-!
# Proofs/Json/Grammar — what the reader takes is a value, and every value is taken

The grammar of values is stated without the reader: `Value cs j rest` says that `cs` spells `j` and
goes on with `rest`.  Reading gives a spelled value no deeper than there is room for
(`value_of_readValueAt`), and every such value is read off the front of a text
(`Value.readValueAt_eq`).  A number alone has to be followed by something it cannot go on with.
-/

namespace Deflatten.Json

open Text

variable {j e v : Json} {es : List Json} {ms : List (String × Json)} {c : Char} {fuel room : Nat}
  {us : List Nat} {cs ds xs ys rest literal whole fraction exponent : List Char}

/-! ## The grammar -/

/-- Blanks lead from one text to another. -/
inductive Blanks : List Char → List Char → Prop
  | done {cs : List Char} : Blanks cs cs
  | skip {c : Char} {cs ds : List Char} (hc : isBlank c = true) (h : Blanks cs ds) :
    Blanks (c :: cs) ds

/-- **The inside of a text**: units up to the closing quote, and what follows it. -/
inductive Units : List Char → List Nat → List Char → Prop
  | close {rest : List Char} : Units ('"' :: rest) [] rest
  | plain {c : Char} {cs : List Char} {us : List Nat} {rest : List Char} (hquote : c ≠ '"')
    (hslash : c ≠ '\\') (hc : 0x20 ≤ c.toNat) (h : Units cs us rest) :
    Units (c :: cs) (c.toNat :: us) rest
  | letter {l d : Char} {cs : List Char} {us : List Nat} {rest : List Char}
    (hl : escapeLetter? l = some d) (h : Units cs us rest) :
    Units ('\\' :: l :: cs) (d.toNat :: us) rest
  | hex {w x y z : Char} {u : Nat} {cs : List Char} {us : List Nat} {rest : List Char}
    (hu : readHex? [w, x, y, z] = some u) (h : Units cs us rest) :
    Units ('\\' :: 'u' :: w :: x :: y :: z :: cs) (u :: us) rest

/-- A nonempty run of digits. -/
structure DigitRun (ds : List Char) : Prop where
  ne_nil : ds ≠ []
  isDigit : ∀ c ∈ ds, c.isDigit = true

/-- The whole part of a number: a zero, or digits that do not start with one. -/
inductive Whole : List Char → Prop
  | zero : Whole ['0']
  | digits {ds : List Char} (h : DigitRun ds) (hzero : ds.head? ≠ some '0') : Whole ds

/-- The fraction of a number. -/
inductive Fraction : List Char → Prop
  | none : Fraction []
  | point {ds : List Char} (h : DigitRun ds) : Fraction ('.' :: ds)

/-- The exponent of a number. -/
inductive Exponent : List Char → Prop
  | none : Exponent []
  | power {c : Char} {sign ds : List Char} (hc : c = 'e' ∨ c = 'E')
    (hsign : sign ∈ [[], ['+'], ['-']]) (h : DigitRun ds) : Exponent (c :: sign ++ ds)

/-- A number without its sign. -/
inductive Magnitude : List Char → Prop
  | mk {whole fraction exponent : List Char} (hw : Whole whole) (hf : Fraction fraction)
    (he : Exponent exponent) : Magnitude (whole ++ fraction ++ exponent)

/-- The spelling of a number. -/
inductive Numeral : List Char → Prop
  | plain {ds : List Char} (h : Magnitude ds) : Numeral ds
  | minus {ds : List Char} (h : Magnitude ds) : Numeral ('-' :: ds)

/-- The character string of units. -/
def ofUnits (us : List Nat) : String := String.ofList (joinUnits us)

mutual

/-- **A text spells a value**, without blanks before it, and goes on with what is left. -/
inductive Value : List Char → Json → List Char → Prop
  | null {rest : List Char} : Value ('n' :: 'u' :: 'l' :: 'l' :: rest) null rest
  | yes {rest : List Char} : Value ('t' :: 'r' :: 'u' :: 'e' :: rest) (bool true) rest
  | no {rest : List Char} : Value ('f' :: 'a' :: 'l' :: 's' :: 'e' :: rest) (bool false) rest
  | str {cs rest : List Char} {us : List Nat} (h : Units cs us rest) :
    Value ('"' :: cs) (str (ofUnits us)) rest
  | num {literal rest : List Char} (h : Numeral literal) :
    Value (literal ++ rest) (num literal) rest
  | noElement {cs rest : List Char} (h : Blanks cs (']' :: rest)) : Value ('[' :: cs) (arr []) rest
  | arr {cs rest : List Char} {es : List Json} (h : Elements cs es rest) :
    Value ('[' :: cs) (arr es) rest
  | noMember {cs rest : List Char} (h : Blanks cs ('\x7d' :: rest)) :
    Value ('\x7b' :: cs) (obj []) rest
  | obj {cs rest : List Char} {ms : List (String × Json)} (h : Members cs ms rest) :
    Value ('\x7b' :: cs) (obj ms) rest

/-- One or more elements with commas between them, and the bracket that closes them. -/
inductive Elements : List Char → List Json → List Char → Prop
  | last {cs ds xs rest : List Char} {e : Json} (hb : Blanks cs ds) (hv : Value ds e xs)
    (ha : Blanks xs (']' :: rest)) : Elements cs [e] rest
  | more {cs ds xs ys rest : List Char} {e : Json} {es : List Json} (hb : Blanks cs ds)
    (hv : Value ds e xs) (ha : Blanks xs (',' :: ys)) (h : Elements ys es rest) :
    Elements cs (e :: es) rest

/-- A name, a colon and a value, blanks before and between them allowed. -/
inductive Member : List Char → String × Json → List Char → Prop
  | mk {cs names xs ys zs rest : List Char} {us : List Nat} {v : Json}
    (hb : Blanks cs ('"' :: names)) (hn : Units names us xs) (hc : Blanks xs (':' :: ys))
    (hb' : Blanks ys zs) (hv : Value zs v rest) : Member cs (ofUnits us, v) rest

/-- One or more members with commas between them, and the brace that closes them. -/
inductive Members : List Char → List (String × Json) → List Char → Prop
  | last {cs xs rest : List Char} {m : String × Json} (hm : Member cs m xs)
    (ha : Blanks xs ('\x7d' :: rest)) : Members cs [m] rest
  | more {cs xs ys rest : List Char} {m : String × Json} {ms : List (String × Json)}
    (hm : Member cs m xs) (ha : Blanks xs (',' :: ys)) (h : Members ys ms rest) :
    Members cs (m :: ms) rest

end

/-! ## Depth -/

mutual

/-- **How deep containers nest.** -/
def depth : Json → Nat
  | arr es => elementsDepth es + 1
  | obj ms => membersDepth ms + 1
  | _ => 0

/-- How deep they nest in elements. -/
def elementsDepth : List Json → Nat
  | [] => 0
  | e :: es => max (depth e) (elementsDepth es)

/-- How deep they nest in members. -/
def membersDepth : List (String × Json) → Nat
  | [] => 0
  | m :: ms => max (depth m.2) (membersDepth ms)

end

/-! ## Blanks -/

theorem skipBlanks_cons (h : isBlank c = false) : skipBlanks (c :: cs) = c :: cs := by
  simp [skipBlanks, h]

theorem Blanks.trans (h : Blanks cs ds) (h' : Blanks ds xs) : Blanks cs xs := by
  induction h with
  | done => exact h'
  | skip hc _ ih => exact .skip hc (ih h')

theorem Elements.of_blanks (h : Elements ds es rest) (hb : Blanks cs ds) : Elements cs es rest := by
  cases h with
  | last hb' hv ha => exact .last (hb.trans hb') hv ha
  | more hb' hv ha h => exact .more (hb.trans hb') hv ha h

theorem Member.of_blanks {m : String × Json} (h : Member ds m rest) (hb : Blanks cs ds) :
    Member cs m rest := by
  obtain ⟨hb', hn, hc, hb'', hv⟩ := h
  exact .mk (hb.trans hb') hn hc hb'' hv

theorem Members.of_blanks (h : Members ds ms rest) (hb : Blanks cs ds) : Members cs ms rest := by
  cases h with
  | last hm ha => exact .last (hm.of_blanks hb) ha
  | more hm ha h => exact .more (hm.of_blanks hb) ha h

theorem blanks_skipBlanks (cs : List Char) : Blanks cs (skipBlanks cs) := by
  induction cs with
  | nil => exact .done
  | cons c cs ih =>
    by_cases hc : isBlank c = true
    · rw [skipBlanks, List.dropWhile_cons_of_pos hc]
      exact .skip hc ih
    · rw [skipBlanks_cons (by simpa using hc)]
      exact .done

theorem Blanks.skipBlanks_eq (h : Blanks cs ds) : skipBlanks cs = skipBlanks ds := by
  induction h with
  | done => rfl
  | skip hc _ ih => rw [← ih, skipBlanks, List.dropWhile_cons_of_pos hc, skipBlanks]

theorem Blanks.length_le (h : Blanks cs ds) : ds.length ≤ cs.length := by
  induction h with
  | done => exact Nat.le_refl _
  | skip _ _ ih => exact Nat.le_succ_of_le ih

/-- Blanks are skipped up to a character that is none. -/
theorem Blanks.skipBlanks_eq_cons (h : Blanks cs (c :: rest)) (hc : isBlank c = false) :
    skipBlanks cs = c :: rest := by
  rw [h.skipBlanks_eq, skipBlanks_cons hc]

theorem blanks_of_skipBlanks (h : skipBlanks cs = ds) : Blanks cs ds :=
  h ▸ blanks_skipBlanks cs

theorem skipBlanks_skipBlanks (cs : List Char) : skipBlanks (skipBlanks cs) = skipBlanks cs :=
  (blanks_skipBlanks cs).skipBlanks_eq.symm

/-! ## Texts -/

theorem units_of_readUnits (h : readUnits cs = some (us, rest)) : Units cs us rest := by
  fun_induction readUnits cs generalizing us with
  | case1 => cases h
  | case2 =>
    cases h
    exact .close
  | case3 a b c d cs ih =>
    simp only [Option.bind_eq_bind, Option.bind_eq_some_iff] at h
    obtain ⟨u, hu, ⟨us, after⟩, hrest, h⟩ := h
    cases h
    exact .hex hu (ih hrest)
  | case4 l cs _ ih =>
    simp only [Option.bind_eq_bind, Option.bind_eq_some_iff] at h
    obtain ⟨d, hd, ⟨us, after⟩, hrest, h⟩ := h
    cases h
    exact .letter hd (ih hrest)
  | case5 => cases h
  | case6 c cs hquote hhex hslash hc ih =>
    simp only [Option.bind_eq_bind, Option.bind_eq_some_iff] at h
    obtain ⟨⟨us, after⟩, hrest, h⟩ := h
    cases h
    refine .plain hquote ?_ (by omega) (ih hrest)
    rintro rfl
    cases cs with
    | nil => simp [readUnits] at hrest
    | cons l cs => exact hslash l cs rfl rfl

theorem readUnits_letter {l d : Char} (hl : escapeLetter? l = some d) (rest : List Char) :
    readUnits ('\\' :: l :: rest) = (readUnits rest).map fun x => (d.toNat :: x.1, x.2) := by
  have hu : l ≠ 'u' := by
    rintro rfl
    cases hl
  cases h : readUnits rest <;> simp [readUnits, hu, hl, h]

theorem readUnits_plain (hquote : c ≠ '"') (hslash : c ≠ '\\') (hc : 0x20 ≤ c.toNat)
    (rest : List Char) :
    readUnits (c :: rest) = (readUnits rest).map fun x => (c.toNat :: x.1, x.2) := by
  rw [readUnits.eq_5 c rest hquote (fun _ _ _ _ _ h => absurd h hslash)
    (fun _ _ h => absurd h hslash), if_neg (by omega)]
  cases readUnits rest <;> rfl

theorem Units.readUnits_eq (h : Units cs us rest) : readUnits cs = some (us, rest) := by
  induction h with
  | close => simp [readUnits]
  | plain hquote hslash hc _ ih => rw [readUnits_plain hquote hslash hc, ih]; rfl
  | letter hl _ ih => rw [readUnits_letter hl, ih]; rfl
  | hex hu _ ih => simp [readUnits, hu, ih]

theorem Units.length_lt (h : Units cs us rest) : rest.length < cs.length := by
  induction h with
  | close => simp
  | plain _ _ _ _ ih => simp only [List.length_cons]; omega
  | letter _ _ ih => simp only [List.length_cons]; omega
  | hex _ _ ih => simp only [List.length_cons]; omega

theorem Units.readText_eq (h : Units cs us rest) : readText cs = some (ofUnits us, rest) := by
  rw [readText, h.readUnits_eq]
  rfl

theorem units_of_readText {name : String} (h : readText cs = some (name, rest)) :
    ∃ us, Units cs us rest ∧ name = ofUnits us := by
  obtain ⟨⟨us, after⟩, hread, h⟩ := Option.map_eq_some_iff.mp h
  cases h
  exact ⟨us, units_of_readUnits hread, rfl⟩

/-! ## Numbers -/

theorem digitRun_of_readDigitRun (h : readDigitRun cs = some (ds, rest)) :
    cs = ds ++ rest ∧ DigitRun ds := by
  rw [readDigitRun, List.span_eq_takeWhile_dropWhile] at h
  split at h
  · cases h
  · next hne heq =>
    cases h
    obtain ⟨rfl, rfl⟩ := Prod.mk.inj heq
    exact ⟨List.takeWhile_append_dropWhile.symm, hne,
      fun c hc => List.all_eq_true.mp List.all_takeWhile c hc⟩

theorem whole_of_readWhole (h : readWhole cs = some (ds, rest)) : cs = ds ++ rest ∧ Whole ds := by
  unfold readWhole at h
  split at h
  · cases h
    exact ⟨rfl, .zero⟩
  · next hzero =>
    obtain ⟨rfl, hds⟩ := digitRun_of_readDigitRun h
    refine ⟨rfl, .digits hds fun hhead => ?_⟩
    obtain ⟨tail, rfl⟩ := List.head?_eq_some_iff.mp hhead
    exact hzero (tail ++ rest) rfl

theorem fraction_of_readFraction (h : readFraction cs = some (ds, rest)) :
    cs = ds ++ rest ∧ Fraction ds := by
  unfold readFraction at h
  split at h
  · obtain ⟨⟨ds, after⟩, hread, h⟩ := Option.map_eq_some_iff.mp h
    cases h
    obtain ⟨rfl, hds⟩ := digitRun_of_readDigitRun hread
    exact ⟨rfl, .point hds⟩
  · cases h
    exact ⟨rfl, .none⟩

/-- The sign of an exponent is one of two or absent, and is taken off the front. -/
theorem sign_of_readSign {sign : List Char} (h : readSign cs = (sign, rest)) :
    cs = sign ++ rest ∧ sign ∈ [[], ['+'], ['-']] := by
  unfold readSign at h
  split at h <;> cases h <;> simp

theorem exponent_of_readExponent (h : readExponent cs = some (ds, rest)) :
    cs = ds ++ rest ∧ Exponent ds := by
  unfold readExponent at h
  split at h
  · cases h
    exact ⟨rfl, .none⟩
  · next c cs =>
    split at h
    · next hc =>
      match hs : readSign cs with
      | (sign, digits) =>
        rw [hs] at h
        obtain ⟨⟨ds, after⟩, hread, h⟩ := Option.map_eq_some_iff.mp h
        cases h
        obtain ⟨rfl, hds⟩ := digitRun_of_readDigitRun hread
        obtain ⟨rfl, hsign⟩ := sign_of_readSign hs
        exact ⟨by simp, .power hc hsign hds⟩
    · cases h
      exact ⟨rfl, .none⟩

theorem magnitude_of_readMagnitude (h : readMagnitude cs = some (ds, rest)) :
    cs = ds ++ rest ∧ Magnitude ds := by
  simp only [readMagnitude, Option.bind_eq_bind, Option.bind_eq_some_iff] at h
  obtain ⟨⟨whole, xs⟩, hwhole, ⟨fraction, ys⟩, hfraction, ⟨exponent, zs⟩, hexponent, h⟩ := h
  cases h
  obtain ⟨rfl, hw⟩ := whole_of_readWhole hwhole
  obtain ⟨rfl, hf⟩ := fraction_of_readFraction hfraction
  obtain ⟨rfl, he⟩ := exponent_of_readExponent hexponent
  exact ⟨by simp, .mk hw hf he⟩

theorem numeral_of_readNumber (h : readNumber cs = some (ds, rest)) :
    cs = ds ++ rest ∧ Numeral ds := by
  unfold readNumber at h
  split at h
  · obtain ⟨⟨ds, after⟩, hread, h⟩ := Option.map_eq_some_iff.mp h
    cases h
    obtain ⟨rfl, hds⟩ := magnitude_of_readMagnitude hread
    exact ⟨rfl, .minus hds⟩
  · obtain ⟨rfl, hds⟩ := magnitude_of_readMagnitude h
    exact ⟨rfl, .plain hds⟩

/-- Text that no number goes on with. -/
def Stops (rest : List Char) : Prop :=
  ∀ c ∈ rest.head?, c.isDigit = false ∧ c ≠ '.' ∧ c ≠ 'e' ∧ c ≠ 'E'

/-- What follows a value in a container or on a line is no part of it. -/
theorem stops_cons (hc : c ∈ [',', ']', '\x7d', '\n']) : Stops (c :: rest) := by
  rintro _ ⟨⟩
  simp only [List.mem_cons, List.not_mem_nil, or_false] at hc
  rcases hc with rfl | rfl | rfl | rfl <;> decide

/-- Text that no run of digits goes on with. -/
def NoDigit (rest : List Char) : Prop := ∀ c ∈ rest.head?, c.isDigit = false

theorem Stops.noDigit (h : Stops rest) : NoDigit rest := fun c hc => (h c hc).1

theorem DigitRun.readDigitRun_eq (h : DigitRun ds) (hrest : NoDigit rest) :
    readDigitRun (ds ++ rest) = some (ds, rest) := by
  have hstop : rest.takeWhile Char.isDigit = [] ∧ rest.dropWhile Char.isDigit = rest := by
    cases rest with
    | nil => exact ⟨rfl, rfl⟩
    | cons c rest => simp [hrest c rfl]
  have hspan : (ds ++ rest).span Char.isDigit = (ds, rest) := by
    rw [List.span_eq_takeWhile_dropWhile, List.takeWhile_append_of_pos h.isDigit,
      List.dropWhile_append_of_pos h.isDigit, hstop.1, hstop.2, List.append_nil]
  rw [readDigitRun, hspan]
  cases ds with
  | nil => exact absurd rfl h.ne_nil
  | cons c ds => rfl

theorem DigitRun.exists_cons (h : DigitRun ds) :
    ∃ c tail, ds = c :: tail ∧ c.isDigit = true := by
  obtain ⟨c, tail, rfl⟩ := List.exists_cons_of_ne_nil h.ne_nil
  exact ⟨c, tail, rfl, h.isDigit c (by simp)⟩

theorem Whole.readWhole_eq (h : Whole whole) (hrest : NoDigit rest) :
    readWhole (whole ++ rest) = some (whole, rest) := by
  cases h with
  | zero => rfl
  | digits hds hzero =>
    rw [← hds.readDigitRun_eq hrest]
    obtain ⟨c, tail, rfl⟩ := List.exists_cons_of_ne_nil hds.ne_nil
    exact readWhole.eq_2 _ fun _ heq => hzero (by simp_all)

theorem Fraction.readFraction_eq (h : Fraction fraction) (hrest : NoDigit rest)
    (hpoint : rest.head? ≠ some '.') : readFraction (fraction ++ rest) = some (fraction, rest) := by
  cases h with
  | none =>
    rw [List.nil_append]
    exact readFraction.eq_2 _ fun _ heq => hpoint (by rw [heq]; rfl)
  | point hds => simp [readFraction, hds.readDigitRun_eq hrest]

theorem Exponent.readExponent_eq (h : Exponent exponent) (hrest : Stops rest) :
    readExponent (exponent ++ rest) = some (exponent, rest) := by
  cases h with
  | none =>
    cases rest with
    | nil => rfl
    | cons c rest => simp [readExponent, (hrest c rfl).2.2]
  | @power c sign ds hc hsign hds =>
    obtain ⟨d, tail, rfl, hd⟩ := hds.exists_cons
    have hsign' : readSign (sign ++ (d :: tail ++ rest)) = (sign, d :: tail ++ rest) := by
      simp only [List.mem_cons, List.not_mem_nil, or_false] at hsign
      rcases hsign with rfl | rfl | rfl
      · refine readSign.eq_3 _ ?_ ?_
        · rintro _ heq
          obtain rfl : d = '+' := (List.cons.inj heq).1
          cases hd
        · rintro _ heq
          obtain rfl : d = '-' := (List.cons.inj heq).1
          cases hd
      · rfl
      · rfl
    rw [List.cons_append, List.cons_append, List.append_assoc, readExponent, if_pos hc, hsign']
    simp only [hds.readDigitRun_eq hrest.noDigit, Option.map_some]
    rfl

/-- What follows the fraction is no digit and no point. -/
theorem Exponent.head (h : Exponent exponent) (hrest : Stops rest) :
    NoDigit (exponent ++ rest) ∧ (exponent ++ rest).head? ≠ some '.' := by
  cases h with
  | none =>
    refine ⟨hrest.noDigit, fun hpoint => ?_⟩
    exact (hrest '.' hpoint).2.1 rfl
  | power hc _ _ =>
    rcases hc with rfl | rfl
    · exact ⟨by rintro _ ⟨⟩; decide, by simp⟩
    · exact ⟨by rintro _ ⟨⟩; decide, by simp⟩

/-- What follows the whole part is no digit. -/
theorem Fraction.noDigit (h : Fraction fraction) (hrest : NoDigit rest) :
    NoDigit (fraction ++ rest) := by
  cases h with
  | none => exact hrest
  | point _ =>
    rintro _ ⟨⟩
    decide

theorem Magnitude.readMagnitude_eq (h : Magnitude ds) (hrest : Stops rest) :
    readMagnitude (ds ++ rest) = some (ds, rest) := by
  obtain ⟨hw, hf, he⟩ := h
  obtain ⟨hdigit, hpoint⟩ := he.head hrest
  rw [List.append_assoc, List.append_assoc]
  simp only [readMagnitude, Option.bind_eq_bind, hw.readWhole_eq (hf.noDigit hdigit),
    hf.readFraction_eq hdigit hpoint, he.readExponent_eq hrest, Option.bind_some]
  rw [List.append_assoc]
  rfl

theorem Magnitude.exists_cons (h : Magnitude ds) :
    ∃ c tail, ds = c :: tail ∧ c.isDigit = true := by
  obtain ⟨hw, _, _⟩ := h
  cases hw with
  | zero => exact ⟨'0', _, rfl, rfl⟩
  | digits hds _ =>
    obtain ⟨c, tail, rfl, hc⟩ := hds.exists_cons
    exact ⟨c, _, rfl, hc⟩

/-- A number starts with a sign or a digit. -/
theorem Numeral.exists_cons (h : Numeral ds) :
    ∃ c tail, ds = c :: tail ∧ (c = '-' ∨ c.isDigit = true) := by
  cases h with
  | plain h =>
    obtain ⟨c, tail, rfl, hc⟩ := h.exists_cons
    exact ⟨c, tail, rfl, .inr hc⟩
  | minus _ => exact ⟨'-', _, rfl, .inl rfl⟩

theorem Numeral.readNumber_eq (h : Numeral literal) (hrest : Stops rest) :
    readNumber (literal ++ rest) = some (literal, rest) := by
  cases h with
  | plain h =>
    rw [← h.readMagnitude_eq hrest]
    obtain ⟨c, tail, rfl, hc⟩ := h.exists_cons
    refine readNumber.eq_2 _ fun _ heq => ?_
    obtain rfl : c = '-' := (List.cons.inj heq).1
    cases hc
  | minus h => simp [readNumber, h.readMagnitude_eq hrest]

/-! ## Reading is sound -/

/-- A literal is taken off the front. -/
theorem eq_append_of_expect {ws : List Char} (h : expect ws cs = some rest) : cs = ws ++ rest := by
  fun_induction expect ws cs with
  | case1 => simpa using h
  | case2 => cases h
  | case3 ws c cs ih => rw [ih h]; rfl
  | case4 => cases h

theorem value_of_readScalar (h : readScalar cs = some (j, rest)) :
    Value cs j rest ∧ j.depth = 0 := by
  unfold readScalar at h
  split at h
  · obtain ⟨⟨s, after⟩, hread, h⟩ := Option.map_eq_some_iff.mp h
    cases h
    obtain ⟨us, hus, rfl⟩ := units_of_readText hread
    exact ⟨.str hus, rfl⟩
  · obtain ⟨after, hread, h⟩ := Option.map_eq_some_iff.mp h
    cases h
    rw [eq_append_of_expect hread]
    exact ⟨.yes, rfl⟩
  · obtain ⟨after, hread, h⟩ := Option.map_eq_some_iff.mp h
    cases h
    rw [eq_append_of_expect hread]
    exact ⟨.no, rfl⟩
  · obtain ⟨after, hread, h⟩ := Option.map_eq_some_iff.mp h
    cases h
    rw [eq_append_of_expect hread]
    exact ⟨.null, rfl⟩
  · obtain ⟨⟨literal, after⟩, hread, h⟩ := Option.map_eq_some_iff.mp h
    cases h
    obtain ⟨rfl, hliteral⟩ := numeral_of_readNumber hread
    exact ⟨.num hliteral, rfl⟩

mutual

/-- **What is read is a value**, no deeper than there was room for. -/
theorem value_of_readValueAt : ∀ {fuel room : Nat} {cs : List Char} {j : Json} {rest : List Char},
    readValueAt fuel room cs = some (j, rest) → Value (skipBlanks cs) j rest ∧ j.depth ≤ room
  | 0, _, _, _, _, h => by
    rw [readValueAt] at h
    cases h
  | fuel + 1, room, cs, j, rest, h => by
    rw [readValueAt] at h
    split at h
    · next inner heq =>
      rw [heq]
      split at h
      · cases h
      · next hroom =>
        split at h
        · next hclose =>
          cases h
          exact ⟨.noElement (blanks_of_skipBlanks hclose), by rw [depth, elementsDepth]; omega⟩
        · obtain ⟨⟨es, after⟩, hread, h⟩ := Option.map_eq_some_iff.mp h
          cases h
          obtain ⟨hes, hdepth⟩ := elements_of_readElements hread
          exact ⟨.arr (hes.of_blanks (blanks_skipBlanks inner)), by rw [depth]; omega⟩
    · next inner heq =>
      rw [heq]
      split at h
      · cases h
      · next hroom =>
        split at h
        · next hclose =>
          cases h
          exact ⟨.noMember (blanks_of_skipBlanks hclose), by rw [depth, membersDepth]; omega⟩
        · obtain ⟨⟨ms, after⟩, hread, h⟩ := Option.map_eq_some_iff.mp h
          cases h
          obtain ⟨hms, hdepth⟩ := members_of_readMembers hread
          exact ⟨.obj (hms.of_blanks (blanks_skipBlanks inner)), by rw [depth]; omega⟩
    · obtain ⟨hv, hdepth⟩ := value_of_readScalar h
      exact ⟨hv, by omega⟩

theorem elements_of_readElements : ∀ {fuel room : Nat} {cs : List Char} {es : List Json}
    {rest : List Char}, readElements fuel room cs = some (es, rest) →
      Elements cs es rest ∧ elementsDepth es ≤ room
  | 0, _, _, _, _, h => by
    rw [readElements] at h
    cases h
  | fuel + 1, room, cs, es, rest, h => by
    simp only [readElements, Option.bind_eq_bind, Option.bind_eq_some_iff] at h
    obtain ⟨⟨e, xs⟩, hread, h⟩ := h
    obtain ⟨hv, hdepth⟩ := value_of_readValueAt hread
    have hb := blanks_skipBlanks cs
    split at h
    · next hcomma =>
      simp only [Option.bind_eq_some_iff] at h
      obtain ⟨⟨es, after⟩, hmore, h⟩ := h
      cases h
      obtain ⟨hes, hdepth'⟩ := elements_of_readElements hmore
      exact ⟨.more hb hv (blanks_of_skipBlanks hcomma) hes, by
        rw [elementsDepth]
        exact Nat.max_le.mpr ⟨hdepth, hdepth'⟩⟩
    · next hclose =>
      cases h
      exact ⟨.last hb hv (blanks_of_skipBlanks hclose), by
        rw [elementsDepth, elementsDepth]
        exact Nat.max_le.mpr ⟨hdepth, Nat.zero_le _⟩⟩
    · cases h

theorem members_of_readMembers : ∀ {fuel room : Nat} {cs : List Char}
    {ms : List (String × Json)} {rest : List Char}, readMembers fuel room cs = some (ms, rest) →
      Members cs ms rest ∧ membersDepth ms ≤ room
  | 0, _, _, _, _, h => by
    rw [readMembers] at h
    cases h
  | fuel + 1, room, cs, ms, rest, h => by
    rw [readMembers] at h
    split at h
    · next hquote =>
      simp only [Option.bind_eq_bind, Option.bind_eq_some_iff] at h
      obtain ⟨⟨name, xs⟩, hname, h⟩ := h
      obtain ⟨us, hus, rfl⟩ := units_of_readText hname
      split at h
      · next hcolon =>
        simp only [Option.bind_eq_some_iff] at h
        obtain ⟨⟨v, zs⟩, hread, h⟩ := h
        obtain ⟨hv, hdepth⟩ := value_of_readValueAt hread
        have hm : Member cs (ofUnits us, v) zs :=
          .mk (blanks_of_skipBlanks hquote) hus (blanks_of_skipBlanks hcolon)
            (blanks_skipBlanks _) hv
        split at h
        · next hcomma =>
          simp only [Option.bind_eq_some_iff] at h
          obtain ⟨⟨ms, after⟩, hmore, h⟩ := h
          cases h
          obtain ⟨hms, hdepth'⟩ := members_of_readMembers hmore
          exact ⟨.more hm (blanks_of_skipBlanks hcomma) hms, by
            rw [membersDepth]
            exact Nat.max_le.mpr ⟨hdepth, hdepth'⟩⟩
        · next hclose =>
          cases h
          exact ⟨.last hm (blanks_of_skipBlanks hclose), by
            rw [membersDepth, membersDepth]
            exact Nat.max_le.mpr ⟨hdepth, Nat.zero_le _⟩⟩
        · cases h
      · cases h
    · cases h

end

/-! ## Reading is complete -/

theorem readValueAt_skipBlanks (fuel room : Nat) (cs : List Char) :
    readValueAt fuel room (skipBlanks cs) = readValueAt fuel room cs := by
  cases fuel with
  | zero => rw [readValueAt, readValueAt]
  | succ fuel => rw [readValueAt, readValueAt, skipBlanks_skipBlanks]

theorem readElements_skipBlanks (fuel room : Nat) (cs : List Char) :
    readElements fuel room (skipBlanks cs) = readElements fuel room cs := by
  cases fuel with
  | zero => rw [readElements, readElements]
  | succ fuel => rw [readElements, readElements, readValueAt_skipBlanks]

theorem readMembers_skipBlanks (fuel room : Nat) (cs : List Char) :
    readMembers fuel room (skipBlanks cs) = readMembers fuel room cs := by
  cases fuel with
  | zero => rw [readMembers, readMembers]
  | succ fuel => rw [readMembers, readMembers, skipBlanks_skipBlanks]

theorem ne_of_numeric {d : Char} (hc : c = '-' ∨ c.isDigit = true) (hd : d.isDigit = false)
    (hminus : d ≠ '-') : c ≠ d := by
  rintro rfl
  simp_all

theorem isBlank_of_numeric (hc : c = '-' ∨ c.isDigit = true) : isBlank c = false := by
  simp [isBlank, ne_of_numeric (d := ' ') hc rfl, ne_of_numeric (d := '\t') hc rfl,
    ne_of_numeric (d := '\n') hc rfl, ne_of_numeric (d := '\r') hc rfl]

/-- What starts with a sign or a digit is read as a number. -/
theorem readScalar_of_numeric {literal : List Char} (hc : c = '-' ∨ c.isDigit = true)
    (hread : readNumber (c :: cs) = some (literal, rest)) :
    readScalar (c :: cs) = some (num literal, rest) := by
  simp [readScalar, hread, ne_of_numeric (d := '"') hc rfl, ne_of_numeric (d := 't') hc rfl,
    ne_of_numeric (d := 'f') hc rfl, ne_of_numeric (d := 'n') hc rfl]

/-- A value starts with a character that is no blank and closes nothing. -/
theorem Value.opens (h : Value cs j rest) :
    ∃ c tail, cs = c :: tail ∧ isBlank c = false ∧ c ≠ ']' ∧ c ≠ '\x7d' := by
  cases h with
  | num h =>
    obtain ⟨c, tail, rfl, hc⟩ := h.exists_cons
    exact ⟨c, _, rfl, isBlank_of_numeric hc, ne_of_numeric hc rfl (by decide),
      ne_of_numeric hc rfl (by decide)⟩
  | _ => exact ⟨_, _, rfl, by decide, by decide, by decide⟩

/-- A value that is no number starts with neither a sign nor a digit. -/
theorem Value.num_or_head (h : Value cs j rest) : (∃ literal, j = Json.num literal) ∨
    ∃ c tail, cs = c :: tail ∧ c ≠ '-' ∧ c.isDigit = false := by
  cases h with
  | num => exact .inl ⟨_, rfl⟩
  | _ => exact .inr ⟨_, _, rfl, by decide, by decide⟩

/-- Where a number stands no other sort of value does. -/
theorem Value.eq_num (h : Value cs (Json.num literal) rest) (h' : Value cs j xs) :
    ∃ literal, j = Json.num literal := by
  refine h'.num_or_head.resolve_right ?_
  rintro ⟨c, tail, rfl, hminus, hdigit⟩
  generalize hcs : c :: tail = ds at h
  cases h with
  | num hn =>
    obtain ⟨d, tail', rfl, hd⟩ := hn.exists_cons
    obtain rfl : c = d := (List.cons.inj hcs).1
    simp_all

/-- What a blank or a separator starts, no number goes on with. -/
theorem Blanks.stops (h : Blanks cs (c :: rest)) (hc : c ∈ [',', ']', '\x7d', '\n']) :
    Stops cs := by
  cases h with
  | done => exact stops_cons hc
  | skip hblank _ =>
    rintro _ ⟨⟩
    simp only [isBlank, Bool.or_eq_true, beq_iff_eq] at hblank
    rcases hblank with ((rfl | rfl) | rfl) | rfl <;> decide

/-- A scalar is read where no container starts. -/
theorem readValueAt_scalar (h : readScalar (c :: cs) = some (j, rest)) (hblank : isBlank c = false)
    (harr : c ≠ '[') (hobj : c ≠ '\x7b') :
    readValueAt (fuel + 1) room (c :: cs) = some (j, rest) := by
  rw [readValueAt, skipBlanks_cons hblank]
  split
  · next heq => exact absurd (List.cons.inj heq).1 harr
  · next heq => exact absurd (List.cons.inj heq).1 hobj
  · exact h

theorem Numeral.readValueAt_eq (h : Numeral literal) (hrest : Stops rest) :
    readValueAt (fuel + 1) room (literal ++ rest) = some (num literal, rest) := by
  have hread := h.readNumber_eq hrest
  obtain ⟨c, tail, rfl, hc⟩ := h.exists_cons
  rw [List.cons_append] at hread ⊢
  exact readValueAt_scalar (readScalar_of_numeric hc hread) (isBlank_of_numeric hc)
    (ne_of_numeric hc rfl (by decide)) (ne_of_numeric hc rfl (by decide))

theorem Numeral.length_pos (h : Numeral literal) : 0 < literal.length := by
  obtain ⟨c, tail, rfl, _⟩ := h.exists_cons
  simp

mutual

/-- A value takes at least a character. -/
theorem Value.length_lt : ∀ {cs : List Char} {j : Json} {rest : List Char},
    Value cs j rest → rest.length < cs.length
  | _, _, _, .null => by simp only [List.length_cons]; omega
  | _, _, _, .yes => by simp only [List.length_cons]; omega
  | _, _, _, .no => by simp only [List.length_cons]; omega
  | _, _, _, .str h => by
    have := h.length_lt
    simp only [List.length_cons]
    omega
  | _, _, _, .num h => by
    have := h.length_pos
    simp only [List.length_append]
    omega
  | _, _, _, .noElement h => by
    have := h.length_le
    simp only [List.length_cons] at this ⊢
    omega
  | _, _, _, .arr h => Nat.lt_succ_of_lt h.length_lt
  | _, _, _, .noMember h => by
    have := h.length_le
    simp only [List.length_cons] at this ⊢
    omega
  | _, _, _, .obj h => Nat.lt_succ_of_lt h.length_lt

theorem Elements.length_lt : ∀ {cs : List Char} {es : List Json} {rest : List Char},
    Elements cs es rest → rest.length < cs.length
  | _, _, _, .last hb hv ha => by
    have := hb.length_le
    have := hv.length_lt
    have := ha.length_le
    simp only [List.length_cons] at this
    omega
  | _, _, _, .more hb hv ha h => by
    have := hb.length_le
    have := hv.length_lt
    have := h.length_lt
    have := ha.length_le
    simp only [List.length_cons] at this
    omega

theorem Member.length_lt : ∀ {cs : List Char} {m : String × Json} {rest : List Char},
    Member cs m rest → rest.length < cs.length
  | _, _, _, .mk hb hn hc hb' hv => by
    have := hn.length_lt
    have := hb'.length_le
    have := hv.length_lt
    have := hb.length_le
    have := hc.length_le
    simp only [List.length_cons] at *
    omega

theorem Members.length_lt : ∀ {cs : List Char} {ms : List (String × Json)} {rest : List Char},
    Members cs ms rest → rest.length < cs.length
  | _, _, _, .last hm ha => by
    have := hm.length_lt
    have := ha.length_le
    simp only [List.length_cons] at this
    omega
  | _, _, _, .more hm ha h => by
    have := hm.length_lt
    have := h.length_lt
    have := ha.length_le
    simp only [List.length_cons] at this
    omega

end

theorem Elements.exists_value (h : Elements cs es rest) : ∃ ds e xs, Blanks cs ds ∧ Value ds e xs := by
  cases h with
  | last hb hv _ => exact ⟨_, _, _, hb, hv⟩
  | more hb hv _ _ => exact ⟨_, _, _, hb, hv⟩

/-- Elements start with a value, which closes nothing. -/
theorem Elements.skipBlanks_ne (h : Elements cs es rest) (tail : List Char) :
    skipBlanks cs ≠ ']' :: tail := by
  obtain ⟨ds, e, xs, hb, hv⟩ := h.exists_value
  obtain ⟨c, tail', rfl, hblank, hclose, _⟩ := hv.opens
  rw [hb.skipBlanks_eq_cons hblank]
  exact fun heq => hclose (List.cons.inj heq).1

/-- Members start with a quote. -/
theorem Members.skipBlanks_ne (h : Members cs ms rest) (tail : List Char) :
    skipBlanks cs ≠ '\x7d' :: tail := by
  have hm : ∃ m xs, Member cs m xs := by
    cases h with
    | last hm _ => exact ⟨_, _, hm⟩
    | more hm _ _ => exact ⟨_, _, hm⟩
  obtain ⟨m, xs, hb, _, _, _, _⟩ := hm
  rw [hb.skipBlanks_eq_cons rfl]
  simp

mutual

/-- **Every value is read off the front of a text** where there is room for its containers: a number
if what follows cannot be part of it. -/
theorem Value.readValueAt_eq : ∀ {cs : List Char} {j : Json} {rest : List Char} {fuel room : Nat},
    Value cs j rest → 2 * cs.length ≤ fuel + 2 * rest.length → j.depth ≤ room →
      (∀ literal, j = num literal → Stops rest) → readValueAt fuel room cs = some (j, rest)
  | cs, j, rest, 0, room, h, hfuel, _, _ => by
    have := h.length_lt
    omega
  | _, _, _, fuel + 1, _, .null, _, _, _ =>
    readValueAt_scalar (by simp [readScalar, expect]) rfl (by decide) (by decide)
  | _, _, _, fuel + 1, _, .yes, _, _, _ =>
    readValueAt_scalar (by simp [readScalar, expect]) rfl (by decide) (by decide)
  | _, _, _, fuel + 1, _, .no, _, _, _ =>
    readValueAt_scalar (by simp [readScalar, expect]) rfl (by decide) (by decide)
  | _, _, _, fuel + 1, _, .str h, _, _, _ =>
    readValueAt_scalar (by simp [readScalar, h.readText_eq]) rfl (by decide) (by decide)
  | _, _, _, fuel + 1, _, .num h, _, _, hstop => h.readValueAt_eq (hstop _ rfl)
  | _, _, _, fuel + 1, room, .noElement h, _, hroom, _ => by
    have hpos : room ≠ 0 := by rw [depth] at hroom; omega
    simp [readValueAt, skipBlanks_cons (c := '[') rfl, hpos, h.skipBlanks_eq_cons rfl]
  | _, _, _, fuel + 1, room, .arr h, hfuel, hroom, _ => by
    rw [depth] at hroom
    rw [List.length_cons] at hfuel
    have hpos : room ≠ 0 := by omega
    have hread := @Elements.readElements_eq _ _ _ fuel (room - 1) h (by omega) (by omega)
    rw [readValueAt, skipBlanks_cons rfl]
    simp only [if_neg hpos]
    split
    · next hclose => exact absurd hclose (h.skipBlanks_ne _)
    · rw [readElements_skipBlanks, hread]
      rfl
  | _, _, _, fuel + 1, room, .noMember h, _, hroom, _ => by
    have hpos : room ≠ 0 := by rw [depth] at hroom; omega
    simp [readValueAt, skipBlanks_cons (c := '\x7b') rfl, hpos, h.skipBlanks_eq_cons rfl]
  | _, _, _, fuel + 1, room, .obj h, hfuel, hroom, _ => by
    rw [depth] at hroom
    rw [List.length_cons] at hfuel
    have hpos : room ≠ 0 := by omega
    have hread := @Members.readMembers_eq _ _ _ fuel (room - 1) h (by omega) (by omega)
    rw [readValueAt, skipBlanks_cons rfl]
    simp only [if_neg hpos]
    split
    · next hclose => exact absurd hclose (h.skipBlanks_ne _)
    · rw [readMembers_skipBlanks, hread]
      rfl

theorem Elements.readElements_eq : ∀ {cs : List Char} {es : List Json} {rest : List Char}
    {fuel room : Nat}, Elements cs es rest → 2 * cs.length ≤ fuel + 2 * rest.length →
      elementsDepth es ≤ room → readElements fuel room cs = some (es, rest)
  | cs, es, rest, 0, room, h, hfuel, _ => by
    have := h.length_lt
    omega
  | _, _, _, fuel + 1, room, .last hb hv ha, hfuel, hroom => by
    have hle := hb.length_le
    have hle' := ha.length_le
    rw [List.length_cons] at hle'
    rw [elementsDepth, elementsDepth, Nat.max_le] at hroom
    have hread := @Value.readValueAt_eq _ _ _ fuel _ hv (by omega) hroom.1
      fun _ _ => ha.stops (by decide)
    rw [readElements, ← readValueAt_skipBlanks, hb.skipBlanks_eq, readValueAt_skipBlanks, hread]
    simp [ha.skipBlanks_eq_cons rfl]
  | _, _, _, fuel + 1, room, .more hb hv ha h, hfuel, hroom => by
    have hle := hb.length_le
    have hle' := ha.length_le
    have hlt := hv.length_lt
    have hlt' := h.length_lt
    rw [List.length_cons] at hle'
    rw [elementsDepth, Nat.max_le] at hroom
    have hread := @Value.readValueAt_eq _ _ _ fuel _ hv (by omega) hroom.1
      fun _ _ => ha.stops (by decide)
    have hmore := @Elements.readElements_eq _ _ _ fuel _ h (by omega) hroom.2
    rw [readElements, ← readValueAt_skipBlanks, hb.skipBlanks_eq, readValueAt_skipBlanks, hread]
    simp [ha.skipBlanks_eq_cons rfl, hmore]

/-- A member is read, and what follows it decides. -/
theorem Member.readMembers_eq : ∀ {cs : List Char} {m : String × Json} {xs : List Char}
    {fuel room : Nat}, Member cs m xs → 2 * cs.length ≤ fuel + 2 * xs.length → m.2.depth ≤ room →
      Stops xs →
        (∀ more, skipBlanks xs = ',' :: more → readMembers (fuel + 1) room cs =
          (readMembers fuel room more).map fun x => (m :: x.1, x.2)) ∧
        ∀ after, skipBlanks xs = '\x7d' :: after →
          readMembers (fuel + 1) room cs = some ([m], after)
  | _, _, xs, fuel, room, .mk hb hn hc hb' hv, hfuel, hroom, hstop => by
    have hle := hb.length_le
    have hlt := hn.length_lt
    have hle' := hc.length_le
    have hle'' := hb'.length_le
    simp only [List.length_cons] at hle hle'
    have hread := @Value.readValueAt_eq _ _ _ fuel _ hv (by omega) hroom fun _ _ => hstop
    rw [← readValueAt_skipBlanks, ← hb'.skipBlanks_eq, readValueAt_skipBlanks] at hread
    refine ⟨fun more hmore => ?_, fun after hafter => ?_⟩
    · rw [readMembers, hb.skipBlanks_eq_cons rfl]
      simp only [hn.readText_eq, Option.bind_eq_bind, Option.bind_some, hc.skipBlanks_eq_cons rfl,
        hread, hmore]
      cases readMembers fuel room more <;> rfl
    · rw [readMembers, hb.skipBlanks_eq_cons rfl]
      simp only [hn.readText_eq, Option.bind_eq_bind, Option.bind_some, hc.skipBlanks_eq_cons rfl,
        hread, hafter]
      rfl

theorem Members.readMembers_eq : ∀ {cs : List Char} {ms : List (String × Json)} {rest : List Char}
    {fuel room : Nat}, Members cs ms rest → 2 * cs.length ≤ fuel + 2 * rest.length →
      membersDepth ms ≤ room → readMembers fuel room cs = some (ms, rest)
  | cs, ms, rest, 0, room, h, hfuel, _ => by
    have := h.length_lt
    omega
  | _, _, _, fuel + 1, room, .last hm ha, hfuel, hroom => by
    have hle := ha.length_le
    rw [List.length_cons] at hle
    rw [membersDepth, membersDepth, Nat.max_le] at hroom
    exact (hm.readMembers_eq (by omega) hroom.1 (ha.stops (by decide))).2 _
      (ha.skipBlanks_eq_cons rfl)
  | _, _, _, fuel + 1, room, .more hm ha h, hfuel, hroom => by
    have hle := ha.length_le
    have hlt := hm.length_lt
    have hlt' := h.length_lt
    rw [List.length_cons] at hle
    rw [membersDepth, Nat.max_le] at hroom
    have hmore := @Members.readMembers_eq _ _ _ fuel _ h (by omega) hroom.2
    rw [(hm.readMembers_eq (by omega) hroom.1 (ha.stops (by decide))).1 _
      (ha.skipBlanks_eq_cons rfl), hmore]
    rfl

end

theorem value_of_readValue (h : readValue cs = some (j, rest)) :
    Value (skipBlanks cs) j rest ∧ j.depth ≤ maxDepth :=
  value_of_readValueAt h

theorem Value.readValue_eq (h : Value cs j rest) (hdepth : j.depth ≤ maxDepth)
    (hstop : ∀ literal, j = Json.num literal → Stops rest) : readValue cs = some (j, rest) :=
  h.readValueAt_eq (by omega) hdepth hstop

end Deflatten.Json
