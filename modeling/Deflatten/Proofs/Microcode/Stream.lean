import Deflatten.Proofs.Json.Grammar
import Deflatten.Proofs.Microcode.Exchange

/-!
# Proofs/Microcode/Stream — which functions of a text are read

`Draft.Lists cs ds rest` says that a text holds functions one after the other, blanks between them,
and goes on with `rest`.  Reading takes the functions a text lists up to the place where it ends, a
bracket or brace closes something, or no function stands (`readFuncs_eq_iff`); only the last is an
error.
-/

namespace Deflatten

open Json (Blanks Value skipBlanks isBlank)

variable {f f' : Draft} {fs fs' : List Draft} {cs ds xs rest rest' : List Char} {j : Json}
  {e : ReadError} {fuel line : Nat}

/-! ## Functions in a text -/

/-- **A function stands at the front of a text**, and something follows it. -/
def Draft.StandsAt (cs : List Char) (f : Draft) (rest : List Char) : Prop :=
  ∃ j, Value cs j rest ∧ j.depth ≤ Json.maxDepth ∧ Draft.ofJson j = .ok f

/-- **A text lists functions**, with blanks between them, and goes on. -/
inductive Draft.Lists : List Char → List Draft → List Char → Prop
  | done {cs rest : List Char} (hb : Blanks cs rest) : Lists cs [] rest
  | next {cs ds xs rest : List Char} {f : Draft} {fs : List Draft} (hb : Blanks cs ds)
    (hf : f.StandsAt ds xs) (h : Lists xs fs rest) : Lists cs (f :: fs) rest

/-- Nothing more is looked for: the text has ended, or something is closed. -/
def Closes (cs : List Char) : Prop := cs = [] ∨ ∃ c ∈ [']', '\x7d'], cs.head? = some c

/-- Something has to stand here: neither a blank comes next nor a closing bracket or brace. -/
def Opens (cs : List Char) : Prop :=
  ∃ c tail, cs = c :: tail ∧ isBlank c = false ∧ c ≠ ']' ∧ c ≠ '\x7d'

/-- **A function has to stand here and does not**, for a reason. -/
structure Spoils (cs : List Char) (e : ReadError) : Prop where
  /-- Something has to stand here. -/
  opens : Opens cs
  /-- A value that stands there is no function for that reason. -/
  fails : ∀ j rest, Value cs j rest → j.depth ≤ Json.maxDepth → Draft.ofJson j = .error e
  /-- Unless no value does. -/
  named : e ≠ .value .malformed → ∃ j rest, Value cs j rest ∧ j.depth ≤ Json.maxDepth

theorem ofJson_num (literal : List Char) : Draft.ofJson (.num literal) = .error (.value .malformed) := rfl

/-- A number is no function, so the value of a function is read whatever follows it. -/
theorem readValue_of_ofJson (hv : Value cs j rest) (hdepth : j.depth ≤ Json.maxDepth)
    (hj : Draft.ofJson j ≠ .error (.value .malformed)) : Json.readValue cs = some (j, rest) :=
  hv.readValue_eq hdepth fun literal heq => absurd (heq ▸ ofJson_num literal) hj

/-- At most one function stands at a place. -/
theorem Draft.StandsAt.unique (h : f.StandsAt cs rest) (h' : f'.StandsAt cs rest') :
    f = f' ∧ rest = rest' := by
  obtain ⟨j, hv, hdepth, hj⟩ := h
  obtain ⟨j', hv', hdepth', hj'⟩ := h'
  have hread := readValue_of_ofJson hv hdepth (by simp [hj])
  have hread' := readValue_of_ofJson hv' hdepth' (by simp [hj'])
  obtain ⟨rfl, rfl⟩ := Prod.mk.inj (Option.mem_unique hread hread')
  exact ⟨Except.ok.inj (hj.symm.trans hj'), rfl⟩

theorem Draft.StandsAt.opens (h : f.StandsAt cs rest) : Opens cs := by
  obtain ⟨j, hv, -, -⟩ := h
  exact hv.opens

theorem Draft.StandsAt.length_lt (h : f.StandsAt cs rest) : rest.length < cs.length := by
  obtain ⟨j, hv, -, -⟩ := h
  exact hv.length_lt

/-- Blanks before a function are skipped. -/
theorem Draft.StandsAt.skipBlanks_eq (h : f.StandsAt ds rest) (hb : Blanks cs ds) :
    skipBlanks cs = ds := by
  obtain ⟨c, tail, rfl, hblank, -⟩ := h.opens
  exact hb.skipBlanks_eq_cons hblank

/-- A text is spoilt for one reason. -/
theorem Spoils.unique {e' : ReadError} (h : Spoils cs e) (h' : Spoils cs e') : e = e' := by
  by_cases he : e = .value .malformed
  · by_cases he' : e' = .value .malformed
    · rw [he, he']
    · obtain ⟨j, rest, hv, hdepth⟩ := h'.named he'
      exact Except.error.inj ((h.fails j rest hv hdepth).symm.trans (h'.fails j rest hv hdepth))
  · obtain ⟨j, rest, hv, hdepth⟩ := h.named he
    exact Except.error.inj ((h.fails j rest hv hdepth).symm.trans (h'.fails j rest hv hdepth))

theorem Spoils.not_standsAt (h : Spoils cs e) : ¬ f.StandsAt cs rest := by
  rintro ⟨j, hv, hdepth, hj⟩
  cases hj.symm.trans (h.fails j rest hv hdepth)

theorem Closes.not_opens (h : Closes cs) : ¬ Opens cs := by
  rintro ⟨c, tail, rfl, -, hbracket, hbrace⟩
  rcases h with h | ⟨d, hd, hc⟩
  · cases h
  · simp_all

theorem Closes.skipBlanks_eq (h : Closes cs) : skipBlanks cs = cs := by
  rcases h with rfl | ⟨c, hc, hcs⟩
  · rfl
  · obtain ⟨tail, rfl⟩ := List.head?_eq_some_iff.mp hcs
    refine Json.skipBlanks_cons ?_
    simp only [List.mem_cons, List.not_mem_nil, or_false] at hc
    rcases hc with rfl | rfl <;> rfl

theorem Spoils.skipBlanks_eq (h : Spoils cs e) : skipBlanks cs = cs := by
  obtain ⟨c, tail, rfl, hblank, -⟩ := h.opens
  exact Json.skipBlanks_cons hblank

/-! ## One function -/

/-- What is left after blanks starts with none. -/
theorem isBlank_of_skipBlanks {c : Char} (h : skipBlanks cs = c :: xs) : isBlank c = false := by
  have hhead := List.head?_dropWhile_not isBlank cs
  rw [← skipBlanks, h] at hhead
  simpa using hhead

/-- Where no value is read, none that could be a function stands. -/
theorem spoils_of_readValue_eq_none (hread : Json.readValue cs = none)
    (hopens : Opens cs) :
    Spoils cs (.value .malformed) := by
  refine ⟨hopens, fun j rest hv hdepth => ?_, fun h => absurd rfl h⟩
  by_contra hj
  rw [readValue_of_ofJson hv hdepth hj] at hread
  cases hread

/-- Where the value that is read is no function, none stands. -/
theorem spoils_of_readValue_eq_some (hread : Json.readValue cs = some (j, rest))
    (hv : Value cs j rest) (hdepth : j.depth ≤ Json.maxDepth) (hj : Draft.ofJson j = .error e) :
    Spoils cs e := by
  refine ⟨hv.opens, fun j' rest' hv' hdepth' => ?_, fun _ => ⟨j, rest, hv, hdepth⟩⟩
  by_cases hj' : Draft.ofJson j' = .error (.value .malformed)
  · -- The value read may be longer than this one, which is then a number.
    by_cases hnum : ∃ literal, j' = .num literal
    · obtain ⟨literal, rfl⟩ := hnum
      obtain ⟨literal', rfl⟩ := hv'.eq_num hv
      exact hj
    · have hread' := hv'.readValue_eq hdepth' fun literal heq => absurd ⟨literal, heq⟩ hnum
      obtain ⟨rfl, -⟩ := Prod.mk.inj (Option.mem_unique hread hread')
      exact hj
  · obtain ⟨rfl, -⟩ := Prod.mk.inj (Option.some.inj (hread.symm.trans
      (readValue_of_ofJson hv' hdepth' hj')))
    exact hj

/-- **What one step of reading does**: it stops, it fails, or it takes the function that stands
there. -/
theorem readFuncsFrom_cases (fuel line : Nat) (cs : List Char) :
    (Closes (skipBlanks cs) ∧ readFuncsFrom (fuel + 1) line cs = ([], none)) ∨
    (∃ e, Spoils (skipBlanks cs) e ∧ readFuncsFrom (fuel + 1) line cs = ([], some ⟨line, e⟩)) ∨
    ∃ f rest, Draft.StandsAt (skipBlanks cs) f rest ∧ readFuncsFrom (fuel + 1) line cs =
      (f :: (readFuncsFrom fuel (line + 1) rest).1, (readFuncsFrom fuel (line + 1) rest).2) := by
  rw [readFuncsFrom]
  split
  · next heq => exact .inl ⟨.inl heq, rfl⟩
  · next heq => exact .inl ⟨.inr ⟨'\x7d', by simp, by rw [heq]; rfl⟩, rfl⟩
  · next heq => exact .inl ⟨.inr ⟨']', by simp, by rw [heq]; rfl⟩, rfl⟩
  · next hnil hbrace hbracket =>
    have hopens : Opens (skipBlanks cs) := by
      obtain ⟨c, tail, heq⟩ := List.exists_cons_of_ne_nil hnil
      exact ⟨c, tail, heq, isBlank_of_skipBlanks heq, fun h => hbracket tail (h ▸ heq),
        fun h => hbrace tail (h ▸ heq)⟩
    split
    · next hread => exact .inr (.inl ⟨_, spoils_of_readValue_eq_none hread hopens, rfl⟩)
    · next j rest hread =>
      obtain ⟨hv, hdepth⟩ := Json.value_of_readValue hread
      rw [Json.skipBlanks_skipBlanks] at hv
      split
      · next hj =>
        exact .inr (.inl ⟨_, spoils_of_readValue_eq_some hread hv hdepth hj, rfl⟩)
      · next f hj => exact .inr (.inr ⟨f, rest, ⟨j, hv, hdepth, hj⟩, rfl⟩)

/-! ## All functions -/

/-- **How a reading that starts at a line ends**, `n` functions later. -/
def ReadingEnds (line n : Nat) (rest : List Char) : Option ReadFailure → Prop
  | none => Closes rest
  | some failure => failure.line = line + n ∧ Spoils rest failure.error

/-- **What is read is listed**, up to where the reading has to end. -/
theorem exists_lists_readFuncsFrom : ∀ (fuel line : Nat) (cs : List Char), cs.length < fuel →
    ∃ rest, Draft.Lists cs (readFuncsFrom fuel line cs).1 rest ∧
      ReadingEnds line (readFuncsFrom fuel line cs).1.length rest (readFuncsFrom fuel line cs).2
  | 0, _, _, h => absurd h (Nat.not_lt_zero _)
  | fuel + 1, line, cs, h => by
    have hb := Json.blanks_skipBlanks cs
    rcases readFuncsFrom_cases fuel line cs with ⟨hcloses, hread⟩ | ⟨e, hspoils, hread⟩ |
      ⟨f, xs, hf, hread⟩
    · rw [hread]
      exact ⟨_, .done hb, hcloses⟩
    · rw [hread]
      exact ⟨_, .done hb, rfl, hspoils⟩
    · rw [hread]
      have hlt := hf.length_lt
      have hle := hb.length_le
      obtain ⟨rest, hlists, hends⟩ := exists_lists_readFuncsFrom fuel (line + 1) xs (by omega)
      refine ⟨rest, .next hb hf hlists, ?_⟩
      cases hfail : (readFuncsFrom fuel (line + 1) xs).2 with
      | none =>
        rw [hfail] at hends
        exact hends
      | some failure =>
        rw [hfail] at hends
        exact ⟨by rw [hends.1, List.length_cons]; omega, hends.2⟩

/-- **What is listed is read**, if the reading has to end after it. -/
theorem Draft.Lists.readFuncsFrom_eq {failure : Option ReadFailure} (h : Draft.Lists cs fs rest) :
    ∀ {fuel line : Nat}, cs.length < fuel → ReadingEnds line fs.length rest failure →
      readFuncsFrom fuel line cs = (fs, failure) := by
  induction h with
  | @done cs rest hb =>
    intro fuel line hfuel hends
    obtain ⟨fuel, rfl⟩ := Nat.exists_eq_add_one.mpr (Nat.zero_lt_of_lt hfuel)
    have hskip : skipBlanks cs = rest := by
      rw [hb.skipBlanks_eq]
      cases failure with
      | none => exact Closes.skipBlanks_eq hends
      | some failure => exact hends.2.skipBlanks_eq
    rcases readFuncsFrom_cases fuel line cs with ⟨hcloses, hread⟩ | ⟨e, hspoils, hread⟩ |
      ⟨f, xs, hf, hread⟩
    · rw [hskip] at hcloses
      cases failure with
      | none => exact hread
      | some failure => exact absurd hends.2.opens hcloses.not_opens
    · rw [hskip] at hspoils
      cases failure with
      | none => exact absurd hspoils.opens (Closes.not_opens hends)
      | some failure =>
        obtain ⟨hline, hspoils'⟩ := hends
        rw [hread, hspoils.unique hspoils', ← show failure.line = line from hline]
    · rw [hskip] at hf
      cases failure with
      | none => exact absurd hf.opens (Closes.not_opens hends)
      | some failure => exact absurd hf hends.2.not_standsAt
  | @next cs ds xs rest f fs hb hf _ ih =>
    intro fuel line hfuel hends
    obtain ⟨fuel, rfl⟩ := Nat.exists_eq_add_one.mpr (Nat.zero_lt_of_lt hfuel)
    have hskip := hf.skipBlanks_eq hb
    rcases readFuncsFrom_cases fuel line cs with ⟨hcloses, -⟩ | ⟨e, hspoils, -⟩ |
      ⟨f', xs', hf', hread⟩
    · rw [hskip] at hcloses
      exact absurd hf.opens hcloses.not_opens
    · rw [hskip] at hspoils
      exact absurd hf hspoils.not_standsAt
    · rw [hskip] at hf'
      obtain ⟨rfl, rfl⟩ := hf.unique hf'
      have hlt := hf.length_lt
      have hle := hb.length_le
      have hends' : ReadingEnds (line + 1) fs.length rest failure := by
        cases failure with
        | none => exact hends
        | some failure =>
          exact ⟨by rw [hends.1, List.length_cons]; omega, hends.2⟩
      rw [hread, ih (by omega) hends']

/-- **Reading gives the functions that a text lists** up to where reading has to end. -/
theorem readFuncs_eq_iff {s : String} {failure : Option ReadFailure} :
    readFuncs s = (fs, failure) ↔
      ∃ rest, Draft.Lists s.toList fs rest ∧ ReadingEnds 1 fs.length rest failure := by
  constructor
  · intro h
    have hread := exists_lists_readFuncsFrom (s.toList.length + 1) 1 s.toList (by omega)
    rw [show readFuncsFrom (s.toList.length + 1) 1 s.toList = (fs, failure) from h] at hread
    exact hread
  · rintro ⟨rest, hlists, hends⟩
    exact hlists.readFuncsFrom_eq (by omega) hends

/-- Where something has to stand and no function does, there is a reason. -/
theorem exists_spoils_iff : (∃ e, Spoils cs e) ↔ Opens cs ∧ ∀ f rest, ¬ Draft.StandsAt cs f rest := by
  constructor
  · rintro ⟨e, h⟩
    exact ⟨h.opens, fun _ _ => h.not_standsAt⟩
  · rintro ⟨hopens, hnone⟩
    have hblank : skipBlanks cs = cs := by
      obtain ⟨c, tail, rfl, hblank, -⟩ := hopens
      exact Json.skipBlanks_cons hblank
    rcases readFuncsFrom_cases 0 0 cs with ⟨hcloses, -⟩ | ⟨e, hspoils, -⟩ | ⟨f, rest, hf, -⟩
    · exact absurd hopens (hblank ▸ hcloses).not_opens
    · exact ⟨e, hblank ▸ hspoils⟩
    · exact absurd (hblank ▸ hf) (hnone f rest)

/-- **Reading takes the functions that stand one after the other in a text.**  It ends without an error
where the text ends and where a bracket or brace closes something, whatever follows that; it fails
where anything else stands that is no function, and numbers it. -/
theorem readFuncs_takes_listed (s : String) (fs : List Draft) :
    (readFuncs s = (fs, none) ↔ ∃ rest, Draft.Lists s.toList fs rest ∧ Closes rest) ∧
    ∀ line, (∃ e, readFuncs s = (fs, some ⟨line, e⟩)) ↔
      line = fs.length + 1 ∧ ∃ rest, Draft.Lists s.toList fs rest ∧ Opens rest ∧
        ∀ f rest', ¬ Draft.StandsAt rest f rest' := by
  refine ⟨readFuncs_eq_iff, fun line => ?_⟩
  simp only [readFuncs_eq_iff, ReadingEnds, ← exists_spoils_iff, Nat.add_comm 1]
  constructor
  · rintro ⟨e, rest, hlists, hline, hspoils⟩
    exact ⟨hline, rest, hlists, e, hspoils⟩
  · rintro ⟨hline, rest, hlists, e, hspoils⟩
    exact ⟨e, rest, hlists, hline, hspoils⟩

/-- The functions of a text and what follows them are determined. -/
theorem Draft.Lists.skipBlanks_unique (h : Draft.Lists cs fs rest) :
    ∀ {rest'}, Draft.Lists cs fs rest' → skipBlanks rest = skipBlanks rest' := by
  induction h with
  | done hb =>
    rintro rest' ⟨hb'⟩
    rw [← hb.skipBlanks_eq, hb'.skipBlanks_eq]
  | next hb hf _ ih =>
    rintro rest' ⟨⟩
    next hb' hf' h' =>
      obtain rfl := (hf.skipBlanks_eq hb).symm.trans (hf'.skipBlanks_eq hb')
      obtain ⟨-, rfl⟩ := hf.unique hf'
      exact ih h'

/-- A function, a bracket that closes nothing, and another function. -/
def strayBracket : String := "\x7b\"name\":\"f\"\x7d]\x7b\"name\":\"g\"\x7d"

/-- **What follows a stray bracket is dropped without an error**, though the text lists no functions
up to its end. -/
theorem readFuncs_strayBracket : readFuncs strayBracket = ([{ func := { name := "f" } }], none) ∧
    ∀ fs, ¬ Draft.Lists strayBracket.toList fs [] := by
  have hread : readFuncs strayBracket = ([{ func := { name := "f" } }], none) := by decide +kernel
  refine ⟨hread, fun fs hfs => ?_⟩
  have hall : readFuncs strayBracket = (fs, none) := readFuncs_eq_iff.mpr ⟨[], hfs, .inl rfl⟩
  obtain ⟨rfl, -⟩ := Prod.mk.inj (hall.symm.trans hread)
  have htext : strayBracket.toList = (Json.obj [("name", .str "f")]).chars ++
      ']' :: "\x7b\"name\":\"g\"\x7d".toList := by decide +kernel
  have hjson : (Json.obj [("name", .str "f")]).Integral := .obj fun m hm =>
    List.mem_singleton.mp hm ▸ .str "f"
  have hstops : Json.Stops (']' :: "\x7b\"name\":\"g\"\x7d".toList) := Json.stops_cons (by simp)
  have hvalue := hjson.readValue_chars (by decide) hstops
  obtain ⟨hv, hdepth⟩ := Json.value_of_readValue (htext ▸ hvalue)
  have hstands : Draft.StandsAt (skipBlanks strayBracket.toList) { func := { name := "f" } } _ :=
    ⟨_, hv, hdepth, by decide +kernel⟩
  have hlists : Draft.Lists strayBracket.toList [{ func := { name := "f" } }] _ :=
    .next (Json.blanks_skipBlanks _) hstands (.done .done)
  cases hlists.skipBlanks_unique hfs

end Deflatten
