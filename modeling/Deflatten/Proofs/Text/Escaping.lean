import Deflatten.Text.Escape
import Mathlib.Data.List.Basic

/-!
# Proofs/Text/Escaping — escaped text is safe and can be read back

No entity holds a character that is replaced after its own, so replacing the markup characters one
after the other is replacing all of them at once (`escapeChars_eq_flatMap`).  In what comes of it an
ampersand stands only where an entity starts, and `Markup.unescape`, which goes through a text once
and puts the characters back, gives the text that was escaped.
-/

namespace Deflatten.Markup

variable {c x : Char} {cs before after : List Char} {e e' : Char × List Char}
  {es : List (Char × List Char)}

/-! ## One after the other, and all at once -/

/-- What is written for a character, by the entry that a table has for it. -/
def written : List (Char × List Char) → Char → List Char
  | [], c => [c]
  | e :: es, c => if c = e.1 then e.2 else written es c

theorem written_cases (es : List (Char × List Char)) (c : Char) :
    (∃ e ∈ es, e.1 = c ∧ written es c = e.2) ∨ (∀ e ∈ es, c ≠ e.1) ∧ written es c = [c] := by
  induction es with
  | nil => exact .inr ⟨by simp, rfl⟩
  | cons e es ih =>
    rw [written]
    split
    · next hc => exact .inl ⟨e, by simp, hc.symm, rfl⟩
    · next hc =>
      rcases ih with ⟨e', he', hkey, heq⟩ | ⟨hne, heq⟩
      · exact .inl ⟨e', by simp [he'], hkey, heq⟩
      · exact .inr ⟨List.forall_mem_cons.mpr ⟨hc, hne⟩, heq⟩

/-- What is put in for a character is left alone by the replacements after it. -/
theorem written_cons (h : ∀ e' ∈ es, e'.1 ∉ e.2) (c : Char) :
    written (e :: es) c = (if c = e.1 then e.2 else [c]).flatMap (written es) := by
  rw [written]
  split
  · have hkept : ∀ x ∈ e.2, written es x = [x] := by
      intro x hx
      rcases written_cases es x with ⟨e', he', hkey, -⟩ | ⟨-, heq⟩
      · exact absurd (hkey ▸ hx) (h e' he')
      · exact heq
    rw [List.flatMap_congr hkept, List.flatMap_singleton']
  · rw [List.flatMap_singleton]

/-- **Replacing in turn is replacing at once** if nothing that is put in holds a character that is
replaced later. -/
theorem foldl_replaceAll (h : es.Pairwise fun e e' => e'.1 ∉ e.2) (cs : List Char) :
    es.foldl (fun cs e => replaceAll e.1 e.2 cs) cs = cs.flatMap (written es) := by
  induction es generalizing cs with
  | nil => exact (List.flatMap_singleton' cs).symm
  | cons e es ih =>
    obtain ⟨hfirst, hrest⟩ := List.pairwise_cons.mp h
    rw [List.foldl_cons, ih hrest, replaceAll, List.flatMap_assoc]
    exact List.flatMap_congr fun c _ => (written_cons hfirst c).symm

theorem escapeChars_eq_flatMap (cs : List Char) : escapeChars cs = cs.flatMap (written entities) :=
  foldl_replaceAll (by decide) cs

theorem escapeChars_cons (c : Char) (cs : List Char) :
    escapeChars (c :: cs) = written entities c ++ escapeChars cs := by
  rw [escapeChars_eq_flatMap, escapeChars_eq_flatMap, List.flatMap_cons]

/-! ## The entities -/

/-- An entity starts with an ampersand and holds no markup character behind it. -/
theorem exists_of_mem_entities (h : e ∈ entities) :
    ∃ tail, e.2 = '&' :: tail ∧ ∀ e' ∈ entities, e'.1 ∉ tail := by
  have hall : ∀ e ∈ entities, e.2 = '&' :: e.2.tail ∧ ∀ e' ∈ entities, e'.1 ∉ e.2.tail := by decide
  exact ⟨_, hall e h⟩

/-- No entity starts with another. -/
theorem eq_of_isPrefix (h : e ∈ entities) (h' : e' ∈ entities) (hle : e.2 <+: e'.2) : e = e' := by
  have hall : ∀ e ∈ entities, ∀ e' ∈ entities, e.2 <+: e'.2 → e = e' := by decide
  exact hall e h e' h' hle

theorem ampersand_mem : ('&', ['&', 'a', 'm', 'p', ';']) ∈ entities := by decide

/-- **Nothing but ampersands is left of the markup characters.** -/
theorem eq_or_ne_of_mem_escapeChars (h : x ∈ escapeChars cs) : x = '&' ∨ ∀ e ∈ entities, x ≠ e.1 := by
  rw [escapeChars_eq_flatMap] at h
  obtain ⟨c, -, hx⟩ := List.mem_flatMap.mp h
  rcases written_cases entities c with ⟨e, he, -, heq⟩ | ⟨hne, heq⟩
  · obtain ⟨tail, htail, hfree⟩ := exists_of_mem_entities he
    rw [heq, htail] at hx
    exact (List.mem_cons.mp hx).imp_right fun hx e' he' hkey => hfree e' he' (hkey ▸ hx)
  · rw [heq] at hx
    exact .inr (List.mem_singleton.mp hx ▸ hne)

/-- In what is written for a character an ampersand stands in front, and starts an entity. -/
theorem eq_nil_of_written (h : written entities c = before ++ '&' :: after) :
    before = [] ∧ ∃ e ∈ entities, e.2 = '&' :: after := by
  rcases written_cases entities c with ⟨e, he, -, heq⟩ | ⟨hne, heq⟩
  · obtain ⟨tail, htail, hfree⟩ := exists_of_mem_entities he
    rw [heq] at h
    cases before with
    | nil => exact ⟨rfl, e, he, h⟩
    | cons y before =>
      rw [htail] at h
      have htail : '&' ∈ tail := (List.cons.inj h).2 ▸ by simp
      exact absurd htail (hfree _ ampersand_mem)
  · have hmem : '&' ∈ [c] := heq ▸ h ▸ by simp
    exact absurd (List.mem_singleton.mp hmem).symm (hne _ ampersand_mem)

/-- **Every ampersand of an escaped text starts an entity.** -/
theorem exists_entity_of_escapeChars (h : escapeChars cs = before ++ '&' :: after) :
    ∃ e ∈ entities, e.2 <+: '&' :: after := by
  induction cs generalizing before with
  | nil => simp [escapeChars_eq_flatMap] at h
  | cons c cs ih =>
    rw [escapeChars_cons] at h
    rcases List.append_eq_append_iff.mp h with ⟨between, -, hrest⟩ | ⟨between, hfirst, hrest⟩
    · exact ih hrest
    · cases between with
      | nil =>
        have hnil : escapeChars cs = [] ++ '&' :: after := hrest.symm
        exact ih hnil
      | cons y between =>
        -- the ampersand is in what was written for `c`
        obtain ⟨rfl, hafter⟩ := List.cons.inj hrest
        obtain ⟨-, e, he, heq⟩ := eq_nil_of_written hfirst
        exact ⟨e, he, heq ▸ hafter ▸ List.prefix_append ('&' :: between) _⟩

/-! ## Back again -/

/-- Goes through a text from left to right: an entity gives its character, and the rest of it is
passed over. -/
def unescapeFrom : (skip : Nat) → List Char → List Char
  | _, [] => []
  | skip + 1, _ :: cs => unescapeFrom skip cs
  | 0, c :: cs =>
    match entities.find? fun e => e.2.isPrefixOf (c :: cs) with
    | some e => e.1 :: unescapeFrom (e.2.length - 1) cs
    | none => c :: unescapeFrom 0 cs

/-- **A text with its entities replaced by the characters they stand for.** -/
def unescape (s : String) : String := String.ofList (unescapeFrom 0 s.toList)

theorem unescapeFrom_length (tail cs : List Char) :
    unescapeFrom tail.length (tail ++ cs) = unescapeFrom 0 cs := by
  induction tail with
  | nil => rfl
  | cons c tail ih => rw [List.length_cons, List.cons_append, unescapeFrom, ih]

theorem unescapeFrom_entity (he : e ∈ entities) (cs : List Char) :
    unescapeFrom 0 (e.2 ++ cs) = e.1 :: unescapeFrom 0 cs := by
  have hfind : (entities.find? fun e' => e'.2.isPrefixOf (e.2 ++ cs)) = some e := by
    cases hfind : entities.find? fun e' => e'.2.isPrefixOf (e.2 ++ cs) with
    | none => simpa using List.find?_eq_none.mp hfind e he
    | some e' =>
      have he' := List.mem_of_find?_eq_some hfind
      have hle := List.find?_some hfind
      rw [List.isPrefixOf_iff_prefix] at hle
      rcases List.prefix_or_prefix_of_prefix hle (List.prefix_append e.2 cs) with hle | hle
      · rw [eq_of_isPrefix he' he hle]
      · rw [eq_of_isPrefix he he' hle]
  obtain ⟨tail, htail, -⟩ := exists_of_mem_entities he
  rw [htail, List.cons_append] at hfind ⊢
  rw [unescapeFrom, hfind]
  simp only [htail, List.length_cons, Nat.add_sub_cancel, unescapeFrom_length]

theorem unescapeFrom_plain (hc : ∀ e ∈ entities, c ≠ e.1) (cs : List Char) :
    unescapeFrom 0 (c :: cs) = c :: unescapeFrom 0 cs := by
  have hnone : (entities.find? fun e => e.2.isPrefixOf (c :: cs)) = none := by
    refine List.find?_eq_none.mpr fun e he hle => ?_
    obtain ⟨tail, htail, -⟩ := exists_of_mem_entities he
    rw [htail] at hle
    exact hc _ ampersand_mem (List.cons_prefix_cons.mp (List.isPrefixOf_iff_prefix.mp hle)).1.symm
  rw [unescapeFrom, hnone]

/-- **What was escaped is read back.** -/
theorem unescapeFrom_escapeChars (cs : List Char) : unescapeFrom 0 (escapeChars cs) = cs := by
  induction cs with
  | nil => rfl
  | cons c cs ih =>
    rw [escapeChars_cons]
    rcases written_cases entities c with ⟨e, he, hkey, heq⟩ | ⟨hne, heq⟩
    · rw [heq, unescapeFrom_entity he, hkey, ih]
    · rw [heq, List.singleton_append, unescapeFrom_plain hne, ih]

theorem toList_escape (s : String) : (escape s).toList = escapeChars s.toList :=
  String.toList_ofList

theorem unescape_escape (s : String) : unescape (escape s) = s := by
  rw [unescape, toList_escape, unescapeFrom_escapeChars, String.ofList_toList]

/-- **Escaping is safe and can be undone**: an escaped text holds no angle bracket and no quote,
every ampersand in it starts one of the four entities, putting the characters back gives the text
that was escaped, and so no two texts are escaped alike. -/
theorem escape_safe (s : String) :
    (∀ c ∈ ['<', '>', '"'], c ∉ (escape s).toList) ∧
      (∀ before after, (escape s).toList = before ++ '&' :: after →
        ∃ name ∈ ["amp;", "lt;", "gt;", "quot;"], name.toList <+: after) ∧
      unescape (escape s) = s ∧ Function.Injective escape := by
  refine ⟨fun c hc hmem => ?_, fun before after h => ?_, unescape_escape s, fun s t h => ?_⟩
  · rw [toList_escape] at hmem
    have hkey : c ≠ '&' ∧ ∃ e ∈ entities, c = e.1 := by
      simp only [List.mem_cons, List.not_mem_nil, or_false] at hc
      rcases hc with rfl | rfl | rfl <;> decide
    obtain ⟨e, he, heq⟩ := hkey.2
    exact (eq_or_ne_of_mem_escapeChars hmem).elim hkey.1 fun hne => hne e he heq
  · rw [toList_escape] at h
    obtain ⟨e, he, hle⟩ := exists_entity_of_escapeChars h
    have hname : ∀ e ∈ entities, ∃ name ∈ ["amp;", "lt;", "gt;", "quot;"],
        e.2 = '&' :: name.toList := by decide
    obtain ⟨name, hmem, heq⟩ := hname e he
    exact ⟨name, hmem, (List.cons_prefix_cons.mp (heq ▸ hle)).2⟩
  · rw [← unescape_escape s, h, unescape_escape t]

/-- The ampersand of what looks like an entity is escaped like any other. -/
theorem escape_safe_nested : escape "&lt;\"" = "&amp;lt;&quot;" ∧
    '"' ∉ "&amp;lt;&quot;".toList ∧
    (∃ name ∈ ["amp;", "lt;", "gt;", "quot;"], name.toList <+: "quot;".toList) ∧
    unescape "&amp;lt;&quot;" = "&lt;\"" := by
  have heq : escape "&lt;\"" = "&amp;lt;&quot;" := by decide +kernel
  obtain ⟨hfree, hstart, hback, -⟩ := escape_safe "&lt;\""
  rw [heq] at hfree hstart hback
  exact ⟨heq, hfree '"' (by simp), hstart "&amp;lt;".toList _ (by decide +kernel), hback⟩

end Deflatten.Markup
