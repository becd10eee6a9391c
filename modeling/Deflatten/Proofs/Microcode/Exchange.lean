import Deflatten.Microcode.Exchange
import Deflatten.Proofs.Editing.Mutations
import Deflatten.Proofs.Json.RoundTrip
import Mathlib.Algebra.Group.Int.Defs

/-!
# Proofs/Microcode/Exchange — functions are read back from their lines

What is left out of a record is what a fresh record has, so reading the members that were written
gives the record again: fields, then operands with the instructions nested in them, then blocks and
functions.  Edges are not written, and rebuilding them writes the ones the function would get
(`readFuncs_writeFuncs`).
-/

namespace Deflatten

/-! ## Ranges -/

/-- A signed integer of 64 bits. -/
def IsInt64 (i : Int) : Prop := -(2 ^ 63) ≤ i ∧ i < 2 ^ 63

instance : DecidablePred IsInt64 := fun _ => inferInstanceAs (Decidable (_ ∧ _))

/-- The integers among plain fields are of 64 bits. -/
def Fields.InRange (f : Fields) : Prop := ∀ i ∈ [f.size, f.reg, f.off, f.block], IsInt64 i

instance : DecidablePred Fields.InRange := fun f =>
  inferInstanceAs (Decidable (∀ i ∈ [f.size, f.reg, f.off, f.block], IsInt64 i))

/-- **The integers of an operand are of 64 bits**, those of a nested instruction included. -/
def Operand.InRange : Operand → Prop
  | .plain f => f.InRange
  | .nested f _ l r d => f.InRange ∧ l.InRange ∧ r.InRange ∧ d.InRange

/-- Whether they are is decided operand by operand. -/
def Operand.decideInRange : (o : Operand) → Decidable o.InRange
  | .plain f => inferInstanceAs (Decidable f.InRange)
  | .nested f _ l r d =>
    have := l.decideInRange
    have := r.decideInRange
    have := d.decideInRange
    inferInstanceAs (Decidable (f.InRange ∧ l.InRange ∧ r.InRange ∧ d.InRange))

instance : DecidablePred Operand.InRange := Operand.decideInRange

/-- The integers of a block are of 64 bits. -/
def Block.InRange (b : Block) : Prop :=
  IsInt64 b.serial ∧ IsInt64 b.next ∧ ∀ i ∈ b.insns, ∀ o ∈ [i.l, i.r, i.d], o.InRange

instance : DecidablePred Block.InRange := fun _ => inferInstanceAs (Decidable (_ ∧ _ ∧ _))

/-- **The integers of a function are of 64 bits.** -/
def Func.InRange (f : Func) : Prop := ∀ b ∈ f.blocks, b.InRange

instance : DecidablePred Func.InRange := fun f =>
  inferInstanceAs (Decidable (∀ b ∈ f.blocks, b.InRange))

/-! ## Single values -/

namespace Json

theorem integer?_decimalChars (i : Int) : integer? (Text.decimalChars i) = some i := by
  have hread := Text.readDecimal?_decimalDigits i.natAbs
  unfold Text.decimalChars
  split
  · have habs : -(i.natAbs : Int) = i := by omega
    rw [integer?, hread]
    exact congrArg some habs
  · have habs : (i.natAbs : Int) = i := by omega
    have hminus : ∀ ds, Text.decimalDigits i.natAbs = '-' :: ds → False := by
      intro ds hds
      have := Text.isDigit_of_mem_decimalDigits (n := i.natAbs) (c := '-') (by simp [hds])
      simp at this
    rw [integer?.eq_2 _ hminus, hread]
    exact congrArg some habs

theorem readInt_int {i : Int} (h : IsInt64 i) (cur : Int) : readInt cur (int i) = .ok i := by
  have hfits : Text.isInt64 i = true := by
    obtain ⟨hlow, hhigh⟩ := h
    simp only [Text.isInt64, Bool.and_eq_true, decide_eq_true_eq]
    omega
  have hfilter : (some i).filter Text.isInt64 = some i := by simp [Option.filter, hfits]
  rw [int, readInt, integer?_decimalChars, hfilter]
  rfl

theorem readWord_nat (w cur : UInt64) : readWord cur (nat w.toNat) = .ok w := by
  have hfits : w.toNat < UInt64.size := w.toNat_lt
  simp [nat, readWord, Option.filter, hfits, pure, Except.pure]

theorem nat_eq_int (n : Nat) : nat n = int n := by
  simp [nat, int, Text.decimalChars]

end Json

/-! ## Members -/

/-- A member that may be left out leaves what is there where it is. -/
theorem readMembersInto_memberUnless {α : Type}
    {readMember : α → String → Json → Reading α} {absent : Bool} {name : String} {j : Json}
    {ms : List (String × Json)} {cur next : α}
    (habsent : absent = true → next = cur) (hread : readMember cur name j = .ok next) :
    readMembersInto readMember cur (memberUnless absent name j ++ ms) =
      readMembersInto readMember next ms := by
  cases absent with
  | true => rw [habsent rfl]; rfl
  | false => simp [memberUnless, readMembersInto, hread, bind, Except.bind]

/-- One member of an operand, by its name. -/
abbrev Operand.readNamed (o : Operand) (name : String) (j : Json) : Reading Operand :=
  o.readMember (name, j)

/-- One member of an instruction, by its name. -/
abbrev Insn.readNamed (i : Insn) (name : String) (j : Json) : Reading Insn :=
  i.readMember (name, j)

theorem Operand.readInto_obj (cur : Operand) (ms : List (String × Json)) :
    cur.readInto (.obj ms) = readMembersInto readNamed cur ms := by
  rw [readInto]
  induction ms generalizing cur with
  | nil => rw [readMembers, readMembersInto]
  | cons m ms ih =>
    rw [readMembers, readMembersInto]
    change _ = (cur.readMember m).bind fun cur => readMembersInto readNamed cur ms
    cases cur.readMember m with
    | error e => rfl
    | ok o => exact ih o

theorem Insn.readInto_obj (cur : Insn) (ms : List (String × Json)) :
    cur.readInto (.obj ms) = readMembersInto readNamed cur ms := by
  rw [readInto]
  induction ms generalizing cur with
  | nil => rw [readMembers, readMembersInto]
  | cons m ms ih =>
    rw [readMembers, readMembersInto]
    change _ = (cur.readMember m).bind fun cur => readMembersInto readNamed cur ms
    cases cur.readMember m with
    | error e => rfl
    | ok o => exact ih o

/-! ## Operands and instructions -/

/-- **Every field is read back into its place.** -/
theorem Fields.readMember?_written {f : Fields} (hf : f.InRange) (g : Fields) :
    g.readMember? "t" (.str f.kind.name) = some (.ok { g with kind := f.kind }) ∧
      g.readMember? "size" (.int f.size) = some (.ok { g with size := f.size }) ∧
      g.readMember? "value" (.nat f.value.toNat) = some (.ok { g with value := f.value }) ∧
      g.readMember? "reg" (.int f.reg) = some (.ok { g with reg := f.reg }) ∧
      g.readMember? "off" (.int f.off) = some (.ok { g with off := f.off }) ∧
      g.readMember? "addr" (.nat f.addr.toNat) = some (.ok { g with addr := f.addr }) ∧
      g.readMember? "name" (.str f.name) = some (.ok { g with name := f.name }) ∧
      g.readMember? "block" (.int f.block) = some (.ok { g with block := f.block }) := by
  have hint : ∀ i ∈ [f.size, f.reg, f.off, f.block], ∀ cur, Json.readInt cur (.int i) = .ok i :=
    fun i hi => Json.readInt_int (hf i hi)
  simp +decide [Fields.readMember?, Json.readName, Json.readString, Json.readWord_nat, hint,
    Functor.map, Except.map, pure, Except.pure]

/-- A plain field that may be left out is read into the fields of an operand. -/
theorem Operand.readMembersInto_field {o : Operand} {absent : Bool} {name : String} {j : Json}
    {g : Fields} {ms : List (String × Json)} (hname : Json.sameName name "expr" = false)
    (habsent : absent = true → g = o.fields) (h : o.fields.readMember? name j = some (.ok g)) :
    readMembersInto readNamed o (memberUnless absent name j ++ ms) =
      readMembersInto readNamed (o.withFields g) ms := by
  refine readMembersInto_memberUnless (fun ha => ?_) ?_
  · rw [habsent ha]
    cases o <;> rfl
  · have hname : ¬ Json.sameName name "expr" = true := by simp [hname]
    cases j <;>
    · refine (if_neg hname).trans ?_
      rw [h]
      rfl

/-- A nested instruction is read into an operand that has none. -/
theorem Operand.readNamed_expr {f : Fields} {ms : List (String × Json)} {i : Insn}
    (h : Insn.readInto {} (.obj ms) = .ok i) :
    (Operand.plain f).readNamed "expr" (.obj ms) = .ok (.nested f i.op i.l i.r i.d) := by
  have heq : (Operand.plain f).readNamed "expr" (.obj ms) =
      (Insn.readInto {} (.obj ms)).map fun i => (Operand.plain f).withExpr (some i) := rfl
  rw [heq, h]
  rfl

variable {f : Fields}

/-- The members of an operand are read back, up to the nested instruction. -/
theorem Operand.readMembersInto_members (hf : f.InRange) (expr : List (String × Json)) :
    readMembersInto readNamed .empty (f.members expr) =
      readMembersInto readNamed (.plain { f with block := 0 })
        (expr ++ memberUnless (f.block = 0) "block" (.int f.block)) := by
  have hread := Fields.readMember?_written hf
  have field : ∀ {absent : Bool} {name : String} {j : Json} {ms : List (String × Json)} {g : Fields}
      (g' : Fields), Json.sameName name "expr" = false → (absent = true → g' = g) →
      g.readMember? name j = some (.ok g') →
      readMembersInto readNamed (.plain g) (memberUnless absent name j ++ ms) =
        readMembersInto readNamed (.plain g') ms :=
    fun g' hname habsent h => readMembersInto_field hname habsent h
  have hmembers : f.members expr = memberUnless false "t" (.str f.kind.name) ++
      (f.members expr).tail := rfl
  rw [hmembers]
  simp only [Fields.members, List.append_assoc, List.cons_append, List.tail_cons]
  rw [empty, field ⟨f.kind, 0, 0, 0, 0, 0, "", 0⟩ rfl (by simp) (hread _).1,
    field ⟨f.kind, f.size, 0, 0, 0, 0, "", 0⟩ rfl (by simp) (hread _).2.1,
    field ⟨f.kind, f.size, f.value, 0, 0, 0, "", 0⟩ rfl (by simp) (hread _).2.2.1,
    field ⟨f.kind, f.size, f.value, f.reg, 0, 0, "", 0⟩ rfl (by simp) (hread _).2.2.2.1,
    field ⟨f.kind, f.size, f.value, f.reg, f.off, 0, "", 0⟩ rfl (by simp) (hread _).2.2.2.2.1,
    field ⟨f.kind, f.size, f.value, f.reg, f.off, f.addr, "", 0⟩ rfl (by simp)
      (hread _).2.2.2.2.2.1,
    field ⟨f.kind, f.size, f.value, f.reg, f.off, f.addr, f.name, 0⟩ rfl (by simp)
      (hread _).2.2.2.2.2.2.1]

/-- The last field, which comes after the nested instruction, is read back. -/
theorem Operand.readMembersInto_block {o : Operand} (hf : f.InRange)
    (ho : o.fields = { f with block := 0 }) :
    readMembersInto readNamed o (memberUnless (f.block = 0) "block" (.int f.block)) =
      .ok (o.withFields f) := by
  have hread := (Fields.readMember?_written hf o.fields).2.2.2.2.2.2.2
  rw [ho] at hread
  rw [← List.append_nil (memberUnless _ _ _),
    readMembersInto_field (g := f) rfl (fun h => ?_) (ho ▸ hread), readMembersInto]
  · rfl
  · rw [ho, ← of_decide_eq_true h]

/-- An instruction is read back from its members, if its operands are. -/
theorem Insn.readInto_insnMembers (op : Opcode) {l r d : Operand}
    (h : ∀ o ∈ [l, r, d], Operand.readInto .empty o.toJson = .ok o) :
    Insn.readInto {} (.obj (insnMembers op (l = .empty, l.toJson) (r = .empty, r.toJson)
      (d = .empty, d.toJson))) = .ok ⟨op, l, r, d⟩ := by
  have hop : readNamed {} "op" (.str op.name) = .ok ⟨op, .empty, .empty, .empty⟩ := by
    simp +decide [readMember, Json.readName, Functor.map, Except.map, pure, Except.pure]
  have hl : readNamed ⟨op, .empty, .empty, .empty⟩ "l" l.toJson = .ok ⟨op, l, .empty, .empty⟩ := by
    simp +decide [readMember, h l, Functor.map, Except.map]
  have hr : readNamed ⟨op, l, .empty, .empty⟩ "r" r.toJson = .ok ⟨op, l, r, .empty⟩ := by
    simp +decide [readMember, h r, Functor.map, Except.map]
  have hd : readNamed ⟨op, l, r, .empty⟩ "d" d.toJson = .ok ⟨op, l, r, d⟩ := by
    simp +decide [readMember, h d, Functor.map, Except.map]
  have hmembers : insnMembers op (l = .empty, l.toJson) (r = .empty, r.toJson)
      (d = .empty, d.toJson) = memberUnless false "op" (.str op.name) ++
        (memberUnless (l = .empty) "l" l.toJson ++ (memberUnless (r = .empty) "r" r.toJson ++
          (memberUnless (d = .empty) "d" d.toJson ++ []))) := by
    simp [insnMembers, memberUnless]
  rw [readInto_obj, hmembers, readMembersInto_memberUnless (by simp) hop,
    readMembersInto_memberUnless (by simp) hl, readMembersInto_memberUnless (by simp) hr,
    readMembersInto_memberUnless (by simp) hd, readMembersInto]
  rfl

/-- **An operand is read back**, with the instructions nested in it. -/
theorem Operand.readInto_toJson (o : Operand) (ho : o.InRange) :
    Operand.readInto .empty o.toJson = .ok o := by
  induction o with
  | plain f =>
    rw [toJson, readInto_obj, readMembersInto_members ho, List.nil_append]
    exact readMembersInto_block ho rfl
  | nested f op l r d ihl ihr ihd =>
    obtain ⟨hf, hl, hr, hd⟩ := ho
    have hinsn := Insn.readInto_insnMembers op (l := l) (r := r) (d := d)
      (by simp [ihl hl, ihr hr, ihd hd])
    rw [toJson, readInto_obj, readMembersInto_members hf, List.singleton_append, readMembersInto,
      readNamed_expr hinsn]
    exact readMembersInto_block hf rfl

/-- **An instruction is read back.** -/
theorem Insn.readInto_toJson (i : Insn) (hi : ∀ o ∈ [i.l, i.r, i.d], o.InRange) :
    Insn.readInto {} i.toJson = .ok i :=
  readInto_insnMembers i.op fun o ho => o.readInto_toJson (hi o ho)

/-! ## Blocks and functions -/

section Lists

variable {α β : Type} {fresh : α} {readInto : α → Json → Reading α} {toJson : β → Json}
  {record : β → α}

/-- A list that was read into nothing. -/
def Slots.ofList? (record : β → α) (l : Option (List β)) : Slots α :=
  { shown := l.map fun xs => xs.map fun x => some (record x) }

theorem Slots.elems_ofList? (l : Option (List β)) :
    (ofList? record l).elems = (l.getD []).map fun x => some (record x) := by
  cases l <;> rfl

theorem readElems_map {xs : List β} (h : ∀ x ∈ xs, (∃ ms, toJson x = .obj ms) ∧
    readInto fresh (toJson x) = .ok (record x)) :
    Slots.readElems fresh readInto [] (xs.map toJson) = .ok (xs.map fun x => some (record x)) := by
  induction xs with
  | nil => rfl
  | cons x xs ih =>
    obtain ⟨⟨ms, hms⟩, hread⟩ := h x (by simp)
    rw [hms] at hread
    have ih := ih fun y hy => h y (by simp [hy])
    simp only [List.map_cons, Slots.readElems, hms, List.head?_nil, Option.bind_none,
      Option.getD_none, hread, List.tail_nil]
    rw [ih]
    rfl

/-- **A list that may never have been set is read back**, record by record. -/
theorem readInto_ofList? {l : Option (List β)} (h : ∀ x ∈ l.getD [], (∃ ms, toJson x = .obj ms) ∧
    readInto fresh (toJson x) = .ok (record x)) :
    Slots.readInto fresh readInto {} (Json.ofList? toJson l) = .ok (Slots.ofList? record l) := by
  cases l with
  | none => rfl
  | some xs =>
    cases xs with
    | nil => rfl
    | cons x xs =>
      have hread : Slots.readElems fresh readInto [] ((x :: xs).map toJson) = _ := readElems_map h
      rw [List.map_cons] at hread
      rw [Json.ofList?, List.map_cons, Slots.readInto]
      · simp only [Slots.elems, Option.getD_none, List.append_nil, hread]
        rfl
      · simp

end Lists

/-- The record a block is read as. -/
def Block.record (b : Block) : BlockRecord :=
  { serial := b.serial, insns := .ofList? id b.code, next := b.next }

/-- **A block is read back**, without its edges. -/
theorem Block.readObject_toJson {b : Block} (hb : b.InRange) :
    readObject BlockRecord.readMember {} b.toJson = .ok b.record := by
  obtain ⟨hserial, hnext, hcode⟩ := hb
  have hinsns : Slots.readInto {} Insn.readInto {} (Json.ofList? Insn.toJson b.code) =
      .ok (.ofList? id b.code) :=
    readInto_ofList? fun i hi => ⟨⟨_, rfl⟩, i.readInto_toJson (hcode i hi)⟩
  simp +decide [toJson, readObject, readMembersInto, BlockRecord.readMember, hinsns,
    Json.readInt_int hserial, Json.readInt_int hnext, Functor.map, Except.map, bind, Except.bind,
    pure, Except.pure, record]

theorem Block.gaps_record (b : Block) : b.record.gaps = [] := by
  rw [BlockRecord.gaps, record, Slots.elems_ofList?, List.map_eq_nil_iff, List.filter_eq_nil_iff]
  rintro ⟨x, k⟩ hx
  have hmem := List.mem_map.mp (List.fst_mem_of_mem_zipIdx hx)
  obtain ⟨i, -, rfl⟩ := hmem
  simp

theorem Block.outline_record (b : Block) : b.record.outline = b.bare := by
  cases hcode : b.code <;>
    simp [record, BlockRecord.outline, bare, Slots.ofList?, hcode, Function.comp_def]

namespace Func

variable {f g : Func}

/-- The function without its edges. -/
def bare (f : Func) : Func := f.mapBlocks fun _ => Block.bare

theorem blocks_bare (f : Func) : f.bare.blocks = f.blocks.map Block.bare := by
  rw [bare, blocks_mapBlocks]
  exact List.ext_getElem? fun i => by simp

theorem mapBlocks_mapBlocks (f : Func) (u v : Nat → Block → Block) :
    (f.mapBlocks u).mapBlocks v = f.mapBlocks fun i b => v i (u i b) := by
  cases hbody : f.body <;> simp [mapBlocks, hbody, List.mapIdx_mapIdx, Function.comp_def]

theorem mapBlocks_congr {u v : Nat → Block → Block}
    (h : ∀ i b, f.blocks[i]? = some b → u i b = v i b) : f.mapBlocks u = f.mapBlocks v := by
  cases hbody : f.body with
  | none => simp [mapBlocks, hbody]
  | some bs =>
    have hblocks : bs.mapIdx u = bs.mapIdx v := by
      refine List.ext_getElem? fun i => ?_
      cases hi : bs[i]? with
      | none => simp [hi]
      | some b => simp [hi, h i b (by simp [blocks, hbody, hi])]
    simp [mapBlocks, hbody, hblocks]

theorem checkPlaces_record (fn : String) {bs : List Block} {k : Nat}
    (h : firstMisplaced? k bs = none) :
    checkPlaces fn k (bs.map fun b => some b.record) = .ok () := by
  induction bs generalizing k with
  | nil => rfl
  | cons b bs ih =>
    rw [firstMisplaced?] at h
    split at h
    · next hserial =>
      have hrecord : b.record.serial = k := hserial
      simp [checkPlaces, hrecord, ih h]
    · cases h

theorem firstMisplaced?_map_bare (k : Nat) (bs : List Block) :
    firstMisplaced? k (bs.map Block.bare) = firstMisplaced? k bs := by
  induction bs generalizing k with
  | nil => rfl
  | cons b bs ih =>
    rw [List.map_cons, firstMisplaced?, firstMisplaced?, ih]
    rfl

theorem succsOf_bare (f : Func) (b : Block) : f.bare.succsOf b.bare = f.succsOf b := by
  have hserial : ∀ s, f.bare.hasSerial s = f.hasSerial s := fun s => by
    simp [hasSerial, blocks_bare]
  have htargets : b.bare.targets f.bare.name = b.targets f.name := rfl
  simp only [succsOf, hserial, htargets]
  rfl

theorem succLists_bare (f : Func) (bs : List Block) :
    f.bare.succLists (bs.map Block.bare) = f.succLists bs := by
  induction bs with
  | nil => rfl
  | cons b bs ih => simp only [List.map_cons, succLists, succsOf_bare, ih]

theorem length_succLists {bs : List Block} {lists : List (List Int)}
    (h : f.succLists bs = (lists, none)) : lists.length = bs.length := by
  induction bs generalizing lists with
  | nil =>
    obtain ⟨rfl, -⟩ := Prod.mk.inj h
    rfl
  | cons b bs ih =>
    rw [succLists] at h
    split at h
    · cases h
    · cases hrest : f.succLists bs with
      | mk rest e =>
        rw [hrest] at h
        obtain ⟨rfl, rfl⟩ := Prod.mk.inj h
        simp [ih hrest]

/-- **Rebuilding the edges does not look at them**, and leaves the rest as it is. -/
theorem rebuildEdges_bare (h : rebuildEdges f = .ok () g) :
    rebuildEdges f.bare = .ok () g ∧ g.bare = f.bare := by
  unfold rebuildEdges at h ⊢
  rw [blocks_bare, firstMisplaced?_map_bare, succLists_bare]
  split at h
  · cases h
  · next hplaced =>
    split at h
    · next lists hlists =>
      cases h
      have hedges : f.bare.withEdges lists = f.withEdges lists := by
        rw [withEdges, bare, mapBlocks_mapBlocks]
        refine mapBlocks_congr fun i b hb => ?_
        have hi : i < lists.length := by
          rw [length_succLists hlists]
          exact (List.getElem?_eq_some_iff.mp hb).1
        simp [Block.bare, hi]
      refine ⟨?_, ?_⟩
      · rw [hedges]
      · rw [bare, withEdges, mapBlocks_mapBlocks]
        exact mapBlocks_congr fun _ _ _ => rfl
    · cases h

/-- The record a function is read as. -/
def record (f : Func) : FuncRecord := ⟨f.name, f.maturity, .ofList? Block.record f.body⟩

theorem gaps_record (f : Func) : f.record.gaps = [] := by
  rw [FuncRecord.gaps, record, Slots.elems_ofList?, List.flatMap_eq_nil_iff]
  rintro ⟨x, k⟩ hx
  obtain ⟨b, -, rfl⟩ := List.mem_map.mp (List.fst_mem_of_mem_zipIdx hx)
  simp [Block.gaps_record]

theorem outline_record (f : Func) : f.record.outline = f.bare := by
  have hblocks := blocks_bare f
  cases hbody : f.body with
  | none => simp [record, FuncRecord.outline, Slots.ofList?, bare, mapBlocks, hbody]
  | some bs =>
    simp_all [record, FuncRecord.outline, Slots.ofList?, bare, mapBlocks, blocks,
      Block.outline_record, List.filterMap_map]

/-- **A function is read back** with the edges that rebuilding writes. -/
theorem ofJson_toJson (hrange : f.InRange) (h : rebuildEdges f = .ok () g) :
    Draft.ofJson f.toJson = .ok { func := g } := by
  have hblocks : Slots.readInto {} (readObject BlockRecord.readMember) {}
      (Json.ofList? Block.toJson f.body) = .ok (.ofList? Block.record f.body) :=
    readInto_ofList? fun b hb => ⟨⟨_, rfl⟩, Block.readObject_toJson (hrange b hb)⟩
  have hrecord : readObject FuncRecord.readMember {} f.toJson = .ok f.record := by
    simp +decide [toJson, readObject, readMembersInto, FuncRecord.readMember, Json.readString,
      Json.readName, hblocks, Functor.map, Except.map, bind, Except.bind, pure, Except.pure, record]
  have hplaced : firstMisplaced? 0 f.blocks = none := by
    unfold rebuildEdges at h
    split at h
    · cases h
    · next hplaced => exact hplaced
  have hcheck : checkPlaces f.record.name 0 f.record.blocks.elems = .ok () := by
    rw [record, Slots.elems_ofList?]
    exact checkPlaces_record f.record.name hplaced
  have hrebuild := (rebuildEdges_bare h).1
  simp [Draft.ofJson, hrecord, FuncRecord.toDraft, hcheck, outline_record, hrebuild, gaps_record,
    bind, Except.bind, Except.mapError]

end Func

/-! ## Numbers that are written -/

section Integral

open Json (Integral)

theorem mem_memberUnless {absent : Bool} {name : String} {j : Json} {m : String × Json}
    (h : m ∈ memberUnless absent name j) : m = (name, j) := by
  cases absent with
  | true => cases h
  | false => exact List.mem_singleton.mp h

theorem Fields.integral_members (f : Fields) {expr : List (String × Json)}
    (hexpr : ∀ m ∈ expr, Integral m.2) : ∀ m ∈ f.members expr, Integral m.2 := by
  intro m hm
  simp only [members, Json.nat_eq_int, List.mem_append, List.mem_cons] at hm
  rcases hm with (((((((rfl | h) | h) | h) | h) | h) | h) | h) | h
  · exact .str _
  · exact mem_memberUnless h ▸ .int _
  · exact mem_memberUnless h ▸ .int _
  · exact mem_memberUnless h ▸ .int _
  · exact mem_memberUnless h ▸ .int _
  · exact mem_memberUnless h ▸ .int _
  · exact mem_memberUnless h ▸ .str _
  · exact hexpr m h
  · exact mem_memberUnless h ▸ .int _

theorem integral_insnMembers (op : Opcode) {l r d : Bool × Json}
    (h : ∀ x ∈ [l, r, d], Integral x.2) : Integral (.obj (insnMembers op l r d)) := by
  refine .obj fun m hm => ?_
  simp only [insnMembers, List.mem_append, List.mem_cons] at hm
  rcases hm with ((rfl | hm) | hm) | hm
  · exact .str _
  · exact mem_memberUnless hm ▸ h l (by simp)
  · exact mem_memberUnless hm ▸ h r (by simp)
  · exact mem_memberUnless hm ▸ h d (by simp)

theorem Operand.integral_toJson (o : Operand) : Integral o.toJson := by
  induction o with
  | plain f => exact .obj (f.integral_members (by simp))
  | nested f op l r d hl hr hd =>
    have hexpr := integral_insnMembers op (l := (decide (l = .empty), l.toJson))
      (r := (decide (r = .empty), r.toJson)) (d := (decide (d = .empty), d.toJson))
      (by simp [hl, hr, hd])
    exact .obj (f.integral_members (by simpa using hexpr))

theorem Insn.integral_toJson (i : Insn) : Integral i.toJson :=
  integral_insnMembers i.op (by simp [Operand.integral_toJson])

theorem integral_ofList? {α : Type} {toJson : α → Json} (h : ∀ x, Integral (toJson x))
    (l : Option (List α)) : Integral (Json.ofList? toJson l) := by
  cases l with
  | none => exact .null
  | some xs => exact .arr (by simpa using fun x _ => h x)

theorem Block.integral_toJson (b : Block) : Integral b.toJson :=
  .obj (by simp [Integral.int, integral_ofList? Insn.integral_toJson])

/-- **All numbers of a function are written as integers.** -/
theorem Func.integral_toJson (f : Func) : Integral f.toJson :=
  .obj (by simp [Integral.str, integral_ofList? Block.integral_toJson])

end Integral

/-! ## Streams -/

/-- The line of a function. -/
def Func.line (f : Func) : List Char := f.toJson.chars ++ ['\n']

theorem toList_writeFuncs (fs : List Func) : (writeFuncs fs).toList = fs.flatMap Func.line := by
  have hline : Func.line = fun f => f.toJson.chars ++ ['\n'] := rfl
  simp [writeFuncs, List.flatMap_map, Json.compact, hline]

/-- A line starts with a brace. -/
theorem Func.exists_line (f : Func) : ∃ cs, f.line = '\x7b' :: cs :=
  ⟨_, by rw [line, toJson, Json.chars]; rfl⟩

theorem skipBlanks_lines (fs : List Func) :
    Json.skipBlanks (fs.flatMap Func.line) = fs.flatMap Func.line := by
  cases fs with
  | nil => rfl
  | cons f fs =>
    obtain ⟨cs, hcs⟩ := f.exists_line
    rw [List.flatMap_cons, hcs, List.cons_append, Json.skipBlanks_cons rfl]

/-- **A function comes through**: what it is is what it was, and its edges are rebuilt. -/
structure Func.ComesBackAs (f g : Func) : Prop where
  /-- The edges are those that rebuilding writes. -/
  rebuilt : Func.rebuildEdges f = .ok () g
  /-- The name, the stage and the blocks are the same, edges apart. -/
  bare_eq : g.bare = f.bare

/-- The lines of functions are read back, whatever blanks stand before them. -/
theorem readFuncsFrom_lines {fs gs : List Func} (h : List.Forall₂ (fun f g =>
    Func.rebuildEdges f = .ok () g ∧ f.InRange ∧ f.toJson.depth ≤ Json.maxDepth) fs gs)
    {fuel line : Nat} {cs : List Char} (hfuel : fs.length < fuel)
    (hcs : Json.skipBlanks cs = fs.flatMap Func.line) :
    readFuncsFrom fuel line cs = (gs.map fun g => { func := g }, none) := by
  induction h generalizing fuel line cs with
  | nil =>
    obtain ⟨fuel, rfl⟩ : ∃ k, fuel = k + 1 := Nat.exists_eq_add_one.mpr (by simpa using hfuel)
    rw [readFuncsFrom, hcs]
    rfl
  | @cons f g fs gs hfg _ ih =>
    obtain ⟨hrebuild, hrange, hdepth⟩ := hfg
    obtain ⟨fuel, rfl⟩ : ∃ k, fuel = k + 1 := Nat.exists_eq_add_one.mpr (by omega)
    have hread : Json.readValue (f.toJson.chars ++ '\n' :: fs.flatMap Func.line) =
        some (f.toJson, '\n' :: fs.flatMap Func.line) :=
      f.integral_toJson.readValue_chars hdepth (Json.stops_cons (by decide))
    have hline : (f :: fs).flatMap Func.line = f.toJson.chars ++ '\n' :: fs.flatMap Func.line := by
      simp [Func.line]
    obtain ⟨ds, hds⟩ := f.exists_line
    have hrest : readFuncsFrom fuel (line + 1) ('\n' :: fs.flatMap Func.line) =
        (gs.map fun g => { func := g }, none) :=
      ih (by simpa using hfuel) (skipBlanks_lines fs)
    rw [hline] at hcs
    rw [Func.line] at hds
    obtain ⟨es, hes⟩ : ∃ es, f.toJson.chars ++ '\n' :: fs.flatMap Func.line = '\x7b' :: es :=
      ⟨ds ++ fs.flatMap Func.line, by rw [← List.cons_append, ← hds]; simp⟩
    rw [hes] at hcs hread
    simp [readFuncsFrom, hcs, hread, Func.ofJson_toJson hrange hrebuild, hrest]

theorem length_le_lines (fs : List Func) : fs.length ≤ (fs.flatMap Func.line).length := by
  induction fs with
  | nil => rfl
  | cons f fs ih =>
    rw [List.flatMap_cons, Func.line]
    simp only [List.length_append, List.length_cons]
    omega

/-- **Functions are read back from their lines**, if their integers are of 64 bits, their containers
nest no deeper than the reader goes and their edges can be built. -/
theorem readFuncs_writeFuncs {fs : List Func} (hrange : ∀ f ∈ fs, f.InRange)
    (hdepth : ∀ f ∈ fs, f.toJson.depth ≤ Json.maxDepth)
    (hedges : ∀ f ∈ fs, ∃ g, Func.rebuildEdges f = .ok () g) :
    ∃ gs, readFuncs (writeFuncs fs) = (gs.map fun g => { func := g }, none) ∧
      List.Forall₂ Func.ComesBackAs fs gs := by
  have hgs : ∃ gs, List.Forall₂ (fun f g => Func.rebuildEdges f = .ok () g ∧ f.InRange ∧
      f.toJson.depth ≤ Json.maxDepth) fs gs := by
    induction fs with
    | nil => exact ⟨[], .nil⟩
    | cons f fs ih =>
      obtain ⟨g, hg⟩ := hedges f (by simp)
      obtain ⟨gs, hgs⟩ := ih (fun f hf => hrange f (by simp [hf]))
        (fun f hf => hdepth f (by simp [hf])) fun f hf => hedges f (by simp [hf])
      exact ⟨g :: gs, .cons ⟨hg, hrange f (by simp), hdepth f (by simp)⟩ hgs⟩
  obtain ⟨gs, hgs⟩ := hgs
  refine ⟨gs, ?_, hgs.imp fun f g h => ⟨h.1, (Func.rebuildEdges_bare h.1).2⟩⟩
  have hlength := length_le_lines fs
  rw [readFuncs, toList_writeFuncs]
  exact readFuncsFrom_lines hgs (by omega) (skipBlanks_lines fs)

/-- A function with a nested instruction, numbers at both ends of their ranges, a name that has to
be escaped, and one block whose instructions were never set. -/
def Func.ornate : Func :=
  { name := "<\"\\\n\u2028>"
    maturity := .glbopt2
    body := some [
      { serial := 0
        code := some [.mov (.nested { kind := .expr, size := 8, off := -(2 ^ 63) } .add
          (.imm 0xffffffffffffffff 8) .empty (.global 0x4000 "puts" (2 ^ 63 - 1))) (.register 1 8)]
        next := 1 },
      { serial := 1, code := some [], next := 2 },
      { serial := 2, code := none, next := noBlock }] }

theorem readFuncs_writeFuncs_ornate :
    let fs : List Func := [.ornate, { body := none }, { body := some [] }]
    (∀ f ∈ fs, f.InRange) ∧ (∀ f ∈ fs, f.toJson.depth ≤ Json.maxDepth) ∧
      (∀ f ∈ fs, ∃ g, Func.rebuildEdges f = .ok () g) ∧
      ∃ gs, readFuncs (writeFuncs fs) = (gs.map fun g => { func := g }, none) ∧
        List.Forall₂ Func.ComesBackAs fs gs := by
  intro fs
  have hrange : ∀ f ∈ fs, f.InRange := by decide
  have hdepth : ∀ f ∈ fs, f.toJson.depth ≤ Json.maxDepth := by decide +kernel
  have hedges : ∀ f ∈ fs, ∃ g, Func.rebuildEdges f = .ok () g := by
    simp only [fs, List.forall_mem_cons]
    exact ⟨⟨_, rfl⟩, ⟨_, rfl⟩, ⟨_, rfl⟩, by simp⟩
  exact ⟨hrange, hdepth, hedges, readFuncs_writeFuncs hrange hdepth hedges⟩

end Deflatten
