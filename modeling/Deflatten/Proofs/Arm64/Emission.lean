import Deflatten.Arm64.Lift
import Deflatten.Proofs.Execution.Agreement

/-!
# Proofs/Arm64/Emission — what lifting an instruction appends

Whatever is asked of the decoder, the parameters of a form are those that fields of a word can have
(`Form.proper_decode`).  Code only grows while instructions are appended (`Lifting.grows_emit`).
-/

namespace Deflatten

/-! ## Parameters of forms -/

/-- The bytes of a general register, or of its lower half. -/
def IsWidth (size : Int) : Prop := size = 4 ∨ size = 8

/-- The bytes of an access. -/
def IsAccess (size : Int) : Prop := size = 1 ∨ size = 2 ∨ size = 4 ∨ size = 8

/-- The register of a logical source has a number of five bits. -/
def LogicSource.Proper : LogicSource → Prop
  | .imm _ => True
  | .reg rm _ _ => rm < 32

/-- Operations on bits set a destination to a result of two sources. -/
theorem Opcode.binary_of_mem {op : Opcode} {ops : List Opcode}
    (hops : ops ⊆ [.and, .or, .xor, .shl, .shr]) (h : op ∈ ops) :
    op.isData = true ∧ op.isUnary = false ∧ op.endsBlock = false := by
  have hall : ∀ op ∈ [Opcode.and, .or, .xor, .shl, .shr],
      op.isData = true ∧ op.isUnary = false ∧ op.endsBlock = false := by decide
  exact hall op (hops h)

namespace Form

/-- **The parameters a word can have**: registers have numbers of five bits, sizes are those of
registers or accesses, and operations are the ones of their class. -/
def Proper : Form → Prop
  | nothing | unmodelled | call (.direct _) => True
  | call (.indirect r) => r < 32
  | constant _ rd size | insert _ _ rd size | conditionSet _ rd size => rd < 32 ∧ IsWidth size
  | addSubImm _ _ _ rn rd size => rn < 32 ∧ rd < 32 ∧ IsWidth size
  | addSubReg _ _ rm _ rn rd size => rm < 32 ∧ rn < 32 ∧ rd < 32 ∧ IsWidth size
  | logical op _ b rn rd size =>
    op ∈ [Opcode.and, .or, .xor] ∧ b.Proper ∧ rn < 32 ∧ rd < 32 ∧ IsWidth size
  | multiply _ rm ra rn rd size => rm < 32 ∧ ra < 32 ∧ rn < 32 ∧ rd < 32 ∧ IsWidth size
  | bitfield op _ rn rd size => op ∈ [Opcode.shl, .shr, .and] ∧ rn < 32 ∧ rd < 32 ∧ IsWidth size
  | shiftBy op rm rn rd size =>
    op ∈ [Opcode.shl, .shr] ∧ rm < 32 ∧ rn < 32 ∧ rd < 32 ∧ IsWidth size
  | access _ rt rn _ size _ => rt < 32 ∧ rn < 32 ∧ IsAccess size
  | pair _ rt rt2 rn _ size _ => rt < 32 ∧ rt2 < 32 ∧ rn < 32 ∧ IsWidth size

variable (w : Encoding) (pc : UInt64)

theorem rd_lt : w.rd < 32 := (w.extractLsb' 0 5).isLt

theorem rn_lt : w.rn < 32 := (w.extractLsb' 5 5).isLt

theorem ra_lt : w.ra < 32 := (w.extractLsb' 10 5).isLt

theorem rm_lt : w.rm < 32 := (w.extractLsb' 16 5).isLt

theorem isWidth_width (wide : Bool) : IsWidth (Encoding.width wide) := by
  cases wide with
  | true => exact .inr rfl
  | false => exact .inl rfl

theorem isWidth_size : IsWidth w.size := isWidth_width w.wide

theorem isAccess_slice : IsAccess ((1 <<< w.slice 30 2 : Nat) : Int) := by
  have hlt : w.slice 30 2 < 4 := (w.extractLsb' 30 2).isLt
  have hcases : w.slice 30 2 = 0 ∨ w.slice 30 2 = 1 ∨ w.slice 30 2 = 2 ∨ w.slice 30 2 = 3 := by omega
  rcases hcases with h | h | h | h <;> rw [h]
  · exact .inl rfl
  · exact .inr (.inl rfl)
  · exact .inr (.inr (.inl rfl))
  · exact .inr (.inr (.inr rfl))

variable {w pc}

theorem Proper.ite {p : Prop} [Decidable p] {a b : Form} (ha : a.Proper) (hb : b.Proper) :
    (if p then a else b).Proper := by
  split
  · exact ha
  · exact hb

variable (w pc)

theorem proper_moveWide : (moveWide w).Proper := by
  unfold moveWide
  split
  · exact ⟨rd_lt w, isWidth_size w⟩
  · exact ⟨rd_lt w, isWidth_size w⟩
  · exact ⟨rd_lt w, isWidth_size w⟩
  · split <;> trivial

theorem proper_bitfieldMove : (bitfieldMove w).Proper := by
  have hregs := And.intro (rn_lt w) (And.intro (rd_lt w) (isWidth_size w))
  exact .ite trivial (.ite ⟨by simp, hregs⟩ (.ite ⟨by simp, hregs⟩ (.ite ⟨by simp, hregs⟩ trivial)))

theorem proper_address : (address w pc).Proper := by
  unfold address
  dsimp only
  split <;> exact ⟨rd_lt w, .inr rfl⟩

theorem proper_unscaled : (unscaled w).Proper := by
  have hregs := And.intro (rd_lt w) (And.intro (rn_lt w) (isAccess_slice w))
  unfold unscaled
  dsimp only
  split <;> exact hregs

theorem proper_pairOf : (pairOf w).Proper := by
  have hregs := And.intro (rd_lt w) (And.intro (ra_lt w) (rn_lt w))
  unfold pairOf
  dsimp only
  split
  · split <;> exact ⟨hregs.1, hregs.2.1, hregs.2.2, .inl rfl⟩
  · split <;> exact ⟨hregs.1, hregs.2.1, hregs.2.2, .inr rfl⟩
  · trivial

theorem logicOp_mem (n : Nat) : logicOp n ∈ [Opcode.and, .or, .xor] := by
  unfold logicOp
  split <;> simp

theorem proper_call {c : Call} (h : Call.decode? w pc = some c) : (call c).Proper := by
  unfold Call.decode? at h
  split at h
  · cases h
    trivial
  split at h
  · cases h
    exact rn_lt w
  · cases h

/-- **A word has proper parameters.** -/
theorem proper_decode (k : Decoder) : (decode k w pc).Proper := by
  have hd := rd_lt w
  have hn := rn_lt w
  have hm := rm_lt w
  have hsize := isWidth_size w
  have haccess := isAccess_slice w
  unfold decode
  cases hc : Call.decode? w pc with
  | some c => exact proper_call w pc hc
  | none =>
    refine .ite trivial (.ite (proper_moveWide w) (.ite ⟨hn, hd, hsize⟩ (.ite ?_ (.ite ?_ (.ite ?_
      (.ite ⟨hm, ra_lt w, hn, hd, hsize⟩ (.ite (proper_bitfieldMove w) (.ite ?_ (.ite ?_
      (.ite (proper_address w pc) (.ite ⟨hd, hn, haccess⟩ (.ite (proper_unscaled w)
      (.ite (proper_pairOf w) trivial)))))))))))))
    · split
      · exact ⟨hm, hn, hd, hsize⟩
      · trivial
    · split
      · exact ⟨logicOp_mem _, trivial, hn, hd, hsize⟩
      · trivial
    · split
      · exact ⟨logicOp_mem _, hm, hn, hd, hsize⟩
      · trivial
    · split
      · exact ⟨by simp, hm, hn, hd, hsize⟩
      · exact ⟨by simp, hm, hn, hd, hsize⟩
      · trivial
    · split
      · exact ⟨hd, hsize⟩
      · exact ⟨hd, hsize⟩
      · trivial

end Form

/-! ## Code that is appended -/

namespace Lifting

variable {o : LiftOptions} {s s' : Lifting} {i : Insn} {v : Var} {x : Inst}

@[simp] theorem code_push (s : Lifting) (i : Insn) : (s.push i).code = s.code ++ [i] := rfl

@[simp] theorem code_forget (s : Lifting) (v : Var) : (s.forget v).code = s.code := by
  unfold forget
  split <;> rfl

theorem plain_saveCode (c : Compare) : Plain (saveCode c) := by
  unfold saveCode
  intro i hi
  rcases List.mem_cons.mp hi with rfl | hi
  · rfl
  · split at hi
    · cases hi
    · obtain rfl := List.mem_singleton.mp hi
      rfl

/-- Code grows, and by plain instructions. -/
def Grows (s s' : Lifting) : Prop := ∃ is, s'.code = s.code ++ is ∧ Plain is

theorem Grows.refl (s : Lifting) : s.Grows s := ⟨[], by simp, plain_nil⟩

theorem Grows.trans {s'' : Lifting} (h : s.Grows s') (h' : s'.Grows s'') : s.Grows s'' := by
  obtain ⟨is, his, hp⟩ := h
  obtain ⟨is', his', hp'⟩ := h'
  exact ⟨is ++ is', by rw [his', his, List.append_assoc], hp.append hp'⟩

theorem Grows.of_code_eq (h : s'.code = s.code) : s.Grows s' := ⟨[], by simp [h], plain_nil⟩

theorem grows_push (hi : i.op.endsBlock = false) : s.Grows (s.push i) :=
  ⟨[i], rfl, fun j hj => by rwa [List.mem_singleton.mp hj]⟩

theorem grows_saveFlags (s : Lifting) (v : Var) : s.Grows (s.saveFlags v) := by
  unfold saveFlags
  split
  · next c _ =>
    split
    · exact ⟨saveCode c, rfl, plain_saveCode c⟩
    · exact .refl s
  · exact .refl s

theorem grows_clobber (s : Lifting) (v : Var) : s.Grows (s.clobber v) :=
  (Grows.of_code_eq (code_forget s v)).trans (grows_saveFlags _ v)

theorem grows_foldl_clobber (vs : List Var) (s : Lifting) : s.Grows (vs.foldl clobber s) := by
  induction vs generalizing s with
  | nil => exact .refl s
  | cons v vs ih => exact (grows_clobber s v).trans (ih _)

theorem emit_of_def? (hd : i.def? = some v) : s.emit i = (s.clobber v).push i := by
  rw [emit, Insn.defs, hd]
  rfl

theorem emit_of_def?_none (hd : i.def? = none) : s.emit i = s.push i := by
  rw [emit, Insn.defs, hd]
  rfl

theorem grows_emit (hi : i.op.endsBlock = false) : s.Grows (s.emit i) :=
  (grows_foldl_clobber i.defs s).trans (grows_push hi)

theorem grows_stepBase (rn : Nat) (step : Option Int) : s.Grows (s.stepBase rn step) := by
  unfold stepBase
  split
  · exact .refl s
  · exact grows_emit rfl

end Lifting

end Deflatten
