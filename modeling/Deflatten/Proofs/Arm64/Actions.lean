import Deflatten.Proofs.Arm64.Sources

/-!
# Proofs/Arm64/Actions — lifting as a list of actions

Lifting an instruction records or drops a comparison, appends microcode and notes what registers hold,
one after the other.  `Lifting.log` lists these actions, and taking them in order is lifting
(`Lifting.inst_eq_log`, `Lifting.insts_eq_logAll`), so a statement about every point of a block is one
about every beginning of its list.

What can be on the list is said once, form by form (`Lifting.Logged`, `Lifting.exists_logged`).  Code only
grows while a block is lifted, and what is appended for an instruction neither jumps nor returns
(`Lifting.plain_of_insts`).
-/

namespace Deflatten

/-- Whether control always goes on after an operation. -/
def Opcode.goesOn (op : Opcode) : Bool := !op.endsBlock && op != .und

theorem Opcode.goesOn_of_isData {op : Opcode} (h : op.isData = true) : op.goesOn = true := by
  cases op <;> first | rfl | exact absurd h (by decide)

/-! ## Kinds of forms -/

namespace Form

/-- A call. -/
def isCall : Form → Bool
  | call _ => true
  | _ => false

/-- A load or store of one register or two. -/
def isAccess : Form → Bool
  | access .. | pair .. => true
  | _ => false

/-- Whether a form sets the flags. -/
def setsFlags : Form → Bool
  | addSubImm _ flags .. | addSubReg _ flags .. | logical _ flags .. => flags
  | _ => false

/-- Whether a form tests the flags. -/
def testsFlags : Form → Bool
  | conditionSet .. => true
  | _ => false

/-- Whether there is a meaning to a form. -/
def isModelled : Form → Bool
  | unmodelled => false
  | access t .. => t != .other
  | _ => true

end Form

namespace Lifting

/-! ## Actions -/

/-- **One change that lifting makes to a block.** -/
inductive Action where
  /-- A comparison becomes the pending one. -/
  | record (c : Compare)
  /-- No comparison is pending any more. -/
  | drop
  /-- An instruction is appended. -/
  | append (i : Insn)
  /-- A register is noted to hold an operand. -/
  | hold (rd : Nat) (src : Operand)
  /-- What a call may change is forgotten. -/
  | release
deriving DecidableEq, Repr

/-- Whether the pending comparison is neither replaced nor dropped. -/
def Action.keeps : Action → Bool
  | record _ | drop => false
  | append _ | hold .. | release => true

/-- The block after an action. -/
def act (s : Lifting) : Action → Lifting
  | .record c => { s with flags? := some c }
  | .drop => { s with flags? := none }
  | .append i => s.emit i
  | .hold rd src => { s with held := s.held.define rd src }
  | .release => { s with held := s.held.forgetCallerSaved }

/-- **The block after actions in order.** -/
def replay (s : Lifting) (as : List Action) : Lifting := as.foldl act s

variable {o : LiftOptions} {s t : Lifting} {a : Action} {as bs : List Action} {i : Insn} {x : Inst}
  {op : Opcode} {l r : Operand} {rd rn : Nat} {size : Int}

@[simp] theorem replay_nil (s : Lifting) : s.replay [] = s := rfl

@[simp] theorem replay_cons (s : Lifting) (a : Action) (as : List Action) :
    s.replay (a :: as) = (s.act a).replay as := rfl

@[simp] theorem replay_append (s : Lifting) (as bs : List Action) :
    s.replay (as ++ bs) = (s.replay as).replay bs := List.foldl_append

/-- **What each action keeps, actions in order keep.** -/
theorem replay_induction {P : Lifting → Prop} {Q : Action → Prop}
    (hact : ∀ {s a}, P s → Q a → P (s.act a)) (hs : P s) (has : ∀ a ∈ as, Q a) : P (s.replay as) := by
  induction as generalizing s with
  | nil => exact hs
  | cons a as ih => exact ih (hact hs (has a (.head _))) fun b hb => has b (.tail _ hb)

/-! ## The actions of the operations -/

/-- The actions of `emitTo`. -/
def emitToLog (op : Opcode) (l r : Operand) (rd : Nat) (size : Int) : List Action :=
  match destination? rd size with
  | some d => [.append ⟨op, l, r, d⟩]
  | none => []

/-- The actions of `move`. -/
def moveLog (src : Operand) (rd : Nat) (size : Int) : List Action :=
  let d? := if rd = Reg.stack && src.kind == .reg then some (.register Reg.stack size)
    else destination? rd size
  match d? with
  | none => []
  | some d =>
    .append (.mov src d) :: if src.isImm || src.kind == .stack then [.hold rd src] else []

/-- The actions of `load`. -/
def loadLog (m : Operand) (rt : Nat) (size : Int) : List Action :=
  if m.kind = .stack then moveLog m rt size else emitToLog .ldx m .empty rt size

/-- The actions of `store`. -/
def storeLog (v m : Operand) : List Action :=
  [.append (if m.kind = .stack then .mov v m else { op := .stx, l := v, r := m })]

/-- The actions of `stepBase`. -/
def stepBaseLog (rn : Nat) : Option Int → List Action
  | none => []
  | some n => [.append (.binary .add (.register rn 8) (.imm (UInt64.ofInt n) 8) (.register rn 8))]

/-- The actions of `addSub`. -/
def addSubLog (sub flags : Bool) (a b : Operand) (rd : Nat) (size : Int) : List Action :=
  let compared : List Action :=
    if !flags then []
    else if sub then [.record ⟨a, b⟩]
    else if b.isImm then [.record ⟨a, .imm (-b.fields.value) size⟩]
    else [.record ⟨a, .derived .neg b .empty .empty⟩]
  if flags && rd = 31 then compared
  else if !sub && b.isImm && b.fields.value == 0 then compared ++ moveLog a rd size
  else compared ++ [.append ⟨if sub then .sub else .add, a, b, .register rd size⟩]

/-- The actions of `logical`, its sources read. -/
def logicalLog (op : Opcode) (flags : Bool) (a b : Operand) (rn rd : Nat) (size : Int) :
    List Action :=
  if op = .or && rn = 31 then moveLog b rd size
  else
    (if flags then [.record ⟨.derived .and a b .empty, .imm 0 size⟩] else []) ++
      emitToLog op a b rd size

/-- The actions of `skip`. -/
def skipLog (o : LiftOptions) (i : Inst) : Except LiftCause (List Action) :=
  if o.strict then .error (.unmodelled i.mnemonic)
  else
    match o.decoder.destination? i.raw with
    | some (rd, size) => .ok [.drop, .append { op := .und, d := .register rd size }]
    | none => .ok [.drop]

theorem replay_emitToLog (s : Lifting) (op : Opcode) (l r : Operand) (rd : Nat) (size : Int) :
    s.replay (emitToLog op l r rd size) = s.emitTo op l r rd size := by
  unfold emitToLog emitTo
  cases destination? rd size <;> rfl

theorem replay_moveLog (s : Lifting) (src : Operand) (rd : Nat) (size : Int) :
    s.replay (moveLog src rd size) = s.move src rd size := by
  unfold moveLog move
  generalize (if rd = Reg.stack && src.kind == .reg then some (Operand.register Reg.stack size)
    else destination? rd size) = d?
  cases d? with
  | none => rfl
  | some d =>
    dsimp only
    split <;> rfl

theorem replay_loadLog (s : Lifting) (m : Operand) (rt : Nat) (size : Int) :
    s.replay (loadLog m rt size) = s.load m rt size := by
  unfold loadLog load
  split
  · exact replay_moveLog ..
  · exact replay_emitToLog ..

theorem replay_storeLog (s : Lifting) (v m : Operand) : s.replay (storeLog v m) = s.store v m := by
  unfold storeLog store
  split <;> rfl

theorem replay_stepBaseLog (s : Lifting) (rn : Nat) (step : Option Int) :
    s.replay (stepBaseLog rn step) = s.stepBase rn step := by
  cases step <;> rfl

theorem replay_addSubLog (s : Lifting) (sub flags : Bool) (a b : Operand) (rd : Nat) (size : Int) :
    s.replay (addSubLog sub flags a b rd size) = s.addSub sub flags a b rd size := by
  have hcompared : s.replay (if !flags then []
      else if sub then [.record ⟨a, b⟩]
      else if b.isImm then [.record ⟨a, .imm (-b.fields.value) size⟩]
      else [.record ⟨a, .derived .neg b .empty .empty⟩]) =
      (if !flags then s
      else if sub then s.compare a b
      else if b.isImm then s.compare a (.imm (-b.fields.value) size)
      else s.compare a (.derived .neg b .empty .empty)) := by
    split
    · rfl
    split
    · rfl
    split <;> rfl
  unfold addSubLog addSub
  dsimp only
  split
  · exact hcompared
  split
  · rw [replay_append, hcompared, replay_moveLog]
  · rw [replay_append, hcompared]
    rfl

theorem replay_logicalLog (o : LiftOptions) (s : Lifting) (op : Opcode) (flags : Bool) (b : Operand)
    (rn rd : Nat) (size : Int) :
    s.replay (logicalLog op flags (s.read o rn size) b rn rd size) =
      s.logical o op flags b rn rd size := by
  unfold logicalLog logical
  split
  · exact replay_moveLog ..
  · rw [replay_append, replay_emitToLog]
    cases flags <;> rfl

theorem skip_eq_skipLog (o : LiftOptions) (s : Lifting) (i : Inst) :
    s.skip o i = (skipLog o i).map s.replay := by
  unfold skip skipLog
  split
  · rfl
  · cases o.decoder.destination? i.raw <;> rfl

/-! ## The actions of instructions -/

/-- The actions of one transfer of a register. -/
def transferLog (o : LiftOptions) (s : Lifting) (isLoad : Bool) (m : Operand) (r : Nat) (size : Int) :
    List Action :=
  if isLoad then loadLog m r size else storeLog (s.read o r size) m

/-- **The actions of lifting an instruction.** -/
def log (o : LiftOptions) (s : Lifting) (i : Inst) : Except LiftCause (List Action) :=
  match Form.decode o.decoder i.raw i.addr with
  | .nothing => .ok []
  | .call c =>
    .ok [.append (.call (c.operand o) (.register 0 8) (.register 0 8)), .release, .drop]
  | .constant v rd size => .ok (moveLog (.imm v size) rd size)
  | .insert imm mask rd size =>
    match destination? rd size with
    | none => .ok []
    | some d =>
      match (s.lookup? o rd).filter Operand.isImm with
      | some cur => .ok (moveLog (.imm (cur.fields.value &&& ~~~mask ||| imm) size) rd size)
      | none => .ok [.append (.binary .and d (.imm (~~~mask) size) d),
          .append (.binary .or d (.imm imm size) d)]
  | .addSubImm sub flags imm rn rd size =>
    .ok (addSubLog sub flags (s.readStack o rn size) (.imm imm size) rd size)
  | .addSubReg sub flags rm shift rn rd size =>
    if rd = 31 && !flags then .ok []
    else .ok (addSubLog sub flags (s.read o rn size) (s.readShifted o rm shift size) rd size)
  | .logical op flags b rn rd size =>
    .ok (logicalLog op flags (s.read o rn size) (s.logicSource o size b) rn rd size)
  | .multiply sub rm ra rn rd size =>
    let a := s.read o rn size
    let b := s.read o rm size
    let product := Operand.derived .mul a b .empty
    if sub then .ok (emitToLog .sub (s.read o ra size) product rd size)
    else if ra = 31 then .ok (emitToLog .mul a b rd size)
    else .ok (emitToLog .add (s.read o ra size) product rd size)
  | .bitfield op amount rn rd size =>
    .ok (emitToLog op (s.read o rn size) (.imm amount size) rd size)
  | .shiftBy op rm rn rd size =>
    let places := .derived .and (s.read o rm size) (.imm (UInt64.ofInt (size * 8 - 1)) size) .empty
    .ok (emitToLog op (s.read o rn size) places rd size)
  | .conditionSet equal rd size =>
    match s.flags? with
    | none => skipLog o i
    | some c => .ok (emitToLog (if equal then .setz else .setnz) c.l c.r rd size)
  | .access t rt rn off size step =>
    let m := memory rn off size
    let regSize : Int := Encoding.width (size == 8)
    match t with
    | .store => .ok (storeLog (s.read o rt regSize) m ++ stepBaseLog rn step)
    | .load => .ok (loadLog m rt regSize ++ stepBaseLog rn step)
    | .other => (skipLog o i).map (· ++ stepBaseLog rn step)
  | .pair isLoad rt rt2 rn off size step =>
    -- the second register is read after the first transfer
    let first := s.transferLog o isLoad (memory rn off size) rt size
    let second := (s.replay first).transferLog o isLoad (memory rn (off + size) size) rt2 size
    .ok (first ++ second ++ stepBaseLog rn step)
  | .unmodelled => skipLog o i

/-- The actions of lifting instructions in order, up to the first that cannot be. -/
def logAll (o : LiftOptions) : Lifting → List Inst → Except (Inst × LiftCause) (List Action)
  | _, [] => .ok []
  | s, i :: is =>
    match s.log o i with
    | .ok as => ((s.replay as).logAll o is).map (as ++ ·)
    | .error c => .error (i, c)

theorem replay_transferLog (o : LiftOptions) (s : Lifting) (isLoad : Bool) (m : Operand) (r : Nat)
    (size : Int) : s.replay (s.transferLog o isLoad m r size) =
      if isLoad then s.load m r size else s.store (s.read o r size) m := by
  unfold transferLog
  split
  · exact replay_loadLog ..
  · exact replay_storeLog ..

/-- **Lifting an instruction is taking its actions in order.** -/
theorem inst_eq_log (o : LiftOptions) (s : Lifting) (x : Inst) :
    s.inst o x = (s.log o x).map s.replay := by
  unfold inst log
  cases Form.decode o.decoder x.raw x.addr with
  | nothing => rfl
  | call c => cases c <;> rfl
  | constant v rd size => exact congrArg _ (replay_moveLog ..).symm
  | insert imm mask rd size =>
    dsimp only
    cases destination? rd size with
    | none => rfl
    | some d =>
      cases (s.lookup? o rd).filter Operand.isImm with
      | some cur => exact congrArg _ (replay_moveLog ..).symm
      | none => rfl
  | addSubImm sub flags imm rn rd size => exact congrArg _ (replay_addSubLog ..).symm
  | addSubReg sub flags rm shift rn rd size =>
    dsimp only
    split
    · rfl
    · exact congrArg _ (replay_addSubLog ..).symm
  | logical op flags b rn rd size => exact congrArg _ (replay_logicalLog ..).symm
  | multiply sub rm ra rn rd size =>
    dsimp only
    split
    · exact congrArg _ (replay_emitToLog ..).symm
    split <;> exact congrArg _ (replay_emitToLog ..).symm
  | bitfield op amount rn rd size => exact congrArg _ (replay_emitToLog ..).symm
  | shiftBy op rm rn rd size => exact congrArg _ (replay_emitToLog ..).symm
  | conditionSet equal rd size =>
    cases s.flags? with
    | none => exact skip_eq_skipLog ..
    | some c => exact congrArg _ (replay_emitToLog ..).symm
  | access t rt rn off size step =>
    cases t with
    | store => simp only [Except.map, replay_append, replay_storeLog, replay_stepBaseLog]
    | load => simp only [Except.map, replay_append, replay_loadLog, replay_stepBaseLog]
    | other =>
      simp only [skip_eq_skipLog]
      cases skipLog o x with
      | error c => rfl
      | ok as => simp only [Except.map, replay_append, replay_stepBaseLog]
  | pair isLoad rt rt2 rn off size step =>
    simp only [Except.map, replay_append, replay_transferLog, replay_stepBaseLog]
  | unmodelled => exact skip_eq_skipLog ..

theorem exists_log_of_inst (h : s.inst o x = .ok t) : ∃ as, s.log o x = .ok as ∧ s.replay as = t := by
  rw [inst_eq_log] at h
  cases hlog : s.log o x with
  | error c =>
    rw [hlog] at h
    cases h
  | ok as =>
    rw [hlog] at h
    exact ⟨as, rfl, Except.ok.inj h⟩

/-- **Lifting instructions is taking their actions in order.** -/
theorem insts_eq_logAll (o : LiftOptions) (s : Lifting) (xs : List Inst) :
    s.insts o xs = (s.logAll o xs).map s.replay := by
  induction xs generalizing s with
  | nil => rfl
  | cons x xs ih =>
    rw [insts, logAll, inst_eq_log]
    cases s.log o x with
    | error c => rfl
    | ok as =>
      simp only [Except.map, ih]
      cases (s.replay as).logAll o xs with
      | error c => rfl
      | ok bs => simp only [replay_append]

/-! ## What is among the actions of operations -/

/-- **A move appends a copy** to its register or to the stack pointer, and may note what it copies, if
that is a constant or a slot. -/
theorem mem_moveLog {src : Operand} (h : a ∈ moveLog src rd size) :
    (∃ n, (n = rd ∨ n = Reg.stack) ∧ a = .append (.mov src (.register n size))) ∨
      (a = .hold rd src ∧ (src.kind = .imm ∨ src.kind = .stack)) := by
  have hd : ∀ {d : Operand}, (if rd = Reg.stack && src.kind == .reg
      then some (Operand.register Reg.stack size) else destination? rd size) = some d →
      ∃ n, (n = rd ∨ n = Reg.stack) ∧ d = .register n size := by
    intro d hd
    unfold destination? at hd
    split at hd
    · exact ⟨Reg.stack, .inr rfl, (Option.some.inj hd).symm⟩
    split at hd
    · cases hd
    · exact ⟨rd, .inl rfl, (Option.some.inj hd).symm⟩
  unfold moveLog at h
  dsimp only at h
  split at h
  · cases h
  · next d hd' =>
    obtain ⟨n, hn, rfl⟩ := hd hd'
    rcases List.mem_cons.mp h with rfl | h
    · exact .inl ⟨n, hn, rfl⟩
    · split at h
      · next hk => exact .inr ⟨List.mem_singleton.mp h, by simpa [Operand.isImm] using hk⟩
      · cases h

/-- A sum or difference may leave a comparison behind, with its right side, or with that negated. -/
theorem mem_addSubLog {sub flags : Bool} (h : a ∈ addSubLog sub flags l r rd size) :
    (flags = true ∧ ∃ y ∈ [r, .imm (-r.fields.value) size, .derived .neg r .empty .empty],
        a = .record ⟨l, y⟩) ∨
      a ∈ moveLog l rd size ∨ a = .append ⟨if sub then .sub else .add, l, r, .register rd size⟩ := by
  have hcompared : a ∈ (if !flags then []
      else if sub then [.record ⟨l, r⟩]
      else if r.isImm then [.record ⟨l, .imm (-r.fields.value) size⟩]
      else [.record ⟨l, .derived .neg r .empty .empty⟩] : List Action) →
      flags = true ∧ ∃ y ∈ [r, .imm (-r.fields.value) size, .derived .neg r .empty .empty],
        a = .record ⟨l, y⟩ := by
    intro h
    split at h
    · cases h
    · next hflags =>
      refine ⟨by simpa using hflags, ?_⟩
      split at h
      · exact ⟨_, .head _, List.mem_singleton.mp h⟩
      split at h
      · exact ⟨_, .tail _ (.head _), List.mem_singleton.mp h⟩
      · exact ⟨_, .tail _ (.tail _ (.head _)), List.mem_singleton.mp h⟩
  unfold addSubLog at h
  dsimp only at h
  split at h
  · exact .inl (hcompared h)
  split at h
  · exact (List.mem_append.mp h).imp hcompared .inl
  · exact (List.mem_append.mp h).imp hcompared fun h => .inr (List.mem_singleton.mp h)

/-- A bitwise operation may leave a comparison of its result with zero behind. -/
theorem mem_logicalLog {flags : Bool} (h : a ∈ logicalLog op flags l r rn rd size) :
    (flags = true ∧ a = .record ⟨.derived .and l r .empty, .imm 0 size⟩) ∨
      a ∈ moveLog r rd size ∨ a ∈ emitToLog op l r rd size := by
  unfold logicalLog at h
  split at h
  · exact .inr (.inl h)
  rcases List.mem_append.mp h with h | h
  · split at h
    · next hflags => exact .inl ⟨hflags, List.mem_singleton.mp h⟩
    · cases h
  · exact .inr (.inr h)

/-! ## What instructions read -/

/-- **A source that is read** in a block, at a size: a constant, a register or what it holds, or an
operation on sources. -/
inductive Source (o : LiftOptions) (s : Lifting) (size : Int) : Operand → Prop
  | imm (v : UInt64) : Source o s size (.imm v size)
  | register {n : Nat} (hn : n < 32) : Source o s size (.register n size)
  | read {n : Nat} (hn : n < 32) : Source o s size (s.read o n size)
  | unary {op : Opcode} {a : Operand} (hop : op.isData = true) (hun : op.isUnary = true)
      (ha : Source o s size a) : Source o s size (.derived op a .empty .empty)
  | binary {op : Opcode} {a b : Operand} (hop : op.isData = true) (hun : op.isUnary = false)
      (ha : Source o s size a) (hb : Source o s size b) : Source o s size (.derived op a b .empty)

section Source

variable {n : Nat}

theorem source_readStack (hn : n < 32) : s.Source o size (s.readStack o n size) := by
  unfold readStack
  split
  · exact .register (show Reg.stack < 32 by decide)
  · exact .read hn

theorem source_readShifted (hn : n < 32) (shift : Shift) :
    s.Source o size (s.readShifted o n shift size) := by
  cases shift with
  | none => exact .read hn
  | left places => exact .binary rfl rfl (.read hn) (.imm _)
  | right places => exact .binary rfl rfl (.read hn) (.imm _)

theorem source_logicSource {b : LogicSource} (hb : b.Proper) :
    s.Source o size (s.logicSource o size b) := by
  cases b with
  | imm v => exact .imm v
  | reg rm shift invert =>
    cases invert with
    | false => exact source_readShifted hb shift
    | true => exact .unary rfl rfl (source_readShifted hb shift)

end Source

/-! ## What an instruction can log -/

/-- **An instruction that a pending comparison survives**: it does not stop, and it writes nothing that
a comparison is saved in. -/
structure SparesCompare (i : Insn) : Prop where
  goesOn : i.op.goesOn = true
  /-- It writes what is visible. -/
  visible : ∀ v, i.def? = some v → Visible v

theorem SparesCompare.plain (h : SparesCompare i) : i.op.endsBlock = false ∧ i.op ≠ .und := by
  simpa [Opcode.goesOn] using h.goesOn

theorem sparesCompare_of_var? (hop : i.op.goesOn = true) (hd : ∀ v, i.d.var? = some v → Visible v) :
    SparesCompare i := by
  refine ⟨hop, fun v hv => hd v ?_⟩
  unfold Insn.def? at hv
  split at hv
  · exact hv
  · cases hv

theorem sparesCompare_register (hop : op.goesOn = true) (l r : Operand) (hrd : rd < 32) (size : Int) :
    SparesCompare ⟨op, l, r, .register rd size⟩ :=
  sparesCompare_of_var? hop fun _ hv => Option.some.inj hv ▸ visible_reg hrd

theorem sparesCompare_store (v m : Operand) :
    SparesCompare (if m.kind = .stack then .mov v m else { op := .stx, l := v, r := m }) := by
  split
  · next hk =>
    refine sparesCompare_of_var? rfl fun w hw => ?_
    exact Option.mem_unique (Operand.var?_of_stack hk) hw ▸ visible_stack _ _
  · exact sparesCompare_of_var? (i := { op := .stx, l := v, r := m }) rfl nofun

/-- **An action that a form can log** in a block. -/
inductive Logged (o : LiftOptions) (s : Lifting) (form : Form) : Action → Prop
  /-- A comparison of sources is recorded, if the flags are set. -/
  | record {c : Compare} {size : Int} (hflags : form.setsFlags = true) (hsize : IsWidth size)
      (hl : s.Source o size c.l) (hr : s.Source o size c.r) : Logged o s form (.record c)
  /-- A register is computed from sources. -/
  | compute {op : Opcode} {l r : Operand} {rd : Nat} {size : Int} (hop : op.isData = true)
      (hl : s.Source o size l) (hr : Operand.Fills (s.Source o size) op r) (hrd : rd < 32) :
      Logged o s form (.append ⟨op, l, r, .register rd size⟩)
  /-- A register is set to whether the sides of the pending comparison are equal. -/
  | test {c : Compare} {equal : Bool} {rd : Nat} {size : Int} (hc : s.flags? = some c) (hrd : rd < 32) :
      Logged o s form (.append ⟨if equal then .setz else .setnz, c.l, c.r, .register rd size⟩)
  /-- A source is noted that a register holds. -/
  | note {rd : Nat} {src : Operand} {size : Int} (hsrc : s.Source o size src)
      (hk : src.kind = .imm ∨ src.kind = .stack) : Logged o s form (.hold rd src)
  /-- A call is appended. -/
  | call {c : Call} (hform : form = .call c) :
      Logged o s form (.append (.call (c.operand o) (.register 0 8) (.register 0 8)))
  /-- What a call may change is forgotten. -/
  | release (hcall : form.isCall = true) : Logged o s form .release
  /-- The comparison is dropped at a call. -/
  | drop (hcall : form.isCall = true) : Logged o s form .drop
  /-- Something is loaded or stored. -/
  | transfer {i : Insn} (haccess : form.isAccess = true) (hi : SparesCompare i) :
      Logged o s form (.append i)
  /-- A slot is noted that a register was loaded from. -/
  | slot {rd : Nat} {src : Operand} (haccess : form.isAccess = true)
      (hk : src.kind = .imm ∨ src.kind = .stack) : Logged o s form (.hold rd src)

section Logged

variable {form : Form} {src m : Operand} {rt : Nat} {step : Option Int} {isLoad sub flags : Bool}

theorem logged_emitToLog (hop : op.isData = true) (hl : s.Source o size l)
    (hr : Operand.Fills (s.Source o size) op r) (hrd : rd < 32) :
    ∀ a ∈ emitToLog op l r rd size, s.Logged o form a := by
  intro a ha
  unfold emitToLog destination? at ha
  by_cases h31 : rd = 31
  · rw [if_pos h31] at ha
    cases ha
  · rw [if_neg h31] at ha
    obtain rfl := List.mem_singleton.mp ha
    exact .compute hop hl hr hrd

theorem destination_lt {n : Nat} (hrd : rd < 32) (hn : n = rd ∨ n = Reg.stack) : n < 32 :=
  hn.elim (· ▸ hrd) (· ▸ show Reg.stack < 32 by decide)

theorem logged_moveLog (hsrc : s.Source o size src) (hrd : rd < 32) :
    ∀ a ∈ moveLog src rd size, s.Logged o form a := by
  intro a ha
  rcases mem_moveLog ha with ⟨n, hn, rfl⟩ | ⟨rfl, hk⟩
  · exact .compute rfl hsrc (Operand.fills_empty rfl) (destination_lt hrd hn)
  · exact .note hsrc hk

theorem logged_addSubLog (hflags : flags = true → form.setsFlags = true) (hsize : IsWidth size)
    (hl : s.Source o size l) (hr : s.Source o size r) (hrd : rd < 32) :
    ∀ a ∈ addSubLog sub flags l r rd size, s.Logged o form a := by
  have hsides : ∀ y ∈ [r, .imm (-r.fields.value) size, .derived .neg r .empty .empty],
      s.Source o size y := by
    simp only [List.forall_mem_cons]
    exact ⟨hr, .imm _, .unary rfl rfl hr, nofun⟩
  intro a ha
  rcases mem_addSubLog ha with ⟨hset, y, hy, rfl⟩ | ha | rfl
  · exact .record (hflags hset) hsize hl (hsides y hy)
  · exact logged_moveLog hl hrd a ha
  · cases sub with
    | true => exact .compute rfl hl (Operand.fills_of rfl hr) hrd
    | false => exact .compute rfl hl (Operand.fills_of rfl hr) hrd

theorem logged_logicalLog (hflags : flags = true → form.setsFlags = true) (hsize : IsWidth size)
    (hop : op ∈ [Opcode.and, .or, .xor]) (hl : s.Source o size l) (hr : s.Source o size r)
    (hrd : rd < 32) : ∀ a ∈ logicalLog op flags l r rn rd size, s.Logged o form a := by
  obtain ⟨hdata, hunary, -⟩ := Opcode.binary_of_mem (by decide) hop
  intro a ha
  rcases mem_logicalLog ha with ⟨hset, rfl⟩ | ha | ha
  · exact .record (hflags hset) hsize (.binary rfl rfl hl hr) (.imm 0)
  · exact logged_moveLog hr hrd a ha
  · exact logged_emitToLog hdata hl (Operand.fills_of hunary hr) hrd a ha

theorem logged_loadLog (haccess : form.isAccess = true) (ht : rt < 32) :
    ∀ a ∈ loadLog m rt size, s.Logged o form a := by
  unfold loadLog
  intro a ha
  split at ha
  · rcases mem_moveLog ha with ⟨n, hn, rfl⟩ | ⟨rfl, hk⟩
    · exact .transfer haccess (sparesCompare_register rfl _ _ (destination_lt ht hn) size)
    · exact .slot haccess hk
  · unfold emitToLog destination? at ha
    by_cases h31 : rt = 31
    · rw [if_pos h31] at ha
      cases ha
    · rw [if_neg h31] at ha
      obtain rfl := List.mem_singleton.mp ha
      exact .transfer haccess (sparesCompare_register rfl _ _ ht size)

theorem logged_storeLog (haccess : form.isAccess = true) (v : Operand) :
    ∀ a ∈ storeLog v m, s.Logged o form a := by
  intro a ha
  obtain rfl := List.mem_singleton.mp ha
  exact .transfer haccess (sparesCompare_store v m)

theorem logged_stepBaseLog (hn : rn < 32) : ∀ a ∈ stepBaseLog rn step, s.Logged o form a := by
  cases step with
  | none => nofun
  | some n =>
    intro a ha
    obtain rfl := List.mem_singleton.mp ha
    exact .compute rfl (.register hn) (Operand.fills_of rfl (.imm _)) hn

theorem logged_transferLog (haccess : form.isAccess = true) (hr : rt < 32) :
    ∀ a ∈ t.transferLog o isLoad m rt size, s.Logged o form a := by
  unfold transferLog
  split
  · exact logged_loadLog haccess hr
  · exact logged_storeLog haccess _

end Logged

/-- **The actions of an instruction are such that its form can log.**  An instruction that has no meaning,
or that tests flags where none are known, is skipped before them. -/
theorem exists_logged (o : LiftOptions) (s : Lifting) (x : Inst) :
    ∃ as, (∀ a ∈ as, s.Logged o (Form.decode o.decoder x.raw x.addr) a) ∧
      (s.log o x = .ok as ∨ s.log o x = (skipLog o x).map (· ++ as) ∧
        ((Form.decode o.decoder x.raw x.addr).isModelled = false ∨
          (Form.decode o.decoder x.raw x.addr).testsFlags = true ∧ s.flags? = none)) := by
  have hskip : (skipLog o x).map (· ++ []) = skipLog o x := by
    cases skipLog o x with
    | error c => rfl
    | ok bs => simp [Except.map]
  have hproper := Form.proper_decode x.raw x.addr o.decoder
  unfold log
  generalize Form.decode o.decoder x.raw x.addr = form at hproper
  cases form with
  | nothing => exact ⟨[], nofun, .inl rfl⟩
  | call c =>
    refine ⟨_, ?_, .inl rfl⟩
    simp only [List.forall_mem_cons]
    exact ⟨.call rfl, .release rfl, .drop rfl, nofun⟩
  | constant v rd size => exact ⟨_, logged_moveLog (.imm v) hproper.1, .inl rfl⟩
  | insert imm mask rd size =>
    dsimp only
    unfold destination?
    by_cases h31 : rd = 31
    · rw [if_pos h31]
      exact ⟨[], nofun, .inl rfl⟩
    · rw [if_neg h31]
      cases (s.lookup? o rd).filter Operand.isImm with
      | some cur => exact ⟨_, logged_moveLog (.imm _) hproper.1, .inl rfl⟩
      | none =>
        refine ⟨_, ?_, .inl rfl⟩
        have hreg : s.Source o size (.register rd size) := .register hproper.1
        simp only [List.forall_mem_cons]
        exact ⟨.compute rfl hreg (Operand.fills_of rfl (.imm _)) hproper.1,
          .compute rfl hreg (Operand.fills_of rfl (.imm _)) hproper.1, nofun⟩
  | addSubImm sub flags imm rn rd size =>
    obtain ⟨hn, hd, hsize⟩ := hproper
    exact ⟨_, logged_addSubLog id hsize (source_readStack hn) (.imm imm) hd, .inl rfl⟩
  | addSubReg sub flags rm shift rn rd size =>
    obtain ⟨hm, hn, hd, hsize⟩ := hproper
    dsimp only
    split
    · exact ⟨[], nofun, .inl rfl⟩
    · exact ⟨_, logged_addSubLog id hsize (.read hn) (source_readShifted hm shift) hd, .inl rfl⟩
  | logical op flags b rn rd size =>
    obtain ⟨hop, hb, hn, hd, hsize⟩ := hproper
    exact ⟨_, logged_logicalLog id hsize hop (.read hn) (source_logicSource hb) hd, .inl rfl⟩
  | multiply sub rm ra rn rd size =>
    obtain ⟨hm, ha, hn, hd, -⟩ := hproper
    have hproduct : s.Source o size (.derived .mul (s.read o rn size) (s.read o rm size) .empty) :=
      .binary rfl rfl (.read hn) (.read hm)
    dsimp only
    split
    · exact ⟨_, logged_emitToLog rfl (.read ha) (Operand.fills_of rfl hproduct) hd, .inl rfl⟩
    split
    · exact ⟨_, logged_emitToLog rfl (.read hn) (Operand.fills_of rfl (.read hm)) hd, .inl rfl⟩
    · exact ⟨_, logged_emitToLog rfl (.read ha) (Operand.fills_of rfl hproduct) hd, .inl rfl⟩
  | bitfield op amount rn rd size =>
    obtain ⟨hop, hn, hd, -⟩ := hproper
    obtain ⟨hdata, hunary, -⟩ := Opcode.binary_of_mem (by decide) hop
    exact ⟨_, logged_emitToLog hdata (.read hn) (Operand.fills_of hunary (.imm amount)) hd, .inl rfl⟩
  | shiftBy op rm rn rd size =>
    obtain ⟨hop, hm, hn, hd, -⟩ := hproper
    obtain ⟨hdata, hunary, -⟩ := Opcode.binary_of_mem (by decide) hop
    have hplaces : s.Source o size (.derived .and (s.read o rm size)
        (.imm (UInt64.ofInt (size * 8 - 1)) size) .empty) := .binary rfl rfl (.read hm) (.imm _)
    exact ⟨_, logged_emitToLog hdata (.read hn) (Operand.fills_of hunary hplaces) hd, .inl rfl⟩
  | conditionSet equal rd size =>
    cases hc : s.flags? with
    | none => exact ⟨[], nofun, .inr ⟨hskip.symm, .inr ⟨rfl, rfl⟩⟩⟩
    | some c =>
      refine ⟨_, fun a ha => ?_, .inl rfl⟩
      unfold emitToLog destination? at ha
      by_cases h31 : rd = 31
      · rw [if_pos h31] at ha
        cases ha
      · rw [if_neg h31] at ha
        obtain rfl := List.mem_singleton.mp ha
        exact .test hc hproper.1
  | access tr rt rn off size step =>
    obtain ⟨ht, hn, -⟩ := hproper
    cases tr with
    | store =>
      exact ⟨_, List.forall_mem_append.mpr ⟨logged_storeLog rfl _, logged_stepBaseLog hn⟩, .inl rfl⟩
    | load =>
      exact ⟨_, List.forall_mem_append.mpr ⟨logged_loadLog rfl ht, logged_stepBaseLog hn⟩, .inl rfl⟩
    | other => exact ⟨_, logged_stepBaseLog hn, .inr ⟨rfl, .inl rfl⟩⟩
  | pair isLoad rt rt2 rn off size step =>
    obtain ⟨ht, ht2, hn, -⟩ := hproper
    exact ⟨_, List.forall_mem_append.mpr ⟨List.forall_mem_append.mpr ⟨logged_transferLog rfl ht,
      logged_transferLog rfl ht2⟩, logged_stepBaseLog hn⟩, .inl rfl⟩
  | unmodelled => exact ⟨[], nofun, .inr ⟨hskip.symm, .inl rfl⟩⟩

/-- The actions of an instruction are those of skipping it, if it is skipped, and then such that its form
can log. -/
theorem exists_append_of_log (hx : s.log o x = .ok as) : ∃ bs cs, as = bs ++ cs ∧
    (bs = [] ∨ skipLog o x = .ok bs) ∧
    ∀ a ∈ cs, s.Logged o (Form.decode o.decoder x.raw x.addr) a := by
  obtain ⟨cs, hcs, hlog | ⟨hlog, -⟩⟩ := s.exists_logged o x
  · exact ⟨[], cs, Except.ok.inj (hx.symm.trans hlog), .inl rfl, hcs⟩
  · rw [hlog] at hx
    cases hskip : skipLog o x with
    | error c =>
      rw [hskip] at hx
      cases hx
    | ok bs =>
      rw [hskip] at hx
      exact ⟨bs, cs, (Except.ok.inj hx).symm, .inr rfl, hcs⟩

/-- **What holds of what is skipped and of what can be logged** holds of all actions of an instruction. -/
theorem forall_mem_log {P : Action → Prop} (hx : s.log o x = .ok as)
    (hskip : ∀ bs, skipLog o x = .ok bs → ∀ a ∈ bs, P a)
    (hlogged : ∀ a, s.Logged o (Form.decode o.decoder x.raw x.addr) a → P a) : ∀ a ∈ as, P a := by
  obtain ⟨bs, cs, rfl, hbs, hcs⟩ := exists_append_of_log hx
  refine List.forall_mem_append.mpr ⟨?_, fun a ha => hlogged a (hcs a ha)⟩
  rcases hbs with rfl | hbs
  · nofun
  · exact hskip bs hbs

/-- **An instruction with a meaning has actions**, unless it tests flags where none are known. -/
theorem exists_log (hmodelled : (Form.decode o.decoder x.raw x.addr).isModelled = true)
    (htests : (Form.decode o.decoder x.raw x.addr).testsFlags = true → s.flags? ≠ none) :
    ∃ as, s.log o x = .ok as ∧ ∀ a ∈ as, s.Logged o (Form.decode o.decoder x.raw x.addr) a := by
  obtain ⟨as, has, hlog | ⟨-, hno | ⟨htest, hnone⟩⟩⟩ := s.exists_logged o x
  · exact ⟨as, hlog, has⟩
  · cases hno.symm.trans hmodelled
  · exact absurd hnone (htests htest)

/-- A form that is no call and leaves the flags alone keeps the comparison. -/
theorem Logged.keeps {form : Form} (h : s.Logged o form a) (hflags : form.setsFlags = false)
    (hcall : form.isCall = false) : a.keeps = true := by
  cases h with
  | record hset => cases hflags.symm.trans hset
  | release h | drop h => cases hcall.symm.trans h
  | compute | test | note | call | transfer | slot => rfl

/-! ## Code that is appended -/

/-- What an action appends neither jumps nor returns. -/
def Action.IsPlain : Action → Prop
  | append i => i.op.endsBlock = false
  | _ => True

theorem grows_act (h : a.IsPlain) : s.Grows (s.act a) := by
  cases a with
  | append i => exact grows_emit h
  | record | drop | hold | release => exact .of_code_eq rfl

theorem Logged.isPlain {form : Form} (h : s.Logged o form a) : a.IsPlain := by
  cases h with
  | compute hop => exact (Opcode.writes_of_isData hop).2
  | @test _ equal => cases equal <;> rfl
  | transfer _ hi => exact hi.plain.1
  | call => rfl
  | record | note | release | drop | slot => trivial

theorem isPlain_skipLog (h : skipLog o x = .ok as) : ∀ a ∈ as, a.IsPlain := by
  unfold skipLog at h
  split at h
  · cases h
  · have hund : Opcode.und.endsBlock = false := rfl
    split at h <;> cases h <;> simp [Action.IsPlain, hund]

/-- **Lifting an instruction appends plain ones.** -/
theorem grows_of_inst (h : s.inst o x = .ok t) : s.Grows t := by
  obtain ⟨as, hlog, rfl⟩ := exists_log_of_inst h
  exact replay_induction (P := s.Grows) (fun hs ha => hs.trans (grows_act ha)) (.refl s)
    (forall_mem_log hlog (fun _ => isPlain_skipLog) fun _ => Logged.isPlain)

theorem grows_of_insts {is : List Inst} (h : s.insts o is = .ok t) : s.Grows t := by
  induction is generalizing s with
  | nil =>
    cases h
    exact .refl _
  | cons x is ih =>
    rw [insts] at h
    cases hx : s.inst o x with
    | error c =>
      rw [hx] at h
      cases h
    | ok s₁ =>
      rw [hx] at h
      exact (grows_of_inst hx).trans (ih h)

/-- **The code of a block's instructions is plain.** -/
theorem plain_of_insts {is : List Inst} (h : Lifting.insts o {} is = .ok s) : Plain s.code := by
  obtain ⟨js, hcode, hp⟩ := grows_of_insts h
  rw [hcode]
  exact hp

end Lifting

end Deflatten
