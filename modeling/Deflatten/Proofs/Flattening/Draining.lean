import Deflatten.Proofs.Dispatch.Upkeep
import Deflatten.Proofs.Flattening.Detection

/-!
# Proofs/Flattening/Draining — every edge into the chain is led past it

All that leads into a chain from outside sets the state first, or is a block that such blocks jump
to, so the value is known and the edge goes straight to its case.  `Func.Draining` is what holds
while the fathers of the chain are taken in turn; with none left, the chain cannot be reached, and
all that can be reached does nothing with the state but set it (`Func.Chained.drains`).
-/

namespace Deflatten

/-! ## Instructions that only set the state -/

/-- Does not read the variable, and writes it only where the write may be dropped. -/
def Insn.OnlySets (v : Var) (i : Insn) : Prop :=
  v ∉ i.reads ∧ (i.def? = some v → i.op.isRemovable = true)

theorem Insn.Ignores.onlySets {v : Var} {i : Insn} (h : i.Ignores v) : i.OnlySets v :=
  ⟨h.2, fun hd => absurd hd h.1⟩

theorem Insn.portable_onlySets (v : Var) : Portable (OnlySets v) where
  goto := fun s => ((portable_ignores v).goto s).onlySets
  withTarget := fun {i} s h => by
    refine ⟨by simpa using h.1, fun hd => ?_⟩
    exact h.2 (by simpa using hd)

namespace CasePlan

variable {p : CasePlan} {v : Var} {b : Block}

theorem onlySets_store (hv : p.state.var? = some v) (j : Int) : (p.store j).OnlySets v := by
  have hreads : (p.store j).reads = [] := by
    unfold Insn.reads
    rw [if_neg (show (p.store j).d.kind ≠ .expr from (Operand.kind_of_var? hv).2)]
    rfl
  exact ⟨by simp [hreads], fun _ => rfl⟩

/-- A block that works only sets the state. -/
theorem Works.all_onlySets (h : p.Works v b) (hv : p.state.var? = some v) :
    b.All (Insn.OnlySets v) := by
  cases h with
  | sets is j hj hi hv' =>
    intro i hmem
    rw [hi, List.mem_append] at hmem
    rcases hmem with hmem | hmem
    · exact (hv' i hmem).onlySets
    · rcases List.mem_cons.mp hmem with rfl | hmem
      · exact onlySets_store hv j
      · exact List.mem_singleton.mp hmem ▸ (Insn.portable_onlySets v).goto _
  | returns t ht hr hv' => exact fun i hi => (hv' i hi).onlySets
  | chooses t ht hc hv' => exact fun i hi => (hv' i hi).onlySets

/-- After a block that sends to a case, the state is the number of the case. -/
theorem get?_execBody (hv : p.state.var? = some v) {is : List Insn} {j t : Int}
    (hi : b.insns = is ++ [p.store j, .goto t]) (e : Env) :
    (b.execBody e).get? v = some (p.number j) := by
  have hi : b.insns = (is ++ [p.store j]) ++ [.goto t] := by rw [hi, List.append_assoc]; rfl
  rw [Block.execBody, Block.body_of_append hi rfl, List.foldl_append, List.foldl_cons,
    List.foldl_nil, Env.exec, def?_store hv]
  simp [result?_store, Env.assign]

/-- **A block that sends to a case**: it sets the state to the number of the case, and jumps. -/
def Sends (p : CasePlan) (t : Int) (b : Block) : Prop :=
  ∃ (is : List Insn) (j : Nat), j < p.count ∧ b.insns = is ++ [p.store j, .goto t]

theorem Sends.exits_eq {t : Int} (h : p.Sends t b) : b.exits = [t] := by
  obtain ⟨is, j, -, hi⟩ := h
  have hi : b.insns = (is ++ [p.store j]) ++ [.goto t] := by rw [hi, List.append_assoc]; rfl
  exact Block.exits_of_goto hi

theorem Sends.congr {t : Int} {b' : Block} (h : p.Sends t b) (hc : b'.content = b.content) :
    p.Sends t b' := by
  obtain ⟨is, j, hj, hi⟩ := h
  exact ⟨is, j, hj, (Block.insns_congr hc).trans hi⟩

end CasePlan

namespace Func

variable {f g h k : Func} {p : CasePlan} {v : Var} {n : Nat} {b : Block}
  {s x y src target : Int} {fathers touched path : List Int}

namespace Chained

/-! ## Blocks that lead into the chain -/

/-- **What leads into the chain sends to a case, or is the block that jumps back.** -/
theorem father (h : f.Chained p v) (hp : p.Sound v) (he : f.Edge x 1) (hb : f.block? x = some b) :
    (p.Sends 1 b ∧ (p.dispatch = 1 ∨ x = 0)) ∨
      (x = p.dispatch ∧ p.dispatch = 2 * p.count ∧ b.insns = [.goto 1]) := by
  have h3 := hp.three_le
  have hmem : 1 ∈ b.exits := by
    obtain ⟨b', hb', hx⟩ := id he
    exact Option.mem_unique hb' hb ▸ hx
  rcases h.edge hp he with ⟨rfl, -⟩ | ⟨i, _, _, hy⟩ | ⟨hx, -⟩
  · obtain ⟨b₀, hb₀, hi⟩ := h.prologue
    obtain rfl := Option.mem_unique hb₀ hb
    exact .inl ⟨⟨[], 0, by omega, hi⟩, .inr rfl⟩
  · omega
  · rcases h.behind hp hx hb with hw | ⟨hxd, hi⟩
    · cases hw with
      | sets is j hj hi hv =>
        have hsends : p.Sends p.dispatch b := ⟨is, j, hj, hi⟩
        rw [hsends.exits_eq, List.mem_singleton] at hmem
        exact .inl ⟨hmem ▸ hsends, .inl hmem.symm⟩
      | returns t ht hr hv => simp [Block.exits_ret ht hr] at hmem
      | chooses t ht hc hv hfree hexits =>
        have := (hexits 1 hmem).1
        omega
    · have := hp.dispatch
      exact .inr ⟨hxd, by omega, hi⟩

/-- What leads to the block that jumps back sends to a case. -/
theorem feeder (h : f.Chained p v) (hp : p.Sound v) (hdisp : p.dispatch = 2 * p.count)
    (he : f.Edge x p.dispatch) (hb : f.block? x = some b) :
    p.Sends p.dispatch b ∧ (p.count : Int) ≤ x ∧ x ≠ p.dispatch := by
  have h3 := hp.three_le
  have hmem : p.dispatch ∈ b.exits := by
    obtain ⟨b', hb', hx⟩ := id he
    exact Option.mem_unique hb' hb ▸ hx
  have hback : b.insns ≠ [.goto 1] := fun hi => by
    rw [Block.exits_of_goto (show b.insns = [] ++ [.goto 1] from hi), List.mem_singleton] at hmem
    omega
  rcases h.edge hp he with ⟨-, hy⟩ | ⟨i, hi, rfl, hy⟩ | ⟨hx, -⟩
  · omega
  · omega
  · refine ⟨?_, hx, fun hxd => hback (h.back (by omega) (hxd ▸ hb))⟩
    rcases h.behind hp hx hb with hw | ⟨-, hi⟩
    · cases hw with
      | sets is j hj hi hv => exact ⟨is, j, hj, hi⟩
      | returns t ht hr hv => simp [Block.exits_ret ht hr] at hmem
      | chooses t ht hc hv hfree hexits => exact absurd rfl (hexits _ hmem).2
    · exact absurd hi hback

/-- Outside the chain the state is only set. -/
theorem all_onlySets (h : f.Chained p v) (hp : p.Sound v) (hb : f.block? s = some b) :
    (1 ≤ s ∧ s < p.count) ∨ b.All (Insn.OnlySets v) := by
  have hgoto := (Insn.portable_onlySets v).goto
  have hs := (lt_of_block? hb).1
  by_cases hin : 1 ≤ s ∧ s < p.count
  · exact .inl hin
  · refine .inr ?_
    rcases Int.lt_or_le s 1 with hlt | hge
    · obtain rfl : s = 0 := by omega
      obtain ⟨b₀, hb₀, hi⟩ := h.prologue
      obtain rfl := Option.mem_unique hb₀ hb
      intro i hmem
      rw [hi, List.mem_cons, List.mem_singleton] at hmem
      rcases hmem with rfl | rfl
      · exact CasePlan.onlySets_store hp.state_eq 0
      · exact hgoto 1
    · rcases h.behind hp (by omega) hb with hw | ⟨-, hi⟩
      · exact hw.all_onlySets hp.state_eq
      · intro i hmem
        rw [hi, List.mem_singleton] at hmem
        exact hmem ▸ hgoto 1

end Chained

/-! ## Steps -/

/-- **A chain whose fathers are taken in turn**: of the blocks outside it, only `fathers` still lead
into it, and to its start; nothing but `touched` has changed, no block of the chain among it; and
outside the chain the state is only set. -/
structure Draining (k h : Func) (n : Nat) (v : Var) (fathers touched : List Int) : Prop where
  wellFormed : h.WellFormed
  length_le : k.blocks.length ≤ h.blocks.length
  /-- Blocks that were not touched do what they did. -/
  same : ∀ {s : Int}, s < k.blocks.length → s ∉ touched → h.content? s = k.content? s
  /-- The chain was not touched. -/
  outside : ∀ s ∈ touched, ¬ (1 ≤ s ∧ s < n)
  /-- Who leads into the chain. -/
  enters : ∀ {x y : Int}, h.Edge x y → 1 ≤ y → y < n → (1 ≤ x ∧ x < n) ∨ (y = 1 ∧ x ∈ fathers)
  /-- What the others do. -/
  tame : ∀ {s b}, h.block? s = some b → (1 ≤ s ∧ s < n) ∨ b.All (Insn.OnlySets v)

namespace Draining

/-- **An edge is led past the chain.** -/
theorem bypass (D : Draining k h n v fathers touched) (hb : h.block? src = some b)
    (hx : b.exits = [1]) (hsrc : ¬ (1 ≤ src ∧ src < n)) (htgt : ∃ t, h.block? target = some t)
    (hn : (n : Int) ≤ target) (hpath : h.carried path = .ok []) (rest : List Int)
    (hrest : ∀ x ∈ fathers, x = src ∨ x ∈ rest) :
    ∃ g, h.Diverts src 1 target path g ∧
      Draining k g n v rest (src :: touched) ∧
      (∀ {x y}, x ≠ src → (g.Edge x y ↔ h.Edge x y)) ∧ ∀ {y}, g.Edge src y → y = target := by
  have hpos := (lt_of_block? htgt.choose_spec).1
  have hf := D.wellFormed.toShaped
  have hone : 1 ∈ b.exits := by simp [hx]
  obtain ⟨g, b', hg, halt, hb', hcase⟩ := turn_spec hf hb hone htgt
  have hcase : b'.insns = b.insns ++ [.goto target] ∨ b.Retargets (moved 1 target) b' :=
    hcase.imp (fun hc => congrArg Prod.fst hc.2.2) And.right
  have hother : ∀ {x y}, x ≠ src → (g.Edge x y ↔ h.Edge x y) := fun hx =>
    edge_congr (halt.content_eq hx)
  have hsole : ∀ {y}, g.Edge src y → y = target := by
    rintro y ⟨b₁, hb₁, hy⟩
    obtain rfl := Option.mem_unique hb₁ hb'
    rcases hcase with hi | hr
    · rw [Block.exits_of_goto hi] at hy
      exact List.mem_singleton.mp hy
    · rcases mem_exits_moved (hf.fits hb) hone hpos hr hy with ⟨hy, hne⟩ | hy
      · rw [hx, List.mem_singleton] at hy
        exact absurd hy hne
      · exact hy
  have htame : b'.All (Insn.OnlySets v) := by
    have hall := (D.tame hb).resolve_left hsrc
    rcases hcase with hi | hr
    · intro i hmem
      rw [hi, List.mem_append, List.mem_singleton] at hmem
      rcases hmem with hmem | rfl
      · exact hall i hmem
      · exact (Insn.portable_onlySets v).goto target
    · exact hall.retargets (Insn.portable_onlySets v) hr
  refine ⟨g, ?_, ⟨halt.wellFormed, ?_, ?_, ?_, ?_, ?_⟩, hother, hsole⟩
  · exact ⟨[], hpath, (bypass_eq hb).trans hg⟩
  · rw [halt.length_eq]
    exact D.length_le
  · intro s hs hnot
    rw [List.mem_cons, not_or] at hnot
    exact (halt.content_eq hnot.1).trans (D.same hs hnot.2)
  · intro s hs
    rcases List.mem_cons.mp hs with rfl | hs
    · exact hsrc
    · exact D.outside s hs
  · intro x y hxy hy hy'
    by_cases hxs : x = src
    · have := hsole (hxs ▸ hxy)
      omega
    · rcases D.enters ((hother hxs).mp hxy) hy hy' with hin | ⟨hy, hmem⟩
      · exact .inl hin
      · exact .inr ⟨hy, (hrest x hmem).resolve_left hxs⟩
  · intro s b₁ hb₁
    by_cases hss : s = src
    · exact .inr (Option.mem_unique hb' (hss ▸ hb₁) ▸ htame)
    · obtain ⟨b₂, hb₂, hc⟩ := exists_of_content? (halt.content_eq hss).symm hb₁
      exact (D.tame hb₂).imp_right fun hall => hall.of_insns (Block.insns_congr hc).symm

/-- **A block that jumps back gets a copy for one of its predecessors.** -/
theorem split (D : Draining k h n v fathers touched) {q father : Int} (he : h.Edge q father)
    (hq : ¬ (1 ≤ q ∧ q < n)) (hfather : ¬ (1 ≤ father ∧ father < n)) (hn : n ≤ k.blocks.length) :
    ∃ h₁ g, duplicate father h = .ok (h.blocks.length : Int) h₁ ∧
      redirect q father h.blocks.length h₁ = .ok () g ∧ h.Split g q father ∧
      Draining k g n v ((h.blocks.length : Int) :: fathers) (q :: touched) := by
  have hlen := D.length_le
  obtain ⟨h₁, g, hdup, hred, hs⟩ := split_spec D.wellFormed.toShaped he
  refine ⟨h₁, g, hdup, hred, hs, hs.wellFormed, ?_, ?_, ?_, ?_, ?_⟩
  · rw [hs.length_eq]
    omega
  · intro s hs' hnot
    rw [List.mem_cons, not_or] at hnot
    exact (hs.content_eq hnot.1 (by omega)).trans (D.same hs' hnot.2)
  · intro s hs'
    rcases List.mem_cons.mp hs' with rfl | hs'
    · exact hq
    · exact D.outside s hs'
  · intro x y hxy hy hy'
    rcases hs.edge D.wellFormed.toShaped hxy with ⟨hxy, -⟩ | ⟨rfl, hfy⟩ | ⟨-, rfl⟩
    · exact (D.enters hxy hy hy').imp_right fun hin => ⟨hin.1, List.mem_cons_of_mem _ hin.2⟩
    · exact .inr ⟨((D.enters hfy hy hy').resolve_left hfather).1, List.mem_cons_self⟩
    · omega
  · intro s b hb
    by_cases hsq : s = q
    · obtain ⟨b₀, b', hb₀, hb', -, hr⟩ := hs.pred
      obtain rfl := Option.mem_unique hb' (hsq ▸ hb)
      exact .inr (((D.tame hb₀).resolve_left hq).retargets (Insn.portable_onlySets v) hr)
    · by_cases hsn : s = h.blocks.length
      · obtain ⟨b₀, hb₀, hc⟩ := exists_of_content? (hsn ▸ hs.copy_eq).symm hb
        exact .inr (((D.tame hb₀).resolve_left hfather).of_insns (Block.insns_congr hc).symm)
      · obtain ⟨b₀, hb₀, hc⟩ := exists_of_content? (hs.content_eq hsq hsn).symm hb
        exact (D.tame hb₀).imp_right fun hall => hall.of_insns (Block.insns_congr hc).symm

/-! ## Ways through the chain -/

variable {d : Region} {j : Nat}

theorem comparison (D : Draining k h p.count v fathers touched) (hk : k.Chained p v) {i : Nat}
    (hi : i + 1 < p.count) :
    h.content? ((i + 1 : Nat) : Int) = some (p.comparison i).content := by
  have hlen := hk.length_le
  rw [D.same (by omega) fun hmem => D.outside _ hmem (by omega)]
  exact hk.comparison hi

/-- Nothing is computed on the way. -/
theorem carried_eq_nil (D : Draining k h p.count v fathers touched) (hk : k.Chained p v)
    (hpath : ∀ x ∈ path, 1 ≤ x ∧ x < p.count) : h.carried path = .ok [] := by
  have hbody : ∀ x ∈ path, ∃ b, h.block? x = some b ∧ b.body = [] := by
    intro x hx
    obtain ⟨hx, hx'⟩ := hpath x hx
    obtain ⟨i, rfl⟩ : ∃ i : Nat, x = (i + 1 : Nat) := ⟨(x - 1).toNat, by omega⟩
    obtain ⟨b, hb, hc⟩ := content?_eq_some_iff.mp (D.comparison hk (i := i) (by omega))
    exact ⟨b, hb, (Block.body_congr hc).trans (p.terminator?_comparison i).2⟩
  have hnil : h.bodies path = [] := by
    refine List.eq_nil_iff_forall_not_mem.mpr (forall_bodies fun x hx b hb i hi => ?_)
    obtain ⟨b', hb', hempty⟩ := hbody x hx
    obtain rfl := Option.mem_unique hb' hb
    simp [hempty] at hi
  rw [carried_eq fun x hx => (hbody x hx).imp fun _ => And.left, hnil]

/-- The number of a case leads to it, through the chain. -/
theorem resolves (D : Draining k h p.count v fathers touched) (hk : k.Chained p v)
    (hp : p.Sound v) (hd : d.Dispatches p v) (hj : j < p.count) :
    ∃ path, d.resolvePath? h (p.number j) = .ok (some ((p.count : Int) + j, path)) ∧
      ∀ x ∈ path, 1 ≤ x ∧ x < p.count := by
  obtain ⟨path, hres⟩ := hd.resolvePath? hp (D.comparison hk) hj
  obtain ⟨state, -, hwalk⟩ := Region.walks_of_resolvePath? hres
  exact ⟨path, hres, fun x hx => (hd.isInternal x).mp (hwalk.mem x hx).1⟩

end Draining

/-! ## Tracking -/

variable {d : Region} {b' : Block}

theorem stateAfter?_eq {bs : List Block} (h : path.map f.block? = bs.map some) :
    f.stateAfter? path v = .ok ((bs.foldl (fun e b => b.execBody e) Table.empty).get? v) := by
  have hbs : f.getBlocks path = .ok bs := mapM_getBlock_eq_ok_iff.mpr h
  rw [stateAfter?, hbs, Except.map]

theorem stateOn?_of_stateAfter? {cfg : Config} {c : UInt64}
    (hlen : ((x :: path).length : Int) ≤ cfg.maxTrackDepth)
    (h : f.stateAfter? (x :: path) v = .ok (some c)) :
    d.stateOn? cfg f v (x :: path) = .ok (some c) := by
  obtain ⟨steps, hsteps⟩ : ∃ steps, (cfg.maxTrackDepth + 1 - (x :: path).length).toNat = steps + 1 :=
    ⟨(cfg.maxTrackDepth - (x :: path).length).toNat, by omega⟩
  rw [Region.stateOn?, Region.trackOn?, hsteps, Region.track?, h]
  rfl

/-- **A block that sends to a case leaves its number.** -/
theorem stateOn?_sends (hp : p.Sound v) (hb : h.block? x = some b) (hs : p.Sends y b) :
    ∃ j < p.count, d.stateOn? {} h v [x] = .ok (some (p.number j)) := by
  obtain ⟨is, j, hj, hi⟩ := hs
  refine ⟨j, hj, stateOn?_of_stateAfter? (show ((1 : Nat) : Int) ≤ 8 by decide) ?_⟩
  rw [stateAfter?_eq (show [x].map h.block? = [b].map some by simp [hb])]
  exact congrArg Except.ok (CasePlan.get?_execBody hp.state_eq hi _)

theorem execBody_back (hi : b.insns = [.goto y]) (e : Env) : b.execBody e = e := by
  rw [Block.execBody, Block.body_of_append (show b.insns = [] ++ [.goto y] from hi) rfl,
    List.foldl_nil]

/-- So does a block that jumps back, after such a block. -/
theorem stateOn?_back (hp : p.Sound v) (hb : h.block? x = some b) (hs : p.Sends y b)
    (hb' : h.block? y = some b') (hi : b'.insns = [.goto 1]) :
    ∃ j < p.count, d.stateOn? {} h v [x, y] = .ok (some (p.number j)) := by
  obtain ⟨is, j, hj, hins⟩ := hs
  refine ⟨j, hj, stateOn?_of_stateAfter? (show ((2 : Nat) : Int) ≤ 8 by decide) ?_⟩
  rw [stateAfter?_eq (show [x, y].map h.block? = [b, b'].map some by simp [hb, hb']),
    List.foldl_cons, List.foldl_cons, List.foldl_nil, execBody_back hi]
  exact congrArg Except.ok (CasePlan.get?_execBody hp.state_eq hins _)

/-- A block that jumps back is tracked to its predecessor, if it has but one. -/
theorem stateOn?_father (hb : f.block? y = some b) (hi : b.insns = [.goto 1]) :
    d.stateOn? {} f v [y] = match b.preds with
      | [x] => if d.isInternal x || x ∈ [y] then .ok none else d.stateOn? {} f v [x, y]
      | _ => .ok none := by
  have hst : f.stateAfter? [y] v = .ok none := by
    rw [stateAfter?_eq (show [y].map f.block? = [b].map some by simp [hb]), List.foldl_cons,
      List.foldl_nil, execBody_back hi]
    rfl
  have hsteps : (({} : Config).maxTrackDepth + 1 - ([y].length : Int)).toNat = 7 + 1 := rfl
  rw [Region.stateOn?, Region.trackOn?, hsteps, Region.track?, hst]
  simp only [getBlock_of_block? hb, bind, Except.bind]
  rcases b.preds with _ | ⟨x, _ | ⟨x', xs⟩⟩
  · rfl
  · dsimp only
    split <;> rfl
  · rfl

end Func

namespace Removal

variable {k : Func} {p : CasePlan} {v : Var} {d : Region} {w : Work} {cfg : Config}
  {father : Int} {fb : Block} {touched : List Int} {rs : List Route}

/-! ## Routes -/

/-- **A route past the chain**: from a block that leads to the father to a case, through the
chain. -/
structure Route.Skips (k : Func) (p : CasePlan) (father : Int) (r : Route) : Prop where
  edge : k.Edge r.pred father
  ne : r.pred ≠ father
  /-- It starts outside the chain. -/
  outside : ¬ (1 ≤ r.pred ∧ r.pred < p.count)
  /-- It ends at a case. -/
  target : (p.count : Int) ≤ r.target ∧ r.target < 2 * p.count
  /-- It leads through the chain. -/
  path : ∀ x ∈ r.path, 1 ≤ x ∧ x < p.count

theorem Route.Skips.lt {r : Route} (h : r.Skips k p father) : r.pred < k.blocks.length := by
  obtain ⟨b, hb, -⟩ := h.edge
  exact (Func.lt_of_block? hb).2

/-- **A father all of whose routes are known is drained.**  Each route but the last takes a copy of
the father with it, and the last one the father itself; there are copies enough. -/
theorem takeRoutes_drains (hk : k.Chained p v) (hfb : k.block? father = some fb)
    (hx : fb.exits = [1]) (hout : ¬ (1 ≤ father ∧ father < p.count)) (hne : rs ≠ [])
    (D : k.Draining w.func p.count v [father] touched) (hfather : father ∉ touched)
    (hskips : ∀ r ∈ rs, r.Skips k p father ∧ r.pred ∉ touched)
    (hnodup : (rs.map Route.pred).Nodup)
    (hcopies : (w.copies : Int) + rs.length ≤ cfg.maxDuplications + 1) :
    Succeeds (takeRoutes cfg 1 father true rs) w fun _ w' =>
      (∃ touched', k.Draining w'.func p.count v [] touched') ∧ w'.changed = true := by
  have hlen := hk.length_le
  have hflt := (Func.lt_of_block? hfb).2
  -- a case is a block of any function on the way
  have htarget : ∀ {h : Func} {r : Route}, k.blocks.length ≤ h.blocks.length → r.Skips k p father →
      ∃ t, h.block? r.target = some t := fun hle hr =>
    Func.exists_block? (by have := hr.target; omega) (by have := hr.target; omega)
  refine succeeds_takeRoutes (S := fun w rs => rs ≠ [] ∧ ∃ touched,
    k.Draining w.func p.count v [father] touched ∧ father ∉ touched ∧
    (∀ r ∈ rs, r.Skips k p father ∧ r.pred ∉ touched) ∧ (rs.map Route.pred).Nodup ∧
    (w.copies : Int) + rs.length ≤ cfg.maxDuplications + 1)
    (fun h => absurd rfl h.1) ?_ ?_ ?_ ⟨hne, touched, D, hfather, hskips, hnodup, hcopies⟩
  · rintro w r rs ⟨-, touched, -, -, -, -, hcopies⟩ hmore hspent
    have hpos := List.length_pos_iff.mpr fun hnil => hmore ⟨rfl, hnil⟩
    rw [List.length_cons] at hcopies
    omega
  · rintro w r - ⟨-, touched, D, hfather, hskips, -⟩
    obtain ⟨hr, -⟩ := hskips r (by simp)
    obtain ⟨b, hb, hc⟩ := Func.exists_of_content? (D.same hflt hfather) hfb
    obtain ⟨g, hg, D', -⟩ := D.bypass hb (by rw [Block.exits_congr hc, hx]) hout
      (htarget D.length_le hr) hr.target.1 (D.carried_eq_nil hk hr.path) [] (by simp)
    exact ⟨g, hg, fun w' hw' hch => ⟨⟨_, hw' ▸ D'⟩, hch⟩⟩
  · rintro w r rs ⟨-, touched, D, hfather, hskips, hnodup, hcopies⟩ hmore
    obtain ⟨hr, hrt⟩ := hskips r (by simp)
    have hle := D.length_le
    obtain ⟨b, hb, hc⟩ := Func.exists_of_content? (D.same hflt hfather) hfb
    have hpred : w.func.Edge r.pred father := (Func.edge_congr (D.same hr.lt hrt)).mpr hr.edge
    obtain ⟨h₁, h₂, hdup, hred, hsplit, D₂⟩ := D.split hpred hr.outside hout (by omega)
    obtain ⟨cb, hcb, hcc⟩ := Func.exists_of_content? hsplit.copy_eq hb
    have hcx : cb.exits = [1] := by rw [Block.exits_congr hcc, Block.exits_congr hc, hx]
    obtain ⟨h₃, hby, D₃, -⟩ := D₂.bypass hcb hcx (by omega) (htarget D₂.length_le hr) hr.target.1
      (D₂.carried_eq_nil hk hr.path) [father] (by simp)
    obtain ⟨hnot, hnodup⟩ := List.nodup_cons.mp hnodup
    refine ⟨h₁, h₂, h₃, hdup, hred, hby, fun w' hw' _ hc' => ⟨fun hnil => hmore ⟨rfl, hnil⟩, _,
      hw' ▸ D₃, ?_, fun r' hr' => ?_, hnodup, ?_⟩⟩
    · simp only [List.mem_cons, not_or]
      exact ⟨by omega, hr.ne.symm, hfather⟩
    · obtain ⟨hs', hnt'⟩ := hskips r' (by simp [hr'])
      refine ⟨hs', ?_⟩
      simp only [List.mem_cons, not_or]
      have := hs'.lt
      exact ⟨by omega, fun heq => hnot (heq ▸ List.mem_map_of_mem hr'), hnt'⟩
    · rw [List.length_cons] at hcopies
      rw [hc']
      push_cast
      omega

/-- Routes are found for all predecessors that send to a case. -/
theorem routesThrough_eq (hk : k.Chained p v) (hp : p.Sound v) (hd : d.Dispatches p v)
    (D : k.Draining w.func p.count v [father] touched) (hb : w.func.block? father = some fb)
    (hi : fb.insns = [.goto 1]) {preds : List Int}
    (hpreds : ∀ q ∈ preds, k.Edge q father ∧ q ≠ father ∧ (p.count : Int) ≤ q ∧
      ∃ b, w.func.block? q = some b ∧ p.Sends father b) :
    ∃ rs, routesThrough {} d w.func v father preds = .ok rs ∧ rs.map Route.pred = preds ∧
      ∀ r ∈ rs, r.Skips k p father := by
  induction preds with
  | nil => exact ⟨[], rfl, rfl, by simp⟩
  | cons q preds ih =>
    obtain ⟨rs, hrs, hmap, hall⟩ := ih fun q hq => hpreds q (by simp [hq])
    obtain ⟨he, hne, hq, b, hbq, hsends⟩ := hpreds q (by simp)
    obtain ⟨j, hj, hst⟩ := Func.stateOn?_back (d := d) hp hbq hsends hb hi
    obtain ⟨path, hres, hpath⟩ := D.resolves hk hp hd hj
    have hin := hd.isInternal_eq_false (s := q) (by omega)
    have hroute : routeFrom? {} d w.func v father q =
        .ok (some ⟨q, (p.count : Int) + j, path⟩) := by
      simp [routeFrom?, hne, hin, hst, hres, bind, Except.bind, Except.map]
    obtain ⟨routes, hroutes, rfl⟩ := map_eq_ok_iff.mp hrs
    have hcons : routesThrough {} d w.func v father (q :: preds) =
        .ok (⟨q, (p.count : Int) + j, path⟩ :: routes.filterMap id) := by
      refine map_eq_ok_iff.mpr ⟨some _ :: routes, ?_, rfl⟩
      rw [mapM_eq_ok_iff, List.map_cons, List.map_cons, hroute, mapM_eq_ok_iff.mp hroutes]
    refine ⟨_, hcons, by rw [List.map_cons, hmap], ?_⟩
    have hout : ¬ (1 ≤ q ∧ q < p.count) := by omega
    have htgt : (p.count : Int) ≤ p.count + j ∧ (p.count : Int) + j < 2 * p.count := by omega
    have hskips : Route.Skips k p father ⟨q, (p.count : Int) + j, path⟩ :=
      ⟨he, hne, hout, htgt, hpath⟩
    exact List.forall_mem_cons.mpr ⟨hskips, hall⟩

/-- A father that only such blocks lead to, two of them at least, is split. -/
theorem splitFather_drains (hk : k.Chained p v) (hp : p.Sound v) (hd : d.Dispatches p v)
    (hout : ¬ (1 ≤ father ∧ father < p.count)) (D : k.Draining w.func p.count v [father] touched)
    (hnot : father ∉ touched) (hlt : father < k.blocks.length)
    (hb : w.func.block? father = some fb) (hi : fb.insns = [.goto 1])
    (hpreds : ∀ q ∈ fb.preds, k.Edge q father ∧ q ∉ touched ∧ q ≠ father ∧ (p.count : Int) ≤ q ∧
      ∃ b, w.func.block? q = some b ∧ p.Sends father b)
    (htwo : 2 ≤ fb.preds.length)
    (hcopies : (w.copies : Int) + fb.preds.length ≤ ({} : Config).maxDuplications + 1) :
    Succeeds (splitFather {} d v father) w fun _ w' =>
      (∃ touched', k.Draining w'.func p.count v [] touched') ∧ w'.changed = true := by
  obtain ⟨kb, hkb, hc⟩ := Func.exists_of_content? (D.same hlt hnot).symm hb
  have hx : kb.exits = [1] := by
    rw [Block.exits_congr hc]
    exact Block.exits_of_goto (show fb.insns = [] ++ [.goto 1] from hi)
  obtain ⟨rs, hrs, hmap, hskips⟩ := routesThrough_eq hk hp hd D hb hi fun q hq =>
    ⟨(hpreds q hq).1, (hpreds q hq).2.2⟩
  have hlen : rs.length = fb.preds.length := by rw [← hmap, List.length_map]
  have hne : rs ≠ [] := List.ne_nil_of_length_pos (by omega)
  refine concludes_get_bind (concludes_lookup_bind_of_ok (Func.getBlock_of_block? hb) ?_)
  rw [if_neg (by omega)]
  refine concludes_lookup_bind_of_ok hrs ?_
  simp only [hlen, hd.entrySerial_eq, beq_self_eq_true, Bool.not_true, Bool.false_eq_true, if_false]
  rw [if_neg (by simpa using hne)]
  refine takeRoutes_drains hk hkb hx hout hne D hnot (fun r hr => ⟨hskips r hr, ?_⟩) ?_
    (by omega)
  · exact (hpreds r.pred (hmap ▸ List.mem_map_of_mem hr)).2.1
  · rw [hmap]
    exact D.wellFormed.nodup_preds hb

/-- **The block that jumps back is drained**: if one block leads to it, its edge is moved, and if
several do, it is split. -/
theorem redirectFathers_back (hk : k.Chained p v) (hp : p.Sound v) (hd : d.Dispatches p v)
    (hdisp : p.dispatch = 2 * p.count) (D : k.Draining w.func p.count v [p.dispatch] touched)
    (hnot : p.dispatch ∉ touched) (hb : w.func.block? p.dispatch = some fb)
    (hlt : p.dispatch < k.blocks.length)
    (hfeeds : ∀ {x}, w.func.Edge x p.dispatch → k.Edge x p.dispatch ∧ x ∉ touched)
    (hfed : fb.preds ≠ [])
    (hcopies : (w.copies : Int) + fb.preds.length ≤ ({} : Config).maxDuplications + 1) :
    Succeeds (redirectFathers {} d v [p.dispatch]) w fun _ w' =>
      (∃ touched', k.Draining w'.func p.count v [] touched') ∧ w'.changed = true := by
  have h3 := hp.three_le
  have hlen := hk.length_le
  have hle := D.length_le
  have hout : ¬ (1 ≤ p.dispatch ∧ p.dispatch < p.count) := by omega
  obtain ⟨kb, hkb, hc⟩ := Func.exists_of_content? (D.same hlt hnot).symm hb
  have hi : fb.insns = [.goto 1] := (Block.insns_congr hc).symm.trans (hk.back (by omega) hkb)
  have hx : fb.exits = [1] := Block.exits_of_goto (show fb.insns = [] ++ [.goto 1] from hi)
  have hpreds : ∀ q ∈ fb.preds, k.Edge q p.dispatch ∧ q ∉ touched ∧ q ≠ p.dispatch ∧
      (p.count : Int) ≤ q ∧ ∃ b, w.func.block? q = some b ∧ p.Sends p.dispatch b := by
    intro q hq
    obtain ⟨he, hqt⟩ := hfeeds ((D.wellFormed.mem_preds hb q).mp hq)
    obtain ⟨b, hbq, -⟩ := id he
    obtain ⟨hsends, hqn, hqd⟩ := hk.feeder hp hdisp he hbq
    obtain ⟨b', hb', hc'⟩ := Func.exists_of_content? (D.same (Func.lt_of_block? hbq).2 hqt) hbq
    exact ⟨he, hqt, hqd, hqn, b', hb', hsends.congr hc'⟩
  have hstate := Func.stateOn?_father (d := d) (v := v) hb hi
  rw [redirectFathers]
  refine concludes_get_bind (concludes_lookup_bind_of_ok (Func.getBlock_of_block? hb) ?_)
  simp only [D.wellFormed.succs_eq hb, hx, hd.entrySerial_eq, List.mem_singleton,
    not_true_eq_false, if_false]
  rcases hps : fb.preds with _ | ⟨q, _ | ⟨q', qs⟩⟩
  · exact absurd hps hfed
  · obtain ⟨-, -, hqd, hqn, b, hbq, hsends⟩ := hpreds q (by simp [hps])
    obtain ⟨j, hj, hst⟩ := Func.stateOn?_back (d := d) hp hbq hsends hb hi
    obtain ⟨path, hres, hpath⟩ := D.resolves hk hp hd hj
    have hin := hd.isInternal_eq_false (s := q) (by omega)
    have htgt : ∃ t, w.func.block? ((p.count : Int) + j) = some t :=
      Func.exists_block? (by omega) (by omega)
    obtain ⟨g, hg, D', -⟩ := D.bypass hb hx hout htgt (by omega) (D.carried_eq_nil hk hpath) []
      (by simp)
    simp only [hps, hin, List.mem_singleton, hqd, decide_false, Bool.or_self, Bool.false_eq_true,
      if_false, hst] at hstate
    refine concludes_lookup_bind_of_ok hstate (concludes_lookup_bind_of_ok hres ?_)
    exact (succeeds_bypass hg).bind fun _ w' h => concludes_pure ⟨⟨_, h.1 ▸ D'⟩, h.2.1⟩
  · simp only [hps] at hstate
    refine concludes_lookup_bind_of_ok hstate ?_
    refine (splitFather_drains hk hp hd hout D hnot hlt hb hi hpreds (by simp [hps]) hcopies).bind
      fun _ w' h => concludes_get_bind ?_
    split <;> exact concludes_pure h

/-- **A father that sends to a case is drained**: its edge is moved to the case, so edges to the
blocks behind the cases are what they were. -/
theorem redirectFathers_sends (hk : k.Chained p v) (hp : p.Sound v) (hd : d.Dispatches p v)
    {x : Int} {rest : List Int} {b : Block} (D : k.Draining w.func p.count v (x :: rest) touched)
    (hb : w.func.block? x = some b) (hsends : p.Sends 1 b) (hout : ¬ (1 ≤ x ∧ x < p.count))
    {Q : Unit → Work → Prop}
    (hrest : ∀ w' : Work, k.Draining w'.func p.count v rest (x :: touched) →
      (∀ {y z : Int}, 2 * (p.count : Int) ≤ z → (w'.func.Edge y z ↔ w.func.Edge y z)) →
      w'.changed = true → w'.copies = w.copies → Succeeds (redirectFathers {} d v rest) w' Q) :
    Succeeds (redirectFathers {} d v (x :: rest)) w Q := by
  have h3 := hp.three_le
  have hlen := hk.length_le
  have hle := D.length_le
  have hx := hsends.exits_eq
  obtain ⟨j, hj, hst⟩ := Func.stateOn?_sends (d := d) hp hb hsends
  obtain ⟨path, hres, hpath⟩ := D.resolves hk hp hd hj
  have htgt : ∃ t, w.func.block? ((p.count : Int) + j) = some t :=
    Func.exists_block? (by omega) (by omega)
  obtain ⟨g, hg, D', hother, hsole⟩ := D.bypass hb hx hout htgt (by omega)
    (D.carried_eq_nil hk hpath) rest (by simp)
  rw [redirectFathers]
  refine concludes_get_bind (concludes_lookup_bind_of_ok (Func.getBlock_of_block? hb) ?_)
  simp only [D.wellFormed.succs_eq hb, hx, hd.entrySerial_eq, List.mem_singleton,
    not_true_eq_false, if_false]
  refine concludes_lookup_bind_of_ok hst (concludes_lookup_bind_of_ok hres ?_)
  refine (succeeds_bypass hg).bind ?_
  rintro _ w' ⟨hw', hch, hcopies⟩
  refine hrest w' (hw' ▸ D') (fun {y z} hz => ?_) hch hcopies
  rw [hw']
  by_cases hyx : y = x
  · subst hyx
    refine iff_of_false (fun he => ?_) ?_
    · have := hsole he
      omega
    · rintro ⟨b', hb', hmem⟩
      obtain rfl := Option.mem_unique hb' hb
      rw [hx, List.mem_singleton] at hmem
      omega
  · exact hother hyx

/-- **All fathers of a chain are drained.**  Those that send to a case themselves come first, and
their edges are moved; the block that jumps back is the last of them, and what leads to it has not
been touched when its turn comes. -/
theorem redirectFathers_drains (hk : k.Chained p v) (hp : p.Sound v) (hd : d.Dispatches p v)
    (hfed : p.dispatch = 2 * p.count → ∀ {kb}, k.block? p.dispatch = some kb →
      kb.preds ≠ [] ∧ (kb.preds.length : Int) ≤ ({} : Config).maxDuplications + 1)
    {fathers : List Int} (hsorted : fathers.Pairwise (· < ·)) (hedges : ∀ x ∈ fathers, k.Edge x 1)
    (D : k.Draining w.func p.count v fathers touched) (hfresh : ∀ x ∈ fathers, x ∉ touched)
    (hback : p.dispatch = 2 * p.count →
      (∀ {x}, w.func.Edge x p.dispatch ↔ k.Edge x p.dispatch) ∧
        ∀ x ∈ touched, ¬ k.Edge x p.dispatch)
    (hch : fathers = [] → w.changed = true) (hcopies : w.copies = 0) :
    Succeeds (redirectFathers {} d v fathers) w fun _ w' =>
      (∃ touched', k.Draining w'.func p.count v [] touched') ∧ w'.changed = true := by
  have h3 := hp.three_le
  induction fathers generalizing w touched with
  | nil => exact concludes_pure ⟨⟨touched, D⟩, hch rfl⟩
  | cons x rest ih =>
    obtain ⟨hlt, hsorted⟩ := List.pairwise_cons.mp hsorted
    have hx := hedges x (by simp)
    obtain ⟨kb, hkb, -⟩ := id hx
    have hxlt := (Func.lt_of_block? hkb).2
    have hxt := hfresh x (by simp)
    obtain ⟨b, hb, hc⟩ := Func.exists_of_content? (D.same hxlt hxt) hkb
    rcases hk.father hp hx hkb with ⟨hsends, hwho⟩ | ⟨rfl, hdisp, -⟩
    · have hout : ¬ (1 ≤ x ∧ x < p.count) := by
        rcases hk.edge hp hx with ⟨rfl, -⟩ | ⟨i, _, _, hy⟩ | ⟨hxn, -⟩ <;> omega
      refine redirectFathers_sends hk hp hd D hb (hsends.congr hc) hout
        fun w' D' hsame' hch' hcopies' => ?_
      refine ih hsorted (fun y hy => hedges y (by simp [hy])) D' (fun y hy => ?_) (fun hdisp => ?_)
        (fun _ => hch') (hcopies'.trans hcopies)
      · rw [List.mem_cons, not_or]
        exact ⟨Int.ne_of_gt (hlt y hy), hfresh y (by simp [hy])⟩
      · obtain ⟨hsame, hnone⟩ := hback hdisp
        refine ⟨fun {y} => (hsame' (by omega)).trans hsame, fun y hy => ?_⟩
        rcases List.mem_cons.mp hy with rfl | hy
        · rintro ⟨kb', hkb', hmem⟩
          obtain rfl := Option.mem_unique hkb' hkb
          rw [hsends.exits_eq, List.mem_singleton] at hmem
          omega
        · exact hnone y hy
    · -- nothing behind the block that jumps back leads into the chain
      obtain rfl : rest = [] := by
        refine List.eq_nil_iff_forall_not_mem.mpr fun y hy => ?_
        have hylt := hlt y hy
        have hye := hedges y (by simp [hy])
        obtain ⟨yb, hyb, -⟩ := id hye
        rcases hk.father hp hye hyb with ⟨-, hwho⟩ | ⟨hyd, -⟩ <;> omega
      obtain ⟨hsame, hnone⟩ := hback hdisp
      obtain ⟨hne, hbudget⟩ := hfed hdisp hkb
      have hperm : b.preds.Perm kb.preds :=
        (List.perm_ext_iff_of_nodup (D.wellFormed.nodup_preds hb)
          (hk.wellFormed.nodup_preds hkb)).mpr fun y => by
            rw [D.wellFormed.mem_preds hb, hk.wellFormed.mem_preds hkb, hsame]
      refine redirectFathers_back hk hp hd hdisp D hxt hb hxlt
        (fun he => ⟨hsame.mp he, fun hmem => hnone _ hmem (hsame.mp he)⟩)
        (fun hnil => hne (List.Perm.nil_eq (hnil ▸ hperm)).symm) ?_
      rw [hcopies, hperm.length_eq]
      simpa using hbudget

end Removal

variable {k : Func} {p : CasePlan} {v : Var} {d : Region} {b : Block} {pass : Nat} {w : Work}

theorem Region.Dispatches.externalFathers_eq (hd : d.Dispatches p v) (hb : k.block? 1 = some b) :
    d.externalFathers k = b.preds.filter fun q => !d.isInternal q := by
  obtain ⟨e, he, -, hplace⟩ := hd.entry
  simp only [Region.externalFathers, he, hplace, hb, Option.elim_some]

namespace Func

/-- Before the first father is taken, nothing has changed. -/
theorem Chained.draining (hk : k.Chained p v) (hp : p.Sound v) (hd : d.Dispatches p v) :
    k.Draining k p.count v (d.externalFathers k) [] where
  wellFormed := hk.wellFormed
  length_le := Nat.le_refl _
  same := fun _ _ => rfl
  outside := by simp
  enters := by
    intro x y hxy hy hy'
    have h3 := hp.three_le
    by_cases hin : 1 ≤ x ∧ x < p.count
    · exact .inl hin
    · obtain rfl : y = 1 := by
        rcases hk.edge hp hxy with ⟨-, hy⟩ | ⟨i, hi, rfl, -⟩ | ⟨-, hy⟩ <;> omega
      obtain ⟨b, hb⟩ := hk.wellFormed.exists_of_edge hxy
      refine .inr ⟨rfl, ?_⟩
      rw [hd.externalFathers_eq hb, List.mem_filter]
      exact ⟨(hk.wellFormed.mem_preds hb x).mpr hxy, by simp [hd.isInternal_eq_false hin]⟩
  tame := fun hb => hk.all_onlySets hp hb

/-- **Leading the edges into a chain past it drains it.** -/
theorem Chained.drains (hk : k.Chained p v) (hp : p.Sound v) (hd : d.Dispatches p v)
    (hfed : p.dispatch = 2 * p.count → ∀ {kb}, k.block? p.dispatch = some kb →
      kb.preds ≠ [] ∧ (kb.preds.length : Int) ≤ ({} : Config).maxDuplications + 1)
    (hw : w.func = k) (hcopies : w.copies = 0) :
    Succeeds (Removal.bypassRegions {} pass [d]) w fun _ w' =>
      (∃ touched, k.Draining w'.func p.count v [] touched) ∧ w'.changed = true := by
  have h3 := hp.three_le
  have hlen := hk.length_le
  obtain ⟨b, hb⟩ : ∃ b, k.block? 1 = some b := exists_block? (by omega) (by omega)
  obtain ⟨b₀, hb₀, hi⟩ := hk.prologue
  have hfathers := hd.externalFathers_eq hb
  have hentry : (0 : Int) ∈ d.externalFathers k := by
    have hedge : k.Edge 0 1 := ⟨b₀, hb₀, by
      rw [Block.exits_of_goto (show b₀.insns = [p.store 0] ++ [.goto 1] from hi)]
      exact List.mem_singleton.mpr rfl⟩
    have hin := hd.isInternal_eq_false (s := 0) (by omega)
    rw [hfathers, List.mem_filter]
    exact ⟨(hk.wellFormed.mem_preds hb 0).mpr hedge, by simp [hin]⟩
  refine (concludes_modify (Q := fun _ w' => w'.func = k ∧ w'.copies = 0) ⟨hw, hcopies⟩).bind
    fun _ w₁ ⟨hw₁, hc₁⟩ => ?_
  have hregion : Succeeds (Removal.bypassRegion {} d) w₁ fun _ w' =>
      (∃ touched, k.Draining w'.func p.count v [] touched) ∧ w'.changed = true := by
    refine concludes_get_bind ?_
    simp only [hd.state_eq, hw₁]
    have D : k.Draining w₁.func p.count v (d.externalFathers k) [] := by
      rw [hw₁]
      exact hk.draining hp hd
    refine Removal.redirectFathers_drains hk hp hd hfed ?_ ?_ D (by simp)
      (fun _ => ⟨by rw [hw₁], by simp⟩) (fun hnil => by simp [hnil] at hentry) hc₁
    · rw [hfathers]
      exact (hk.wellFormed.ascending hb).filter _
    · intro x hx
      rw [hfathers, List.mem_filter] at hx
      exact (hk.wellFormed.mem_preds hb x).mp hx.1
  refine hregion.bind fun _ w₂ hw₂ => concludes_get_bind ?_
  split <;> exact concludes_pure hw₂

end Func

end Deflatten
