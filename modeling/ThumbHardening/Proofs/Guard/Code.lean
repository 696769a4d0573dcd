import ThumbHardening.Proofs.Guard.Constants

/-!
# The pieces of the accessor

What the pieces of code do that the accessor of the guard is made of. Each lemma speaks about a piece in front
of more code: whatever execution of the rest leads to from the machine that the piece leaves behind, execution
of both leads to. Two loops carry the argument. The polling loop draws words as long as they are zero, by
induction on their number. The unrolled selection keeps in `r2` how many candidates are left and in `r3` the
position that was drawn, by induction on the candidates: the position is always below the number of those
left, so it has been found when only the last one is.
-/

namespace ThumbHardening
namespace Guard
open Machine

variable {pl : Platform} {g : FlowGraph} {b : Block} {rest : Code} {m n t : Machine}

/-! ### Addresses -/

theorem perform_lowHalf (dst : PhysReg) (global : Nat) (pred : Cond) (m : Machine) :
    pl.perform { Instr.movw (.phys dst) (addressOf global .lo16) with pred } m
      = some (.next (m.set dst (pl.addressOf global &&& 0xffff#32))) := by
  simp [Instr.movw, Platform.perform, addressOf, Platform.half?]

theorem perform_highHalf (dst : PhysReg) (global : Nat) (pred : Cond) (m : Machine) :
    pl.perform { Instr.movt (.phys dst) (addressOf global .hi16) with pred }
        (m.set dst (pl.addressOf global &&& 0xffff#32))
      = some (.next (m.set dst (pl.addressOf global))) := by
  simp only [Instr.movt, Platform.perform, addressOf, Platform.half?, Option.bind_eq_bind,
    Option.bind_some, if_true, BitVec.ofInt_ofNat, BitVec.add_zero]
  rw [Machine.regs_set, if_pos rfl, join_halves, Machine.set_set]

theorem returns_loadAddress (dst : PhysReg) (global : Nat)
    (h : Returns pl g b rest [] (m.set dst (pl.addressOf global)) t) :
    Returns pl g b (loadAddress dst global .al ++ rest) [] m t :=
  .plain rfl rfl rfl (perform_lowHalf dst global .al m)
    (.plain rfl rfl rfl (perform_highHalf dst global .al m) h)

/-! ### The store block -/

/-- What calling the accessor leaves behind: two stores, and changes to no other registers. -/
structure GivesOut (pl : Platform) (global : Nat) (written : List PhysReg) (m t : Machine) : Prop where
  stores : t.stores = m.stores
    ++ [(m.regs .r0, pl.addressOf global), (m.regs .r1, pl.addressOf global + 32)]
  regs : ∀ r, r ∉ written → t.regs r = m.regs r

theorem GivesOut.of_keeps {global : Nat} {written : List PhysReg} (hkeeps : Keeps written m n)
    (h : GivesOut pl global written n t) (h0 : .r0 ∉ written) (h1 : .r1 ∉ written) :
    GivesOut pl global written m t := by
  refine ⟨?_, fun r hr => (h.regs r hr).trans (hkeeps.regs r hr)⟩
  rw [h.stores, hkeeps.stores, hkeeps.regs .r0 h0, hkeeps.regs .r1 h1]

theorem returns_storeGuard (g : FlowGraph) (b : Block) {global : Nat} {written : List PhysReg}
    (hr12 : m.regs .r12 = pl.addressOf global) (hwritten : .r12 ∈ written) :
    ∃ t, Returns pl g b storeGuard [] m t ∧ GivesOut pl global written m t ∧ t.drawn = m.drawn := by
  refine ⟨_, .plain rfl rfl rfl rfl (.plain rfl rfl rfl rfl (.plain rfl rfl rfl rfl
    (.leave (.of_pred_al rfl rfl rfl) rfl rfl))), ⟨?_, ?_⟩, rfl⟩
  · simp [Machine.store, Machine.regs_set, hr12]
  · intro r hr
    have hne : r ≠ .r12 := by rintro rfl; exact hr hwritten
    simp [Machine.regs_set, hne]

/-! ### Selection -/

/-- The registers that the accessor may overwrite. -/
def scratch : List PhysReg := [.r2, .r3, .r12, .cpsr]

theorem keeps_set {written : List PhysReg} {r : PhysReg} {value : BitVec 32} (hr : r ∈ written) :
    Keeps written m (m.set r value) := by
  refine ⟨fun q hq => ?_, rfl⟩
  have hne : q ≠ r := by rintro rfl; exact hq hr
  rw [Machine.regs_set, if_neg hne]

/-- The machine once the position of a candidate has been compared. -/
def tested (m : Machine) : Machine :=
  (m.set .r2 (m.regs .r2 - 1)).compare (m.regs .r3) (m.regs .r2 - 1)

theorem holds_tested (m : Machine) :
    Cond.eq.holds (tested m) = (m.regs .r3 == m.regs .r2 - 1) :=
  Machine.zero_compare _ _ _

theorem regs_tested (m : Machine) {r : PhysReg} (hr : r ≠ .cpsr) :
    (tested m).regs r = if r = .r2 then m.regs .r2 - 1 else m.regs r := by
  rw [tested, Machine.regs_compare _ _ _ hr, Machine.regs_set]

theorem keeps_tested (m : Machine) : Keeps scratch m (tested m) := by
  refine ⟨fun r hr => ?_, rfl⟩
  have hcpsr : r ≠ .cpsr := by rintro rfl; exact hr (by decide)
  have hr2 : r ≠ .r2 := by rintro rfl; exact hr (by decide)
  rw [regs_tested m hcpsr, if_neg hr2]

theorem ofNat_inj {j k : Nat} (hj : j < 2 ^ 32) (hk : k < 2 ^ 32) :
    BitVec.ofNat 32 j = BitVec.ofNat 32 k ↔ j = k := by
  rw [← BitVec.toNat_inj, BitVec.toNat_ofNat, BitVec.toNat_ofNat, Nat.mod_eq_of_lt hj,
    Nat.mod_eq_of_lt hk]

theorem announced?_group : (Instr.it .eq 2).announced? = some [.eq, .eq, .eq] := by
  decide

variable {store : Block} {global : Nat}

theorem returns_tryCandidate_taken (hstore : g.block? storeBlock = some store)
    (hholds : Cond.eq.holds (tested m) = true)
    (h : Returns pl g store store.instrs [] ((tested m).set .r12 (pl.addressOf global)) t) :
    Returns pl g b (tryCandidate global ++ rest) [] m t := by
  have hstays : ∀ value, Cond.eq.holds ((tested m).set .r12 value) = true := fun value =>
    (Cond.holds_set (by decide) .eq (tested m) value).trans hholds
  refine .plain rfl rfl rfl rfl (.plain rfl rfl rfl rfl (.it announced?_group ?_))
  refine .next (.member rfl ⟨rfl, rfl, nofun⟩) hholds (perform_lowHalf .r12 global .eq _) ?_
  refine .next (.member rfl ⟨rfl, rfl, nofun⟩) (hstays _) (perform_highHalf .r12 global .eq _) ?_
  exact .jump (.member rfl ⟨rfl, rfl, fun _ => rfl⟩) (hstays _) rfl hstore h

theorem returns_tryCandidate_passed (hholds : Cond.eq.holds (tested m) = false)
    (h : Returns pl g b rest [] (tested m) t) :
    Returns pl g b (tryCandidate global ++ rest) [] m t := by
  refine .plain rfl rfl rfl rfl (.plain rfl rfl rfl rfl (.it announced?_group ?_))
  refine .skip (.member rfl ⟨rfl, rfl, nofun⟩) hholds ?_
  refine .skip (.member rfl ⟨rfl, rfl, nofun⟩) hholds ?_
  exact .skip (.member rfl ⟨rfl, rfl, fun _ => rfl⟩) hholds h

/-- The candidates are numbered from the last one, and the one whose number is in `r3` is taken. -/
theorem returns_tryCandidates (pl : Platform) (b : Block) (hstore : g.block? storeBlock = some store)
    {candidates : List Nat} {k : Nat}
    (hlen : candidates.length < 2 ^ 32) (hk : k < candidates.length)
    (hr2 : m.regs .r2 = BitVec.ofNat 32 candidates.length) (hr3 : m.regs .r3 = BitVec.ofNat 32 k)
    (hglobal : candidates[candidates.length - 1 - k]? = some global) :
    ∃ n, Keeps scratch m n ∧ n.drawn = m.drawn ∧ n.regs .r12 = pl.addressOf global ∧
      ∀ t, Returns pl g store store.instrs [] n t → Returns pl g b (tryCandidates candidates) [] m t := by
  fun_induction tryCandidates candidates generalizing m with
  | case1 => simp at hk
  | case2 last =>
    have hfirst : last = global := by simpa using hglobal
    refine ⟨m.set .r12 (pl.addressOf global), keeps_set (by decide), rfl, rfl, fun t h => ?_⟩
    rw [← hfirst] at h
    exact returns_loadAddress .r12 last (.jump (.of_pred_al rfl rfl rfl) rfl rfl hstore h)
  | case3 candidate rest hrest ih =>
    rw [List.length_cons] at hlen hk hr2 hglobal
    -- `r2` counts down to the number of this candidate, which is how many come behind it.
    have hleft : m.regs .r2 - 1 = BitVec.ofNat 32 rest.length := by
      rw [hr2, BitVec.ofNat_add]
      exact BitVec.add_sub_cancel _ _
    have htest : Cond.eq.holds (tested m) = decide (k = rest.length) := by
      rw [holds_tested, hr3, hleft, beq_eq_decide]
      exact decide_eq_decide.mpr (ofNat_inj (by omega) (by omega))
    by_cases hnow : k = rest.length
    · have hfirst : candidate = global := by
        rw [hnow, Nat.add_sub_cancel, Nat.sub_self] at hglobal
        simpa using hglobal
      refine ⟨(tested m).set .r12 (pl.addressOf global), (keeps_tested m).trans (keeps_set (by decide)),
        rfl, rfl, fun t h => ?_⟩
      rw [← hfirst] at h
      exact returns_tryCandidate_taken hstore (htest.trans (decide_eq_true hnow)) h
    · have hlater : rest[rest.length - 1 - k]? = some global := by
        have hindex : rest.length + 1 - 1 - k = rest.length - 1 - k + 1 := by omega
        rwa [hindex, List.getElem?_cons_succ] at hglobal
      obtain ⟨n, hkeeps, hdrawn, hr12, hreturns⟩ := ih (m := tested m) (by omega) (by omega)
        ((regs_tested m (by decide)).trans hleft) ((regs_tested m (by decide)).trans hr3) hlater
      refine ⟨n, (keeps_tested m).trans hkeeps, hdrawn, hr12, fun t h => ?_⟩
      exact returns_tryCandidate_passed (htest.trans (decide_eq_false hnow)) (hreturns t h)

theorem sub_mul_udiv (x y : BitVec 32) : x - y * (x / y) = x % y := by
  have hsum : x = y * (x / y) + x % y := by
    apply BitVec.eq_of_toNat_eq
    have hle : y.toNat * (x.toNat / y.toNat) + x.toNat % y.toNat < 2 ^ 32 := by
      rw [Nat.div_add_mod]
      exact x.isLt
    rw [BitVec.toNat_add, BitVec.toNat_mul, BitVec.toNat_udiv, BitVec.toNat_umod,
      Nat.mod_eq_of_lt (Nat.lt_of_le_of_lt (Nat.le_add_right _ _) hle), Nat.mod_eq_of_lt hle,
      Nat.div_add_mod]
  exact BitVec.sub_eq_iff_eq_add.mpr (hsum.trans (BitVec.add_comm _ _))

theorem returns_selectCode (pl : Platform) (b : Block) (hstore : g.block? storeBlock = some store)
    {candidates : List Nat} (hpos : 0 < candidates.length) (hlen : candidates.length < 2 ^ 32)
    (hglobal : candidates[candidates.length - 1 - (m.regs .r3).toNat % candidates.length]? = some global) :
    ∃ n, Keeps scratch m n ∧ n.drawn = m.drawn ∧ n.regs .r12 = pl.addressOf global ∧
      ∀ t, Returns pl g store store.instrs [] n t → Returns pl g b (selectCode candidates) [] m t := by
  have hlength : (BitVec.ofNat 32 candidates.length).toNat = candidates.length := by
    rw [BitVec.toNat_ofNat, Nat.mod_eq_of_lt hlen]
  have hmod : (m.regs .r3 % BitVec.ofNat 32 candidates.length)
      = BitVec.ofNat 32 ((m.regs .r3).toNat % candidates.length) := by
    apply BitVec.eq_of_toNat_eq
    have hlt := Nat.lt_trans (Nat.mod_lt (m.regs .r3).toNat hpos) hlen
    rw [BitVec.toNat_umod, hlength, BitVec.toNat_ofNat, Nat.mod_eq_of_lt hlt]
  -- The remainder takes a quotient and a product, as there is no instruction for it.
  let counted := m.set .r2 (BitVec.ofNat 32 candidates.length)
  let divided := counted.set .r12 (m.regs .r3 / BitVec.ofNat 32 candidates.length)
  let reduced := divided.set .r3
    (m.regs .r3 - BitVec.ofNat 32 candidates.length * (m.regs .r3 / BitVec.ofNat 32 candidates.length))
  have hkeeps : Keeps scratch m reduced :=
    ((keeps_set (by decide)).trans (keeps_set (by decide))).trans (keeps_set (by decide))
  have hr3 : reduced.regs .r3 = BitVec.ofNat 32 ((m.regs .r3).toNat % candidates.length) :=
    (sub_mul_udiv _ _).trans hmod
  obtain ⟨n, hrest, hdrawn, hr12, hreturns⟩ :=
    returns_tryCandidates pl b (m := reduced) hstore hlen (Nat.mod_lt _ hpos) rfl hr3 hglobal
  refine ⟨n, hkeeps.trans hrest, hdrawn, hr12, fun t h => ?_⟩
  rw [selectCode, List.append_assoc]
  exact returns_loadConstant .r2 _ (.plain rfl rfl rfl rfl (.plain rfl rfl rfl rfl (hreturns t h)))

/-! ### Polling -/

/-- The machine once a word has been drawn and compared with zero. -/
def polled (pl : Platform) (m : Machine) : Machine :=
  (m.draw pl .r3).compare (pl.reads m.drawn) 0

theorem holds_polled (m : Machine) :
    Cond.eq.holds (polled pl m) = (pl.reads m.drawn == 0) :=
  Machine.zero_compare _ _ _

theorem regs_polled (m : Machine) {r : PhysReg} (hr : r ≠ .cpsr) :
    (polled pl m).regs r = if r = .r3 then pl.reads m.drawn else m.regs r := by
  rw [polled, Machine.regs_compare _ _ _ hr, Machine.regs_draw, Machine.regs_set]

theorem keeps_polled (m : Machine) : Keeps scratch m (polled pl m) := by
  refine ⟨fun r hr => ?_, rfl⟩
  have hcpsr : r ≠ .cpsr := by rintro rfl; exact hr (by decide)
  have hr3 : r ≠ .r3 := by rintro rfl; exact hr (by decide)
  rw [regs_polled m hcpsr, if_neg hr3]

theorem returns_pollCode (hr2 : m.regs .r2 = pl.generator)
    (h : Returns pl g b [.branchCond .eq pollBlock] [] (polled pl m) t) :
    Returns pl g b pollCode [] m t := by
  have haddress : m.regs .r2 + BitVec.ofInt 32 0 = pl.generator := by
    rw [hr2]
    exact BitVec.add_zero _
  refine .plain rfl rfl rfl ?_ (.plain rfl rfl rfl rfl h)
  simp only [Instr.load, Platform.perform, Operand.ofPhys, Platform.word?, Option.bind_eq_bind,
    Option.bind_some]
  rw [if_pos haddress]

/-- The polling loop draws words up to the first that is not zero. -/
theorem returns_poll {poll select : Block} (hpoll : g.block? pollBlock = some poll)
    (hcode : poll.instrs = pollCode) (hnext : poll.next? = some selectBlock)
    (hselect : g.block? selectBlock = some select) {k : Nat}
    (hr2 : m.regs .r2 = pl.generator) (hzeros : ∀ j < k, pl.reads (m.drawn + j) = 0)
    (hword : pl.reads (m.drawn + k) ≠ 0) :
    ∃ n, Keeps scratch m n ∧ n.drawn = m.drawn + k + 1 ∧ n.regs .r3 = pl.reads (m.drawn + k) ∧
      ∀ t, Returns pl g select select.instrs [] n t → Returns pl g poll poll.instrs [] m t := by
  rw [hcode]
  induction k generalizing m with
  | zero =>
    have hholds : Cond.eq.holds (polled pl m) = false := by
      rw [holds_polled]
      exact beq_eq_false_iff_ne.mpr hword
    refine ⟨polled pl m, keeps_polled m, rfl, regs_polled m (by decide), fun t h => ?_⟩
    exact returns_pollCode hr2 (.skip (.alone rfl rfl rfl) hholds (.fall hnext hselect h))
  | succ k ih =>
    have hholds : Cond.eq.holds (polled pl m) = true := by
      rw [holds_polled]
      exact beq_iff_eq.mpr (hzeros 0 (Nat.succ_pos k))
    have hshift : ∀ j, (polled pl m).drawn + j = m.drawn + (j + 1) := fun j => by
      change m.drawn + 1 + j = _
      omega
    obtain ⟨n, hkeeps, hdrawn, hr3, hreturns⟩ := ih (m := polled pl m)
      ((regs_polled m (by decide)).trans hr2)
      (fun j hj => by rw [hshift]; exact hzeros (j + 1) (Nat.succ_lt_succ hj))
      (by rw [hshift]; exact hword)
    rw [hshift] at hdrawn hr3
    refine ⟨n, (keeps_polled m).trans hkeeps, hdrawn, hr3, fun t h => ?_⟩
    -- The branch goes back to the start of the block, where the rest of the words is drawn.
    have hloop := hreturns t h
    rw [← hcode] at hloop
    exact returns_pollCode hr2 (.jump (.alone rfl rfl rfl) hholds rfl hpoll hloop)

end Guard
end ThumbHardening
