import ThumbHardening.Proofs.Guard.Code
import ThumbHardening.Proofs.Predication.Edits

/-!
# The accessor of the guard

The body of the accessor as a whole: its execution returns with two addresses stored, and it is sound and
consistent. The random word is reduced modulo the number of candidates and counts them from the last one.
-/

namespace ThumbHardening
namespace Guard
open Machine

variable {pl : Platform} {m t : Machine} {global : Nat}
  {candidates : List Nat} {address : BitVec 32}

/-! ### The blocks -/

def setup (address : BitVec 32) : Block :=
  { Block.ofCode (loadConstant .r2 address) with id := setupBlock, edges := [.next pollBlock] }

def poll : Block :=
  { Block.ofCode pollCode with id := pollBlock, edges := [.jump pollBlock, .next selectBlock] }

def select (candidates : List Nat) : Block :=
  { Block.ofCode (selectCode candidates) with id := selectBlock, edges := [.jump storeBlock] }

def storing : Block :=
  { Block.ofCode storeGuard with id := storeBlock }

def static (candidate : Nat) : Block :=
  { Block.ofCode (loadAddress .r12 candidate .al ++ storeGuard) with id := setupBlock }

theorem elems_runtimeGraph (candidates : List Nat) (address : BitVec 32) :
    (runtimeGraph candidates address).blocks.elems = [setup address, poll, select candidates, storing] := rfl

theorem elems_staticGraph (candidate : Nat) : (staticGraph candidate).blocks.elems = [static candidate] := rfl

/-! ### Execution -/

theorem returns_runtimeGraph {k : Nat} (hpos : 0 < candidates.length) (hlen : candidates.length < 2 ^ 32)
    (haddress : pl.generator = address) (hzeros : ∀ j < k, pl.reads (m.drawn + j) = 0)
    (hword : pl.reads (m.drawn + k) ≠ 0)
    (hglobal : candidates[candidates.length - 1 - (pl.reads (m.drawn + k)).toNat % candidates.length]?
      = some global) :
    ∃ t, (runtimeGraph candidates address).Returns pl m t ∧ GivesOut pl global scratch m t ∧
      t.drawn = m.drawn + k + 1 := by
  have hpollBlock : (runtimeGraph candidates address).block? pollBlock = some poll := rfl
  have hselectBlock : (runtimeGraph candidates address).block? selectBlock = some (select candidates) := rfl
  have hstoreBlock : (runtimeGraph candidates address).block? storeBlock = some storing := rfl
  obtain ⟨n, hpolled, hdrawn, hr3, hpoll⟩ := returns_poll (m := m.set .r2 address) hpollBlock rfl rfl
    hselectBlock haddress.symm hzeros hword
  rw [Machine.drawn_set] at hdrawn hr3
  rw [← hr3] at hglobal
  obtain ⟨s, hselected, hsame, hr12, hselect⟩ :=
    returns_selectCode pl (select candidates) hstoreBlock hpos hlen hglobal
  obtain ⟨t, hstore, hgives, hkept⟩ :=
    returns_storeGuard (runtimeGraph candidates address) storing hr12 (show PhysReg.r12 ∈ scratch by decide)
  have hkeeps : Keeps scratch m s := ((keeps_set (by decide)).trans hpolled).trans hselected
  refine ⟨t, ⟨setup address, rfl, ?_⟩, hgives.of_keeps hkeeps (by decide) (by decide), ?_⟩
  · have hsetup := returns_loadConstant (b := setup address) .r2 address
      (.fall rfl hpollBlock (hpoll t (hselect t hstore)))
    rwa [List.append_nil] at hsetup
  · rw [hkept, hsame, hdrawn]

theorem returns_staticGraph (pl : Platform) (global : Nat) (m : Machine) :
    ∃ t, (staticGraph global).Returns pl m t ∧ GivesOut pl global [.r12] m t ∧ t.drawn = m.drawn := by
  have hr12 : (m.set .r12 (pl.addressOf global)).regs .r12 = pl.addressOf global := rfl
  obtain ⟨t, hstore, hgives, hkept⟩ :=
    returns_storeGuard (staticGraph global) (static global) hr12 (List.mem_singleton_self PhysReg.r12)
  refine ⟨t, ⟨static global, rfl, returns_loadAddress .r12 global hstore⟩, ?_, hkept⟩
  exact hgives.of_keeps (keeps_set (by decide)) (by decide) (by decide)

/-! ### Soundness -/

theorem nodup_graph (candidates : List Nat) (rngAddress : Option Nat) (staticPick : Nat) :
    (graph candidates rngAddress staticPick).blocks.ids.Nodup := by
  cases rngAddress with
  | none => exact List.nodup_singleton _
  | some address =>
    rw [graph]
    split
    · rw [Roster.ids, elems_runtimeGraph]
      change [setupBlock, pollBlock, selectBlock, storeBlock].Nodup
      decide
    · exact List.nodup_singleton _

/-- The accessor is never taken for a trap block. -/
theorem trap_graph (candidates : List Nat) (rngAddress : Option Nat) (staticPick : Nat) :
    ∀ b ∈ (graph candidates rngAddress staticPick).blocks.elems, b.trap = false := by
  have hstatic : ∀ candidate, ∀ b ∈ (staticGraph candidate).blocks.elems, b.trap = false := by
    intro candidate
    rw [elems_staticGraph]
    exact List.forall_mem_singleton.mpr rfl
  cases rngAddress with
  | none => exact hstatic _
  | some address =>
    rw [graph]
    split
    · rw [elems_runtimeGraph]
      simp [setup, poll, select, storing, Block.ofCode]
    · exact hstatic _

theorem verify_graph (candidates : List Nat) (rngAddress : Option Nat) (staticPick : Nat) :
    (graph candidates rngAddress staticPick).verify = .ok () := by
  cases rngAddress with
  | none => rfl
  | some address =>
    change FlowGraph.verify (if 1 < candidates.length then _ else _) = .ok ()
    split <;> rfl

theorem grouped_tryCandidate {global : Nat} {rest : Code} (h : Code.Grouped Instr.Bare [] rest) :
    Code.Grouped Instr.Bare [] (tryCandidate global ++ rest) := by
  refine .plain rfl rfl (.plain rfl rfl (.it announced?_group ?_))
  exact .member rfl ⟨rfl, rfl, nofun⟩
    (.member rfl ⟨rfl, rfl, nofun⟩ (.member rfl ⟨rfl, rfl, fun _ => rfl⟩ h))

theorem grouped_tryCandidates (candidates : List Nat) :
    Code.Grouped Instr.Bare [] (tryCandidates candidates) := by
  fun_induction tryCandidates candidates with
  | case1 => exact .nil
  | case2 last => exact .plain rfl rfl (.plain rfl rfl (.plain rfl rfl .nil))
  | case3 candidate rest _ ih => exact grouped_tryCandidate ih

theorem grouped_loadConstant {dst : PhysReg} {value : BitVec 32} {rest : Code}
    (h : Code.Grouped Instr.Bare [] rest) :
    Code.Grouped Instr.Bare [] (loadConstant dst value ++ rest) := by
  rw [loadConstant]
  split
  · exact .plain rfl rfl h
  · exact .plain rfl rfl (.plain rfl rfl h)

theorem isConsistent_of_grouped_nil {code : Code} (h : Code.Grouped Instr.Bare [] (code ++ [])) :
    code.isConsistent = true := by
  rw [List.append_nil] at h
  exact Code.isConsistent_iff_grouped.mpr h

theorem grouped_storeGuard : Code.Grouped Instr.Bare [] storeGuard :=
  Code.isConsistent_iff_grouped.mp (by decide)

theorem consistent_runtimeGraph (candidates : List Nat) (address : BitVec 32) :
    (runtimeGraph candidates address).Consistent := by
  intro b hb
  rw [elems_runtimeGraph] at hb
  simp only [List.mem_cons, List.not_mem_nil, or_false] at hb
  obtain rfl | rfl | rfl | rfl := hb
  · exact isConsistent_of_grouped_nil (grouped_loadConstant .nil)
  · exact Code.isConsistent_iff_grouped.mpr (.plain rfl rfl (.plain rfl rfl (.plain rfl rfl .nil)))
  · refine Code.isConsistent_iff_grouped.mpr ?_
    change Code.Grouped Instr.Bare [] (selectCode candidates)
    rw [selectCode, List.append_assoc]
    exact grouped_loadConstant (.plain rfl rfl (.plain rfl rfl (grouped_tryCandidates candidates)))
  · exact Code.isConsistent_iff_grouped.mpr grouped_storeGuard

theorem consistent_staticGraph (global : Nat) : (staticGraph global).Consistent := by
  intro b hb
  rw [elems_staticGraph, List.mem_singleton] at hb
  subst hb
  exact Code.isConsistent_iff_grouped.mpr (.plain rfl rfl (.plain rfl rfl grouped_storeGuard))

theorem consistent_graph (candidates : List Nat) (rngAddress : Option Nat) (staticPick : Nat) :
    (graph candidates rngAddress staticPick).Consistent := by
  cases rngAddress with
  | none => exact consistent_staticGraph _
  | some address =>
    change FlowGraph.Consistent (if 1 < candidates.length then _ else _)
    split
    · exact consistent_runtimeGraph candidates _
    · exact consistent_staticGraph _

/-! ### The contract -/

/-- With a generator and several candidates, the accessor gives out the candidate that the first word drawn
that is not zero picks, counted from the last one; otherwise it gives out the candidate that was picked
beforehand. Its body is sound and consistent in any case. -/
theorem graph_returns (pl : Platform) (candidates : List Nat) (rngAddress : Option Nat)
    (staticPick : Nat) (m : Machine) :
    (∀ address k, rngAddress = some address → 2 ≤ candidates.length →
      candidates.length < 2 ^ 32 → pl.generator = BitVec.ofNat 32 address →
      (∀ j < k, pl.reads (m.drawn + j) = 0) → pl.reads (m.drawn + k) ≠ 0 →
      ∃ global t,
        candidates[candidates.length - 1 - (pl.reads (m.drawn + k)).toNat % candidates.length]?
          = some global ∧
        (graph candidates rngAddress staticPick).Returns pl m t ∧
        GivesOut pl global [.r2, .r3, .r12, .cpsr] m t ∧ t.drawn = m.drawn + k + 1) ∧
    (rngAddress = none ∨ candidates.length = 1 → staticPick < candidates.length →
      ∃ global t, candidates[staticPick]? = some global ∧
        (graph candidates rngAddress staticPick).Returns pl m t ∧
        GivesOut pl global [.r12] m t ∧ t.drawn = m.drawn) ∧
    (graph candidates rngAddress staticPick).verify = .ok () ∧
    (graph candidates rngAddress staticPick).Consistent := by
  refine ⟨?_, ?_, verify_graph candidates rngAddress staticPick,
    consistent_graph candidates rngAddress staticPick⟩
  · intro address k hrng hmany hlen haddress hzeros hword
    have hlt : candidates.length - 1 - (pl.reads (m.drawn + k)).toNat % candidates.length
        < candidates.length := by omega
    obtain ⟨t, hreturns, hgives, hdrawn⟩ := returns_runtimeGraph (by omega) hlen haddress hzeros hword
      (List.getElem?_eq_getElem hlt)
    refine ⟨_, t, List.getElem?_eq_getElem hlt, ?_, hgives, hdrawn⟩
    have hgraph : graph candidates rngAddress staticPick
        = runtimeGraph candidates (BitVec.ofNat 32 address) := by
      rw [hrng]
      exact if_pos hmany
    rwa [hgraph]
  · intro hstatic hpick
    obtain ⟨t, hreturns, hgives, hdrawn⟩ := returns_staticGraph pl (candidates.getD staticPick 0) m
    have hgraph : graph candidates rngAddress staticPick
        = staticGraph (candidates.getD staticPick 0) := by
      cases hrng : rngAddress with
      | none => rfl
      | some address =>
        have hsingle : candidates.length = 1 := hstatic.resolve_left (by simp [hrng])
        exact if_neg (by omega)
    refine ⟨candidates.getD staticPick 0, t, ?_, ?_, hgives, hdrawn⟩
    · rw [List.getD_eq_getElem?_getD, List.getElem?_eq_getElem hpick, Option.getD_some]
    · rwa [hgraph]

/-- A generator that gives out two zeros before every word is 4. -/
def slowGenerator : Platform :=
  { addressOf := fun global => BitVec.ofNat 32 (0x20000000 + 64 * global)
    generator := 0x40025800
    reads := fun j => if j < 2 then 0 else 4 }

/-- A machine whose first registers point to two words. -/
def caller : Machine :=
  { regs := fun r => if r = .r0 then 0x100 else if r = .r1 then 0x104 else 0 }

theorem graph_returns_slowGenerator :
    (∀ j < 2, slowGenerator.reads (caller.drawn + j) = 0) ∧ slowGenerator.reads (caller.drawn + 2) ≠ 0 ∧
    (∃ t, (graph [7, 9, 11] (some 0x40025800) 0).Returns slowGenerator caller t ∧
      GivesOut slowGenerator 9 [.r2, .r3, .r12, .cpsr] caller t ∧ t.drawn = 3) ∧
    (∃ t, (graph [7, 9, 11] none 2).Returns slowGenerator caller t ∧
      GivesOut slowGenerator 11 [.r12] caller t ∧ t.drawn = 0) := by
  have hzeros : ∀ j < 2, slowGenerator.reads (caller.drawn + j) = 0 := by decide
  have hword : slowGenerator.reads (caller.drawn + 2) ≠ 0 := by decide
  obtain ⟨global, t, hglobal, hreturns, hgives, hdrawn⟩ :=
    (graph_returns slowGenerator [7, 9, 11] (some 0x40025800) 0 caller).1 0x40025800 2 rfl (by decide)
      (by decide) rfl hzeros hword
  obtain ⟨other, u, hother, hreturns', hgives', hdrawn'⟩ :=
    (graph_returns slowGenerator [7, 9, 11] none 2 caller).2.1 (.inl rfl) (by decide)
  obtain rfl : 9 = global := Option.some.inj hglobal
  obtain rfl : 11 = other := Option.some.inj hother
  exact ⟨hzeros, hword, ⟨t, hreturns, hgives, hdrawn⟩, ⟨u, hreturns', hgives', hdrawn'⟩⟩

end Guard
end ThumbHardening
