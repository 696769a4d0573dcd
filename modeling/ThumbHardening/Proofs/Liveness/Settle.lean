import ThumbHardening.Proofs.Liveness.Transfer
import ThumbHardening.Proofs.Roster
import Mathlib.Algebra.Order.BigOperators.Group.List
import Mathlib.Algebra.GroupWithZero.Nat
import Mathlib.Algebra.Order.Group.Nat

/-!
# Rounds that settle

If the blocks of a graph have distinct IDs, or those that share one compute the same, the entries of the live
map never lose registers: each is part of what its block would compute next. A round that changes anything makes
the map larger, and a map with a full entry for each block cannot grow. So the rounds end within their limit, in
a map that every block agrees with.
-/

namespace ThumbHardening

namespace LiveMap

theorem lookup_put (live : LiveMap) (id x : Nat) (regs : RegSet) :
    (live.put id regs).lookup x = if x = id then some regs else live.lookup x := by
  by_cases hx : x = id
  · rw [if_pos hx, put, hx, List.lookup_cons_self]
  · have hfilter : (live.filter fun entry => decide (entry.1 ≠ id)).lookup x = live.lookup x := by
      induction live with
      | nil => rfl
      | cons entry rest ih =>
        obtain ⟨key, s⟩ := entry
        rw [List.filter_cons, List.lookup_cons]
        split
        · rw [List.lookup_cons, ih]
        · next hdropped =>
          have hkey : key = id := by simpa using hdropped
          rw [ih, hkey, beq_false_of_ne hx]
    rw [if_neg hx, put, List.lookup_cons, beq_false_of_ne hx]
    exact hfilter

/-- Every entry is still there, with at least the same registers. -/
def Grows (live live' : LiveMap) : Prop :=
  ∀ id s, live.lookup id = some s → ∃ t, live'.lookup id = some t ∧ s ⊆ t

theorem Grows.get {live live' : LiveMap} (h : Grows live live') (id : Nat) :
    live.get id ⊆ live'.get id := by
  intro r hr
  rw [LiveMap.get] at hr ⊢
  cases hlookup : live.lookup id with
  | none =>
    rw [hlookup] at hr
    exact absurd hr (by simp)
  | some s =>
    obtain ⟨t, ht, hsub⟩ := h id s hlookup
    rw [hlookup] at hr
    rw [ht]
    exact hsub r hr

end LiveMap

theorem Block.liveIn_mono (b : Block) {live live' : LiveMap} (h : live.Grows live') :
    b.liveIn live ⊆ b.liveIn live' := by
  apply Code.liveBefore_mono b.instrs
  intro r hr
  rw [contains_liveOut_iff] at hr ⊢
  obtain ⟨edge, hedge, hlive⟩ := hr
  exact ⟨edge, hedge, h.get edge.target r hlive⟩

namespace FlowGraph

variable {g : FlowGraph} {live live' : LiveMap} {b : Block}

/-- The registers that a block would compute next are at least those of its entry. -/
def Ascending (g : FlowGraph) (live : LiveMap) : Prop :=
  ∀ b ∈ g.blocks.elems, ∀ s, live.lookup b.id = some s → s ⊆ b.liveIn live

/-- Whether blocks that share an ID compute the same from every map. -/
def Agreeing (g : FlowGraph) : Prop :=
  ∀ b ∈ g.blocks.elems, ∀ other ∈ g.blocks.elems, b.id = other.id → b.liveIn = other.liveIn

theorem agreeing_of_nodup (hids : g.blocks.ids.Nodup) : g.Agreeing :=
  fun _ hb _ hother hid => congrArg Block.liveIn (Roster.eq_of_id_eq hids hb hother hid)

/-- A map that a round does not change. -/
def Settled (g : FlowGraph) (live : LiveMap) : Prop :=
  ∀ b ∈ g.blocks.elems, live.lookup b.id = some (b.liveIn live)

/-- How large the entry of a block is, an empty one counting more than none. -/
def entryWeight (live : LiveMap) (b : Block) : Nat :=
  match live.lookup b.id with
  | none => 0
  | some s => s.size + 1

def weight (g : FlowGraph) (live : LiveMap) : Nat :=
  (g.blocks.elems.map (entryWeight live)).sum

theorem entryWeight_le (live : LiveMap) (b : Block) : entryWeight live b ≤ 18 := by
  rw [entryWeight]
  split
  · exact Nat.zero_le _
  · exact Nat.succ_le_succ (RegSet.size_le _)

theorem weight_le (g : FlowGraph) (live : LiveMap) : weight g live ≤ 18 * g.blocks.size := by
  have hsum (blocks : List Block) : (blocks.map (entryWeight live)).sum ≤ 18 * blocks.length := by
    induction blocks with
    | nil => exact Nat.le_refl 0
    | cons b rest ih =>
      have hb := entryWeight_le live b
      rw [List.map_cons, List.sum_cons, List.length_cons]
      omega
  exact hsum g.blocks.elems

theorem entryWeight_mono (h : live.Grows live') (b : Block) :
    entryWeight live b ≤ entryWeight live' b := by
  rw [entryWeight]
  cases hlookup : live.lookup b.id with
  | none => exact Nat.zero_le _
  | some s =>
    obtain ⟨t, ht, hsub⟩ := h b.id s hlookup
    rw [entryWeight, ht]
    by_cases heq : s = t
    · rw [heq]
    · exact Nat.succ_le_succ (Nat.le_of_lt (RegSet.size_lt_of_subset hsub heq))

/-- A map that grows and gets another entry for a block gets larger. -/
theorem weight_lt_of_grows (h : live.Grows live') (hb : b ∈ g.blocks.elems)
    (hne : live.lookup b.id ≠ live'.lookup b.id) : weight g live < weight g live' := by
  refine List.sum_lt_sum _ _ (fun other _ => entryWeight_mono h other) ⟨b, hb, ?_⟩
  rw [entryWeight, entryWeight]
  cases hlookup : live.lookup b.id with
  | none =>
    cases hlookup' : live'.lookup b.id with
    | none => exact absurd (hlookup.trans hlookup'.symm) hne
    | some t => exact Nat.succ_pos _
  | some s =>
    obtain ⟨t, ht, hsub⟩ := h b.id s hlookup
    rw [hlookup, ht] at hne
    rw [ht]
    exact Nat.succ_lt_succ (RegSet.size_lt_of_subset hsub fun heq => hne (heq ▸ rfl))

/-! ### One block -/

/-- A block of an ascending map that computes something new makes the map larger. -/
theorem grows_put (hasc : g.Ascending live) (hb : b ∈ g.blocks.elems) :
    live.Grows (live.put b.id (b.liveIn live)) := by
  intro id s hs
  rw [LiveMap.lookup_put]
  by_cases hid : id = b.id
  · subst hid
    exact ⟨_, if_pos rfl, hasc b hb s hs⟩
  · exact ⟨s, (if_neg hid).trans hs, fun _ hr => hr⟩

theorem ascending_put (hagree : g.Agreeing) (hasc : g.Ascending live)
    (hb : b ∈ g.blocks.elems) : g.Ascending (live.put b.id (b.liveIn live)) := by
  intro other hother s hs
  have hmono := other.liveIn_mono (grows_put hasc hb)
  rw [LiveMap.lookup_put] at hs
  by_cases hid : other.id = b.id
  · rw [if_pos hid] at hs
    cases hs
    rw [hagree other hother b hb hid] at hmono ⊢
    exact hmono
  · rw [if_neg hid] at hs
    exact fun r hr => hmono r (hasc other hother s hs r hr)

theorem weight_lt_put (hasc : g.Ascending live) (hb : b ∈ g.blocks.elems)
    (hnew : live.lookup b.id ≠ some (b.liveIn live)) :
    weight g live < weight g (live.put b.id (b.liveIn live)) := by
  apply weight_lt_of_grows (grows_put hasc hb) hb
  rw [LiveMap.lookup_put, if_pos rfl]
  exact hnew

/-- Looking at a block of an ascending map changes nothing, or makes the map larger. -/
theorem liveStep_cases (hagree : g.Agreeing) (hasc : g.Ascending live)
    (hb : b ∈ g.blocks.elems) (changed : Bool) :
    live.lookup b.id = some (b.liveIn live) ∧ liveStep b (live, changed) = (live, changed) ∨
      ∃ live', liveStep b (live, changed) = (live', true) ∧ g.Ascending live' ∧
        weight g live < weight g live' := by
  by_cases hsame : live.lookup b.id = some (b.liveIn live)
  · exact .inl ⟨hsame, if_pos hsame⟩
  · exact .inr ⟨_, if_neg hsame, ascending_put hagree hasc hb, weight_lt_put hasc hb hsame⟩

/-! ### Rounds -/

/-- A round through some of the blocks finds that they all agree with the map, or makes it larger. -/
theorem foldr_liveStep_cases (hagree : g.Agreeing) (hasc : g.Ascending live)
    {blocks : List Block} (hblocks : ∀ b ∈ blocks, b ∈ g.blocks.elems) :
    (∀ b ∈ blocks, live.lookup b.id = some (b.liveIn live)) ∧
        blocks.foldr liveStep (live, false) = (live, false) ∨
      ∃ live', blocks.foldr liveStep (live, false) = (live', true) ∧ g.Ascending live' ∧
        weight g live < weight g live' := by
  induction blocks with
  | nil => exact .inl ⟨by simp, rfl⟩
  | cons b rest ih =>
    obtain ⟨hb, hrest⟩ := List.forall_mem_cons.mp hblocks
    rw [List.foldr_cons]
    rcases ih hrest with ⟨hsettled, hsame⟩ | ⟨grown, hchanged, hascending, hweight⟩
    · rw [hsame]
      rcases liveStep_cases hagree hasc hb false with ⟨hfirst, hstep⟩ | hgrown
      · exact .inl ⟨List.forall_mem_cons.mpr ⟨hfirst, hsettled⟩, hstep⟩
      · exact .inr hgrown
    · rw [hchanged]
      rcases liveStep_cases hagree hascending hb true with ⟨-, hstep⟩ | ⟨larger, hstep, hasc', hlt⟩
      · exact .inr ⟨grown, hstep, hascending, hweight⟩
      · exact .inr ⟨larger, hstep, hasc', Nat.lt_trans hweight hlt⟩

/-- The rounds end if the limit leaves room for the map to grow. -/
theorem exists_settled (hagree : g.Agreeing) {limit : Nat} (hasc : g.Ascending live)
    (hlimit : 18 * g.blocks.size < limit + weight g live) :
    ∃ live', g.liveSettle limit live = some live' ∧ g.Settled live' := by
  induction limit generalizing live with
  | zero =>
    have hle := weight_le g live
    omega
  | succ limit ih =>
    rw [liveSettle, liveRound]
    rcases foldr_liveStep_cases hagree hasc (fun _ hb => hb) with
      ⟨hsettled, hsame⟩ | ⟨grown, hchanged, hascending, hweight⟩
    · rw [hsame]
      exact ⟨live, rfl, hsettled⟩
    · rw [hchanged]
      exact ih hascending (by omega)

/-- The analysis of a graph whose blocks have distinct IDs ends, and all blocks agree with its result. -/
theorem exists_liveness (hids : g.blocks.ids.Nodup) :
    ∃ live, g.liveness? = some live ∧ g.Settled live := by
  refine exists_settled (agreeing_of_nodup hids) (fun b _ s hs => by cases hs) ?_
  rw [liveLimit]
  omega

end FlowGraph
end ThumbHardening
