import ThumbHardening.Proofs.FlowGraph
import Mathlib.Data.List.NodupEquivFin

/-!
# How blocks come to share an ID

A block without an ID gets one that no block has had. A block that brings an ID along keeps it, whoever else has
it, and blocks never leave a graph. So each ID stands in the layout once for the first block that had it, and once
more for each block that has joined under it since.
-/

namespace ThumbHardening
namespace FlowGraph

variable {g : FlowGraph} {reused : List Nat} {id : Nat}

/-- Whether a position of the layout holds a block with the ID. -/
def StandsAt (g : FlowGraph) (id k : Nat) : Prop :=
  g.blocks.ids[k]? = some id

instance (g : FlowGraph) (id k : Nat) : Decidable (g.StandsAt id k) :=
  inferInstanceAs (Decidable (g.blocks.ids[k]? = some id))

theorem exists_standsAt_iff : (∃ k, g.StandsAt id k) ↔ id ∈ g.blocks.ids :=
  List.mem_iff_getElem?.symm

theorem standsAt_unique_iff :
    (∀ j k, g.StandsAt id j → g.StandsAt id k → j = k) ↔ g.blocks.ids.count id < 2 := by
  rw [← Nat.not_le, ← List.duplicate_iff_two_le_count, List.duplicate_iff_exists_distinct_get]
  constructor
  · rintro hunique ⟨j, k, hlt, hj, hk⟩
    have heq := hunique j k (List.getElem?_eq_some_iff.mpr ⟨j.2, hj.symm⟩)
      (List.getElem?_eq_some_iff.mpr ⟨k.2, hk.symm⟩)
    exact Nat.ne_of_lt hlt heq
  · intro hnone j k hj hk
    obtain ⟨hjlt, hj⟩ := List.getElem?_eq_some_iff.mp hj
    obtain ⟨hklt, hk⟩ := List.getElem?_eq_some_iff.mp hk
    rcases Nat.lt_trichotomy j k with hlt | heq | hlt
    · exact absurd ⟨⟨j, hjlt⟩, ⟨k, hklt⟩, hlt, hj.symm, hk.symm⟩ hnone
    · exact heq
    · exact absurd ⟨⟨k, hklt⟩, ⟨j, hjlt⟩, hlt, hk.symm, hj.symm⟩ hnone

/-- An ID denotes exactly one block if it occurs once. -/
theorem existsUnique_standsAt_iff : (∃! k, g.StandsAt id k) ↔ g.blocks.ids.count id = 1 := by
  have hexists : (∃ k, g.StandsAt id k) ↔ 0 < g.blocks.ids.count id :=
    exists_standsAt_iff.trans List.count_pos_iff.symm
  have hsplit : (∃! k, g.StandsAt id k) ↔
      (∃ k, g.StandsAt id k) ∧ ∀ j k, g.StandsAt id j → g.StandsAt id k → j = k :=
    ⟨fun h => ⟨h.exists, fun _ _ hj hk => h.unique hj hk⟩,
      fun ⟨⟨k, hk⟩, hunique⟩ => ⟨k, hk, fun j hj => hunique j k hj hk⟩⟩
  rw [hsplit, hexists, standsAt_unique_iff]
  omega

/-! ### Fallthrough -/

/-- Whether each `next` edge leads to the block directly behind its source. -/
def FallsThrough (g : FlowGraph) : Prop :=
  ∀ k b, g.blocks.elems[k]? = some b → ∀ target, .next target ∈ b.edges → g.StandsAt target (k + 1)

/-- With distinct IDs, the fallthroughs are real if the layout predecessors say so. -/
theorem fallsThrough_iff (hids : g.blocks.ids.Nodup) :
    g.FallsThrough ↔
      ∀ b ∈ g.blocks.elems, ∀ target, .next target ∈ b.edges → g.layoutPredecessor? target = some b := by
  constructor
  · intro h b hb target hedge
    obtain ⟨k, hk⟩ := List.mem_iff_getElem?.mp hb
    have hstands := h k b hk target hedge
    rw [StandsAt, Roster.ids, List.getElem?_map] at hstands
    obtain ⟨behind, hbehind, rfl⟩ := Option.map_eq_some_iff.mp hstands
    exact (layoutPredecessor?_succ hids hbehind).trans hk
  · intro h k b hk target hedge
    have hpredecessor := h b (List.mem_of_getElem? hk) target hedge
    rw [layoutPredecessor?] at hpredecessor
    split at hpredecessor
    · next index hposition =>
      rw [Roster.position?_eq, List.findIdx?_eq_some_iff_getElem] at hposition
      obtain ⟨hlt, hid, -⟩ := hposition
      rw [Roster.index_unique hids hk hpredecessor rfl, StandsAt, List.getElem?_eq_getElem hlt]
      simpa using hid
    · cases hpredecessor

/-! ### History -/

/-- The ID of a block that is about to join, if a block of the graph has it. -/
def reuse (g : FlowGraph) (b : Block) : List Nat :=
  if b.id ∈ g.blocks.ids then [b.id] else []

/-- How a flow graph comes about, and the IDs under which blocks have joined while they were in use. -/
inductive Grown : List Nat → FlowGraph → Prop
  | new : Grown [] {}
  /-- Blocks are changed where they stand, or another one becomes the entry. -/
  | kept {reused : List Nat} {g g' : FlowGraph} : Grown reused g → g'.blocks.ids = g.blocks.ids →
      g'.blocks.next = g.blocks.next → Grown reused g'
  | appended {reused : List Nat} {g : FlowGraph} (b : Block) : Grown reused g →
      Grown (g.reuse b ++ reused) (g.addBlock b)
  | inserted {reused : List Nat} {g g' : FlowGraph} {after : Nat} (b : Block) : Grown reused g →
      g.insertAfter? after b = some g' → Grown (g.reuse b ++ reused) g'

/-- What the history says about the IDs of the graph. -/
structure Tallied (reused : List Nat) (g : FlowGraph) : Prop where
  next_ne_zero : g.blocks.next ≠ 0
  bounds : ∀ id ∈ g.blocks.ids, id ≠ 0 ∧ id < g.blocks.next
  subset : ∀ id ∈ reused, id ∈ g.blocks.ids
  count : ∀ id ∈ g.blocks.ids, g.blocks.ids.count id = reused.count id + 1

namespace Tallied
variable {b : Block}

theorem new : Tallied [] {} where
  next_ne_zero := Nat.one_ne_zero
  bounds _ hid := nomatch hid
  subset _ hid := nomatch hid
  count _ hid := nomatch hid

theorem idFor_ne_zero (h : Tallied reused g) (b : Block) : g.blocks.idFor b ≠ 0 := by
  rw [Roster.idFor]
  split
  · exact h.next_ne_zero
  · assumption

theorem idFor_notMem (h : Tallied reused g) (hb : b.id ∉ g.blocks.ids) :
    g.blocks.idFor b ∉ g.blocks.ids := by
  intro hmem
  rw [Roster.idFor] at hmem
  split at hmem
  · exact Nat.lt_irrefl _ (h.bounds _ hmem).2
  · exact hb hmem

/-- Wherever a block joins, its ID is counted. -/
theorem join {g' : FlowGraph} (h : Tallied reused g) (b : Block)
    (hids : g'.blocks.ids.Perm (g.blocks.idFor b :: g.blocks.ids))
    (hnext : g'.blocks.next = g.blocks.nextAfter b) : Tallied (g.reuse b ++ reused) g' := by
  have hmem : ∀ id, id ∈ g'.blocks.ids ↔ id = g.blocks.idFor b ∨ id ∈ g.blocks.ids :=
    fun id => hids.mem_iff.trans List.mem_cons
  have hcount : ∀ id, g'.blocks.ids.count id = g.blocks.ids.count id + if g.blocks.idFor b = id then 1 else 0 := by
    intro id
    rw [hids.count_eq, List.count_cons]
    simp
  have hlt : g.blocks.idFor b < g'.blocks.next ∧ g.blocks.next ≤ g'.blocks.next := by
    rw [hnext, Roster.idFor, Roster.nextAfter]
    split <;> omega
  refine ⟨by have := h.next_ne_zero; omega, fun id hid => ?_, fun id hid => ?_, fun id hid => ?_⟩
  · rcases (hmem id).mp hid with rfl | hold
    · exact ⟨h.idFor_ne_zero b, hlt.1⟩
    · exact ⟨(h.bounds id hold).1, Nat.lt_of_lt_of_le (h.bounds id hold).2 hlt.2⟩
  · rcases List.mem_append.mp hid with hreuse | hreused
    · rw [reuse] at hreuse
      split at hreuse
      · next hb => exact (hmem id).mpr (.inr (List.mem_singleton.mp hreuse ▸ hb))
      · cases hreuse
    · exact (hmem id).mpr (.inr (h.subset id hreused))
  · rw [hcount, reuse]
    by_cases hb : b.id ∈ g.blocks.ids
    · -- the block brings an ID along that is in use
      have hidFor : g.blocks.idFor b = b.id := if_neg (h.bounds _ hb).1
      have hold : id ∈ g.blocks.ids := by
        rcases (hmem id).mp hid with rfl | hold
        · exact hidFor ▸ hb
        · exact hold
      rw [if_pos hb, hidFor, h.count id hold, List.singleton_append, List.count_cons]
      simp only [beq_iff_eq]
      omega
    · rw [if_neg hb, List.nil_append]
      by_cases hnew : g.blocks.idFor b = id
      · subst hnew
        rw [if_pos rfl, List.count_eq_zero.mpr (h.idFor_notMem hb),
          List.count_eq_zero.mpr fun hreused => h.idFor_notMem hb (h.subset _ hreused)]
      · have hold : id ∈ g.blocks.ids := ((hmem id).mp hid).resolve_left (Ne.symm hnew)
        rw [if_neg hnew, h.count id hold]

theorem of_grown (h : Grown reused g) : Tallied reused g := by
  induction h with
  | new => exact new
  | kept _ hids hnext ih =>
    refine ⟨hnext ▸ ih.next_ne_zero, ?_, ?_, ?_⟩
    · rw [hids, hnext]
      exact ih.bounds
    · rw [hids]
      exact ih.subset
    · rw [hids]
      exact ih.count
  | appended b _ ih =>
    refine ih.join b ?_ rfl
    exact (List.Perm.of_eq (Roster.ids_insert (fun _ _ => rfl) _ b)).trans (List.perm_append_singleton ..)
  | inserted b _ hinsert ih =>
    obtain ⟨blocks, hblocks, rfl⟩ := Option.map_eq_some_iff.mp hinsert
    obtain ⟨index, hindex, rfl⟩ := Option.map_eq_some_iff.mp hblocks
    refine ih.join b ?_ rfl
    exact Roster.ids_insertAt_perm (fun _ _ => rfl) hindex b

end Tallied

/-- Every block of a graph that has grown can be told by its ID, unless another one has joined under it. -/
theorem Grown.existsUnique_standsAt_iff (h : Grown reused g) (hid : id ∈ g.blocks.ids) :
    (∃! k, g.StandsAt id k) ↔ id ∉ reused := by
  rw [FlowGraph.existsUnique_standsAt_iff, (Tallied.of_grown h).count id hid, Nat.add_eq_right, List.count_eq_zero]

theorem Grown.nodup_iff (h : Grown reused g) : g.blocks.ids.Nodup ↔ reused = [] := by
  have htally := Tallied.of_grown h
  rw [List.nodup_iff_count_eq_one, List.eq_nil_iff_forall_not_mem]
  constructor
  · intro hcount id hreused
    have hid := htally.subset id hreused
    have hone := hcount id hid
    rw [htally.count id hid, Nat.add_eq_right] at hone
    exact List.count_eq_zero.mp hone hreused
  · intro hnone id hid
    rw [htally.count id hid, List.count_eq_zero.mpr (hnone id)]

/-- What a graph has become. -/
inductive Later (g : FlowGraph) : FlowGraph → Prop
  | same : Later g g
  | kept {g' g'' : FlowGraph} : Later g g' → g''.blocks.ids = g'.blocks.ids → g''.blocks.next = g'.blocks.next →
      Later g g''
  | appended {g' : FlowGraph} (b : Block) : Later g g' → Later g (g'.addBlock b)
  | inserted {g' g'' : FlowGraph} {after : Nat} (b : Block) : Later g g' → g'.insertAfter? after b = some g'' →
      Later g g''

theorem ids_insertAfter?_perm {g' : FlowGraph} {after : Nat} {b : Block} (h : g.insertAfter? after b = some g') :
    g'.blocks.ids.Perm (g.blocks.idFor b :: g.blocks.ids) := by
  obtain ⟨blocks, hblocks, rfl⟩ := Option.map_eq_some_iff.mp h
  obtain ⟨index, hindex, rfl⟩ := Option.map_eq_some_iff.mp hblocks
  exact Roster.ids_insertAt_perm (fun _ _ => rfl) hindex b

/-- Blocks never leave a graph. -/
theorem Later.ids_subset {g' : FlowGraph} (h : Later g g') : g.blocks.ids ⊆ g'.blocks.ids := by
  induction h with
  | same => exact List.Subset.refl _
  | kept _ hids _ ih => exact hids ▸ ih
  | @appended g' b _ ih =>
    have hids : (g'.addBlock b).blocks.ids = g'.blocks.ids ++ [g'.blocks.idFor b] :=
      Roster.ids_insert (fun _ _ => rfl) _ b
    rw [hids]
    exact List.subset_append_of_subset_left _ ih
  | inserted b _ hinsert ih =>
    intro id hid
    exact (ids_insertAfter?_perm hinsert).mem_iff.mpr (List.mem_cons_of_mem _ (ih hid))

/-- The next ID to give away has been that of no block so far. -/
theorem Grown.next_notMem {g' : FlowGraph} (h : Grown reused g') (hlater : Later g g') :
    g'.blocks.next ∉ g.blocks.ids := by
  intro hid
  exact Nat.lt_irrefl _ ((Tallied.of_grown h).bounds _ (hlater.ids_subset hid)).2

end FlowGraph
end ThumbHardening
