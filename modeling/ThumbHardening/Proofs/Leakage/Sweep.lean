import ThumbHardening.Proofs.Leakage.Calls

/-!
# The leakable blocks

The analysis goes through the blocks of a function in the order of the layout and reads what it has found so
far: a block that is given away gives away the next one. Along the layout this amounts to a closed form. A
block is leakable if some block at or in front of it gets a return address into memory, by a call in its
middle or one at the end of the block before it, and no trap block stands between the two.
-/

namespace ThumbHardening

namespace LinkSpill
variable {spills : LinkSpill} {p : Program} {blocks : List Block} {k : Nat} {b : Block}

/-- Whether return addresses give away the block at position `k` of the layout. -/
def GivenAway (spills : LinkSpill) (p : Program) (blocks : List Block) (k : Nat) : Prop :=
  ∃ j ≤ k, (∀ m, j ≤ m → m ≤ k → ∃ b, blocks[m]? = some b ∧ b.trap = false) ∧
    ((∃ b, blocks[j]? = some b ∧ spills.LeaksInside p b) ∨
      0 < j ∧ ∃ front, blocks[j - 1]? = some front ∧ spills.EndsLeaking p front)

/-- A block is given away by itself, or by the block in front of it. -/
theorem givenAway_iff (hb : blocks[k]? = some b) :
    spills.GivenAway p blocks k ↔ b.trap = false ∧ (spills.LeaksInside p b ∨
      ∃ m front, k = m + 1 ∧ blocks[m]? = some front ∧
        (spills.GivenAway p blocks m ∨ spills.EndsLeaking p front)) := by
  constructor
  · intro hparts
    obtain ⟨j, hjk, hrun, hsource⟩ := hparts
    obtain ⟨b', hb', htrap⟩ := hrun k hjk (Nat.le_refl k)
    rw [hb, Option.some.injEq] at hb'
    refine ⟨hb' ▸ htrap, ?_⟩
    rcases Nat.lt_or_eq_of_le hjk with hlt | rfl
    · -- The source is further in front, so it gives away the block before as well.
      obtain ⟨m, rfl⟩ : ∃ m, k = m + 1 := Nat.exists_eq_add_one_of_ne_zero (Nat.ne_zero_of_lt hlt)
      have hjm : j ≤ m := Nat.le_of_lt_succ hlt
      obtain ⟨front, hfront, -⟩ := hrun m hjm (Nat.le_succ m)
      exact .inr ⟨m, front, rfl, hfront,
        .inl ⟨j, hjm, fun n hjn hnm => hrun n hjn (Nat.le_succ_of_le hnm), hsource⟩⟩
    · rcases hsource with ⟨source, hsource, hinside⟩ | ⟨hpos, front, hfront, hends⟩
      · rw [hb, Option.some.injEq] at hsource
        exact .inl (hsource ▸ hinside)
      · exact .inr ⟨j - 1, front, by omega, hfront, .inr hends⟩
  · intro hparts
    obtain ⟨htrap, hsource⟩ := hparts
    have hself : ∀ m, k ≤ m → m ≤ k → ∃ b, blocks[m]? = some b ∧ b.trap = false := by
      intro m hkm hmk
      rw [Nat.le_antisymm hmk hkm]
      exact ⟨b, hb, htrap⟩
    rcases hsource with hinside | ⟨m, front, rfl, hfront, ⟨j, hjm, hrun, hsource⟩ | hends⟩
    · exact ⟨k, Nat.le_refl k, hself, .inl ⟨b, hb, hinside⟩⟩
    · refine ⟨j, Nat.le_succ_of_le hjm, fun n hjn hn => ?_, hsource⟩
      rcases Nat.lt_or_eq_of_le hn with hlt | rfl
      · exact hrun n hjn (Nat.le_of_lt_succ hlt)
      · exact ⟨b, hb, htrap⟩
    · exact ⟨m + 1, Nat.le_refl _, hself, .inr ⟨Nat.succ_pos m, front, hfront, hends⟩⟩

end LinkSpill

namespace LeakageSweep

variable {p : Program} {spills : LinkSpill} {f : Function} {g : FlowGraph} {b : Block}
  {s s' : LeakageSweep} {x : Nat × Nat} {id : Nat}

/-! ### One block -/

theorem mem_mark_iff {function : Nat} :
    x ∈ (s.mark function b).blocks ↔ x ∈ s.blocks ∨ x = (function, b.id) := by
  rw [mark]
  split
  · next hmarked =>
    rw [List.contains_iff_mem] at hmarked
    exact ⟨.inl, fun h => h.elim (fun h => h) fun h => h ▸ hmarked⟩
  · rw [List.mem_cons]
    exact or_comm

/-- Looking at a block marks that block if it is given away, and nothing else. -/
theorem visitBlock_marks (h : visitBlock p spills f g b s = (s', none)) :
    ∃ given, isGivenAway p spills f g b s = .ok given ∧
      ∀ x, x ∈ s'.blocks ↔ x ∈ s.blocks ∨ given = true ∧ x = (f.id, b.id) := by
  rw [visitBlock] at h
  split at h
  · cases h
  · next hanswer =>
    cases h
    exact ⟨false, hanswer, by simp⟩
  · next hanswer =>
    cases h
    refine ⟨true, hanswer, fun x => ?_⟩
    rw [markReturned, mem_mark_iff, and_iff_right rfl]

theorem visitBlock_eq_none (hids : g.blocks.ids.Nodup)
    (h : visitBlock p spills f g b s = (s', none)) :
    x ∈ s'.blocks ↔ x ∈ s.blocks ∨ x = (f.id, b.id) ∧ (spills.LeaksInside p b ∨
      ∃ front, g.layoutPredecessor? b.id = some front ∧
        ((f.id, front.id) ∈ s.blocks ∨ spills.EndsLeaking p front)) := by
  obtain ⟨given, hanswer, hmarks⟩ := visitBlock_marks h
  rw [hmarks, ← isGivenAway_eq_ok hids hanswer, and_comm]

/-! ### The blocks of a function -/

/-- The marks of a function when the first `n` blocks of its layout have been looked at. -/
def SweptTo (p : Program) (spills : LinkSpill) (f : Function) (blocks : List Block) (n : Nat)
    (s : LeakageSweep) : Prop :=
  ∀ id, (f.id, id) ∈ s.blocks ↔
    ∃ k b, k < n ∧ blocks[k]? = some b ∧ b.id = id ∧ spills.GivenAway p blocks k

/-- A mark at a block says whether the block is given away. -/
theorem SweptTo.mem_iff {n k : Nat} (h : SweptTo p spills f g.blocks.elems n s)
    (hids : g.blocks.ids.Nodup) (hk : k < n) (hb : g.blocks.elems[k]? = some b) :
    (f.id, b.id) ∈ s.blocks ↔ spills.GivenAway p g.blocks.elems k := by
  rw [h b.id]
  constructor
  · intro hparts
    obtain ⟨j, b', -, hb', hid, hgiven⟩ := hparts
    rwa [Roster.index_unique hids hb hb' hid.symm]
  · intro hgiven
    exact ⟨k, b, hk, hb, rfl, hgiven⟩

/-- One more block is swept once it is marked exactly if it is given away. -/
theorem SweptTo.succ {n : Nat} (h : SweptTo p spills f g.blocks.elems n s)
    (hb : g.blocks.elems[n]? = some b)
    (hstep : ∀ id, (f.id, id) ∈ s'.blocks ↔
      (f.id, id) ∈ s.blocks ∨ id = b.id ∧ spills.GivenAway p g.blocks.elems n) :
    SweptTo p spills f g.blocks.elems (n + 1) s' := by
  intro id
  rw [hstep id, h id]
  constructor
  · intro hcase
    rcases hcase with ⟨k, b', hk, hrest⟩ | ⟨rfl, hgiven⟩
    · exact ⟨k, b', Nat.lt_succ_of_lt hk, hrest⟩
    · exact ⟨n, b, Nat.lt_succ_self n, hb, rfl, hgiven⟩
  · intro hparts
    obtain ⟨k, b', hk, hb', hid, hgiven⟩ := hparts
    rcases Nat.lt_succ_iff_lt_or_eq.mp hk with hlt | rfl
    · exact .inl ⟨k, b', hlt, hb', hid, hgiven⟩
    · rw [hb, Option.some.injEq] at hb'
      exact .inr ⟨by rw [hb', hid], hgiven⟩

/-- Looking at the next block of the layout that is not a trap. -/
theorem SweptTo.visitBlock {n : Nat} (h : SweptTo p spills f g.blocks.elems n s)
    (hids : g.blocks.ids.Nodup) (hb : g.blocks.elems[n]? = some b) (htrap : b.trap = false)
    (hvisit : visitBlock p spills f g b s = (s', none)) :
    SweptTo p spills f g.blocks.elems (n + 1) s' := by
  apply h.succ hb
  intro id
  rw [visitBlock_eq_none hids hvisit, Prod.mk.injEq, and_iff_right rfl]
  refine or_congr_right (and_congr_right fun _ => ?_)
  rw [LinkSpill.givenAway_iff hb, and_iff_right htrap]
  apply or_congr_right
  cases n with
  | zero => simp [FlowGraph.layoutPredecessor?_zero hids hb]
  | succ m =>
    rw [FlowGraph.layoutPredecessor?_succ hids hb]
    constructor
    · intro hparts
      obtain ⟨front, hfront, hsource⟩ := hparts
      rw [h.mem_iff hids (Nat.lt_succ_self m) hfront] at hsource
      exact ⟨m, front, rfl, hfront, hsource⟩
    · intro hparts
      obtain ⟨_, front, heq, hfront, hsource⟩ := hparts
      cases heq
      rw [← h.mem_iff hids (Nat.lt_succ_self m) hfront] at hsource
      exact ⟨front, hfront, hsource⟩

/-- Looking at the next blocks of the layout. The trap blocks among them are passed over, and are not given
away. -/
theorem SweptTo.runAll (hids : g.blocks.ids.Nodup) {done todo behind : List Block}
    (hlayout : g.blocks.elems = done ++ todo ++ behind)
    (h : SweptTo p spills f g.blocks.elems done.length s)
    (hrun : Steps.runAll (LeakageSweep.visitBlock p spills f g) (todo.filter fun b => !b.trap) s
      = (s', none)) :
    SweptTo p spills f g.blocks.elems (done ++ todo).length s' := by
  induction todo generalizing done s with
  | nil =>
    cases hrun
    rwa [List.append_nil]
  | cons b rest ih =>
    have hb : g.blocks.elems[done.length]? = some b := by
      rw [hlayout]
      simp
    have hsplit : done ++ b :: rest = done ++ [b] ++ rest := List.append_cons ..
    have hlength : (done ++ [b]).length = done.length + 1 := by simp
    rw [hsplit] at hlayout ⊢
    cases htrap : b.trap with
    | true =>
      rw [List.filter_cons_of_neg (by simp [htrap])] at hrun
      refine ih hlayout ?_ hrun
      rw [hlength]
      apply h.succ hb
      intro id
      simp [LinkSpill.givenAway_iff hb, htrap]
    | false =>
      rw [List.filter_cons_of_pos (by simp [htrap])] at hrun
      obtain ⟨t, hvisit, hrest⟩ := Steps.runAll_cons_eq_none_iff.mp hrun
      refine ih hlayout ?_ hrest
      rw [hlength]
      exact h.visitBlock hids hb htrap hvisit

end LeakageSweep
end ThumbHardening
