import ThumbHardening.Proofs.Liveness.Exact
import ThumbHardening.Verify

/-!
# When the rounds end

A round is monotone, so the maps after the rounds grow, and within a bounded number of them they stop changing,
whatever the graph is. That does not end the analysis if blocks share an ID: within a round they may keep
overwriting each other's registers with different ones. The rounds end exactly if each block agrees with the map
in which they come to rest. The verification does not help, since it accepts blocks that share an ID.
-/

namespace ThumbHardening

namespace LiveMap

variable {live live' : LiveMap}

/-- Maps with the same entries, whatever the order they were made in. -/
def Same (live live' : LiveMap) : Prop :=
  ∀ id, live.lookup id = live'.lookup id

theorem Same.symm (h : live.Same live') : live'.Same live :=
  fun id => (h id).symm

theorem Same.trans {live'' : LiveMap} (h : live.Same live') (h' : live'.Same live'') : live.Same live'' :=
  fun id => (h id).trans (h' id)

theorem Same.get_eq (h : live.Same live') : live.get = live'.get := by
  funext id
  rw [get, get, h id]

end LiveMap

theorem Block.liveIn_congr {live live' : LiveMap} (h : live.Same live') (b : Block) :
    b.liveIn live = b.liveIn live' := by
  rw [liveIn, liveOut, h.get_eq, liveIn, liveOut]

namespace FlowGraph

variable {g : FlowGraph} {live live' : LiveMap} {b : Block}

/-- The map after a number of rounds. -/
def mapAfter (g : FlowGraph) (rounds : Nat) : LiveMap :=
  (fun live => (g.liveRound live).1)^[rounds] []

theorem mapAfter_succ (g : FlowGraph) (n : Nat) : g.mapAfter (n + 1) = (g.liveRound (g.mapAfter n)).1 :=
  Function.iterate_succ_apply' ..

/-- Whether the round that follows so many others changes no entry. -/
def Quiet (g : FlowGraph) (rounds : Nat) : Prop :=
  (g.liveRound (g.mapAfter rounds)).2 = false

/-! ### A round is monotone -/

/-- Looking at a block sets its entry to what the block computes. -/
theorem lookup_liveStep (b : Block) (live : LiveMap) (changed : Bool) (id : Nat) :
    (liveStep b (live, changed)).1.lookup id = if id = b.id then some (b.liveIn live) else live.lookup id := by
  rw [liveStep]
  split
  · next hagrees =>
    split
    · next hid => rw [hid, ← hagrees]
    · rfl
  · exact LiveMap.lookup_put ..

theorem grows_liveStep (h : live.Grows live') (b : Block) (changed changed' : Bool) :
    (liveStep b (live, changed)).1.Grows (liveStep b (live', changed')).1 := by
  intro id s hs
  rw [lookup_liveStep] at hs ⊢
  split
  · next hid =>
    rw [if_pos hid] at hs
    cases hs
    exact ⟨_, rfl, b.liveIn_mono h⟩
  · next hid =>
    rw [if_neg hid] at hs
    exact h id s hs

/-- What every block keeps of two maps, a round keeps. -/
theorem liveRound_rel {R : LiveMap → LiveMap → Prop}
    (hstep : ∀ {live live'} b changed changed', R live live' →
      R (liveStep b (live, changed)).1 (liveStep b (live', changed')).1)
    (h : R live live') : R (g.liveRound live).1 (g.liveRound live').1 := by
  rw [liveRound, liveRound]
  induction g.blocks.elems with
  | nil => exact h
  | cons b rest ih => exact hstep b _ _ ih

theorem grows_liveRound (h : live.Grows live') : (g.liveRound live).1.Grows (g.liveRound live').1 :=
  liveRound_rel (fun b changed changed' h => grows_liveStep h b changed changed') h

theorem grows_mapAfter (g : FlowGraph) (n : Nat) : (g.mapAfter n).Grows (g.mapAfter (n + 1)) := by
  induction n with
  | zero => exact fun id s hs => by cases hs
  | succ n ih =>
    rw [mapAfter_succ, mapAfter_succ g (n + 1)]
    exact grows_liveRound ih

/-! ### The maps come to rest -/

theorem same_liveStep (h : live.Same live') (b : Block) (changed changed' : Bool) :
    (liveStep b (live, changed)).1.Same (liveStep b (live', changed')).1 := by
  intro id
  rw [lookup_liveStep, lookup_liveStep, b.liveIn_congr h, h id]

theorem same_liveRound (h : live.Same live') : (g.liveRound live).1.Same (g.liveRound live').1 :=
  liveRound_rel (fun b changed changed' h => same_liveStep h b changed changed') h

/-- A round only touches the entries of blocks. -/
theorem lookup_liveRound {id : Nat} (hid : ∀ b ∈ g.blocks.elems, id ≠ b.id) :
    (g.liveRound live).1.lookup id = live.lookup id := by
  have hpart : ∀ blocks : List Block, (∀ b ∈ blocks, id ≠ b.id) →
      (blocks.foldr liveStep (live, false)).1.lookup id = live.lookup id := by
    intro blocks hblocks
    induction blocks with
    | nil => rfl
    | cons b rest ih =>
      obtain ⟨hb, hrest⟩ := List.forall_mem_cons.mp hblocks
      exact (lookup_liveStep b _ _ id).trans ((if_neg hb).trans (ih hrest))
  exact hpart _ hid

theorem weight_lt_mapAfter_succ {n : Nat} (h : ¬(g.mapAfter n).Same (g.mapAfter (n + 1))) :
    weight g (g.mapAfter n) < weight g (g.mapAfter (n + 1)) := by
  obtain ⟨id, hne⟩ := not_forall.mp h
  by_cases hid : ∃ b ∈ g.blocks.elems, id = b.id
  · obtain ⟨b, hb, rfl⟩ := hid
    exact weight_lt_of_grows (grows_mapAfter g n) hb hne
  · refine absurd ?_ hne
    rw [mapAfter_succ]
    exact (lookup_liveRound fun b hb heq => hid ⟨b, hb, heq⟩).symm

/-- Not every round can make the map larger. -/
theorem exists_same (g : FlowGraph) :
    ∃ n ≤ 18 * g.blocks.size, (g.mapAfter n).Same (g.mapAfter (n + 1)) := by
  by_contra! hall
  have hweight : ∀ n ≤ 18 * g.blocks.size + 1, n ≤ weight g (g.mapAfter n) := by
    intro n
    induction n with
    | zero => exact fun _ => Nat.zero_le _
    | succ n ih =>
      intro hn
      have hlt := weight_lt_mapAfter_succ (hall n (by omega))
      have hle := ih (by omega)
      omega
  have hfull := hweight _ (Nat.le_refl _)
  have hle := weight_le g (g.mapAfter (18 * g.blocks.size + 1))
  omega

theorem same_of_le {m n : Nat} (h : (g.mapAfter m).Same (g.mapAfter (m + 1))) (hle : m ≤ n) :
    (g.mapAfter n).Same (g.mapAfter m) := by
  induction n, hle using Nat.le_induction with
  | base => exact fun _ => rfl
  | succ n _ ih =>
    have hround := same_liveRound (g := g) ih
    rw [← mapAfter_succ, ← mapAfter_succ] at hround
    exact hround.trans h.symm

/-- The map in which the rounds come to rest. -/
def restMap (g : FlowGraph) : LiveMap :=
  g.mapAfter (18 * g.blocks.size)

theorem same_restMap {n : Nat} (hn : 18 * g.blocks.size ≤ n) : (g.mapAfter n).Same g.restMap := by
  obtain ⟨m, hm, hsame⟩ := exists_same g
  exact (same_of_le hsame (hm.trans hn)).trans (same_of_le hsame hm).symm

/-! ### Rounds that change nothing -/

/-- A round through some of the blocks reports no change exactly if they all agree with the map. -/
theorem snd_foldr_liveStep_iff {blocks : List Block} :
    (blocks.foldr liveStep (live, false)).2 = false ↔
      ∀ b ∈ blocks, live.lookup b.id = some (b.liveIn live) := by
  induction blocks with
  | nil => simp
  | cons b rest ih =>
    rw [List.foldr_cons, liveStep, List.forall_mem_cons, ← ih]
    constructor
    · intro h
      split at h
      · next hagrees =>
        rw [fst_foldr_liveStep h] at hagrees
        exact ⟨hagrees, h⟩
      · cases h
    · rintro ⟨hb, hrest⟩
      rw [fst_foldr_liveStep hrest, if_pos hb]
      exact hrest

theorem quiet_iff {n : Nat} : g.Quiet n ↔ g.Settled (g.mapAfter n) :=
  snd_foldr_liveStep_iff

instance (g : FlowGraph) (live : LiveMap) : Decidable (g.Settled live) :=
  inferInstanceAs (Decidable (∀ b ∈ g.blocks.elems, live.lookup b.id = some (b.liveIn live)))

theorem Settled.congr (h : g.Settled live) (hsame : live.Same live') : g.Settled live' := by
  intro b hb
  rw [← hsame b.id, ← b.liveIn_congr hsame]
  exact h b hb

/-- Behind a round that changes nothing, no round does. -/
theorem Quiet.mapAfter_eq {m n : Nat} (h : g.Quiet m) (hle : m ≤ n) : g.mapAfter n = g.mapAfter m := by
  induction n, hle using Nat.le_induction with
  | base => rfl
  | succ n _ ih =>
    rw [mapAfter_succ, ih]
    exact fst_foldr_liveStep h

/-- Some round changes nothing exactly if the blocks agree with the map in which the rounds come to rest. -/
theorem exists_quiet_iff : (∃ n, g.Quiet n) ↔ g.Settled g.restMap := by
  constructor
  · rintro ⟨n, hquiet⟩
    have hmap := hquiet.mapAfter_eq (Nat.le_add_right n (18 * g.blocks.size))
    apply (quiet_iff.mp hquiet).congr
    rw [← hmap]
    exact same_restMap (Nat.le_add_left ..)
  · intro hsettled
    exact ⟨_, quiet_iff.mpr hsettled⟩

/-- The limit stops the rounds only if they go on for so long. -/
theorem isSome_liveSettle_iff (g : FlowGraph) (limit start : Nat) :
    (g.liveSettle limit (g.mapAfter start)).isSome = true ↔ ∃ n < limit, g.Quiet (start + n) := by
  induction limit generalizing start with
  | zero => simp [liveSettle]
  | succ limit ih =>
    have hnext := mapAfter_succ g start
    rw [liveSettle]
    split
    · next hround =>
      refine iff_of_true rfl ⟨0, Nat.succ_pos _, ?_⟩
      rw [Quiet, Nat.add_zero, hround]
    · next live hround =>
      rw [hround] at hnext
      change g.mapAfter (start + 1) = live at hnext
      rw [← hnext, ih]
      constructor
      · rintro ⟨n, hn, hquiet⟩
        exact ⟨n + 1, Nat.succ_lt_succ hn, by rwa [Nat.add_right_comm] at hquiet⟩
      · rintro ⟨n, hn, hquiet⟩
        cases n with
        | zero =>
          rw [Quiet, Nat.add_zero, hround] at hquiet
          cases hquiet
        | succ n => exact ⟨n, Nat.lt_of_succ_lt_succ hn, by rwa [Nat.add_right_comm]⟩

theorem isSome_liveness_iff : g.liveness?.isSome = true ↔ ∃ n, g.Quiet n := by
  have hlimit := isSome_liveSettle_iff g g.liveLimit 0
  rw [liveness?]
  refine hlimit.trans ⟨fun ⟨n, _, hquiet⟩ => ⟨_, hquiet⟩, fun hquiet => ?_⟩
  refine ⟨18 * g.blocks.size, Nat.lt_add_of_pos_right (Nat.succ_pos _), ?_⟩
  rw [Nat.zero_add]
  exact quiet_iff.mpr (exists_quiet_iff.mp hquiet)

theorem freeRegistersAt_eq_endless_iff (huses : g.hasUses = true) (id index reported : Nat) (compact : Bool) :
    g.freeRegistersAt id index reported compact = .error (.fault .endlessLiveness) ↔ ¬∃ n, g.Quiet n := by
  rw [← isSome_liveness_iff, freeRegistersAt, huses]
  cases g.liveness? with
  | none => simp
  | some live =>
    simp only [Bool.not_true, Bool.false_eq_true, if_false, Option.isSome_some, not_true_eq_false, iff_false]
    cases g.liveAt? live id index <;> simp

/-- If blocks that share an ID compute the same, the rounds end. -/
theorem Agreeing.exists_quiet (h : g.Agreeing) : ∃ n ≤ 18 * g.blocks.size, g.Quiet n := by
  have hlimit : 18 * g.blocks.size < 18 * g.blocks.size + 1 + weight g (g.mapAfter 0) := by omega
  obtain ⟨live, hlive, -⟩ := exists_settled h (fun b _ s hs => by cases hs) hlimit
  obtain ⟨n, hn, hquiet⟩ := (isSome_liveSettle_iff g _ 0).mp (Option.isSome_of_eq_some hlive)
  exact ⟨n, Nat.le_of_lt_succ hn, (Nat.zero_add n) ▸ hquiet⟩

/-! ### The end of the rounds -/

/-- No round takes registers away from a block, and within 18 rounds for each block the rounds come to rest in a
map that further ones do not change. Some round reports no change exactly if each block computes what it has in
that map; otherwise a query that asks for the free registers of the graph gets no answer. The rounds end within
that number if blocks that share an ID compute the same, in particular if the IDs are distinct. -/
theorem rounds_end_iff (g : FlowGraph) :
    (∀ n, (g.mapAfter n).Grows (g.mapAfter (n + 1))) ∧
      (∀ n ≥ 18 * g.blocks.size, (g.mapAfter n).Same g.restMap) ∧
      ((∃ n, g.Quiet n) ↔ ∀ b ∈ g.blocks.elems, g.restMap.lookup b.id = some (b.liveIn g.restMap)) ∧
      (g.blocks.ids.Nodup ∨ g.Agreeing → ∃ n ≤ 18 * g.blocks.size, g.Quiet n) ∧
      (g.hasUses = true → ∀ id index reported compact,
        g.freeRegistersAt id index reported compact = .error (.fault .endlessLiveness) ↔ ¬∃ n, g.Quiet n) := by
  refine ⟨grows_mapAfter g, fun n hn => same_restMap hn, exists_quiet_iff, fun hids => ?_, fun huses => ?_⟩
  · exact (hids.elim agreeing_of_nodup id).exists_quiet
  · exact freeRegistersAt_eq_endless_iff huses

/-- Two blocks with one ID, the second of them a return. -/
def sharedGraph (first : Code) : FlowGraph :=
  { blocks := (({} : Roster Block).insert { instrs := first }).insert { id := 1, instrs := [.ret] }
    entry := 1 }

/-- The rounds end for a block and its copy, and do not if the block reads another register than the copy. -/
theorem rounds_end_iff_sharedGraph :
    (∃ n, (sharedGraph [.ret]).Quiet n) ∧
      ¬∃ n, (sharedGraph [.mov (.phys .r0) (.phys .r1), .ret]).Quiet n := by
  constructor
  · exact (rounds_end_iff _).2.2.1.mpr (by decide +kernel)
  · intro hquiet
    exact absurd ((rounds_end_iff _).2.2.1.mp hquiet) (by decide +kernel)

/-- A program with a function that has the two blocks. -/
def sharedProgram : Program :=
  let function : Function :=
    { name := "f", body := some (sharedGraph [.mov (.phys .r0) (.phys .r1), .ret]), calleeSaved := some [] }
  { pointerSize := 4, functions := ({} : Roster Function).insert function }

/-- The rounds need not end for a program that the verification accepts. -/
theorem not_rounds_end_verified :
    ¬∀ p : Program, p.verify = .ok () →
      (∀ f ∈ p.functions.elems, ∀ g, f.body = some g → g.hasUses = true) →
      ∀ f ∈ p.functions.elems, ∀ g, f.body = some g → ∃ n, g.Quiet n := by
  intro hclaim
  have hends := hclaim sharedProgram (by decide +kernel)
    (by
      intro f hf g hg
      cases List.mem_singleton.mp hf
      cases hg
      decide +kernel) _ (List.mem_singleton_self _) _ rfl
  exact absurd (exists_quiet_iff.mp hends) (by decide +kernel)

end FlowGraph
end ThumbHardening
