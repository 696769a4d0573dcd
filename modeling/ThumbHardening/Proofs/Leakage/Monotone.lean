import ThumbHardening.Proofs.Leakage.Leakable

/-!
# Where leakability is handed on

A leakable block hands its mark to the next block of the layout, and so on to the end of the function. Trap
blocks are never marked, so the chain ends in front of them: a block behind a trap block is leakable only by
itself or by the end of the trap block. Marks are kept by ID, so blocks and functions that share one are the
only other place where it can end.
-/

namespace ThumbHardening

/-- The block in front of a block whose ID no other block has. -/
theorem FlowGraph.layoutPredecessor?_of_count {g : FlowGraph} {b c : Block} {front back : List Block}
    (hlayout : g.blocks.elems = front ++ b :: c :: back) (hcount : g.blocks.ids.count c.id = 1) :
    g.layoutPredecessor? c.id = some b := by
  have hsplit : g.blocks.elems = (front ++ [b]) ++ c :: back := by
    rw [hlayout, List.append_assoc]
    rfl
  have hposition : g.blocks.position? c.id = some (front ++ [b]).length :=
    Roster.position?_of_count_eq_one hsplit hcount
  rw [List.length_append, List.length_singleton] at hposition
  rw [layoutPredecessor?, hposition]
  simp [hlayout]

namespace LeakageSweep

variable {p : Program} {spills : LinkSpill} {f : Function} {g : FlowGraph} {b c front : Block}
  {s s' : LeakageSweep} {x : Nat × Nat}

/-! ### Neighbours in the layout -/

/-- A marked block gives away the next one. -/
theorem mem_visitBlock_of_front (hfront : g.layoutPredecessor? b.id = some front)
    (hmarked : (f.id, front.id) ∈ s.blocks) (h : visitBlock p spills f g b s = (s', none)) :
    (f.id, b.id) ∈ s'.blocks := by
  obtain ⟨given, hanswer, hmarks⟩ := visitBlock_marks h
  have hgiven : isGivenAway p spills f g b s = .ok true := by
    simp [isGivenAway, leaksFromFront, hfront, hmarked]
  rw [hgiven, Except.ok.injEq] at hanswer
  exact (hmarks _).mpr (.inr ⟨hanswer.symm, rfl⟩)

/-- Looking at blocks keeps all marks, and adds only marks of those blocks. -/
theorem runAll_visitBlock_marks {blocks : List Block}
    (hrun : Steps.runAll (visitBlock p spills f g) blocks s = (s', none)) :
    (x ∈ s.blocks → x ∈ s'.blocks) ∧
      (x ∈ s'.blocks → x ∈ s.blocks ∨ ∃ b ∈ blocks, x = (f.id, b.id)) := by
  refine Steps.runAll_induction hrun (P := fun t => (x ∈ s.blocks → x ∈ t.blocks) ∧
    (x ∈ t.blocks → x ∈ s.blocks ∨ ∃ b ∈ blocks, x = (f.id, b.id))) ⟨id, .inl⟩ ?_
  intro b hb t t' hvisit hkept
  obtain ⟨given, -, hmarks⟩ := visitBlock_marks hvisit
  refine ⟨fun hx => (hmarks x).mpr (.inl (hkept.1 hx)), fun hx => ?_⟩
  rcases (hmarks x).mp hx with hx | ⟨-, rfl⟩
  · exact hkept.2 hx
  · exact .inr ⟨b, hb, rfl⟩

/-- Of two blocks next to each other, the first hands its mark to the second. -/
theorem handsOn_visitFunction {front back : List Block} (hbody : f.body = some g)
    (hlayout : g.blocks.elems = front ++ b :: c :: back) (hb : b.trap = false) (hc : c.trap = false)
    (hfirst : g.blocks.ids.count b.id = 1) (hsecond : g.blocks.ids.count c.id = 1)
    (hvisit : visitFunction p spills f s = (s', none)) (hmarked : (f.id, b.id) ∈ s'.blocks) :
    (f.id, c.id) ∈ s'.blocks := by
  obtain ⟨_, hrun, -⟩ := visitFunction_eq_none hbody hvisit
  rw [hlayout, List.filter_append, List.filter_cons_of_pos (by simp [hb]),
    List.filter_cons_of_pos (by simp [hc])] at hrun
  obtain ⟨_, -, hrun⟩ := Steps.runAll_append_eq_none_iff.mp hrun
  obtain ⟨t, -, hrun⟩ := Steps.runAll_cons_eq_none_iff.mp hrun
  obtain ⟨u, hvisitSecond, hbehind⟩ := Steps.runAll_cons_eq_none_iff.mp hrun
  have hother : ∀ a ∈ c :: back, a.id ≠ b.id := (Roster.id_ne_of_count_eq_one hlayout hfirst).2
  -- What stands behind the first block does not mark it, so it was marked when the second was looked at.
  have hmarkedThen : (f.id, b.id) ∈ t.blocks := by
    have hbefore : (f.id, b.id) ∈ u.blocks := by
      refine ((runAll_visitBlock_marks hbehind).2 hmarked).resolve_right fun hparts => ?_
      obtain ⟨a, ha, heq⟩ := hparts
      exact hother a (List.mem_cons_of_mem _ (List.mem_of_mem_filter ha)) (congrArg Prod.snd heq).symm
    obtain ⟨_, -, hmarks⟩ := visitBlock_marks hvisitSecond
    refine ((hmarks _).mp hbefore).resolve_right fun hparts => ?_
    exact hother c List.mem_cons_self (congrArg Prod.snd hparts.2).symm
  exact (runAll_visitBlock_marks hbehind).1
    (mem_visitBlock_of_front (FlowGraph.layoutPredecessor?_of_count hlayout hsecond) hmarkedThen
      hvisitSecond)

/-- If no other function has the ID of a function, its marks at the end are those it got itself. -/
theorem handsOn_visitProgram {front back : List Block} (hf : f ∈ p.functions.elems)
    (hbody : f.body = some g) (hlayout : g.blocks.elems = front ++ b :: c :: back) (hb : b.trap = false)
    (hc : c.trap = false) (hfunction : p.functions.ids.count f.id = 1)
    (hfirst : g.blocks.ids.count b.id = 1) (hsecond : g.blocks.ids.count c.id = 1)
    (hvisit : visitProgram p spills = (s, none)) (hmarked : (f.id, b.id) ∈ s.blocks) :
    (f.id, c.id) ∈ s.blocks := by
  obtain ⟨before, behind, hsplit⟩ := List.append_of_mem hf
  have hother : f.id ∉ behind.map Function.id := by
    intro hmem
    obtain ⟨other, hother, hid⟩ := List.mem_map.mp hmem
    exact (Roster.id_ne_of_count_eq_one hsplit hfunction).2 other hother hid
  rw [visitProgram, hsplit] at hvisit
  obtain ⟨_, -, hrun⟩ := Steps.runAll_append_eq_none_iff.mp hvisit
  obtain ⟨t, hown, hlater⟩ := Steps.runAll_cons_eq_none_iff.mp hrun
  rw [mem_runAll_visitFunction_of_notMem hlater hother] at hmarked ⊢
  exact handsOn_visitFunction hbody hlayout hb hc hfirst hsecond hown hmarked

/-- With distinct IDs, what the marks say about the block at a position of the layout. -/
theorem mem_blocks_at_iff {k : Nat} (hfunctions : p.functions.ids.Nodup)
    (hblocks : ∀ f ∈ p.functions.elems, ∀ g, f.body = some g → g.blocks.ids.Nodup)
    (hvisit : visitProgram p spills = (s, none)) (hf : f ∈ p.functions.elems) (hbody : f.body = some g)
    (hb : g.blocks.elems[k]? = some b) :
    (f.id, b.id) ∈ s.blocks ↔
      if p.addressEscapes f = true then b.trap = false else spills.GivenAway p g.blocks.elems k := by
  have hclean : ∀ f ∈ p.functions.elems, ∀ id, (f.id, id) ∉ ({} : LeakageSweep).blocks := by simp
  obtain ⟨-, hspec⟩ := runAll_visitFunction hfunctions hblocks hclean hvisit
  rw [hspec f hf g hbody b.id]
  constructor
  · intro hparts
    obtain ⟨j, c, hc, hid, hleaks⟩ := hparts
    obtain rfl := Roster.index_unique (hblocks f hf g hbody) hc hb hid
    rw [hc, Option.some.injEq] at hb
    exact hb ▸ hleaks
  · exact fun hleaks => ⟨k, b, hb, rfl, hleaks⟩

end LeakageSweep

/-! ### The whole layout -/

/-- Two blocks that are no traps, with nothing but traps between them. -/
structure FlowGraph.Neighbours (g : FlowGraph) (i j : Nat) (b c : Block) : Prop where
  lt : i < j
  first : g.blocks.elems[i]? = some b
  second : g.blocks.elems[j]? = some c
  first_runs : b.trap = false
  second_runs : c.trap = false
  between : ∀ m, i < m → m < j → ∃ t, g.blocks.elems[m]? = some t ∧ t.trap = true

/-- What each block hands to its neighbour gets to all blocks behind it. -/
theorem FlowGraph.Neighbours.induction {g : FlowGraph} {P : Block → Prop}
    (hstep : ∀ i j b c, g.Neighbours i j b c → P b → P c) {i j : Nat} {b c : Block} (hij : i < j)
    (hb : g.blocks.elems[i]? = some b) (hc : g.blocks.elems[j]? = some c) (hbruns : b.trap = false)
    (hcruns : c.trap = false) (h : P b) : P c := by
  -- Up to each position, the last block that is no trap has it.
  have hlast : ∀ n, i + n < g.blocks.elems.length → ∃ k d, i ≤ k ∧ k ≤ i + n ∧
      g.blocks.elems[k]? = some d ∧ d.trap = false ∧ P d ∧
      ∀ m, k < m → m ≤ i + n → ∃ t, g.blocks.elems[m]? = some t ∧ t.trap = true := by
    intro n
    induction n with
    | zero => exact fun _ => ⟨i, b, Nat.le_refl i, Nat.le_refl i, hb, hbruns, h, by omega⟩
    | succ n ih =>
      intro hlt
      obtain ⟨k, d, hik, hkn, hd, hdruns, hP, htraps⟩ := ih (by omega)
      have hnext := List.getElem?_eq_getElem hlt
      cases htrap : g.blocks.elems[i + (n + 1)].trap with
      | true =>
        refine ⟨k, d, hik, by omega, hd, hdruns, hP, fun m hkm hmn => ?_⟩
        rcases Nat.lt_or_eq_of_le hmn with hlt | rfl
        · exact htraps m hkm (by omega)
        · exact ⟨_, hnext, htrap⟩
      | false =>
        have hpair : g.Neighbours k (i + (n + 1)) d g.blocks.elems[i + (n + 1)] :=
          ⟨by omega, hd, hnext, hdruns, htrap, fun m hkm hmn => htraps m hkm (by omega)⟩
        exact ⟨_, _, by omega, Nat.le_refl _, hnext, htrap, hstep _ _ _ _ hpair hP, by omega⟩
  obtain ⟨n, rfl⟩ := Nat.exists_eq_add_of_le (Nat.le_of_lt hij)
  obtain ⟨k, d, -, hkj, hd, -, hP, htraps⟩ := hlast n (List.getElem?_eq_some_iff.mp hc).1
  rcases Nat.lt_or_eq_of_le hkj with hlt | rfl
  · obtain ⟨t, ht, htrap⟩ := htraps _ hlt (Nat.le_refl _)
    rw [hc, Option.some.injEq] at ht
    rw [← ht, hcruns] at htrap
    cases htrap
  · rw [hc, Option.some.injEq] at hd
    exact hd ▸ hP

/-- The IDs of a function and of two of its blocks belong to no other. -/
structure Unshared (p : Program) (f : Function) (g : FlowGraph) (b c : Block) : Prop where
  function : p.functions.ids.count f.id = 1
  first : g.blocks.ids.count b.id = 1
  second : g.blocks.ids.count c.id = 1

namespace LeakageAnalysis

/-- Whatever stands behind a leakable block is leakable, traps apart. -/
def MonotoneIn (a : LeakageAnalysis) (f : Function) (g : FlowGraph) : Prop :=
  ∀ (i j : Nat) (b c : Block), i < j → g.blocks.elems[i]? = some b → g.blocks.elems[j]? = some c →
    b.trap = false → c.trap = false →
    a.isLeakableBlock f.id b.id = true → a.isLeakableBlock f.id c.id = true

variable {a : LeakageAnalysis} {p : Program} {f : Function} {g : FlowGraph} {changed : Bool}

/-- Blocks that no trap block keeps apart hand their marks on. -/
theorem isLeakableBlock_next {i : Nat} {b c : Block} (hok : (a.run p).outcome = .ok changed)
    (hf : f ∈ p.functions.elems) (hbody : f.body = some g) (hpair : g.Neighbours i (i + 1) b c)
    (hids : Unshared p f g b c) (hleakable : (a.run p).pass.isLeakableBlock f.id b.id = true) :
    (a.run p).pass.isLeakableBlock f.id c.id = true := by
  obtain ⟨spills, s, -, hvisit, hmarks⟩ := run_eq_ok hok
  rw [isLeakableBlock, hmarks, List.contains_iff_mem] at hleakable ⊢
  obtain ⟨hi, hb⟩ := List.getElem?_eq_some_iff.mp hpair.first
  obtain ⟨hj, hc⟩ := List.getElem?_eq_some_iff.mp hpair.second
  have hlayout : g.blocks.elems = g.blocks.elems.take i ++ b :: c :: g.blocks.elems.drop (i + 2) := by
    rw [← hb, ← hc, List.getElem_cons_drop, List.getElem_cons_drop, List.take_append_drop]
  exact LeakageSweep.handsOn_visitProgram hf hbody hlayout hpair.first_runs hpair.second_runs
    hids.function hids.first hids.second hvisit hleakable

/-- With distinct IDs, what the analysis says about the block at a position of the layout. -/
theorem isLeakableBlock_at_iff {spills : LinkSpill} {s : LeakageSweep} {k : Nat} {b : Block}
    (hspills : LinkSpill.compute p = .ok spills) (hvisit : LeakageSweep.visitProgram p spills = (s, none))
    (hfunctions : p.functions.ids.Nodup)
    (hblocks : ∀ f ∈ p.functions.elems, ∀ g, f.body = some g → g.blocks.ids.Nodup)
    (hf : f ∈ p.functions.elems) (hbody : f.body = some g) (hb : g.blocks.elems[k]? = some b) :
    (a.run p).pass.isLeakableBlock f.id b.id = true ↔
      if p.addressEscapes f = true then b.trap = false else spills.GivenAway p g.blocks.elems k := by
  rw [isLeakableBlock_run_iff hspills hvisit]
  exact LeakageSweep.mem_blocks_at_iff hfunctions hblocks hvisit hf hbody hb

/-- A block that is no trap and stands directly behind one is given away by itself or by the end of the trap
block only. -/
theorem givenAway_behind_trap {spills : LinkSpill} {blocks : List Block} {m : Nat} {t c : Block}
    (ht : blocks[m]? = some t) (htrap : t.trap = true) (hc : blocks[m + 1]? = some c)
    (hruns : c.trap = false) :
    spills.GivenAway p blocks (m + 1) ↔ spills.LeaksInside p c ∨ spills.EndsLeaking p t := by
  rw [LinkSpill.givenAway_iff hc, and_iff_right hruns]
  apply or_congr_right
  constructor
  · intro hparts
    obtain ⟨n, front, heq, hfront, hsource⟩ := hparts
    cases heq
    rw [ht, Option.some.injEq] at hfront
    subst hfront
    refine hsource.resolve_left fun hgiven => ?_
    rw [LinkSpill.givenAway_iff ht, htrap] at hgiven
    cases hgiven.1
  · exact fun hends => ⟨m, t, rfl, ht, .inr hends⟩

/-- Along the layout of a function leakability ends only in front of trap blocks, shared IDs apart: on every
program that can be analysed, all that stands behind a leakable block is leakable exactly if that holds of
those neighbours that a trap block keeps apart or that share an ID. With distinct IDs it holds exactly if the
address of the function escapes, or each block that stands directly behind a trap block, with something given
away further in front, is given away afresh: by a call in it or one at the end of the trap block. -/
theorem monotoneIn_iff (hok : (a.run p).outcome = .ok changed) (hf : f ∈ p.functions.elems)
    (hbody : f.body = some g) :
    ((a.run p).pass.MonotoneIn f g ↔ ∀ i j b c, g.Neighbours i j b c →
      i + 1 < j ∨ ¬ Unshared p f g b c →
      (a.run p).pass.isLeakableBlock f.id b.id = true →
      (a.run p).pass.isLeakableBlock f.id c.id = true) ∧
    (p.functions.ids.Nodup → (∀ f ∈ p.functions.elems, ∀ g, f.body = some g → g.blocks.ids.Nodup) →
      ∃ spills, LinkSpill.compute p = .ok spills ∧
        ((a.run p).pass.MonotoneIn f g ↔ p.addressEscapes f = true ∨
          ∀ i m t c, i < m → spills.GivenAway p g.blocks.elems i →
            g.blocks.elems[m]? = some t → t.trap = true →
            g.blocks.elems[m + 1]? = some c → c.trap = false →
            spills.LeaksInside p c ∨ spills.EndsLeaking p t)) := by
  have hchain : (∀ i j b c, g.Neighbours i j b c → i + 1 < j ∨ ¬ Unshared p f g b c →
      (a.run p).pass.isLeakableBlock f.id b.id = true →
      (a.run p).pass.isLeakableBlock f.id c.id = true) → (a.run p).pass.MonotoneIn f g := by
    intro happart i j b c hij hb hc hbruns hcruns
    refine FlowGraph.Neighbours.induction
      (P := fun b => (a.run p).pass.isLeakableBlock f.id b.id = true) ?_ hij hb hc hbruns hcruns
    intro i j b c hpair hleakable
    by_cases hids : Unshared p f g b c
    · rcases Nat.lt_or_eq_of_le (Nat.succ_le_of_lt hpair.lt) with hlt | rfl
      · exact happart i j b c hpair (.inl hlt) hleakable
      · exact isLeakableBlock_next hok hf hbody hpair hids hleakable
    · exact happart i j b c hpair (.inr hids) hleakable
  refine ⟨⟨fun hmonotone i j b c hpair _ => ?_, hchain⟩, fun hfunctions hblocks => ?_⟩
  · exact hmonotone i j b c hpair.lt hpair.first hpair.second hpair.first_runs hpair.second_runs
  obtain ⟨spills, s, hspills, hvisit⟩ := visitProgram_of_run hok
  have hleakable {k : Nat} {b : Block} (hb : g.blocks.elems[k]? = some b) :=
    isLeakableBlock_at_iff (a := a) hspills hvisit hfunctions hblocks hf hbody hb
  refine ⟨spills, hspills, ?_⟩
  cases hescapes : p.addressEscapes f with
  | true =>
    refine iff_of_true (fun i j b c _ _ hc _ hcruns _ => ?_) (.inl rfl)
    rwa [hleakable hc, if_pos hescapes]
  | false =>
    simp only [hescapes, Bool.false_eq_true, if_false] at hleakable
    rw [or_iff_right (by simp)]
    constructor
    · intro hmonotone i m t c him hgiven ht htrap hc hcruns
      obtain ⟨b, hb, hbruns⟩ : ∃ b, g.blocks.elems[i]? = some b ∧ b.trap = false := by
        obtain ⟨j, hji, hrun, -⟩ := hgiven
        exact hrun i hji (Nat.le_refl i)
      refine (givenAway_behind_trap ht htrap hc hcruns).mp ((hleakable hc).mp ?_)
      exact hmonotone i (m + 1) b c (by omega) hb hc hbruns hcruns ((hleakable hb).mpr hgiven)
    · intro hafresh
      apply hchain
      intro i j b c hpair hcase hfirst
      have hids := hblocks f hf g hbody
      have hunshared : Unshared p f g b c :=
        ⟨List.count_eq_one_of_mem hfunctions (List.mem_map_of_mem hf),
          List.count_eq_one_of_mem hids (List.mem_map_of_mem (List.mem_of_getElem? hpair.first)),
          List.count_eq_one_of_mem hids (List.mem_map_of_mem (List.mem_of_getElem? hpair.second))⟩
      have hlt := hcase.resolve_right (not_not_intro hunshared)
      obtain ⟨m, rfl⟩ : ∃ m, j = m + 1 := Nat.exists_eq_add_one_of_ne_zero (by omega)
      obtain ⟨t, ht, htrap⟩ := hpair.between m (by omega) (Nat.lt_succ_self m)
      rw [hleakable hpair.first] at hfirst
      rw [hleakable hpair.second, givenAway_behind_trap ht htrap hpair.second hpair.second_runs]
      exact hafresh i m t c (by omega) hfirst ht htrap hpair.second hpair.second_runs

theorem outwardCaller_mem : outwardCaller ∈ outwardProgram.functions.elems :=
  List.mem_singleton_self _

/-- The call at the end of the first block gives away the second one. The last block is not leakable, for a trap
block keeps it apart. -/
theorem not_monotoneIn_outwardProgram :
    ¬ (run { postHardening := false } outwardProgram).pass.MonotoneIn outwardCaller
      (outwardCaller.body.getD {}) := by
  intro hmonotone
  have hok : (run { postHardening := false } outwardProgram).outcome = .ok false := rfl
  have happart := (monotoneIn_iff hok outwardCaller_mem rfl).1.mp hmonotone
  have hbetween : ∀ m, 1 < m → m < 3 →
      ∃ t, (outwardCaller.body.getD {}).blocks.elems[m]? = some t ∧ t.trap = true := by
    intro m hlow hhigh
    obtain rfl : m = 2 := by omega
    exact ⟨_, rfl, rfl⟩
  have hlast := happart 1 3 _ _ ⟨by decide, rfl, rfl, rfl, rfl, hbetween⟩ (.inl (by decide))
    (by decide +kernel)
  revert hlast
  decide +kernel

/-- Leakability is not handed on over trap blocks. -/
theorem not_monotone_over_traps :
    ¬ ∀ (a : LeakageAnalysis) (p : Program) (changed : Bool), (a.run p).outcome = .ok changed →
      ∀ f ∈ p.functions.elems, ∀ g, f.body = some g → (a.run p).pass.MonotoneIn f g := by
  intro hclaim
  have hmonotone :=
    hclaim { postHardening := false } outwardProgram false rfl outwardCaller outwardCaller_mem _ rfl
  have hlast := hmonotone 1 3 _ _ (by decide) rfl rfl rfl rfl (by decide +kernel)
  revert hlast
  decide +kernel

end LeakageAnalysis
end ThumbHardening
