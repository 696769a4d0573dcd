import ThumbHardening.Proofs.Leakage.LinkSpill
import ThumbHardening.Proofs.Leakage.Sizes

/-!
# What function pointers add to the size via return addresses

Programs of the same code may differ in which functions have their address taken and in how values use each
other. Their return addresses give away the same blocks. The sizes via return addresses may differ all the same:
in a function whose address escapes every block hands its mark on to the block behind it, and the analysis
takes that one for given away by a return address.
-/

namespace ThumbHardening

/-- The same function, apart from whether its address counts as taken. -/
def Function.SameCode (f f' : Function) : Prop :=
  f' = { f with addressTaken := f'.addressTaken }

/-- The same program, apart from the addresses taken, the graph of values and the tables that are looked up. -/
structure Program.SameCode (p q : Program) : Prop where
  functions : List.Forall₂ Function.SameCode p.functions.elems q.functions.elems
  next : q.functions.next = p.functions.next
  globals : q.globals = p.globals
  aliases : q.aliases = p.aliases
  used : q.used = p.used
  pointerSize : q.pointerSize = p.pointerSize

/-- Return addresses give away a block of a function, whatever is known about addresses of functions. -/
def LinkSpill.GivesAway (spills : LinkSpill) (p : Program) (f : Function) (b : Block) : Prop :=
  ∃ k, f.blocks[k]? = some b ∧ spills.GivenAway p f.blocks k

section Decidable

variable {spills : LinkSpill} {p : Program}

instance (blocks : List Block) (k : Nat) : Decidable (spills.GivenAway p blocks k) :=
  decidable_of_iff (∃ j ≤ k, (∀ m, j ≤ m → m ≤ k → ∃ b ∈ blocks[m]?, b.trap = false) ∧
    ((∃ b ∈ blocks[j]?, spills.LeaksInside p b) ∨
      0 < j ∧ ∃ front ∈ blocks[j - 1]?, spills.EndsLeaking p front)) Iff.rfl

instance (f : Function) (b : Block) : Decidable (spills.GivesAway p f b) :=
  decidable_of_iff (∃ k < f.blocks.length, f.blocks[k]? = some b ∧ spills.GivenAway p f.blocks k) <|
    exists_congr fun _ => and_iff_right_of_imp fun hparts =>
      (List.getElem?_eq_some_iff.mp hparts.1).1

end Decidable

/-- The size of what follows code in functions whose addresses escape and is not given away by a return
address. -/
def Program.handedOnBytes (p : Program) (spills : LinkSpill) : Nat :=
  p.bytesWhere fun f b =>
    (p.addressEscapes f = true ∧ f.FollowsCode b) ∧ ¬ spills.GivesAway p f b

/-! ### What the same code has in common -/

namespace Program.SameCode

variable {p q : Program} {f f' : Function} {spills : LinkSpill}

theorem ids_eq (h : p.SameCode q) : q.functions.ids = p.functions.ids := by
  apply Pairs.map_eq h.functions
  intro f f' hf
  rw [hf]
  rfl

theorem nodup_blocks (h : p.SameCode q)
    (hblocks : ∀ f ∈ p.functions.elems, ∀ g, f.body = some g → g.blocks.ids.Nodup) :
    ∀ f ∈ q.functions.elems, ∀ g, f.body = some g → g.blocks.ids.Nodup := by
  intro f' hf' g hbody
  obtain ⟨f, hf, hsame⟩ := Pairs.exists_of_mem_right h.functions hf'
  rw [hsame] at hbody
  exact hblocks f hf g hbody

theorem callTarget_eq (h : p.SameCode q) : q.callTarget = p.callTarget :=
  callTarget_congr h.ids_eq h.globals h.aliases

theorem ofFunction_eq (h : p.SameCode q) (hf : f.SameCode f') :
    TailCalls.ofFunction q f' = TailCalls.ofFunction p f := by
  rw [hf]
  have hextend : TailCalls.extend q = TailCalls.extend p := by
    funext name t i
    simp only [TailCalls.extend, h.callTarget_eq]
  simp only [TailCalls.ofFunction, hextend]
  rfl

/-- The same functions may spill the link register. -/
theorem compute_eq (h : p.SameCode q) : LinkSpill.compute q = LinkSpill.compute p := by
  have hcalls := Pairs.mapM_eq h.functions fun f f' => h.ofFunction_eq
  rw [LinkSpill.compute, LinkSpill.compute, hcalls]

theorem leaking_eq (h : p.SameCode q) : LinkSpill.Leaking q spills = LinkSpill.Leaking p spills := by
  funext i
  rw [← @callLeaks_eq_true_iff q spills "" i, ← @callLeaks_eq_true_iff p spills "" i,
    Program.callLeaks, Program.callLeaks, h.callTarget_eq]

theorem givesAway_iff (h : p.SameCode q) (hf : f.SameCode f') {b : Block} :
    spills.GivesAway q f' b ↔ spills.GivesAway p f b := by
  rw [hf]
  simp only [LinkSpill.GivesAway, LinkSpill.GivenAway, LinkSpill.LeaksInside, LinkSpill.EndsLeaking,
    h.leaking_eq]
  rfl

/-- A size that only depends on the code is the same. -/
theorem bytesWhere_eq (h : p.SameCode q) {which which' : Function → Block → Prop}
    [∀ f b, Decidable (which f b)] [∀ f b, Decidable (which' f b)]
    (hwhich : ∀ f f' b, f.SameCode f' → (which' f' b ↔ which f b)) :
    q.bytesWhere which' = p.bytesWhere which := by
  rw [bytesWhere, bytesWhere, totalWhere_eq_sum, totalWhere_eq_sum]
  congr 1
  apply Pairs.map_eq h.functions
  intro f f' hf
  have hblocks : f'.codeBlocks = f.codeBlocks := by
    rw [hf]
    rfl
  simp only [hblocks, hwhich f f' _ hf]

end Program.SameCode

/-! ### The size via return addresses -/

namespace LeakageAnalysis

variable {a a' : LeakageAnalysis} {p q : Program} {changed changed' : Bool}

/-- What return addresses give away, and what addresses of functions add to it. -/
theorem codeSizeViaReturn_eq {spills : LinkSpill} (hfunctions : p.functions.ids.Nodup)
    (hblocks : ∀ f ∈ p.functions.elems, ∀ g, f.body = some g → g.blocks.ids.Nodup)
    (hspills : LinkSpill.compute p = .ok spills) (hok : (a.run p).outcome = .ok changed) :
    (a.run p).pass.numbers.codeSizeViaReturn
      = p.bytesWhere (spills.GivesAway p) + p.handedOnBytes spills := by
  obtain ⟨spills', s, hspills', hvisit⟩ := visitProgram_of_run hok
  rw [hspills, Except.ok.injEq] at hspills'
  subst hspills'
  rw [numbers_run hspills hvisit, LeakageSweep.statistics_visitProgram hfunctions hblocks hvisit,
    Program.handedOnBytes]
  calc p.bytesWhere (spills.Returned p s.blocks)
      = p.bytesWhere fun f b =>
          spills.GivesAway p f b ∨ p.addressEscapes f = true ∧ f.FollowsCode b := by
        apply Program.totalWhere_congr
        intro f b hx
        obtain ⟨hf, g, hbody, hmem, htrap⟩ := Program.mem_codeBlocks_iff.mp hx
        obtain ⟨k, hb⟩ := List.mem_iff_getElem?.mp hmem
        rw [LeakageSweep.returned_at_iff hfunctions hblocks hvisit hf hbody hb htrap]
        have hlayout : f.blocks = g.blocks.elems := by simp [Function.blocks, hbody]
        rw [LinkSpill.GivesAway, hlayout]
        refine or_congr_left ⟨fun hgiven => ⟨k, hb, hgiven⟩, fun hparts => ?_⟩
        obtain ⟨j, hj, hgiven⟩ := hparts
        rwa [Roster.index_unique (hblocks f hf g hbody) hb hj rfl]
    _ = _ := Program.totalWhere_or

/-- For two programs of the same code, the size via return addresses is made up of what return addresses give
away, the same for both, and of what follows code in functions whose addresses escape. So it is the same for
both exactly if these additions are. -/
theorem run_codeSizeViaReturn (hsame : p.SameCode q) (hfunctions : p.functions.ids.Nodup)
    (hblocks : ∀ f ∈ p.functions.elems, ∀ g, f.body = some g → g.blocks.ids.Nodup)
    (hok : (a.run p).outcome = .ok changed) (hok' : (a'.run q).outcome = .ok changed') :
    ∃ spills, LinkSpill.compute p = .ok spills ∧ LinkSpill.compute q = .ok spills ∧
      (a.run p).pass.numbers.codeSizeViaReturn
        = p.bytesWhere (spills.GivesAway p) + p.handedOnBytes spills ∧
      (a'.run q).pass.numbers.codeSizeViaReturn
        = p.bytesWhere (spills.GivesAway p) + q.handedOnBytes spills ∧
      ((a.run p).pass.numbers.codeSizeViaReturn = (a'.run q).pass.numbers.codeSizeViaReturn ↔
        p.handedOnBytes spills = q.handedOnBytes spills) := by
  obtain ⟨spills, -, hspills, -⟩ := visitProgram_of_run hok
  have hspills' : LinkSpill.compute q = .ok spills := hsame.compute_eq.trans hspills
  have hsize := codeSizeViaReturn_eq hfunctions hblocks hspills hok
  have hgiven : q.bytesWhere (spills.GivesAway q) = p.bytesWhere (spills.GivesAway p) :=
    hsame.bytesWhere_eq fun f f' b hf => hsame.givesAway_iff hf
  have hsize' : (a'.run q).pass.numbers.codeSizeViaReturn
      = p.bytesWhere (spills.GivesAway p) + q.handedOnBytes spills := by
    rw [← hgiven]
    exact codeSizeViaReturn_eq (hsame.ids_eq ▸ hfunctions) (hsame.nodup_blocks hblocks) hspills' hok'
  refine ⟨spills, hspills, hspills', hsize, hsize', ?_⟩
  rw [hsize, hsize', Nat.add_left_cancel_iff]

theorem sameCode_callbackProgram : (callbackProgram false).SameCode (callbackProgram true) where
  functions := .cons rfl (.cons rfl .nil)
  next := rfl
  globals := rfl
  aliases := rfl
  used := rfl
  pointerSize := rfl

/-- Storing the address of the handler adds its second block, which nothing returns to. -/
theorem run_codeSizeViaReturn_callbackProgram :
    ∃ spills, LinkSpill.compute (callbackProgram true) = .ok spills ∧
      (callbackProgram false).handedOnBytes spills = 0 ∧
      (callbackProgram true).handedOnBytes spills = 2 ∧
      (run { postHardening := false } (callbackProgram true)).pass.numbers.codeSizeViaReturn
        = (run { postHardening := false } (callbackProgram false)).pass.numbers.codeSizeViaReturn + 2 := by
  obtain ⟨hfunctions, hblocks⟩ := nodup_callbackProgram false
  have hok (stored : Bool) :
      (run { postHardening := false } (callbackProgram stored)).outcome = .ok false := by
    cases stored <;> rfl
  have hcompute : LinkSpill.compute (callbackProgram true) = .ok { known := [1, 2], spilling := [] } :=
    rfl
  obtain ⟨spills, -, hspills, hsize, hsize', -⟩ :=
    run_codeSizeViaReturn sameCode_callbackProgram hfunctions hblocks (hok false) (hok true)
  rw [hcompute, Except.ok.injEq] at hspills
  subst hspills
  have hunused : (callbackProgram false).handedOnBytes { known := [1, 2], spilling := [] } = 0 := by
    decide +kernel
  have hstored : (callbackProgram true).handedOnBytes { known := [1, 2], spilling := [] } = 2 := by
    decide +kernel
  exact ⟨_, hcompute, hunused, hstored, by rw [hsize, hsize', hunused, hstored]⟩

/-- Addresses of functions do change the size via return addresses. -/
theorem not_codeSizeViaReturn_eq :
    ¬ ∀ (a : LeakageAnalysis) (p q : Program) (changed changed' : Bool), p.SameCode q →
      q.bindings = p.bindings → p.functions.ids.Nodup →
      (∀ f ∈ p.functions.elems, ∀ g, f.body = some g → g.blocks.ids.Nodup) →
      (a.run p).outcome = .ok changed → (a.run q).outcome = .ok changed' →
      (a.run p).pass.numbers.codeSizeViaReturn = (a.run q).pass.numbers.codeSizeViaReturn := by
  intro hclaim
  obtain ⟨hfunctions, hblocks⟩ := nodup_callbackProgram false
  have hequal := hclaim { postHardening := false } (callbackProgram false) (callbackProgram true) false
    false sameCode_callbackProgram rfl hfunctions hblocks rfl rfl
  revert hequal
  decide +kernel

end LeakageAnalysis
end ThumbHardening
