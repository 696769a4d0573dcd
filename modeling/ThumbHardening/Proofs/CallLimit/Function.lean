import ThumbHardening.Proofs.CallLimit.Step
import ThumbHardening.Proofs.Verify
import Mathlib.Algebra.Order.BigOperators.Group.List
import Mathlib.Algebra.Order.Group.Nat

/-!
# Limiting a function

The limiter takes the blocks of a function in turn and in each the first call that is left, until none is. In
between, the code of a block is a part in front that is done and a part behind that nothing has touched. Every
call that is limited uses up one of the calls there were, which bounds both the rounds and the registers that
are added.
-/

namespace ThumbHardening
namespace CallLimit
open Code

/-- A block whose code, apart from `It` instructions, is rewritten in some way. -/
structure RewrittenBlock (R : Code → Code → Prop) (b b' : Block) : Prop where
  same : b' = { b with instrs := b'.instrs }
  code : R (ordinary b.instrs) (ordinary b'.instrs)

/-- A flow graph whose blocks are related one by one. -/
structure RewrittenGraph (R : Block → Block → Prop) (g g' : FlowGraph) : Prop where
  same : g' = { g with blocks := { g.blocks with elems := g'.blocks.elems } }
  blocks : List.Forall₂ R g.blocks.elems g'.blocks.elems

/-- A function before and after its calls are limited. -/
structure LimitedFunction (f f' : Function) : Prop where
  same : f' = { f with body := f'.body, registers := f'.registers }
  body : Option.Rel (RewrittenGraph (RewrittenBlock (Limited f'.registers))) f.body f'.body
  narrows : Narrows f.registers f'.registers
  fresh : f'.registers.classes.length ≤ f.registers.classes.length + unlimitedCalls f
  allocated : f.registers.allocated = true → f'.registers = f.registers

/-- Code of which a part in front is limited. -/
def Progress (registers : Registers) (code code' : Code) : Prop :=
  ∃ done done' rest, code = done ++ rest ∧ code' = done' ++ rest ∧ Limited registers done done'

structure LimitingBlock (registers : Registers) (b b' : Block) : Prop
    extends RewrittenBlock (Progress registers) b b' where
  consistent : b.instrs.isConsistent = true → b'.instrs.isConsistent = true
  its : ∀ i ∈ b'.instrs, i.isIt = true → i ∈ b.instrs ∨ ∃ first mask, i = .it first mask

structure Limiting (f f' : Function) : Prop where
  same : f' = { f with body := f'.body, registers := f'.registers }
  body : Option.Rel (RewrittenGraph (LimitingBlock f'.registers)) f.body f'.body
  narrows : Narrows f.registers f'.registers
  budget : f'.registers.classes.length + unlimitedCalls f'
    ≤ f.registers.classes.length + unlimitedCalls f
  allocated : f.registers.allocated = true → f'.registers = f.registers

variable {registers later : Registers} {code code' front back middle : Code} {i call : Instr}
  {b b' : Block} {g g' : FlowGraph} {f f' f₁ f₂ : Function} {id : Nat}

/-! ### Code in progress -/

theorem progress_self (registers : Registers) (code : Code) : Progress registers code code :=
  ⟨[], [], code, rfl, rfl, .nil⟩

theorem Progress.mono (h : Progress registers code code') (hnarrows : Narrows registers later) :
    Progress later code code' := by
  obtain ⟨done, done', rest, hcode, hcode', hlimited⟩ := h
  exact ⟨done, done', rest, hcode, hcode', hlimited.mono hnarrows⟩

/-- What is still to be limited has not been touched. -/
theorem Progress.mem_of_isUnlimited (h : Progress registers code code') (hi : i ∈ code')
    (hcall : isUnlimited i = true) : i ∈ code := by
  obtain ⟨done, done', rest, rfl, rfl, hlimited⟩ := h
  rcases List.mem_append.mp hi with hi | hi
  · rw [hlimited.isUnlimited i hi] at hcall
    cases hcall
  · exact List.mem_append_right _ hi

theorem Progress.step (h : Progress registers code (front ++ call :: back))
    (hfront : ∀ i ∈ front, isUnlimited i = false) (hcall : isUnlimited call = true)
    (hmiddle : Limited registers [call] middle) :
    Progress registers code (front ++ (middle ++ back)) := by
  obtain ⟨done, done', rest, rfl, hcode', hlimited⟩ := h
  -- The limited part ends in front of the call, as it holds no call that is left.
  obtain ⟨between, rfl, rfl⟩ : ∃ between, front = done' ++ between ∧ rest = between ++ call :: back := by
    rcases List.append_eq_append_iff.mp hcode' with ⟨extra, hdone, hback⟩ | ⟨between, hsplit, hrest⟩
    · cases extra with
      | nil => exact ⟨[], by simpa using hdone.symm, hback.symm⟩
      | cons first extra =>
        obtain ⟨rfl, -⟩ := List.cons.inj hback
        rw [hlimited.isUnlimited call (by simp [hdone])] at hcall
        cases hcall
    · exact ⟨between, hsplit, hrest⟩
  refine ⟨done ++ (between ++ [call]), done' ++ (between ++ middle), back, by simp, by simp, ?_⟩
  refine hlimited.append (Limited.append (limited_self fun i hi => ?_) hmiddle)
  exact hfront i (List.mem_append_right _ hi)

theorem Progress.finish (h : Progress registers code code') (hdone : ∀ i ∈ code', isUnlimited i = false) :
    Limited registers code code' := by
  obtain ⟨done, done', rest, rfl, rfl, hlimited⟩ := h
  exact hlimited.append (limited_self fun i hi => hdone i (List.mem_append_right _ hi))

/-! ### One step of a function -/

theorem limitingBlock_self (registers : Registers) (b : Block) : LimitingBlock registers b b :=
  ⟨⟨rfl, progress_self registers _⟩, id, fun _ hi _ => .inl hi⟩

theorem LimitingBlock.mono (h : LimitingBlock registers b b') (hnarrows : Narrows registers later) :
    LimitingBlock later b b' :=
  ⟨⟨h.same, h.code.mono hnarrows⟩, h.consistent, h.its⟩

theorem LimitingBlock.step (h : LimitingBlock registers b b') {change : Block → Block}
    (hchange : change b' = { b' with instrs := (change b').instrs })
    (hstep : CallStep registers later b'.instrs (change b').instrs) :
    LimitingBlock later b (change b') := by
  obtain ⟨front, call, back, middle, hcode, hfront, hcall, hcode', hmiddle⟩ := hstep.replaces
  refine ⟨⟨?_, ?_⟩, fun hb => hstep.consistent (h.consistent hb), fun i hi hit => ?_⟩
  · rw [hchange, h.same]
  · have hprogress := h.code.mono hstep.narrows
    rw [hcode] at hprogress
    rw [hcode']
    exact hprogress.step hfront hcall hmiddle
  · rcases hstep.its i hi hit with hi | hi
    · exact h.its i hi hit
    · exact .inr hi

theorem unlimitedCalls_eq_sum (f : Function) :
    unlimitedCalls f = (f.blocks.map fun b => b.instrs.countP isUnlimited).sum := by
  rw [unlimitedCalls, List.sum_eq_foldr, List.foldr_map]

/-- Only what is not an `It` counts. -/
theorem countP_ordinary (code : Code) :
    (ordinary code).countP isUnlimited = code.countP isUnlimited := by
  rw [ordinary, List.countP_filter]
  apply List.countP_congr
  intro i _
  cases hcall : isUnlimited i with
  | false => simp
  | true => simp [isIt_of_isUnlimited hcall]

theorem CallStep.countP_eq (h : CallStep registers later code code') :
    List.countP isUnlimited code = List.countP isUnlimited code' + 1 := by
  obtain ⟨front, call, back, middle, hcode, hfront, hcall, hcode', hmiddle⟩ := h.replaces
  have hnone : List.countP isUnlimited middle = 0 :=
    List.countP_eq_zero.mpr fun i hi => by simp [hmiddle.isUnlimited i hi]
  rw [← countP_ordinary code, ← countP_ordinary code', hcode, hcode', List.countP_append,
    List.countP_append, List.countP_append, List.countP_cons_of_pos hcall, hnone]
  omega

theorem Limiting.refl (f : Function) : Limiting f f := by
  refine ⟨rfl, ?_, .refl _, Nat.le_refl _, fun _ => rfl⟩
  cases f.body with
  | none => exact .none
  | some g =>
    exact .some ⟨rfl, List.forall₂_same.mpr fun b _ => limitingBlock_self _ b⟩

theorem Limiting.step (h : Limiting f f₁) (hbody : f₁.body = some g) (hb : g.block? b.id = some b)
    (hstep : StepsTo f₁ g b f₂) : Limiting f f₂ := by
  obtain ⟨change, hsame, hchange, hcall⟩ := hstep
  refine ⟨?_, ?_, h.narrows.trans hcall.narrows, ?_, fun hallocated => ?_⟩
  · rw [hsame, h.same]
  · have hgraph := h.body
    have hbody₂ : f₂.body = some (g.updateBlock b.id change) := by rw [hsame]
    rw [hbody] at hgraph
    rw [hbody₂]
    generalize f.body = body at hgraph
    cases hgraph with
    | some hgraph =>
      refine .some ⟨?_, ?_⟩
      · rw [FlowGraph.updateBlock, Roster.update]
        split <;> rw [hgraph.same]
      · exact Roster.forall₂_update hb hgraph.blocks
          (fun b₀ hblock => hblock.step (hchange b) hcall) fun b₀ b₁ hblock => hblock.mono hcall.narrows
  · have hsum := Roster.sum_update (fun b => b.instrs.countP isUnlimited) change hb
    have hcount := hcall.countP_eq
    have hfresh := hcall.fresh
    have hbudget := h.budget
    have hblocks : f₁.blocks = g.blocks.elems := by rw [Function.blocks, hbody]; rfl
    have hblocks₂ : f₂.blocks = (g.blocks.update b.id change).elems := by rw [hsame]; rfl
    rw [unlimitedCalls_eq_sum f₁, hblocks] at hbudget
    rw [unlimitedCalls_eq_sum f₂, hblocks₂]
    omega
  · have hallocated₁ := h.allocated hallocated
    rw [hcall.allocated (by rw [hallocated₁]; exact hallocated), hallocated₁]

/-! ### All calls of a block -/

variable {p : Program} {limit limited total : Nat}

theorem Limiting.body_eq (h : Limiting f f') (hbody : f'.body = some g') :
    ∃ g, f.body = some g ∧ RewrittenGraph (LimitingBlock f'.registers) g g' := by
  have hgraph := h.body
  rw [hbody] at hgraph
  generalize f.body = body at hgraph
  cases hgraph with
  | some hgraph => exact ⟨_, rfl, hgraph⟩

theorem RewrittenGraph.ids (h : RewrittenGraph (LimitingBlock registers) g g') :
    g'.blocks.ids = g.blocks.ids :=
  Pairs.map_eq h.blocks fun _ _ hb => by rw [hb.same]; rfl

theorem Limiting.ids (h : Limiting f f') : f'.blocks.map Block.id = f.blocks.map Block.id := by
  have hgraph := h.body
  rw [Function.blocks, Function.blocks]
  generalize f.body = body at hgraph
  generalize f'.body = body' at hgraph
  cases hgraph with
  | none => rfl
  | some hgraph => exact hgraph.ids

/-- In a verified function, virtual registers that calls go through can be limited. -/
theorem Limiting.class?_target (h : Limiting f f') (hverify : p.verifyFunction f = .ok ())
    (hbody : f'.body = some g') (hb : b' ∈ g'.blocks.elems) (hcall : call ∈ b'.instrs)
    (hun : isUnlimited call = true) {number : Nat}
    (htarget : call.operands.head? = some (.reg (.virt number))) :
    f'.registers.allocated = false ∧ ∃ c, f'.registers.class? number = some c := by
  obtain ⟨g, hg, hgraph⟩ := h.body_eq hbody
  obtain ⟨b, hb, hblock⟩ := Pairs.exists_of_mem_right hgraph.blocks hb
  have hordinary := mem_ordinary hcall (isIt_of_isUnlimited hun)
  have hold := List.mem_of_mem_filter (hblock.code.mem_of_isUnlimited hordinary hun)
  have hsound := (verifyFunction_eq_ok_iff.mp hverify g hg).2 b hb
  obtain ⟨hallocated, hclass⟩ := hsound.resolves call hold _ (List.mem_of_mem_head? htarget)
  obtain ⟨c, hc⟩ := Option.isSome_iff_exists.mp hclass
  obtain ⟨c', hc', -⟩ := h.narrows.classes number c hc
  exact ⟨h.narrows.allocated.trans hallocated, c', hc'⟩

/-- Limiting the first call of a block leaves one call less there, and the other blocks as they are. -/
theorem Limiting.limitCall {index : Nat} (h : Limiting f f₁) (hverify : p.verifyFunction f = .ok ())
    (hids : (f.blocks.map Block.id).Nodup) (hbody : f₁.body = some g)
    (hnext : (g.block? id).bind firstUnlimited? = some (index, call))
    (hcall : CallLimit.limitCall f₁ g id index call = .ok f₂) :
    Limiting f f₂ ∧ ∀ b ∈ f₂.blocks,
      (b.id = id → ∃ old ∈ f₁.blocks, old.id = id ∧
        List.countP isUnlimited b.instrs + 1 = List.countP isUnlimited old.instrs) ∧
      (b.id ≠ id → b ∈ f₁.blocks) := by
  have hblocks : f₁.blocks = g.blocks.elems := by rw [Function.blocks, hbody]; rfl
  obtain ⟨b, hget, hfirst⟩ := Option.bind_eq_some_iff.mp hnext
  have hmem : b ∈ g.blocks.elems := Roster.mem_of_get? hget
  obtain rfl : b.id = id := Roster.id_of_get? hget
  obtain ⟨hun, front, back, hat, -⟩ := firstUnlimited?_eq_some hfirst
  have hstep := limitCall_eq_ok hbody hget hfirst
    (fun number => h.class?_target hverify hbody hmem (List.mem_of_getElem? hat.get) hun) hcall
  refine ⟨h.step hbody hget hstep, fun other hother => ?_⟩
  obtain ⟨change, hsame, hchange, hcallStep⟩ := hstep
  have hkeeps : ∀ b, (change b).id = b.id := fun b => by rw [hchange b]
  have hblocks₂ : f₂.blocks = (g.blocks.update b.id change).elems := by rw [hsame]; rfl
  have hids₂ : (g.blocks.update b.id change).ids.Nodup := by
    rw [Roster.ids_update hkeeps]
    rwa [← h.ids, hblocks] at hids
  rw [hblocks₂] at hother
  rw [hblocks]
  refine ⟨fun hid => ⟨b, hmem, rfl, ?_⟩, fun hne => ?_⟩
  · have hchanged : change b ∈ (g.blocks.update b.id change).elems := Roster.change_mem_update hget
    rw [Roster.eq_of_id_eq hids₂ hother hchanged (hid.trans (hkeeps b).symm)]
    exact hcallStep.countP_eq.symm
  · rcases Roster.mem_update hget hother with hold | rfl
    · exact hold
    · exact absurd (hkeeps b) hne

theorem limitBlock_eq_none (hverify : p.verifyFunction f = .ok ())
    (hids : (f.blocks.map Block.id).Nodup) (h : Limiting f f₁)
    (hlimit : ∀ b ∈ f₁.blocks, b.id = id → List.countP isUnlimited b.instrs ≤ limit)
    (hok : limitBlock id limit f₁ limited = (f₂, total, none)) :
    Limiting f f₂ ∧ ∀ b ∈ f₂.blocks,
      (b.id = id → ∀ i ∈ b.instrs, isUnlimited i = false) ∧ (b.id ≠ id → b ∈ f₁.blocks) := by
  -- On the calls that may still be left in the block: each step limits one of them.
  induction limit generalizing f₁ limited with
  | zero =>
    cases hok
    refine ⟨h, fun b hb => ⟨fun hid i hi => ?_, fun _ => hb⟩⟩
    have hnone := List.countP_eq_zero.mp (Nat.le_zero.mp (hlimit b hb hid)) i hi
    simpa using hnone
  | succ limit ih =>
    rw [limitBlock] at hok
    split at hok
    · next hbody =>
      cases hok
      refine ⟨h, fun b hb => ?_⟩
      rw [Function.blocks, hbody] at hb
      cases hb
    · next g hbody =>
      have hblocks : f₁.blocks = g.blocks.elems := by rw [Function.blocks, hbody]; rfl
      have hnodup : g.blocks.ids.Nodup := by
        rw [← h.ids, hblocks] at hids
        exact hids
      split at hok
      · next hnone =>
        cases hok
        refine ⟨h, fun b hb => ⟨fun hid => ?_, fun _ => hb⟩⟩
        rw [hblocks] at hb
        have hget : g.block? id = some b := hid ▸ g.block?_id hnodup hb
        rw [hget] at hnone
        exact firstUnlimited?_eq_none hnone
      · next index call hnext =>
        split at hok
        · cases hok
        · next f₃ hcall =>
          obtain ⟨h₃, hblocks₃⟩ := h.limitCall hverify hids hbody hnext hcall
          have hlimit₃ : ∀ b ∈ f₃.blocks, b.id = id → List.countP isUnlimited b.instrs ≤ limit := by
            intro b hb hid
            obtain ⟨old, hold, hid, hcount⟩ := (hblocks₃ b hb).1 hid
            have hbound := hlimit old hold hid
            omega
          obtain ⟨hlast, hfinished⟩ := ih h₃ hlimit₃ hok
          refine ⟨hlast, fun b hb => ⟨(hfinished b hb).1, fun hne => ?_⟩⟩
          exact (hblocks₃ b ((hfinished b hb).2 hne)).2 hne

/-! ### All blocks -/

theorem countP_le_unlimitedCalls (hb : b ∈ f.blocks) :
    List.countP isUnlimited b.instrs ≤ unlimitedCalls f := by
  rw [unlimitedCalls_eq_sum]
  exact List.single_le_sum (fun _ _ => Nat.zero_le _) _ (List.mem_map_of_mem hb)

theorem visitBlock_eq_none (h : visitBlock id (f, limited) = ((f', total), none)) :
    limitBlock id (unlimitedCalls f) f limited = (f', total, none) := by
  simp only [visitBlock, Prod.mk.injEq] at h
  obtain ⟨⟨hf, htotal⟩, hfailure⟩ := h
  exact Prod.ext hf (Prod.ext htotal hfailure)

theorem visitBlocks_eq_none {ids : List Nat} (hverify : p.verifyFunction f = .ok ())
    (hids : (f.blocks.map Block.id).Nodup) (h : Limiting f f₁)
    (hok : Steps.runAll visitBlock ids (f₁, limited) = ((f₂, total), none)) :
    Limiting f f₂ ∧ ∀ b ∈ f₂.blocks,
      (b.id ∈ ids → ∀ i ∈ b.instrs, isUnlimited i = false) ∧ (b.id ∉ ids → b ∈ f₁.blocks) := by
  induction ids generalizing f₁ limited with
  | nil =>
    cases hok
    exact ⟨h, fun b hb => ⟨fun hid => absurd hid List.not_mem_nil, fun _ => hb⟩⟩
  | cons id rest ih =>
    obtain ⟨⟨f₃, limited'⟩, hvisit, hrest⟩ := Steps.runAll_cons_eq_none_iff.mp hok
    obtain ⟨h₃, hfirst⟩ := limitBlock_eq_none hverify hids h
      (fun b hb _ => countP_le_unlimitedCalls hb) (visitBlock_eq_none hvisit)
    obtain ⟨h₂, hothers⟩ := ih h₃ hrest
    refine ⟨h₂, fun b hb => ⟨fun hid => ?_, fun hid => ?_⟩⟩
    · by_cases hmem : b.id ∈ rest
      · exact (hothers b hb).1 hmem
      · exact (hfirst b ((hothers b hb).2 hmem)).1 ((List.mem_cons.mp hid).resolve_right hmem)
    · rw [List.mem_cons, not_or] at hid
      exact (hfirst b ((hothers b hb).2 hid.2)).2 hid.1

/-- After a visit no call of the function is left to be limited. -/
theorem visitFunction_eq_none (hverify : p.verifyFunction f = .ok ())
    (hids : (f.blocks.map Block.id).Nodup) (hok : visitFunction f limited = (f', total, none)) :
    Limiting f f' ∧ ∀ b ∈ f'.blocks, ∀ i ∈ b.instrs, isUnlimited i = false := by
  have hrun : Steps.runAll visitBlock (f.blocks.map Block.id) (f, limited) = ((f', total), none) := by
    simp only [visitFunction, Prod.mk.injEq] at hok
    obtain ⟨hf, htotal, hfailure⟩ := hok
    exact Prod.ext (Prod.ext hf htotal) hfailure
  obtain ⟨h, hblocks⟩ := visitBlocks_eq_none hverify hids (.refl f) hrun
  refine ⟨h, fun b hb => (hblocks b hb).1 ?_⟩
  rw [← h.ids]
  exact List.mem_map_of_mem hb

theorem Limiting.finish (h : Limiting f f')
    (hdone : ∀ b ∈ f'.blocks, ∀ i ∈ b.instrs, isUnlimited i = false) : LimitedFunction f f' := by
  refine ⟨h.same, ?_, h.narrows, Nat.le_trans (Nat.le_add_right _ _) h.budget, h.allocated⟩
  have hgraph := h.body
  rw [Function.blocks] at hdone
  generalize f.body = body at hgraph
  generalize f'.body = body' at hgraph hdone
  cases hgraph with
  | none => exact .none
  | some hgraph =>
    refine .some ⟨hgraph.same, Pairs.imp hgraph.blocks fun b _ b' hb' hblock => ⟨hblock.same, ?_⟩⟩
    exact hblock.code.finish fun i hi => hdone b' hb' i (List.mem_of_mem_filter hi)

end CallLimit
end ThumbHardening
