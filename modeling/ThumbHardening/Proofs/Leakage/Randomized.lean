import ThumbHardening.Proofs.Guard.Accessor
import ThumbHardening.Proofs.Layout.Capacity
import ThumbHardening.Proofs.Layout.Etching
import ThumbHardening.Proofs.Layout.Traps
import ThumbHardening.Proofs.Leakage.Changes

/-!
# A random layout leaks alike

Decoys refer to no symbol, the lists that keep them hand no address on, and a trap that holds the address of a
decoy is still a trap. The accessor of the guard calls nothing, and nothing in the program refers to it.
-/

namespace ThumbHardening

/-! ### Blocks of alike programs -/

namespace Program

variable {p q : Program} {f f' : Function} {b : Block} {t : BlockPointer}

theorem Alike.map_eq (h : p.Alike q []) {α : Type} (view : Function → α) (read : FunctionProfile → α)
    (hview : ∀ f, view f = read f.profile) :
    q.functions.elems.map view = p.functions.elems.map view := by
  obtain ⟨kept, hkept, hprofiles⟩ := h.functions
  have hread : ∀ functions : List Function,
      functions.map view = (functions.map Function.profile).map read := by
    intro functions
    rw [List.map_map]
    exact List.map_congr_left fun f _ => hview f
  rw [hkept, List.append_nil, hread, hprofiles, ← hread]

theorem Alike.ids_eq (h : p.Alike q []) : q.functions.ids = p.functions.ids :=
  h.map_eq _ FunctionProfile.id fun _ => rfl

theorem Alike.nodup_blocks (h : p.Alike q [])
    (hblocks : ∀ f ∈ p.functions.elems, (f.blocks.map Block.id).Nodup) :
    ∀ f ∈ q.functions.elems, (f.blocks.map Block.id).Nodup := by
  have hids := h.map_eq (fun f => f.blocks.map Block.id)
    (fun f => (f.blocks.getD []).map BlockProfile.id) fun f => by
      rw [Function.blocks, Function.profile]
      cases f.body <;> simp [Block.profile]
  intro f hf
  have hmem := List.mem_map_of_mem (f := fun f : Function => f.blocks.map Block.id) hf
  rw [hids] at hmem
  obtain ⟨old, hold, heq⟩ := List.mem_map.mp hmem
  exact heq ▸ hblocks old hold

theorem Alike.traps_eq (h : p.Alike q []) :
    q.blockPointers Block.trap = p.blockPointers Block.trap := by
  have htraps := h.map_eq
    (fun f => (f.blocks.filter Block.trap).map fun b => (⟨f.id, b.id⟩ : BlockPointer))
    (fun f => ((f.blocks.getD []).filter BlockProfile.trap).map fun b => ⟨f.id, b.id⟩) fun f => by
      rw [Function.blocks, Function.profile]
      cases f.body with
      | none => rfl
      | some g => simp [List.filter_map, Block.profile, Function.comp_def]
  rw [blockPointers, blockPointers, List.flatMap_def, List.flatMap_def, htraps]

/-- The block that a pointer to a trap block leads to is one. -/
theorem trap_of_block? (hfunctions : p.functions.ids.Nodup)
    (hblocks : ∀ f ∈ p.functions.elems, (f.blocks.map Block.id).Nodup)
    (ht : t ∈ p.blockPointers Block.trap) (hb : p.block? t.function t.block = some b) :
    b.trap = true := by
  obtain ⟨f, hf, b', hb', htrap, hfid, hbid⟩ := mem_blockPointers_iff.mp ht
  have hget := block?_id hfunctions hf (hblocks f hf) hb'
  rw [hfid, hbid, hb] at hget
  exact Option.some.inj hget ▸ htrap

/-- Every trap block starts with a trap. -/
def TrapsFirst (p : Program) : Prop :=
  ∀ f ∈ p.functions.elems, ∀ b ∈ f.blocks, b.trap = true → b.instrs.head?.map Instr.opcode = some .trap

theorem trapsFirst_of_verify (h : p.verify = .ok ()) : p.TrapsFirst := by
  intro f hf b hb htrap
  have hsound := verifyFunction_eq_ok_iff.mp (verifyFunction_of_verify h hf)
  rw [Function.blocks] at hb
  cases hbody : f.body with
  | none =>
    rw [hbody] at hb
    cases hb
  | some g =>
    rw [hbody] at hb
    exact ((hsound g hbody).1.blocks b hb).trap_first htrap

end Program

/-! ### The accessor of the guard -/

namespace Guard

open Code

theorem silent_loadConstant (dst : PhysReg) (value : BitVec 32) : Silent (loadConstant dst value) := by
  rw [loadConstant]
  split
  · exact .cons rfl rfl silent_nil
  · exact .cons rfl rfl (.cons rfl rfl silent_nil)

theorem silent_loadAddress (dst : PhysReg) (global : Nat) (pred : Cond) :
    Silent (loadAddress dst global pred) :=
  .cons rfl rfl (.cons rfl rfl silent_nil)

theorem silent_storeGuard : Silent storeGuard :=
  .cons rfl rfl (.cons rfl rfl (.cons rfl rfl (.cons rfl rfl silent_nil)))

theorem silent_tryCandidates (candidates : List Nat) : Silent (tryCandidates candidates) := by
  fun_induction tryCandidates candidates with
  | case1 => exact silent_nil
  | case2 last => exact (silent_loadAddress _ _ _).append (.cons rfl rfl silent_nil)
  | case3 candidate rest _ ih =>
    refine Silent.append (.cons rfl rfl (.cons rfl rfl (.cons rfl rfl ?_))) ih
    exact (silent_loadAddress _ _ _).append (.cons rfl rfl silent_nil)

theorem silent_selectCode (candidates : List Nat) : Silent (selectCode candidates) :=
  ((silent_loadConstant _ _).append (.cons rfl rfl (.cons rfl rfl silent_nil))).append
    (silent_tryCandidates candidates)

theorem silent_graph (candidates : List Nat) (rngAddress : Option Nat) (staticPick : Nat) :
    ∀ b ∈ (graph candidates rngAddress staticPick).blocks.elems, Silent b.instrs := by
  have hstatic : ∀ candidate, ∀ b ∈ (staticGraph candidate).blocks.elems, Silent b.instrs := by
    intro candidate
    rw [elems_staticGraph]
    exact List.forall_mem_singleton.mpr ((silent_loadAddress _ _ _).append silent_storeGuard)
  cases rngAddress with
  | none => exact hstatic _
  | some address =>
    rw [graph]
    split
    · rw [elems_runtimeGraph]
      simp only [List.forall_mem_cons]
      refine ⟨silent_loadConstant _ _, ?_, silent_selectCode candidates, silent_storeGuard, by simp⟩
      exact .cons rfl rfl (.cons rfl rfl (.cons rfl rfl silent_nil))
    · exact hstatic _

end Guard

namespace Layout

theorem quiet_guardFunction (candidates : List Nat) (rngAddress : Option Nat) (staticPick : Nat) :
    (guardFunction (Guard.graph candidates rngAddress staticPick)).Quiet where
  addressTaken := rfl
  body := rfl
  saved := ⟨[], rfl, rfl⟩
  calls := by
    intro i hi
    obtain ⟨b, hb, hi⟩ := List.mem_flatMap.mp hi
    exact Guard.silent_graph candidates rngAddress staticPick b hb i hi
  ids := Guard.nodup_graph candidates rngAddress staticPick

/-! ### Decoys -/

theorem plain_decoyObject (name : String) (d : DecoyPlan) :
    ∀ entry ∈ ((decoyObject name d).initializer.map Initializer.entries).getD [], entry.Plain := by
  intro entry hentry
  change entry ∈ d.content.initializer.entries at hentry
  cases hcontent : d.content with
  | zero =>
    rw [hcontent] at hentry
    cases hentry
  | traps blocks =>
    rw [hcontent] at hentry
    obtain ⟨t, -, rfl⟩ := List.mem_map.mp hentry
    trivial
  | words words =>
    rw [hcontent] at hentry
    obtain ⟨word, -, rfl⟩ := List.mem_map.mp hentry
    trivial

variable {o : Options} {p : Program} {s s' : State} {plan : Plan}

/-- A state whose program leaks what `p` does, and whose trap blocks can be etched. -/
structure State.Harmless (p : Program) (s : State) : Prop where
  alike : p.Alike s.program []
  traps : s.program.TrapsFirst

/-- Other operands of a trap at the start of a block change nothing. -/
theorem Harmless.etch {decoy : Nat} {target : BlockPointer} (h : s.Harmless p)
    (hfunctions : p.functions.ids.Nodup)
    (hblocks : ∀ f ∈ p.functions.elems, (f.blocks.map Block.id).Nodup)
    (htarget : target ∈ p.blockPointers Block.trap) (hetch : Layout.etch decoy target s = (s', none)) :
    s'.Harmless p := by
  rcases etch_eq_none hetch with ⟨rfl, -⟩ | ⟨b, i, hb, hfirst, -, hstate⟩
  · exact h
  have hprogram := congrArg State.program hstate
  have htrap : b.trap = true := by
    refine Program.trap_of_block? ?_ (h.alike.nodup_blocks hblocks) (h.alike.traps_eq ▸ htarget) hb
    rw [h.alike.ids_eq]
    exact hfunctions
  obtain ⟨f, g, hf, hbody, hblock⟩ := Program.block?_eq_some hb
  obtain ⟨rest, hcode⟩ := List.head?_eq_some_iff.mp (List.head?_eq_getElem?.trans hfirst)
  -- The operand that is etched belongs to a trap, which calls nothing.
  have hopcode : i.opcode = .trap := by
    have hhead := h.traps f (Roster.mem_of_get? hf) b
      (by rw [Function.blocks, hbody]; exact Roster.mem_of_get? hblock) htrap
    rw [hcode] at hhead
    exact Option.some.inj hhead
  constructor
  · rw [hprogram]
    refine h.alike.updateFunction fun f' hf' => Function.profile_updateBody fun g' hg' => ?_
    obtain rfl : f' = f := Option.some.inj (hf'.symm.trans hf)
    obtain rfl : g' = g := Option.some.inj (hg'.symm.trans hbody)
    refine Roster.map_update fun b' hb' => ?_
    obtain rfl : b' = b := Option.some.inj (hb'.symm.trans hblock)
    refine Block.profile_eq_of_callAlike ?_
    rw [hcode]
    refine Code.CallAlike.cons (.refl rest) ⟨rfl, rfl, ?_, ?_⟩
    · simp [Instr.callee?, hopcode]
    · simp [Instr.tailCallee?, hopcode]
  · rw [hprogram]
    intro f' hf' b' hb' htrap'
    rcases Roster.mem_update hf hf' with hold | rfl
    · exact h.traps f' hold b' hb' htrap'
    · rw [Function.updateBody, Function.blocks, hbody] at hb'
      rcases Roster.mem_update hblock hb' with hold | rfl
      · exact h.traps f (Roster.mem_of_get? hf) b' (by rw [Function.blocks, hbody]; exact hold) htrap'
      · rw [hcode]
        exact congrArg some hopcode

theorem Harmless.addDecoy {d : DecoyPlan} (h : s.Harmless p) (hfunctions : p.functions.ids.Nodup)
    (hblocks : ∀ f ∈ p.functions.elems, (f.blocks.map Block.id).Nodup)
    (htarget : ∀ t, d.etch = some t → t ∈ p.blockPointers Block.trap)
    (hadd : Layout.addDecoy d s = (s', none)) : s'.Harmless p := by
  rw [Layout.addDecoy] at hadd
  dsimp only at hadd
  split at hadd
  · cases hadd
  · next program id hglobal =>
    have halike := h.alike.addGlobal (plain_decoyObject _ d) hglobal
    obtain ⟨-, -, -, hsame⟩ := Program.addGlobal_eq_ok hglobal
    have htraps : program.TrapsFirst := by
      rw [Program.TrapsFirst, hsame]
      exact h.traps
    split at hadd
    · cases hadd
      exact ⟨halike, htraps⟩
    · next t ht => exact Harmless.etch ⟨halike, htraps⟩ hfunctions hblocks (htarget t ht) hadd

/-! ### Carrying out a plan -/

theorem keep_alike {symbol : Symbol} {extra : List Function} (h : p.Alike s.program extra)
    (hwf : p.WellFormed) (hkeep : keep symbol s = (s', none)) : p.Alike s'.program extra := by
  rw [keep] at hkeep
  split at hkeep
  · cases hkeep
  · cases hkeep
    exact h.use hwf ..

theorem reorder_alike (h : p.Alike s.program []) (hreorder : reorder plan s = (s', none)) :
    p.Alike s'.program [] := by
  rw [reorder] at hreorder
  split at hreorder
  · cases hreorder
  · next hprogram =>
    cases hreorder
    obtain ⟨globals, -, rfl⟩ := Outcome.map_eq_ok_iff.mp hprogram
    exact { h with }

/-- Without a function of its name, the accessor becomes a function of its own. -/
theorem addGuard_alike {guard : GuardPlan} (h : p.Alike s.program []) (hwf : p.WellFormed)
    (hname : p.symbolNamed? Guard.functionName = none)
    (hguard : addGuard o guard s = (s', none)) :
    ∃ f, f.name = Guard.functionName ∧ p.Alike s'.program [f] := by
  rw [addGuard] at hguard
  split at hguard
  · cases hguard
  · next program id hinsert =>
    rw [insertGuard] at hinsert
    split at hinsert
    · next function hsymbol =>
      rcases (h.named _ _).mp hsymbol with hold | ⟨f, hf, -⟩
      · rw [hname] at hold
        cases hold
      · cases hf
    · obtain ⟨-, halike⟩ := h.addFunction (quiet_guardFunction ..) rfl hinsert
      exact ⟨_, rfl, keep_alike halike hwf hguard⟩

/-- Only the accessor of the guard is new. -/
def newFunctions (guard : Bool) : List String :=
  if guard then [Guard.functionName] else []

theorem carryOut_alike (h : s.Harmless p) (hwf : p.WellFormed) (hfunctions : p.functions.ids.Nodup)
    (hblocks : ∀ f ∈ p.functions.elems, (f.blocks.map Block.id).Nodup)
    (hname : p.symbolNamed? Guard.functionName = none)
    (htargets : ∀ d ∈ plan.decoys, ∀ t, d.etch = some t → t ∈ p.blockPointers Block.trap)
    (hcarry : carryOut o plan s = (s', none)) :
    ∃ extra, p.Alike s'.program extra ∧
      extra.map Function.name = newFunctions plan.guard.isSome := by
  have hkept : ∀ {t}, andThen (andThen (Steps.runAll addDecoy plan.decoys s) (reorder plan))
      (fun s => Steps.runAll (fun entry => keep (.global entry.2)) s.placed.reverse s) = (t, none) →
      p.Alike t.program [] := by
    intro t ht
    obtain ⟨ordered, hordered, hkeep⟩ := andThen_eq_none_iff.mp ht
    obtain ⟨added, hadded, hreorder⟩ := andThen_eq_none_iff.mp hordered
    have hdecoys : added.Harmless p :=
      Steps.runAll_induction hadded h fun d hd _ _ hadd hs =>
        Harmless.addDecoy hs hfunctions hblocks (htargets d hd) hadd
    exact Steps.runAll_induction hkeep (P := fun s => p.Alike s.program [])
      (reorder_alike hdecoys.alike hreorder) fun _ _ _ _ hstep hs => keep_alike hs hwf hstep
  rw [carryOut] at hcarry
  split at hcarry
  · next hguard =>
    rw [hguard]
    exact ⟨[], hkept hcarry, rfl⟩
  · next guard hguard =>
    obtain ⟨t, ht, hadd⟩ := andThen_eq_none_iff.mp hcarry
    obtain ⟨f, hnamed, halike⟩ := addGuard_alike (hkept ht) hwf hname hadd
    rw [hguard]
    exact ⟨[f], halike, congrArg (fun name => [name]) hnamed⟩

end Layout

namespace LayoutRandomizer
open Layout

variable {r : LayoutRandomizer} {stream : RandomStream} {p q : Program} {changed : Bool}

/-- A run that reports no change has left the program as it was. -/
theorem program_of_unchanged (hok : (r.runWith stream p).outcome = .ok false) :
    (r.runWith stream p).program = p := by
  cases hon : r.options.randomization with
  | false => simp [runWith, hon]
  | true =>
    simp only [runWith, hon, Bool.not_true, Bool.false_eq_true, if_false] at hok
    split at hok
    · cases hok
    · split at hok
      · cases hok
      · dsimp only at hok
        split at hok <;> cases hok

/-- A successful run leaves a program that leaks alike, with the accessor of the guard if there is one. -/
theorem runWith_alike (h : p.Alike q []) (hwf : p.WellFormed) (hverify : q.verify = .ok ())
    (hfunctions : p.functions.ids.Nodup)
    (hblocks : ∀ f ∈ p.functions.elems, (f.blocks.map Block.id).Nodup)
    (hname : p.symbolNamed? Guard.functionName = none)
    (hok : (r.runWith stream q).outcome = .ok changed) :
    ∃ extra, p.Alike (r.runWith stream q).program extra ∧
      extra.map Function.name = newFunctions (r.options.randomization && r.options.guard) := by
  cases hon : r.options.randomization with
  | false =>
    have hsame : (r.runWith stream q).program = q := by simp [runWith, hon]
    exact ⟨[], hsame.symm ▸ h, rfl⟩
  | true =>
    obtain ⟨warnings, plan, s, hplan, hcarry, hprogram, -⟩ := runWith_eq_ok hon hok
    obtain ⟨pool, -, -, -, hwith⟩ := plan_eq_ok hplan
    obtain ⟨-, -, hguard, -⟩ := planWith_eq_ok hwith
    rw [hprogram, Bool.true_and, ← hguard]
    refine carryOut_alike ⟨h, Program.trapsFirst_of_verify hverify⟩ hwf hfunctions hblocks hname
      (fun d hd t ht => ?_) hcarry
    obtain ⟨f, hf, b, hb, hfree, hids⟩ :=
      Program.mem_blockPointers_iff.mp (etch_mem_blockPointers hplan hd ht).1
    rw [Bool.and_eq_true] at hfree
    rw [← h.traps_eq]
    exact Program.mem_blockPointers_iff.mpr ⟨f, hf, b, hb, hfree.1, hids⟩

end LayoutRandomizer
end ThumbHardening
