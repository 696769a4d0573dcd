import ThumbHardening.Proofs.CallLimit.Program
import ThumbHardening.Proofs.Leakage.Changes

/-!
# Limited calls leak alike

A limited call goes where it went, and the copies in front of calls go nowhere. A copy is never the last
instruction of a block, as its call follows, so the last instruction is a call exactly if it was one.
-/

namespace ThumbHardening
namespace CallLimit
open Code

variable {registers : Registers} {code code' : Code} {b b' : Block} {f f' : Function} {call : Instr}

theorem sameCall_retarget (hcall : isUnlimited call = true) (target : Reg) :
    call.SameCall (retarget target call) := by
  have hopcode : call.opcode = .callIndirect := of_decide_eq_true hcall
  constructor <;>
    simp [retarget, Instr.isDebug, Instr.isIt, Instr.callee?, Instr.tailCallee?, hopcode]

theorem Limited.callAlike (h : Limited registers code code') : CallAlike code code' := by
  induction h with
  | nil => exact .refl []
  | other _ _ ih => exact ih.cons (.refl _)
  | inPlace hcall _ _ _ ih => exact ih.cons (sameCall_retarget hcall _)
  | @copied call target new copy code code' hcall _ _ hcopy _ ih =>
    have hlater := ih.cons (sameCall_retarget hcall new)
    have hbehind : callees (retarget new call :: code') ≠ [] := by
      rw [callees_cons rfl rfl]
      exact List.cons_ne_nil _ _
    cases hcopy with
    | mov => exact hlater.pad rfl rfl rfl rfl hbehind
    | copy => exact hlater.pad rfl rfl rfl rfl hbehind

theorem RewrittenBlock.profile_eq (h : RewrittenBlock (Limited registers) b b') :
    b'.profile = b.profile := by
  rw [h.same]
  exact Block.profile_eq_of_callAlike (.of_ordinary h.code.callAlike)

theorem LimitedFunction.profile_eq (h : LimitedFunction f f') : f'.profile = f.profile := by
  have hbody : (f'.body.map fun g => g.blocks.elems.map Block.profile)
      = f.body.map fun g => g.blocks.elems.map Block.profile := by
    have hgraph := h.body
    generalize f.body = body at hgraph
    generalize f'.body = body' at hgraph
    cases hgraph with
    | none => rfl
    | some hgraph => exact congrArg some (Pairs.map_eq hgraph.blocks fun b b' hb => hb.profile_eq)
  rw [Function.profile, hbody, h.same]
  rfl

variable {p q : Program} {limited : Nat} {changed : Bool}

/-- A successful run leaves an accepted program that leaks alike. -/
theorem run_alike (h : p.Alike q []) (hverify : q.verify = .ok ())
    (hids : ∀ f ∈ q.functions.elems, (f.blocks.map Block.id).Nodup)
    (hok : (run limited q).outcome = .ok changed) :
    p.Alike (run limited q).program [] ∧ (run limited q).program.verify = .ok () := by
  obtain ⟨functions, hprogram, hlimited, haccepted⟩ := run_eq_limiting hverify hids hok
  refine ⟨?_, haccepted⟩
  rw [hprogram]
  exact h.withFunctions (Pairs.map_eq hlimited fun f f' hf => hf.1.profile_eq) rfl

end CallLimit
end ThumbHardening
