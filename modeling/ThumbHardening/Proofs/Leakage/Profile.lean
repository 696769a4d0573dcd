import ThumbHardening.Proofs.Leakage.Calls
import ThumbHardening.Proofs.Leakage.LinkSpill
import ThumbHardening.Proofs.Predication.Insertion
import Mathlib.Data.List.ReduceOption

/-!
# What the analysis reads off code

Of a block the analysis looks at where the calls in front of its last instruction go, at where that one goes
if it is a call, and at where its tail calls go. `It` instructions and debug information do not matter: in
consistent code the last instruction that is executed is the last one that is no debug information, since an
`It` has a member of its group behind it.
-/

namespace ThumbHardening

def Instr.callee? (i : Instr) : Option Callee :=
  match i.opcode with
  | .call => i.operands.head?.bind Operand.callee?
  | .callIndirect | .callIndirectLimited => some .unknown
  | _ => none

/-- Whether the code behind a call may spill the link register. -/
def Callee.MaySpill (p : Program) (spills : LinkSpill) : Callee → Prop
  | .symbol s => ∃ id, p.resolveFunction s = .ok id ∧ spills.canSpill id = true
  | .unknown => True

namespace Code

/-- The instructions that do something at run time. -/
def executed (code : Code) : Code :=
  code.filter fun i => !i.isDebug && !i.isIt

/-- Where the instructions that do something go if they are calls. -/
def callees (code : Code) : List (Option Callee) :=
  (executed code).map Instr.callee?

def innerCallees (code : Code) : List Callee :=
  (callees code).dropLast.reduceOption

def lastCallee? (code : Code) : Option Callee :=
  (callees code).getLast?.join

def tailCallees (code : Code) : List Callee :=
  code.filterMap Instr.tailCallee?

/-- Code that calls nothing. -/
def Silent (code : Code) : Prop :=
  ∀ i ∈ code, i.callee? = none ∧ i.tailCallee? = none

theorem silent_nil : Silent [] :=
  fun _ hi => absurd hi List.not_mem_nil

theorem Silent.cons {i : Instr} {code : Code} (hcallee : i.callee? = none)
    (htail : i.tailCallee? = none) (h : Silent code) : Silent (i :: code) :=
  List.forall_mem_cons.mpr ⟨⟨hcallee, htail⟩, h⟩

theorem Silent.append {front back : Code} (hfront : Silent front) (hback : Silent back) :
    Silent (front ++ back) :=
  List.forall_mem_append.mpr ⟨hfront, hback⟩

end Code

/-- What the analysis looks at in a block. -/
structure BlockProfile where
  id : Nat
  trap : Bool
  inner : List Callee
  last : Option Callee
  tails : List Callee

def Block.profile (b : Block) : BlockProfile where
  id := b.id
  trap := b.trap
  inner := b.instrs.innerCallees
  last := b.instrs.lastCallee?
  tails := b.instrs.tailCallees

/-- What the analysis looks at in a function. -/
structure FunctionProfile where
  id : Nat
  addressTaken : Bool
  calleeSaved : Option (List PhysReg)
  blocks : Option (List BlockProfile)

def Function.profile (f : Function) : FunctionProfile where
  id := f.id
  addressTaken := f.addressTaken
  calleeSaved := f.calleeSaved
  blocks := f.body.map fun g => g.blocks.elems.map Block.profile

variable {p : Program} {spills : LinkSpill} {i : Instr} {b : Block} {code rest front back : Code}

/-! ### Calls -/

theorem leaking_iff : spills.Leaking p i ↔ ∃ c, i.callee? = some c ∧ c.MaySpill p spills := by
  rw [Instr.callee?]
  split
  · next hopcode =>
    rw [LinkSpill.leaking_call_iff hopcode]
    constructor
    · intro hcase
      rcases hcase with ⟨name, rest, hoperands⟩ | ⟨symbol, offset, part, rest, id, hoperands, hid, hspill⟩
      · exact ⟨.unknown, by simp [hoperands, Operand.callee?], trivial⟩
      · refine ⟨.symbol symbol, ?_, id, hid, hspill⟩
        cases symbol with
        | global global =>
          have hnone := TailCalls.resolveFunction_global p global
          rw [hid] at hnone
          cases hnone
        | function | aliased => simp [hoperands, Operand.callee?]
    · intro hparts
      obtain ⟨c, hc, hspill⟩ := hparts
      obtain ⟨operand, hhead, hcallee⟩ := Option.bind_eq_some_iff.mp hc
      obtain ⟨rest, hoperands⟩ := List.head?_eq_some_iff.mp hhead
      cases operand with
      | symbol symbol offset part =>
        obtain rfl : c = .symbol symbol := by cases symbol <;> simp_all [Operand.callee?]
        obtain ⟨id, hid, hspill⟩ := hspill
        exact .inr ⟨symbol, offset, part, rest, id, hoperands, hid, hspill⟩
      | external name => exact .inl ⟨name, rest, hoperands⟩
      | reg | imm | block | frame => cases hcallee
  · next hopcode => exact iff_of_true (.indirect (.inl hopcode)) ⟨_, rfl, trivial⟩
  · next hopcode => exact iff_of_true (.indirect (.inr hopcode)) ⟨_, rfl, trivial⟩
  · next hcall hindirect hlimited =>
    refine iff_of_false (fun hleaking => ?_) (by simp)
    cases hleaking with
    | indirect h => exact h.elim hindirect hlimited
    | external h => exact hcall h
    | internal h => exact hcall h

namespace Code

theorem isDebug_of_callee? {c : Callee} (h : i.callee? = some c) :
    i.isDebug = false ∧ i.isIt = false := by
  cases hopcode : i.opcode <;> simp_all [Instr.callee?, Instr.isDebug, Instr.isIt]

/-! ### The last instruction -/

theorem lastNonDebug?_eq_some {k : Nat} (h : b.lastNonDebug? = some (k, i)) :
    ∃ front back, b.instrs = front ++ i :: back ∧ front.length = k ∧ i.isDebug = false ∧
      ∀ j ∈ back, j.isDebug = true := by
  obtain ⟨entry, hfind, hentry⟩ := Option.map_eq_some_iff.mp h
  cases hentry
  obtain ⟨hdebug, behind, before, hsplit, hbehind⟩ := List.find?_eq_some_iff_append.mp hfind
  have hzip : b.instrs.zipIdx = before.reverse ++ entry :: behind.reverse := by
    rw [← List.reverse_reverse b.instrs.zipIdx, hsplit]
    simp
  refine ⟨before.reverse.map Prod.fst, behind.reverse.map Prod.fst, ?_, ?_, by simpa using hdebug, ?_⟩
  · have hcode := congrArg (List.map Prod.fst) hzip
    rwa [List.zipIdx_map_fst, List.map_append, List.map_cons] at hcode
  · have hget := congrArg (·[before.reverse.length]?) hzip
    simp only [List.getElem?_zipIdx, List.getElem?_append_right (Nat.le_refl _), Nat.sub_self,
      List.getElem?_cons_zero, Nat.zero_add] at hget
    obtain ⟨j, -, hentry⟩ := Option.map_eq_some_iff.mp hget
    rw [← hentry, List.length_map]
  · intro j hj
    obtain ⟨entry, hentry, rfl⟩ := List.mem_map.mp hj
    simpa using hbehind entry (List.mem_reverse.mp hentry)

theorem mem_of_lastNonDebug? {k : Nat} (h : b.lastNonDebug? = some (k, i)) : i ∈ b.instrs := by
  obtain ⟨front, back, hcode, -⟩ := lastNonDebug?_eq_some h
  simp [hcode]

theorem lastNonDebug?_eq_none (h : b.lastNonDebug? = none) : ∀ j ∈ b.instrs, j.isDebug = true := by
  intro j hj
  obtain ⟨k, hk⟩ := List.mem_iff_getElem?.mp hj
  have hfind := List.find?_eq_none.mp (Option.map_eq_none_iff.mp h) (j, k)
    (List.mem_reverse.mpr (List.mk_mem_zipIdx_iff_getElem?.mpr hk))
  simpa using hfind

/-- No group is left open at the end of code. -/
theorem Grouped.conds_eq_nil {outside : Instr → Prop} {conds : List Cond}
    (h : Grouped outside conds code) (hdebug : ∀ j ∈ code, j.isDebug = true) : conds = [] := by
  induction h with
  | nil | plain | it => rfl
  | debug _ _ _ ih => exact ih fun j hj => hdebug j (List.mem_cons_of_mem _ hj)
  | @member j c later rest hj =>
    rw [hdebug j List.mem_cons_self] at hj
    cases hj

/-- In consistent code the last instruction that is no debug information is no `It`. -/
theorem Grouped.isIt_eq_false {outside : Instr → Prop} {conds : List Cond}
    (h : Grouped outside conds (front ++ i :: back)) (hdebug : ∀ j ∈ back, j.isDebug = true) :
    i.isIt = false := by
  generalize hcode : front ++ i :: back = code at h
  induction h generalizing front with
  | nil => simp at hcode
  | plain hit _ _ ih =>
    cases front with
    | nil =>
      cases hcode
      exact hit
    | cons first front =>
      cases hcode
      exact ih rfl
  | it hconds hrest ih =>
    cases front with
    | nil =>
      cases hcode
      exact absurd (hrest.conds_eq_nil hdebug) (announced?_ne_nil hconds)
    | cons first front =>
      cases hcode
      exact ih rfl
  | debug hj _ _ ih =>
    cases front with
    | nil =>
      cases hcode
      exact isIt_of_isDebug hj
    | cons first front =>
      cases hcode
      exact ih rfl
  | member _ hmeets _ ih =>
    cases front with
    | nil =>
      cases hcode
      exact isIt_of_needsGroup hmeets.needs
    | cons first front =>
      cases hcode
      exact ih rfl

theorem executed_append (front back : Code) :
    executed (front ++ back) = executed front ++ executed back :=
  List.filter_append ..

theorem executed_cons (hdebug : i.isDebug = false) (hit : i.isIt = false) :
    executed (i :: rest) = i :: executed rest :=
  List.filter_cons_of_pos (by simp [hdebug, hit])

theorem executed_of_isDebug (hdebug : ∀ j ∈ code, j.isDebug = true) : executed code = [] :=
  List.filter_eq_nil_iff.mpr fun j hj => by simp [hdebug j hj]

theorem callees_split (hdebug : i.isDebug = false) (hit : i.isIt = false)
    (hback : ∀ j ∈ back, j.isDebug = true) :
    callees (front ++ i :: back) = callees front ++ [i.callee?] := by
  rw [callees, executed_append, executed_cons hdebug hit, executed_of_isDebug hback, List.map_append]
  rfl

theorem mem_callees_iff {c : Callee} :
    some c ∈ callees code ↔ ∃ i ∈ code, i.callee? = some c := by
  rw [callees, List.mem_map]
  constructor
  · intro hparts
    obtain ⟨i, hi, hc⟩ := hparts
    exact ⟨i, List.mem_of_mem_filter hi, hc⟩
  · intro hparts
    obtain ⟨i, hi, hc⟩ := hparts
    have hexecuted := isDebug_of_callee? hc
    exact ⟨i, List.mem_filter.mpr ⟨hi, by simp [hexecuted]⟩, hc⟩

/-! ### Leaks of a block -/

theorem mem_or_mem_of_getElem? {j : Instr} {index : Nat} (h : (front ++ i :: back)[index]? = some j)
    (hne : index ≠ front.length) : j ∈ front ∨ j ∈ back := by
  rcases Nat.lt_or_ge index front.length with hlt | hge
  · rw [List.getElem?_append_left hlt] at h
    exact .inl (List.mem_of_getElem? h)
  · obtain ⟨m, hm⟩ : ∃ m, index - front.length = m + 1 := ⟨index - front.length - 1, by omega⟩
    rw [List.getElem?_append_right hge, hm, List.getElem?_cons_succ] at h
    exact .inr (List.mem_of_getElem? h)

theorem leaksInside_iff (hconsistent : b.instrs.isConsistent = true) :
    spills.LeaksInside p b ↔ ∃ c ∈ b.profile.inner, c.MaySpill p spills := by
  rw [LinkSpill.LeaksInside, Block.profile, innerCallees]
  simp only [List.reduceOption_mem_iff, leaking_iff]
  cases hlast : b.lastNonDebug? with
  | none =>
    have hdebug := lastNonDebug?_eq_none hlast
    refine iff_of_false ?_ ?_
    · intro hparts
      obtain ⟨index, i, hi, ⟨c, hc, -⟩, -⟩ := hparts
      have hi := hdebug i (List.mem_of_getElem? hi)
      rw [(isDebug_of_callee? hc).1] at hi
      cases hi
    · simp [callees, executed_of_isDebug hdebug]
  | some entry =>
    obtain ⟨k, i⟩ := entry
    obtain ⟨front, back, hcode, rfl, hdebug, hback⟩ := lastNonDebug?_eq_some hlast
    have hgrouped := isConsistent_iff_grouped.mp hconsistent
    rw [hcode] at hgrouped ⊢
    rw [callees_split hdebug (hgrouped.isIt_eq_false hback) hback, List.dropLast_concat]
    constructor
    · intro hparts
      obtain ⟨index, j, hj, ⟨c, hc, hspill⟩, hne⟩ := hparts
      refine ⟨c, mem_callees_iff.mpr ⟨j, ?_, hc⟩, hspill⟩
      apply (mem_or_mem_of_getElem? hj fun heq => hne (congrArg some heq.symm)).resolve_right
      intro hj
      have hdebug := hback j hj
      rw [(isDebug_of_callee? hc).1] at hdebug
      cases hdebug
    · intro hparts
      obtain ⟨c, hc, hspill⟩ := hparts
      obtain ⟨j, hj, hc⟩ := mem_callees_iff.mp hc
      obtain ⟨index, hindex⟩ := List.mem_iff_getElem?.mp hj
      have hlt := (List.getElem?_eq_some_iff.mp hindex).1
      refine ⟨index, j, ?_, ⟨c, hc, hspill⟩, ?_⟩
      · rw [List.getElem?_append_left hlt]
        exact hindex
      · simp only [Option.map_some, ne_eq, Option.some.injEq]
        omega

theorem endsLeaking_iff (hconsistent : b.instrs.isConsistent = true) :
    spills.EndsLeaking p b ↔ ∃ c, b.profile.last = some c ∧ c.MaySpill p spills := by
  rw [LinkSpill.EndsLeaking, Block.profile, lastCallee?]
  simp only [leaking_iff]
  cases hlast : b.lastNonDebug? with
  | none => simp [callees, executed_of_isDebug (lastNonDebug?_eq_none hlast)]
  | some entry =>
    obtain ⟨k, i⟩ := entry
    obtain ⟨front, back, hcode, rfl, hdebug, hback⟩ := lastNonDebug?_eq_some hlast
    have hgrouped := isConsistent_iff_grouped.mp hconsistent
    rw [hcode] at hgrouped ⊢
    rw [callees_split hdebug (hgrouped.isIt_eq_false hback) hback]
    simp

end Code

/-! ### Code with the same profile -/

/-- Instructions that the analysis does not tell apart. -/
structure Instr.SameCall (i j : Instr) : Prop where
  debug : j.isDebug = i.isDebug
  it : j.isIt = i.isIt
  callee : j.callee? = i.callee?
  tailCallee : j.tailCallee? = i.tailCallee?

theorem Instr.SameCall.refl (i : Instr) : i.SameCall i :=
  ⟨rfl, rfl, rfl, rfl⟩

/-- The operand that an instruction calls, if any, is the first one. -/
theorem Instr.SameCall.of_operands {operands : List Operand}
    (h : operands.head?.bind Operand.callee? = i.operands.head?.bind Operand.callee?) :
    i.SameCall { i with operands } := by
  refine ⟨rfl, rfl, ?_, ?_⟩
  · simp only [callee?, h]
  · simp only [tailCallee?, h]

namespace Code

variable {code' : Code}

theorem callees_cons (hdebug : i.isDebug = false) (hit : i.isIt = false) :
    callees (i :: rest) = i.callee? :: callees rest := by
  rw [callees, executed_cons hdebug hit]
  rfl

theorem callees_ordinary (code : Code) : callees (ordinary code) = callees code := by
  rw [callees, callees, executed, executed, ordinary, List.filter_filter]
  simp only [Bool.and_assoc, Bool.and_self]

theorem tailCallees_ordinary (code : Code) : tailCallees (ordinary code) = tailCallees code := by
  rw [tailCallees, tailCallees, ordinary, List.filterMap_filter]
  congr 1
  funext i
  split
  · rfl
  · next hit => simp_all [Instr.tailCallee?, Instr.isIt]

/-- The calls of two codes go to the same places, those in front of the last instruction and that one. -/
structure CallAlike (code code' : Code) : Prop where
  inner : innerCallees code' = innerCallees code
  last : (callees code').getLast? = (callees code).getLast?
  tails : tailCallees code' = tailCallees code

theorem innerCallees_cons (hdebug : i.isDebug = false) (hit : i.isIt = false)
    (hrest : callees rest ≠ []) :
    innerCallees (i :: rest) = i.callee?.toList ++ innerCallees rest := by
  rw [innerCallees, innerCallees, callees_cons hdebug hit, List.dropLast_cons_of_ne_nil hrest]
  cases i.callee? <;> simp

theorem CallAlike.callees_eq_nil (h : CallAlike code code') : callees code' = [] ↔ callees code = [] := by
  rw [← List.getLast?_eq_none_iff, h.last, List.getLast?_eq_none_iff]

theorem CallAlike.refl (code : Code) : CallAlike code code :=
  ⟨rfl, rfl, rfl⟩

/-- An instruction in front, with the same target in both codes. -/
theorem CallAlike.cons {j : Instr} (h : CallAlike code code') (hij : i.SameCall j) :
    CallAlike (i :: code) (j :: code') := by
  have htails : tailCallees (j :: code') = tailCallees (i :: code) := by
    have hrest := h.tails
    rw [tailCallees, tailCallees] at hrest ⊢
    rw [List.filterMap_cons, List.filterMap_cons, hij.tailCallee, hrest]
  by_cases hexecuted : i.isDebug = false ∧ i.isIt = false
  · obtain ⟨hdebug, hit⟩ := hexecuted
    have hdebug' := hij.debug.trans hdebug
    have hit' := hij.it.trans hit
    refine ⟨?_, ?_, htails⟩
    · by_cases hnil : callees code = []
      · have hnil' := h.callees_eq_nil.mpr hnil
        rw [innerCallees, innerCallees, callees_cons hdebug hit, callees_cons hdebug' hit', hnil, hnil']
        rfl
      · rw [innerCallees_cons hdebug hit hnil,
          innerCallees_cons hdebug' hit' (mt h.callees_eq_nil.mp hnil), hij.callee, h.inner]
    · rw [callees_cons hdebug hit, callees_cons hdebug' hit', List.getLast?_cons, List.getLast?_cons,
        hij.callee, h.last]
  · have hskip : ∀ {k : Instr} {rest : Code}, ¬ (k.isDebug = false ∧ k.isIt = false) →
        callees (k :: rest) = callees rest := by
      intro k rest hk
      rw [callees, callees, executed, executed, List.filter_cons_of_neg (by simpa using hk)]
    have hexecuted' : ¬ (j.isDebug = false ∧ j.isIt = false) := by
      rwa [hij.debug, hij.it]
    exact ⟨by rw [innerCallees, innerCallees, hskip hexecuted, hskip hexecuted']; exact h.inner,
      by rw [hskip hexecuted, hskip hexecuted']; exact h.last, htails⟩

/-- An instruction that goes nowhere, with another one behind it. -/
theorem CallAlike.pad (h : CallAlike code code') (hdebug : i.isDebug = false) (hit : i.isIt = false)
    (hcallee : i.callee? = none) (htail : i.tailCallee? = none) (hrest : callees code' ≠ []) :
    CallAlike code (i :: code') := by
  refine ⟨?_, ?_, ?_⟩
  · rw [innerCallees_cons hdebug hit hrest, hcallee, h.inner]
    rfl
  · rw [callees_cons hdebug hit, List.getLast?_cons, ← h.last]
    obtain ⟨last, hlast⟩ := Option.ne_none_iff_exists'.mp (mt List.getLast?_eq_none_iff.mp hrest)
    rw [hlast]
    rfl
  · have htails := h.tails
    rw [tailCallees] at htails ⊢
    rw [List.filterMap_cons, htail]
    exact htails

theorem CallAlike.of_forall₂ (h : List.Forall₂ Instr.SameCall code code') : CallAlike code code' := by
  induction h with
  | nil => exact .refl []
  | cons hij _ ih => exact ih.cons hij

/-- `It` instructions do not matter. -/
theorem CallAlike.of_ordinary (h : CallAlike (ordinary code) (ordinary code')) :
    CallAlike code code' := by
  obtain ⟨hinner, hlast, htails⟩ := h
  rw [callees_ordinary, callees_ordinary] at hlast
  rw [tailCallees_ordinary, tailCallees_ordinary] at htails
  rw [innerCallees, innerCallees, callees_ordinary, callees_ordinary] at hinner
  exact ⟨hinner, hlast, htails⟩

end Code

theorem Block.profile_eq_of_callAlike {instrs : Code} (h : Code.CallAlike b.instrs instrs) :
    ({ b with instrs } : Block).profile = b.profile := by
  simp only [profile, Code.lastCallee?, h.inner, h.last, h.tails]

/-! ### Functions with the same profile -/

variable {f f' : Function} {g g' : FlowGraph}

theorem Function.profile_updateBody {change : FlowGraph → FlowGraph}
    (h : ∀ g, f.body = some g →
      (change g).blocks.elems.map Block.profile = g.blocks.elems.map Block.profile) :
    (f.updateBody change).profile = f.profile := by
  rw [profile, profile, updateBody, Option.map_map]
  cases hbody : f.body with
  | none => rfl
  | some g => exact congrArg _ (congrArg some (h g hbody))

theorem Function.id_eq_of_profile (h : f'.profile = f.profile) : f'.id = f.id :=
  congrArg FunctionProfile.id h

theorem Function.tailCallees_eq (f : Function) :
    f.tailCallees = (f.profile.blocks.getD []).flatMap BlockProfile.tails := by
  rw [tailCallees, instrs, blocks, profile]
  cases f.body with
  | none => rfl
  | some g =>
    change (g.blocks.elems.flatMap Block.instrs).filterMap Instr.tailCallee?
      = (g.blocks.elems.map Block.profile).flatMap BlockProfile.tails
    rw [List.filterMap_flatMap, List.flatMap_map]
    rfl

theorem Function.tailCallees_eq_of_profile (h : f'.profile = f.profile) :
    f'.tailCallees = f.tailCallees := by
  rw [tailCallees_eq, tailCallees_eq, h]

theorem Function.spillsItself_iff (h : f'.profile = f.profile) : f'.SpillsItself ↔ f.SpillsItself := by
  have hbody : f'.body = none ↔ f.body = none := by
    have hblocks := congrArg FunctionProfile.blocks h
    cases hf : f.body <;> cases hf' : f'.body <;> simp_all [profile]
  have hsaved : f'.calleeSaved = f.calleeSaved := congrArg FunctionProfile.calleeSaved h
  rw [SpillsItself, SpillsItself, hbody, savesLink, savesLink, hsaved, tailCallees_eq_of_profile h]

end ThumbHardening
