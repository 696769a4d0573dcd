import ThumbHardening.Proofs.Promotion.Promoted

/-!
# Functions that may be active twice

A global object has room for one instance of a stack object, so it can stand in for the object only if no two
instances are ever needed at once. A run leaves a function alone if direct calls lead from it back to itself. The
call graph knows nothing of calls through pointers, though, and such a call may lead to any function whose address
is taken.
-/

namespace ThumbHardening

/-- Whether an instruction calls what its operand points to. -/
def Instr.callsPointer (i : Instr) : Bool :=
  i.opcode = .callIndirect || i.opcode = .callIndirectLimited || i.opcode = .tailCallIndirect

namespace Program

/-- That the function with this ID calls through pointers. -/
def CallsPointers (p : Program) (id : Nat) : Prop :=
  ∃ f ∈ p.functions.elems, f.id = id ∧ ∃ i ∈ f.instrs, i.callsPointer = true

/-- That pointers may lead to the function with this ID. -/
def HasTakenAddress (p : Program) (id : Nat) : Prop :=
  ∃ f ∈ p.functions.elems, f.id = id ∧ f.addressTaken = true

instance (p : Program) (id : Nat) : Decidable (p.CallsPointers id) :=
  inferInstanceAs (Decidable (∃ f ∈ p.functions.elems, _))

instance (p : Program) (id : Nat) : Decidable (p.HasTakenAddress id) :=
  inferInstanceAs (Decidable (∃ f ∈ p.functions.elems, _))

/-- The calls that may happen when the program runs. -/
def MayCall (p : Program) (a b : Nat) : Prop :=
  p.Calls a b ∨ (p.CallsPointers a ∧ p.HasTakenAddress b)

variable {p : Program} {a b : Nat}

/-- Of all calls through pointers in a chain, the first and the last suffice: what the first one may call is all
that any of them may call. -/
theorem transGen_mayCall_iff :
    Relation.TransGen p.MayCall a b ↔ Relation.TransGen p.Calls a b ∨
      ∃ c d, Relation.ReflTransGen p.Calls a c ∧ p.CallsPointers c ∧ p.HasTakenAddress d ∧
        Relation.ReflTransGen p.Calls d b := by
  constructor
  · intro h
    induction h with
    | single hcall =>
      rcases hcall with hdirect | ⟨hcalls, hpointed⟩
      · exact .inl (.single hdirect)
      · exact .inr ⟨_, _, .refl, hcalls, hpointed, .refl⟩
    | tail _ hcall ih =>
      rcases hcall, ih with ⟨hdirect | ⟨hcalls, hpointed⟩, hchain | ⟨c, d, hforth, hc, hd, hback⟩⟩
      · exact .inl (hchain.tail hdirect)
      · exact .inr ⟨c, d, hforth, hc, hd, hback.tail hdirect⟩
      · exact .inr ⟨_, _, hchain.to_reflTransGen, hcalls, hpointed, .refl⟩
      · exact .inr ⟨c, _, hforth, hc, hpointed, .refl⟩
  · have hdirect : p.Calls ≤ p.MayCall := fun _ _ => .inl
    rintro (hchain | ⟨c, d, hforth, hc, hd, hback⟩)
    · exact Relation.TransGen.mono hdirect _ _ hchain
    · have hpointer : p.MayCall c d := .inr ⟨hc, hd⟩
      exact .trans_right (Relation.ReflTransGen.mono hdirect _ _ hforth)
        ((Relation.TransGen.single hpointer).trans_left (Relation.ReflTransGen.mono hdirect _ _ hback))

end Program

namespace Promotion

variable {p : Program} {s : State} {function id : Nat} {c : Candidate} {g : CallGraph}

/-! ### Functions that stay -/

/-- Moving an object out of a function, or failing to, leaves the other functions alone. -/
theorem function?_promote (hne : id ≠ function) :
    (promote function c s).1.program.function? id = s.program.function? id := by
  rw [promote]
  split
  · rfl
  · split
    · rfl
    · next g _ =>
      obtain ⟨values, hframe⟩ := s.program.addGlobal_frame g
      have hsame : (s.program.addGlobal g).1.functions = s.program.functions := by
        rcases hframe with hframe | ⟨-, bindings, hframe⟩ <;> rw [hframe]
      split
      · next hadd =>
        rw [hadd] at hsame
        exact congrArg (Roster.get? · id) hsame
      · next hadd =>
        rw [hadd] at hsame
        refine (Roster.get?_update ?_ function id).trans ?_
        · exact fun _ => rfl
        · rw [if_neg hne, hsame]
          rfl

/-- No object of a function that counts as recursive is going to be moved. -/
theorem candidates_recursive (p : Program) (function : Nat) :
    (fates p function true).filterMap Fate.candidate? = [] := by
  rw [List.filterMap_eq_nil_iff]
  intro fate' hfate
  rw [fates] at hfate
  split at hfate
  · cases hfate
  · split at hfate
    · cases hfate
    · obtain ⟨o, -, rfl⟩ := List.mem_map.mp hfate
      rw [fate]
      split
      · rfl
      · split
        · rfl
        · split <;> rfl

/-- A visit changes no function but the one that is visited, and not even that one if it counts as recursive. -/
theorem function?_visit {v : Bool × Nat} (hv : v.2 = id → v.1 = true) :
    (visit v s).1.program.function? id = s.program.function? id := by
  rw [visit, promoteFunction]
  by_cases hid : v.2 = id
  · rw [hv hid, candidates_recursive]
    rfl
  · exact Steps.runAll_keeps (P := fun t : State => t.program.function? id = s.program.function? id) rfl
      fun c _ t ht => (function?_promote (Ne.symm hid)).trans ht

/-- Visits count a function as recursive exactly if it is on a cycle of the graph. -/
theorem recursive_iff_of_mem_visits (hbuild : CallGraph.build p = .ok g) {v : Bool × Nat} (hv : v ∈ visits g) :
    v.1 = true ↔ Relation.TransGen g.Calls v.2 v.2 := by
  obtain ⟨component, hcomponent, hv⟩ := List.mem_flatMap.mp hv
  obtain ⟨id, hid, rfl⟩ := List.mem_map.mp hv
  exact CallGraph.cyclic_iff_calls hbuild hcomponent hid

/-- A run, whether or not it succeeds, leaves functions alone that are on cycles of the graph. -/
theorem function?_run (statistics : PromotionStatistics)
    (hcycle : ∀ g, CallGraph.build p = .ok g → Relation.TransGen g.Calls id id) :
    (run statistics p).program.function? id = p.function? id := by
  cases hbuild : CallGraph.build p with
  | error e => rw [run, hbuild]
  | ok g =>
    rw [(run_eq hbuild rfl).1]
    refine Steps.runAll_keeps (P := fun t : State => t.program.function? id = p.function? id) rfl fun v hv t ht => ?_
    refine (function?_visit fun heq => ?_).trans ht
    rw [recursive_iff_of_mem_visits hbuild hv, heq]
    exact hcycle g hbuild

/-! ### Functions that lose objects -/

/-- That an object of the function with this ID is not in its frame any more. -/
def MovedOut (p q : Program) (id : Nat) (o : StackObject) : Prop :=
  ∃ f, p.function? id = some f ∧ o ∈ f.frame.elems ∧ ∀ f', q.function? id = some f' → o ∉ f'.frame.elems

/-- A function out of which a run moves an object is on no cycle of direct calls. So it can only be active twice
by calls through pointers, and that is so exactly if direct calls lead from it to a function with such a call and
to it from a function whose address is taken. -/
theorem run_movedOut {statistics : PromotionStatistics} {o : StackObject}
    (hmoved : MovedOut p (run statistics p).program id o) :
    ∃ g, CallGraph.build p = .ok g ∧ ¬Relation.TransGen g.Calls id id ∧
      (p.functions.ids.Nodup → ¬Relation.TransGen p.Calls id id ∧
        (Relation.TransGen p.MayCall id id ↔
          ∃ a b, Relation.ReflTransGen p.Calls id a ∧ p.CallsPointers a ∧ p.HasTakenAddress b ∧
            Relation.ReflTransGen p.Calls b id)) := by
  obtain ⟨f, hf, ho, hgone⟩ := hmoved
  have hchanged : (run statistics p).program.function? id ≠ p.function? id :=
    fun hsame => hgone f (hsame.trans hf) ho
  have hcycle := mt (function?_run statistics) hchanged
  push Not at hcycle
  obtain ⟨g, hbuild, hacyclic⟩ := hcycle
  refine ⟨g, hbuild, hacyclic, fun hids => ?_⟩
  rw [(CallGraph.components_spec hids hbuild).1] at hacyclic
  exact ⟨hacyclic, Program.transGen_mayCall_iff.trans (or_iff_right hacyclic)⟩

/-- A stack object that holds one function pointer. -/
def handlerObject : StackObject :=
  { id := 1, name := "handler", type := some .functionPointer, size := 4, align := 4 }

/-- A function that calls through a pointer while its handler is on the stack. -/
def reentrantProgram (addressTaken : Bool) : Program :=
  let f := handlingFunction "f" [{ handlerObject with id := 0 }] [.callIndirect (.phys .r3), .ret]
  withFunction ((Program.new 4).toOption.getD { pointerSize := 4 }) { f with addressTaken }

theorem movedOut_reentrantProgram (addressTaken : Bool) :
    MovedOut (reentrantProgram addressTaken) (run {} (reentrantProgram addressTaken)).program 1 handlerObject := by
  have hframe : ((reentrantProgram addressTaken).function? 1).map (·.frame.elems) = some [handlerObject] := by
    cases addressTaken <;> rfl
  have hempty : ((run {} (reentrantProgram addressTaken)).program.function? 1).all (·.frame.elems.isEmpty) = true := by
    cases addressTaken <;> decide +kernel
  obtain ⟨f, hf, helems⟩ := Option.map_eq_some_iff.mp hframe
  refine ⟨f, hf, helems ▸ List.mem_singleton_self _, fun f' hf' hmem => ?_⟩
  rw [hf', Option.all_some, List.isEmpty_iff] at hempty
  rw [hempty] at hmem
  cases hmem

/-- The handler moves in any case, though with its address taken the function may call itself back. -/
theorem run_movedOut_reentrantProgram :
    (∀ addressTaken, MovedOut (reentrantProgram addressTaken)
      (run {} (reentrantProgram addressTaken)).program 1 handlerObject) ∧
      (∀ addressTaken, ¬Relation.TransGen (reentrantProgram addressTaken).Calls 1 1) ∧
      Relation.TransGen (reentrantProgram true).MayCall 1 1 ∧
      ¬Relation.TransGen (reentrantProgram false).MayCall 1 1 := by
  have hids : ∀ addressTaken, (reentrantProgram addressTaken).functions.ids.Nodup := by decide +kernel
  obtain ⟨_, -, -, hcalledBack⟩ := run_movedOut (movedOut_reentrantProgram true)
  obtain ⟨_, -, -, hnotCalledBack⟩ := run_movedOut (movedOut_reentrantProgram false)
  obtain ⟨hacyclic, hiff⟩ := hcalledBack (hids true)
  obtain ⟨hacyclic', hiff'⟩ := hnotCalledBack (hids false)
  refine ⟨movedOut_reentrantProgram, ?_, ?_, ?_⟩
  · rintro (_ | _)
    · exact hacyclic'
    · exact hacyclic
  · rw [hiff]
    exact ⟨1, 1, .refl, by decide +kernel, by decide +kernel, .refl⟩
  · rw [hiff']
    have hnone : ∀ f ∈ (reentrantProgram false).functions.elems, f.addressTaken = false := by decide +kernel
    rintro ⟨_, _, -, -, ⟨f, hf, -, htaken⟩, -⟩
    rw [hnone f hf] at htaken
    cases htaken

/-- Functions that lose objects may well be active twice. -/
theorem not_run_movedOut_acyclic :
    ¬∀ (statistics : PromotionStatistics) (p : Program) (id : Nat) (o : StackObject),
      MovedOut p (run statistics p).program id o → ¬Relation.TransGen p.MayCall id id := by
  intro hclaim
  have hmay : (reentrantProgram true).MayCall 1 1 := .inr ⟨by decide +kernel, by decide +kernel⟩
  exact hclaim {} (reentrantProgram true) 1 handlerObject (movedOut_reentrantProgram true) (.single hmay)

end Promotion
end ThumbHardening
