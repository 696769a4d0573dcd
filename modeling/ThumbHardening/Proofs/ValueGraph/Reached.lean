import ThumbHardening.Proofs.ValueGraph.Uses

/-!
# Value graphs built from nothing

Operands are a list in which a value may occur more than once, users a list in which it may not. Whatever
order a graph is built and rebuilt in, the two tell the same, and new operands for one value disturb nothing
about the others: not even the order in which they are listed as users.
-/

namespace ThumbHardening

theorem ValueNode.users_addUser (n : ValueNode) (user : Nat) :
    (n.addUser user).users = n.users ++ if user ∈ n.users then [] else [user] := by
  rw [ValueNode.addUser]
  by_cases huser : user ∈ n.users
  · rw [if_pos (List.contains_iff_mem.mpr huser), if_pos huser, List.append_nil]
  · rw [if_neg fun h => huser (List.contains_iff_mem.mp h), if_neg huser]

namespace ValueGraph

/-- The graphs that the checked operations make from the empty one. -/
inductive Reached : ValueGraph → Prop
  | empty : Reached {}
  | add {g g' : ValueGraph} (h : Reached g) (kind : ValueKind) (operands : List Nat)
      (hadd : g.add? kind operands = some g') : Reached g'
  | addOperand {g g' : ValueGraph} (h : Reached g) (user operand : Nat)
      (hadd : g.addOperand? user operand = some g') : Reached g'
  | setOperands {g g' : ValueGraph} (h : Reached g) (user : Nat) (operands : List Nat)
      (hset : g.setOperands? user operands = some g') : Reached g'

variable {g : ValueGraph} {user operand value : Nat} {operands : List Nat}

/-- No value is listed twice as a user of another. -/
def UsersDistinct (g : ValueGraph) : Prop :=
  ∀ value, (g.usersOf value).Nodup

/-! ### The list of users -/

/-- A user goes behind those there are, unless it is one of them. -/
theorem usersOf_addOperand (user : Nat) (hoperand : operand < g.size) (value : Nat) :
    (g.addOperand user operand).usersOf value
      = g.usersOf value ++ if value = operand ∧ user ∉ g.usersOf value then [user] else [] := by
  have hsame (value : Nat) : usersOf ⟨g.nodes.modify user fun n =>
      { n with operands := n.operands ++ [operand] }⟩ value = g.usersOf value := by
    rw [usersOf, usersOf, node?, node?, Array.getElem?_modify]
    split
    · rw [Option.map_map]
      rfl
    · rfl
  rw [addOperand, ← hsame value]
  generalize hnodes : (g.nodes.modify user fun n => { n with operands := n.operands ++ [operand] }) = nodes
  have hlt : operand < nodes.size := by rwa [← hnodes, Array.size_modify]
  rw [usersOf, usersOf, node?, node?, Array.getElem?_modify]
  by_cases hvalue : value = operand
  · subst hvalue
    rw [if_pos rfl, Array.getElem?_eq_getElem hlt]
    simp only [Option.map_some, Option.getD_some, ValueNode.users_addUser, true_and]
    split <;> simp_all
  · rw [if_neg (Ne.symm hvalue), if_neg fun h => hvalue h.1, List.append_nil]

theorem usersOf_addOperands (user : Nat) (hoperands : ∀ operand ∈ operands, operand < g.size) (value : Nat) :
    (g.addOperands user operands).usersOf value
      = g.usersOf value ++ if value ∈ operands ∧ user ∉ g.usersOf value then [user] else [] := by
  induction operands generalizing g with
  | nil => simp [addOperands]
  | cons operand rest ih =>
    obtain ⟨hfirst, hrest⟩ := List.forall_mem_cons.mp hoperands
    have hafter := ih (g := g.addOperand user operand) fun operand hmem => by
      rw [size_addOperand]
      exact hrest operand hmem
    rw [usersOf_addOperand user hfirst] at hafter
    refine hafter.trans ?_
    by_cases huser : user ∈ g.usersOf value
    · simp [huser]
    · by_cases hvalue : value = operand <;> simp [huser, hvalue]

/-- Other operands for a value: it moves behind the other users of what it uses now, which keep their order. -/
theorem usersOf_setOperands (h : g.Mirrored) (user : Nat) (hoperands : ∀ operand ∈ operands, operand < g.size)
    (value : Nat) :
    (g.setOperands user operands).usersOf value
      = (g.usersOf value).filter (· ≠ user) ++ if value ∈ operands then [user] else [] := by
  have hclear : (g.clearOperands user).usersOf value = (g.usersOf value).filter (· ≠ user) := by
    rw [usersOf_clearOperands]
    split
    · rfl
    · next hvalue =>
      -- who is no operand of the value does not have it as a user
      have habsent : user ∉ g.usersOf value := fun huser => hvalue ((h value user).mp huser)
      refine (List.filter_eq_self.mpr fun other hother => ?_).symm
      exact decide_eq_true (ne_of_mem_of_not_mem hother habsent)
  have habsent : user ∉ (g.usersOf value).filter (· ≠ user) := fun huser =>
    of_decide_eq_true (List.mem_filter.mp huser).2 rfl
  rw [setOperands, usersOf_addOperands user (by simpa only [size_clearOperands] using hoperands), hclear]
  simp only [habsent, not_false_eq_true, and_true]

/-! ### What every operation keeps -/

theorem UsersDistinct.addOperands (h : g.UsersDistinct) (user : Nat)
    (hoperands : ∀ operand ∈ operands, operand < g.size) : (g.addOperands user operands).UsersDistinct := by
  intro value
  rw [usersOf_addOperands user hoperands]
  split
  · next hnew => exact (h value).append (List.nodup_singleton _) (by simpa using hnew.2)
  · rw [List.append_nil]
    exact h value

theorem UsersDistinct.add (h : g.UsersDistinct) (kind : ValueKind)
    (hoperands : ∀ operand ∈ operands, operand ≤ g.size) : (g.add kind operands).UsersDistinct := by
  refine addOperands (fun value => ?_) g.size fun operand hmem => ?_
  · rw [usersOf_push]
    exact h value
  · exact (Nat.lt_succ_of_le (hoperands operand hmem)).trans_eq (Array.size_push ..).symm

theorem UsersDistinct.setOperands (h : g.UsersDistinct) (user : Nat)
    (hoperands : ∀ operand ∈ operands, operand < g.size) : (g.setOperands user operands).UsersDistinct := by
  refine addOperands (fun value => ?_) user (by simpa only [size_clearOperands] using hoperands)
  rw [usersOf_clearOperands]
  split
  · exact (h value).filter _
  · exact h value

theorem Reached.sound (h : Reached g) : g.Mirrored ∧ g.UsersDistinct := by
  induction h with
  | empty => exact ⟨fun value user => by simp [usersOf, operandsOf, node?], fun value => by simp [usersOf, node?]⟩
  | add _ kind operands hadd ih =>
    obtain ⟨hoperands, rfl⟩ := add?_eq_some hadd
    exact ⟨ih.1.add kind hoperands, ih.2.add kind hoperands⟩
  | addOperand _ user operand hadd ih =>
    obtain ⟨huser, hoperand, rfl⟩ := addOperand?_eq_some hadd
    have hnew : ∀ new ∈ [operand], new < _ := List.forall_mem_singleton.mpr hoperand
    exact ⟨ih.1.addOperand huser hoperand, ih.2.addOperands user hnew⟩
  | setOperands _ user operands hset ih =>
    obtain ⟨huser, hoperands, rfl⟩ := setOperands?_eq_some hset
    exact ⟨ih.1.setOperands huser hoperands, ih.2.setOperands user hoperands⟩

theorem setOperands?_eq (huser : user < g.size) (hoperands : ∀ operand ∈ operands, operand < g.size) :
    g.setOperands? user operands = some (g.setOperands user operands) := by
  rw [setOperands?, if_pos]
  rw [Bool.and_eq_true, List.all_eq_true]
  exact ⟨decide_eq_true huser, fun operand hmem => decide_eq_true (hoperands operand hmem)⟩

/-! ### Uses from both ends -/

/-- In every graph that is built from nothing the users of a value are, each once, those that have it as an
operand, and setting the operands of one value changes its own list and its own place among the users. -/
theorem reached_mirrored_and_setOperands_exact (h : Reached g) :
    (∀ value user, user ∈ g.usersOf value ↔ value ∈ g.operandsOf user) ∧
    (∀ value, (g.usersOf value).Nodup) ∧
    ∀ user operands, user < g.size → (∀ operand ∈ operands, operand < g.size) →
      ∃ g', g.setOperands? user operands = some g' ∧
        (∀ value, g'.operandsOf value = if value = user then operands else g.operandsOf value) ∧
        ∀ value, g'.usersOf value
          = (g.usersOf value).filter (· ≠ user) ++ if value ∈ operands then [user] else [] := by
  obtain ⟨hmirrored, hdistinct⟩ := h.sound
  refine ⟨hmirrored, hdistinct, fun user operands huser hoperands => ?_⟩
  exact ⟨_, setOperands?_eq huser hoperands, operandsOf_setOperands huser operands,
    usersOf_setOperands hmirrored user hoperands⟩

/-- A call that also has itself among its operands, and another user of what it calls. -/
def selfUse : ValueGraph where
  nodes := #[
    { kind := .function 1, users := [1, 2] },
    { kind := .call, operands := [0, 1, 0, 1], users := [1] },
    { kind := .cast, operands := [0] }]

theorem selfUse_mirrored_and_setOperands_exact :
    Reached selfUse ∧ (selfUse.usersOf 0).Nodup ∧ (1 ∈ selfUse.usersOf 1 ↔ 1 ∈ selfUse.operandsOf 1) ∧
    ∃ g', selfUse.setOperands? 1 [1, 2, 0, 2] = some g' ∧ g'.operandsOf 1 = [1, 2, 0, 2] ∧
      g'.operandsOf 2 = [0] ∧ g'.usersOf 0 = [2, 1] ∧ g'.usersOf 1 = [1] ∧ g'.usersOf 2 = [1] := by
  have hfunction : Reached (add {} (.function 1) []) := Reached.empty.add (.function 1) [] rfl
  have hcall : Reached (add (add {} (.function 1) []) .call [0, 1, 0, 1]) := hfunction.add .call [0, 1, 0, 1] rfl
  have hreached : Reached selfUse := hcall.add .cast [0] (by decide)
  obtain ⟨hmirrored, hdistinct, hset⟩ := reached_mirrored_and_setOperands_exact hreached
  obtain ⟨g', hg', hoperands, husers⟩ := hset 1 [1, 2, 0, 2] (by decide) (by decide)
  exact ⟨hreached, hdistinct 0, hmirrored 1 1, g', hg', hoperands 1, hoperands 2, husers 0, husers 1, husers 2⟩

end ValueGraph
end ThumbHardening
