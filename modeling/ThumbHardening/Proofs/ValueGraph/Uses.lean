import ThumbHardening.Proofs.Leakage.Growth

/-!
# Uses from both ends

A value lists what it uses and what uses it. Here is what each operation on a graph does to both lists, and
that the two keep telling the same: a value is among the users of another exactly if it has the other among
its operands.
-/

namespace ThumbHardening
namespace ValueGraph

variable {g : ValueGraph} {user operand value other : Nat} {kind : ValueKind} {operands : List Nat}

/-- What a value uses; nothing if there is no such value. -/
def operandsOf (g : ValueGraph) (value : Nat) : List Nat :=
  ((g.node? value).map ValueNode.operands).getD []

/-- The users of every value are those that have it as an operand. -/
def Mirrored (g : ValueGraph) : Prop :=
  ∀ value user, user ∈ g.usersOf value ↔ value ∈ g.operandsOf user

theorem operandsOf_of_node? {n : ValueNode} (h : g.node? value = some n) : g.operandsOf value = n.operands := by
  rw [operandsOf, h, Option.map_some, Option.getD_some]

theorem usersOf_of_node? {n : ValueNode} (h : g.node? value = some n) : g.usersOf value = n.users := by
  rw [usersOf, h, Option.map_some, Option.getD_some]

theorem operandsOf_eq_nil (h : g.node? value = none) : g.operandsOf value = [] := by
  rw [operandsOf, h, Option.map_none, Option.getD_none]

theorem usersOf_eq_nil (h : g.node? value = none) : g.usersOf value = [] := by
  rw [usersOf, h, Option.map_none, Option.getD_none]

theorem node?_eq_none (h : g.size ≤ value) : g.node? value = none :=
  Array.getElem?_eq_none h

theorem lt_size_of_mem_usersOf (h : user ∈ g.usersOf value) : value < g.size := by
  obtain ⟨n, hn, -⟩ := mem_usersOf_iff.mp h
  exact lt_size_of_node? hn

/-! ### A new value -/

theorem operandsOf_push (g : ValueGraph) (kind : ValueKind) (value : Nat) :
    operandsOf ⟨g.nodes.push { kind }⟩ value = g.operandsOf value := by
  rw [operandsOf, node?_push]
  split
  · next hvalue => rw [operandsOf_eq_nil (node?_eq_none hvalue.ge), Option.map_some, Option.getD_some]
  · rfl

theorem usersOf_push (g : ValueGraph) (kind : ValueKind) (value : Nat) :
    usersOf ⟨g.nodes.push { kind }⟩ value = g.usersOf value := by
  rw [usersOf, node?_push]
  split
  · next hvalue => rw [usersOf_eq_nil (node?_eq_none hvalue.ge), Option.map_some, Option.getD_some]
  · rfl

theorem Mirrored.push (h : g.Mirrored) (kind : ValueKind) : Mirrored ⟨g.nodes.push { kind }⟩ := by
  intro value user
  rw [usersOf_push, operandsOf_push]
  exact h value user

/-! ### A new operand -/

theorem operandsOf_addOperand (huser : user < g.size) (operand value : Nat) :
    (g.addOperand user operand).operandsOf value
      = if value = user then g.operandsOf value ++ [operand] else g.operandsOf value := by
  have hsame (nodes : Array ValueNode) :
      operandsOf ⟨nodes.modify operand (·.addUser user)⟩ value = operandsOf ⟨nodes⟩ value := by
    rw [operandsOf, operandsOf, node?, node?, Array.getElem?_modify]
    split
    · cases nodes[value]? with
      | none => rfl
      | some n =>
        simp only [Option.map_some, ValueNode.addUser]
        split <;> rfl
    · rfl
  rw [addOperand, hsame, operandsOf, node?, Array.getElem?_modify]
  split
  · next hvalue =>
    subst hvalue
    obtain ⟨n, hn⟩ := exists_node? huser
    rw [if_pos rfl, show g.nodes[user]? = some n from hn, operandsOf_of_node? hn]
    rfl
  · next hvalue => rw [if_neg fun heq => hvalue heq.symm]; rfl

theorem mem_usersOf_addOperand (hoperand : operand < g.size) :
    other ∈ (g.addOperand user operand).usersOf value
      ↔ other ∈ g.usersOf value ∨ (value = operand ∧ other = user) := by
  by_cases hvalue : value < g.size
  · obtain ⟨n, hn⟩ := exists_node? hvalue
    obtain ⟨m, hm, -, -, husers⟩ := node?_addOperand user operand hn
    rw [usersOf_of_node? hn, usersOf_of_node? hm, husers]
  · constructor
    · intro hmem
      have hlt := lt_size_of_mem_usersOf hmem
      rw [size_addOperand] at hlt
      exact absurd hlt hvalue
    · rintro (hmem | ⟨rfl, -⟩)
      · exact absurd (lt_size_of_mem_usersOf hmem) hvalue
      · exact absurd hoperand hvalue

theorem Mirrored.addOperand (h : g.Mirrored) (huser : user < g.size) (hoperand : operand < g.size) :
    (g.addOperand user operand).Mirrored := by
  intro value other
  rw [mem_usersOf_addOperand hoperand, operandsOf_addOperand huser, h value other]
  by_cases hother : other = user
  · rw [if_pos hother, List.mem_append, List.mem_singleton, and_iff_left hother]
  · rw [if_neg hother, or_iff_left fun heq => hother heq.2]

theorem operandsOf_addOperands (huser : user < g.size) (operands : List Nat) (value : Nat) :
    (g.addOperands user operands).operandsOf value
      = if value = user then g.operandsOf value ++ operands else g.operandsOf value := by
  induction operands generalizing g with
  | nil => simp [addOperands]
  | cons operand rest ih =>
    have hrest := ih (g := g.addOperand user operand) (by rwa [size_addOperand])
    rw [operandsOf_addOperand huser] at hrest
    refine hrest.trans ?_
    split
    · rw [List.append_assoc, List.singleton_append]
    · rfl

theorem Mirrored.addOperands (h : g.Mirrored) (huser : user < g.size)
    (hoperands : ∀ operand ∈ operands, operand < g.size) : (g.addOperands user operands).Mirrored := by
  induction operands generalizing g with
  | nil => exact h
  | cons operand rest ih =>
    obtain ⟨hfirst, hrest⟩ := List.forall_mem_cons.mp hoperands
    refine ih (h.addOperand huser hfirst) (by rwa [size_addOperand]) fun operand hmem => ?_
    rw [size_addOperand]
    exact hrest operand hmem

theorem operandsOf_add (g : ValueGraph) (kind : ValueKind) (operands : List Nat) (value : Nat) :
    (g.add kind operands).operandsOf value = if value = g.size then operands else g.operandsOf value := by
  have hnew : g.size < size ⟨g.nodes.push { kind }⟩ := by simp [size]
  rw [add, operandsOf_addOperands hnew, operandsOf_push]
  split
  · next hvalue => rw [operandsOf_eq_nil (node?_eq_none hvalue.ge), List.nil_append]
  · rfl

theorem Mirrored.add (h : g.Mirrored) (kind : ValueKind) (hoperands : ∀ operand ∈ operands, operand ≤ g.size) :
    (g.add kind operands).Mirrored := by
  have hsize : size ⟨g.nodes.push { kind }⟩ = g.size + 1 := Array.size_push ..
  refine (h.push kind).addOperands ?_ fun operand hmem => ?_
  · rw [hsize]
    exact Nat.lt_succ_self _
  · rw [hsize]
    exact Nat.lt_succ_of_le (hoperands operand hmem)

/-! ### Other operands -/

/-- Without its operands a value is no user of any of them any more. -/
theorem node?_clearOperands_eq (g : ValueGraph) (user value : Nat) :
    (g.clearOperands user).node? value = (g.node? value).map fun n =>
      { n with
        operands := if value = user then [] else n.operands
        users := if value ∈ g.operandsOf user then n.users.filter (· ≠ user) else n.users } := by
  have hforget (old : List Nat) (nodes : Array ValueNode) :
      (old.foldl (fun nodes operand => nodes.modify operand fun n =>
        { n with users := n.users.filter (· ≠ user) }) nodes)[value]?
      = nodes[value]?.map fun n =>
        { n with users := if value ∈ old then n.users.filter (· ≠ user) else n.users } := by
    induction old generalizing nodes with
    | nil => simp
    | cons operand rest ih =>
      rw [List.foldl_cons, ih, Array.getElem?_modify]
      cases nodes[value]? with
      | none => simp
      | some n =>
        by_cases hfirst : value = operand
        · simp [hfirst]
        · simp [hfirst, Ne.symm hfirst]
  rw [node?, clearOperands, hforget, Array.getElem?_modify]
  change _ = g.nodes[value]?.map _
  rw [← operandsOf]
  cases hn : g.nodes[value]? with
  | none => simp
  | some n =>
    by_cases hvalue : value = user
    · simp [hvalue]
    · simp [hvalue, Ne.symm hvalue]

theorem operandsOf_clearOperands (g : ValueGraph) (user value : Nat) :
    (g.clearOperands user).operandsOf value = if value = user then [] else g.operandsOf value := by
  have hnode := node?_clearOperands_eq g user value
  cases hn : g.node? value with
  | none =>
    rw [hn] at hnode
    rw [operandsOf_eq_nil hnode, operandsOf_eq_nil hn, ite_self]
  | some n =>
    rw [hn] at hnode
    rw [operandsOf_of_node? hnode, operandsOf_of_node? hn]

theorem usersOf_clearOperands (g : ValueGraph) (user value : Nat) :
    (g.clearOperands user).usersOf value
      = if value ∈ g.operandsOf user then (g.usersOf value).filter (· ≠ user) else g.usersOf value := by
  have hnode := node?_clearOperands_eq g user value
  cases hn : g.node? value with
  | none =>
    rw [hn] at hnode
    rw [usersOf_eq_nil hnode, usersOf_eq_nil hn, List.filter_nil, ite_self]
  | some n =>
    rw [hn] at hnode
    rw [usersOf_of_node? hnode, usersOf_of_node? hn]

theorem Mirrored.clearOperands (h : g.Mirrored) (user : Nat) : (g.clearOperands user).Mirrored := by
  intro value other
  rw [usersOf_clearOperands, operandsOf_clearOperands]
  by_cases hother : other = user
  · subst hother
    rw [if_pos rfl]
    by_cases hvalue : value ∈ g.operandsOf other
    · simp [hvalue]
    · rw [if_neg hvalue, h value other]
      simp [hvalue]
  · rw [if_neg hother, ← h value other]
    split <;> simp [hother]

theorem operandsOf_setOperands (huser : user < g.size) (operands : List Nat) (value : Nat) :
    (g.setOperands user operands).operandsOf value
      = if value = user then operands else g.operandsOf value := by
  rw [setOperands, operandsOf_addOperands (by rwa [size_clearOperands]), operandsOf_clearOperands]
  split <;> rfl

theorem Mirrored.setOperands (h : g.Mirrored) (huser : user < g.size)
    (hoperands : ∀ operand ∈ operands, operand < g.size) : (g.setOperands user operands).Mirrored := by
  refine (h.clearOperands user).addOperands (by rwa [size_clearOperands]) fun operand hmem => ?_
  rw [size_clearOperands]
  exact hoperands operand hmem

end ValueGraph
end ThumbHardening
