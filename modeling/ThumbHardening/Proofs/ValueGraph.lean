import ThumbHardening.ValueGraph

/-!
# Value graphs

What the operations on a graph do to one value. No operation changes the kind of a value, and all of them
keep the graph closed: whatever uses a value is a value of the graph.
-/

namespace ThumbHardening
namespace ValueGraph

variable {g : ValueGraph} {user operand value : Nat} {kind : ValueKind} {operands : List Nat}

/-- The users of all values are values of the graph. -/
def Closed (g : ValueGraph) : Prop :=
  ∀ value n, g.node? value = some n → ∀ user ∈ n.users, user < g.size

/-! ### One value -/

theorem node?_push (g : ValueGraph) (n : ValueNode) (value : Nat) :
    node? ⟨g.nodes.push n⟩ value = if value = g.size then some n else g.node? value := by
  rw [node?, Array.getElem?_push]
  rfl

theorem lt_size_of_node? {n : ValueNode} (h : g.node? value = some n) : value < g.size :=
  (Array.getElem?_eq_some_iff.mp h).1

theorem exists_node? (h : value < g.size) : ∃ n, g.node? value = some n :=
  ⟨_, Array.getElem?_eq_getElem h⟩

@[simp] theorem size_addOperand (g : ValueGraph) (user operand : Nat) :
    (g.addOperand user operand).size = g.size := by
  simp [size, addOperand]

/-- A new operand changes what its user uses and who uses it, and nothing else. -/
theorem node?_addOperand {n : ValueNode} (user operand : Nat) (h : g.node? value = some n) :
    ∃ m, (g.addOperand user operand).node? value = some m ∧ m.kind = n.kind ∧
      (value ≠ user → m.operands = n.operands) ∧
      ∀ other, other ∈ m.users ↔ other ∈ n.users ∨ (value = operand ∧ other = user) := by
  obtain ⟨n₁, hn₁, hkind, hoperands, husers⟩ : ∃ n₁, (g.nodes.modify user fun n =>
      { n with operands := n.operands ++ [operand] })[value]? = some n₁ ∧ n₁.kind = n.kind ∧
      (value ≠ user → n₁.operands = n.operands) ∧ n₁.users = n.users := by
    rw [Array.getElem?_modify, show g.nodes[value]? = some n from h]
    split
    · next huser => exact ⟨_, rfl, rfl, fun hne => absurd huser.symm hne, rfl⟩
    · exact ⟨n, rfl, rfl, fun _ => rfl, rfl⟩
  rw [node?, addOperand, Array.getElem?_modify, hn₁]
  split
  · next hoperand =>
    refine ⟨n₁.addUser user, rfl, ?_⟩
    rw [ValueNode.addUser]
    split
    · next hold =>
      rw [husers, List.contains_iff_mem] at hold
      refine ⟨hkind, hoperands, fun other => ?_⟩
      rw [husers]
      exact ⟨.inl, fun hcase => hcase.elim id fun heq => heq.2 ▸ hold⟩
    · refine ⟨hkind, hoperands, fun other => ?_⟩
      rw [husers, List.mem_append, List.mem_singleton, and_iff_right hoperand.symm]
  · next hoperand =>
    refine ⟨n₁, rfl, hkind, hoperands, fun other => ?_⟩
    rw [husers, or_iff_left fun heq => hoperand heq.1.symm]

theorem kind_addOperand (g : ValueGraph) (user operand value : Nat) :
    ((g.addOperand user operand).node? value).map ValueNode.kind
      = (g.node? value).map ValueNode.kind := by
  cases hn : g.node? value with
  | none =>
    have hle : g.size ≤ value := Array.getElem?_eq_none_iff.mp hn
    rw [← size_addOperand g user operand] at hle
    rw [node?, Array.getElem?_eq_none_iff.mpr hle]
  | some n =>
    obtain ⟨m, hm, hkind, -⟩ := node?_addOperand user operand hn
    rw [hm, Option.map_some, Option.map_some, hkind]

theorem size_addOperands (g : ValueGraph) (user : Nat) (operands : List Nat) :
    (g.addOperands user operands).size = g.size := by
  induction operands generalizing g with
  | nil => rfl
  | cons operand rest ih => exact (ih _).trans (size_addOperand ..)

theorem kind_addOperands (g : ValueGraph) (user : Nat) (operands : List Nat) (value : Nat) :
    ((g.addOperands user operands).node? value).map ValueNode.kind
      = (g.node? value).map ValueNode.kind := by
  induction operands generalizing g with
  | nil => rfl
  | cons operand rest ih => exact (ih _).trans (kind_addOperand ..)

theorem size_add (g : ValueGraph) (kind : ValueKind) (operands : List Nat) :
    (g.add kind operands).size = g.size + 1 := by
  rw [add, size_addOperands]
  exact Array.size_push ..

/-- The values there were keep their kinds, and the new one has its own. -/
theorem kind_add (g : ValueGraph) (kind : ValueKind) (operands : List Nat) (value : Nat) :
    ((g.add kind operands).node? value).map ValueNode.kind
      = if value = g.size then some kind else (g.node? value).map ValueNode.kind := by
  rw [add, kind_addOperands, node?_push]
  split <;> rfl

/-- Taking the operands of a value away changes no other operands and no kind, and adds no user. -/
theorem node?_clearOperands {n : ValueNode} (h : (g.clearOperands user).node? value = some n) :
    ∃ m, g.node? value = some m ∧ n.kind = m.kind ∧ (value ≠ user → n.operands = m.operands) ∧
      ∀ other ∈ n.users, other ∈ m.users := by
  have hforget (old : List Nat) (nodes : Array ValueNode)
      (h : (old.foldl (fun nodes operand => nodes.modify operand fun n =>
        { n with users := n.users.filter (· ≠ user) }) nodes)[value]? = some n) :
      ∃ m, nodes[value]? = some m ∧ n.kind = m.kind ∧ n.operands = m.operands ∧
        ∀ other ∈ n.users, other ∈ m.users := by
    induction old generalizing nodes with
    | nil => exact ⟨n, h, rfl, rfl, fun _ => id⟩
    | cons operand rest ih =>
      obtain ⟨m, hm, hkind, hoperands, husers⟩ := ih _ h
      rw [Array.getElem?_modify] at hm
      split at hm
      · obtain ⟨m₀, hm₀, rfl⟩ := Option.map_eq_some_iff.mp hm
        exact ⟨m₀, hm₀, hkind, hoperands, fun other hother => (List.mem_filter.mp (husers other hother)).1⟩
      · exact ⟨m, hm, hkind, hoperands, husers⟩
  obtain ⟨m, hm, hkind, hoperands, husers⟩ := hforget _ _ h
  rw [Array.getElem?_modify] at hm
  split at hm
  · next hvalue =>
    obtain ⟨m₀, hm₀, rfl⟩ := Option.map_eq_some_iff.mp hm
    exact ⟨m₀, hm₀, hkind, fun hne => absurd hvalue.symm hne, husers⟩
  · exact ⟨m, hm, hkind, fun _ => hoperands, husers⟩

theorem size_clearOperands (g : ValueGraph) (user : Nat) : (g.clearOperands user).size = g.size := by
  have hforget (old : List Nat) (nodes : Array ValueNode) :
      (old.foldl (fun nodes operand => nodes.modify operand fun n =>
        { n with users := n.users.filter (· ≠ user) }) nodes).size = nodes.size := by
    induction old generalizing nodes with
    | nil => rfl
    | cons operand rest ih => exact (ih _).trans (Array.size_modify ..)
  exact (hforget _ _).trans (Array.size_modify ..)

theorem size_setOperands (g : ValueGraph) (user : Nat) (operands : List Nat) :
    (g.setOperands user operands).size = g.size := by
  rw [setOperands, size_addOperands, size_clearOperands]

theorem kind_setOperands {n : ValueNode} (h : (g.setOperands user operands).node? value = some n) :
    (g.node? value).map ValueNode.kind = some n.kind := by
  have hkind := congrArg (Option.map ValueNode.kind) h
  rw [setOperands, kind_addOperands] at hkind
  obtain ⟨m, hm, hm'⟩ := Option.map_eq_some_iff.mp hkind
  obtain ⟨m₀, hm₀, hkind₀, -⟩ := node?_clearOperands hm
  rw [hm₀, Option.map_some, ← hkind₀, hm']

/-! ### Operations that check their values -/

theorem add?_eq_some {g' : ValueGraph} (h : g.add? kind operands = some g') :
    (∀ operand ∈ operands, operand ≤ g.size) ∧ g' = g.add kind operands := by
  rw [add?] at h
  split at h
  · next hoperands =>
    cases h
    exact ⟨by simpa using hoperands, rfl⟩
  · cases h

theorem addOperand?_eq_some {g' : ValueGraph} (h : g.addOperand? user operand = some g') :
    user < g.size ∧ operand < g.size ∧ g' = g.addOperand user operand := by
  rw [addOperand?] at h
  split at h
  · next hhas =>
    cases h
    rw [Bool.and_eq_true] at hhas
    exact ⟨of_decide_eq_true hhas.1, of_decide_eq_true hhas.2, rfl⟩
  · cases h

theorem setOperands?_eq_some {g' : ValueGraph} (h : g.setOperands? user operands = some g') :
    user < g.size ∧ (∀ operand ∈ operands, operand < g.size) ∧ g' = g.setOperands user operands := by
  rw [setOperands?] at h
  split at h
  · next hhas =>
    cases h
    rw [Bool.and_eq_true, List.all_eq_true] at hhas
    exact ⟨of_decide_eq_true hhas.1, fun operand hmem => of_decide_eq_true (hhas.2 operand hmem), rfl⟩
  · cases h

/-! ### Closed graphs -/

theorem Closed.push (h : g.Closed) (kind : ValueKind) : Closed ⟨g.nodes.push { kind }⟩ := by
  intro value n hn other hother
  have hsize : size ⟨g.nodes.push { kind }⟩ = g.size + 1 := Array.size_push ..
  rw [node?_push] at hn
  rw [hsize]
  split at hn
  · cases hn
    cases hother
  · exact Nat.lt_succ_of_lt (h value n hn other hother)

theorem Closed.addOperand (h : g.Closed) (huser : user < g.size) (operand : Nat) :
    (g.addOperand user operand).Closed := by
  intro value m hm other hother
  have hlt := lt_size_of_node? hm
  rw [size_addOperand] at hlt ⊢
  obtain ⟨n, hn⟩ := exists_node? hlt
  obtain ⟨m', hm', -, -, husers⟩ := node?_addOperand user operand hn
  rw [hm] at hm'
  cases hm'
  rcases (husers other).mp hother with hother | ⟨-, rfl⟩
  · exact h value n hn other hother
  · exact huser

theorem Closed.addOperands (h : g.Closed) (huser : user < g.size) (operands : List Nat) :
    (g.addOperands user operands).Closed := by
  induction operands generalizing g with
  | nil => exact h
  | cons operand rest ih => exact ih (h.addOperand huser operand) (by simpa using huser)

theorem Closed.add (h : g.Closed) (kind : ValueKind) (operands : List Nat) :
    (g.add kind operands).Closed := by
  refine (h.push kind).addOperands ?_ operands
  exact Nat.lt_of_lt_of_eq (Nat.lt_succ_self _) (Array.size_push ..).symm

theorem Closed.setOperands (h : g.Closed) (huser : user < g.size) (operands : List Nat) :
    (g.setOperands user operands).Closed := by
  have hclear : (g.clearOperands user).Closed := by
    intro value n hn other hother
    obtain ⟨m, hm, -, -, husers⟩ := node?_clearOperands hn
    rw [size_clearOperands]
    exact h value m hm other (husers other hother)
  exact hclear.addOperands (by rwa [size_clearOperands]) operands

end ValueGraph
end ThumbHardening
