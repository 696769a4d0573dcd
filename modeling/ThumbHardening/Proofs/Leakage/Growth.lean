import ThumbHardening.Proofs.Leakage.Escape
import ThumbHardening.Proofs.ValueGraph

/-!
# Value graphs that grow

A program may get new values without a change to which addresses escape: the values there were keep what they
use, and all that comes to use one of them is of a kind that hands no address on.
-/

namespace ThumbHardening

/-- Uses that lead nowhere. -/
def ValueKind.Inert (kind : ValueKind) : Prop :=
  kind = .blockAddress ∨ ∃ id name, kind = .global id name ∧ isListName name = true

theorem ValueNode.effectOn_of_inert {n : ValueNode} (h : n.kind.Inert) (value : Nat) :
    n.effectOn value = .harmless := by
  rcases h with h | ⟨id, name, h, hlist⟩
  · simp [effectOn, h]
  · simp [effectOn, h, hlist]

namespace ValueGraph

/-- A graph to which values have been added that do no more with the ones in `base` than refer to them. -/
structure Grown (base g : ValueGraph) : Prop where
  size_le : base.size ≤ g.size
  node : ∀ value n, base.node? value = some n → ∃ n', g.node? value = some n' ∧ n'.kind = n.kind ∧
    (n.kind.Inert ∨ n'.operands = n.operands) ∧ (∀ user ∈ n.users, user ∈ n'.users) ∧
    ∀ user ∈ n'.users, user ∈ n.users ∨ ∃ m, g.node? user = some m ∧ m.kind.Inert

variable {base g : ValueGraph} {value user operand : Nat} {kind : ValueKind} {operands : List Nat}

theorem Grown.refl (g : ValueGraph) : Grown g g :=
  ⟨Nat.le_refl _, fun _ n h => ⟨n, h, rfl, .inr rfl, fun _ => id, fun _ => .inl⟩⟩

/-! ### Ways to grow -/

theorem Grown.push (h : Grown base g) (kind : ValueKind) :
    Grown base ⟨g.nodes.push { kind }⟩ := by
  have hkeep : ∀ {value n}, g.node? value = some n →
      node? ⟨g.nodes.push { kind }⟩ value = some n := by
    intro value n hn
    rw [node?_push, if_neg (Nat.ne_of_lt (lt_size_of_node? hn))]
    exact hn
  refine ⟨?_, fun value n hn => ?_⟩
  · exact Nat.le_trans h.size_le ((Nat.le_succ _).trans_eq (Array.size_push ..).symm)
  · obtain ⟨n', hn', hkind, hoperands, hold, hnew⟩ := h.node value n hn
    refine ⟨n', hkeep hn', hkind, hoperands, hold, fun user huser => ?_⟩
    refine (hnew user huser).imp_right fun hparts => ?_
    obtain ⟨m, hm, hinert⟩ := hparts
    exact ⟨m, hkeep hm, hinert⟩

/-- A new use between values, of which the user is inert or neither is in `base`. -/
theorem Grown.addOperand (h : Grown base g)
    (hnew : (∃ m, g.node? user = some m ∧ m.kind.Inert) ∨ (base.size ≤ user ∧ base.size ≤ operand)) :
    Grown base (g.addOperand user operand) := by
  have hinert : ∀ {other m}, g.node? other = some m → m.kind.Inert →
      ∃ m', (g.addOperand user operand).node? other = some m' ∧ m'.kind.Inert := by
    intro other m hm hinert
    have hkind := kind_addOperand g user operand other
    rw [hm] at hkind
    obtain ⟨m', hm', hkind⟩ := Option.map_eq_some_iff.mp hkind
    exact ⟨m', hm', hkind ▸ hinert⟩
  refine ⟨by simpa using h.size_le, fun value n hn => ?_⟩
  have hlt := lt_size_of_node? hn
  obtain ⟨n₁, hn₁, hkind, hoperands, hold, hothers⟩ := h.node value n hn
  obtain ⟨n₂, hn₂, hkind₂, hoperands₂, husers⟩ := node?_addOperand user operand hn₁
  refine ⟨n₂, hn₂, hkind₂.trans hkind, ?_, fun other hother => ?_, fun other hother => ?_⟩
  · by_cases huser : value = user
    · refine .inl ?_
      rcases hnew with ⟨m, hm, hm'⟩ | ⟨hle, -⟩
      · rw [← huser, hn₁] at hm
        cases hm
        rwa [hkind] at hm'
      · omega
    · exact hoperands.imp_right fun hoperands => (hoperands₂ huser).trans hoperands
  · exact (husers other).mpr (.inl (hold other hother))
  · rcases (husers other).mp hother with hother | ⟨rfl, rfl⟩
    · refine (hothers other hother).imp_right fun hparts => ?_
      obtain ⟨m, hm, hm'⟩ := hparts
      exact hinert hm hm'
    · rcases hnew with ⟨m, hm, hm'⟩ | ⟨-, hle⟩
      · exact .inr (hinert hm hm')
      · omega

theorem Grown.addOperands (h : Grown base g)
    (hnew : (∃ m, g.node? user = some m ∧ m.kind.Inert) ∨
      (base.size ≤ user ∧ ∀ operand ∈ operands, base.size ≤ operand)) :
    Grown base (g.addOperands user operands) := by
  induction operands generalizing g with
  | nil => exact h
  | cons operand rest ih =>
    have hfirst : (∃ m, g.node? user = some m ∧ m.kind.Inert) ∨
        (base.size ≤ user ∧ base.size ≤ operand) :=
      hnew.imp_right fun hle => ⟨hle.1, hle.2 operand List.mem_cons_self⟩
    refine ih (h.addOperand hfirst) (hnew.imp (fun hparts => ?_) fun hle => ?_)
    · obtain ⟨m, hm, hinert⟩ := hparts
      have hkind := kind_addOperand g user operand user
      rw [hm] at hkind
      obtain ⟨m', hm', hkind⟩ := Option.map_eq_some_iff.mp hkind
      exact ⟨m', hm', hkind ▸ hinert⟩
    · exact ⟨hle.1, fun operand hmem => hle.2 operand (List.mem_cons_of_mem _ hmem)⟩

/-- A new value that is inert or uses only new ones. -/
theorem Grown.add (h : Grown base g)
    (hnew : kind.Inert ∨ ∀ operand ∈ operands, base.size ≤ operand) :
    Grown base (g.add kind operands) := by
  refine (h.push kind).addOperands (hnew.imp (fun hinert => ?_) fun hle => ⟨h.size_le, hle⟩)
  exact ⟨{ kind }, by rw [node?_push, if_pos rfl], hinert⟩

/-! ### What escapes -/

theorem effectOf_of_node? {n : ValueNode} (h : g.node? user = some n) :
    g.effectOf value user = n.effectOn value := by
  rw [effectOf, h]

theorem mem_usersOf_iff : user ∈ g.usersOf value ↔ ∃ n, g.node? value = some n ∧ user ∈ n.users := by
  rw [usersOf]
  cases g.node? value <;> simp

/-- The values of `base` do with each other what they did. -/
theorem Grown.effectOf_eq (h : Grown base g) (huser : user < base.size) :
    g.effectOf value user = base.effectOf value user := by
  have hn : base.node? user = some base.nodes[user] := Array.getElem?_eq_getElem huser
  obtain ⟨n', hn', hkind, hoperands, -⟩ := h.node user _ hn
  rw [effectOf_of_node? hn, effectOf_of_node? hn']
  rcases hoperands with hinert | hoperands
  · rw [ValueNode.effectOn_of_inert hinert, ValueNode.effectOn_of_inert (hkind ▸ hinert)]
  · rw [ValueNode.effectOn, ValueNode.effectOn, hkind, hoperands]

/-- Uses that matter are uses in `base`. -/
theorem Grown.mem_usersOf_iff (h : Grown base g) (hclosed : base.Closed) (hvalue : value < base.size)
    (heffect : g.effectOf value user ≠ .harmless) :
    user ∈ g.usersOf value ↔ user ∈ base.usersOf value ∧ user < base.size := by
  have hn : base.node? value = some base.nodes[value] := Array.getElem?_eq_getElem hvalue
  obtain ⟨n', hn', -, -, hold, hnew⟩ := h.node value _ hn
  rw [ValueGraph.mem_usersOf_iff, ValueGraph.mem_usersOf_iff, hn, hn']
  simp only [Option.some.injEq, exists_eq_left']
  constructor
  · intro huser
    rcases hnew user huser with huser | ⟨m, hm, hinert⟩
    · exact ⟨huser, hclosed value _ hn user huser⟩
    · exact absurd ((effectOf_of_node? hm).trans (ValueNode.effectOn_of_inert hinert value)) heffect
  · exact fun hparts => hold user hparts.1

/-- The address of a value in `base` escapes exactly if it did before. -/
theorem Grown.escapes_iff (h : Grown base g) (hclosed : base.Closed) {start : Nat}
    (hstart : start < base.size) : g.Escapes start ↔ base.Escapes start := by
  -- New values that are not inert use new ones only, so no step leads from an old value to a new one.
  have hback : ∀ {value}, g.Carries start value → base.Carries start value ∧ value < base.size := by
    intro value hcarries
    induction hcarries with
    | refl => exact ⟨.refl, hstart⟩
    | step _ huser heffect ih =>
      obtain ⟨hmem, hlt⟩ := (h.mem_usersOf_iff hclosed ih.2 (by simp [heffect])).mp huser
      exact ⟨.step ih.1 hmem ((h.effectOf_eq hlt).symm.trans heffect), hlt⟩
  constructor
  · intro hescapes
    obtain ⟨value, hcarries, user, huser, heffect⟩ := hescapes
    obtain ⟨hcarries, hvalue⟩ := hback hcarries
    obtain ⟨hmem, hlt⟩ := (h.mem_usersOf_iff hclosed hvalue (by simp [heffect])).mp huser
    exact ⟨value, hcarries, user, hmem, (h.effectOf_eq hlt).symm.trans heffect⟩
  · have huse : ∀ {value user effect}, value < base.size → effect ≠ .harmless →
        user ∈ base.usersOf value → base.effectOf value user = effect →
        user ∈ g.usersOf value ∧ g.effectOf value user = effect ∧ user < base.size := by
      intro value user effect hvalue hne huser heffect
      obtain ⟨n, hn, hmem⟩ := ValueGraph.mem_usersOf_iff.mp huser
      have hlt := hclosed value n hn user hmem
      have heffect' := (h.effectOf_eq hlt).trans heffect
      exact ⟨(h.mem_usersOf_iff hclosed hvalue (heffect' ▸ hne)).mpr ⟨huser, hlt⟩, heffect', hlt⟩
    have hforth : ∀ {value}, base.Carries start value → g.Carries start value ∧ value < base.size := by
      intro value hcarries
      induction hcarries with
      | refl => exact ⟨.refl, hstart⟩
      | step _ huser heffect ih =>
        obtain ⟨hmem, heffect', hlt⟩ := huse ih.2 (by simp) huser heffect
        exact ⟨.step ih.1 hmem heffect', hlt⟩
    intro hescapes
    obtain ⟨value, hcarries, user, huser, heffect⟩ := hescapes
    obtain ⟨hcarries, hvalue⟩ := hforth hcarries
    obtain ⟨hmem, heffect', -⟩ := huse hvalue (by simp) huser heffect
    exact ⟨value, hcarries, user, hmem, heffect'⟩

end ValueGraph
end ThumbHardening
