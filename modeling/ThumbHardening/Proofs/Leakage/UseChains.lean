import ThumbHardening.Proofs.Leakage.Growth
import Mathlib.Data.List.Chain

/-!
# Chains of uses

What the walk along the uses of an address looks for, said without the walk: a chain of uses from the address
to one that puts it into memory, by way of values that have the address of what they use. The walk always
gets to its end, also on a graph with cycles, and finds the same whatever the order of the users.
-/

namespace ThumbHardening

/-- Kinds of values that have the address of what they use. -/
def ValueKind.Carrier : ValueKind → Prop
  | .phi | .aliased _ | .function _ | .constant | .cast | .select | .constantExpr false => True
  | _ => False

/-- A node that puts a value it uses into memory: a store, a global object that is no list kept by the program,
or a call that has the value as an argument and not only as its callee. -/
def ValueNode.PutsIntoMemory (n : ValueNode) (value : Nat) : Prop :=
  n.kind = .store ∨
    (∃ id name, n.kind = .global id name ∧ name ≠ usedList ∧ name ≠ compilerUsedList) ∨
    (n.kind = .call ∧ value ∈ n.operands.tail)

theorem ValueNode.effectOn_eq_handsOn_iff {n : ValueNode} {value : Nat} :
    n.effectOn value = .handsOn ↔ n.kind.Carrier := by
  rw [effectOn, ValueKind.Carrier.eq_def]
  cases n.kind with
  | constantExpr compare => cases compare <;> simp
  | global id name => cases hlist : isListName name <;> simp [hlist]
  | call => cases (n.operands.drop 1).contains value <;> simp
  | _ => simp

theorem ValueNode.effectOn_eq_escapes_iff {n : ValueNode} {value : Nat} :
    n.effectOn value = .escapes ↔ n.PutsIntoMemory value := by
  rw [effectOn, PutsIntoMemory]
  cases n.kind with
  | constantExpr compare => cases compare <;> simp
  | global id name =>
    have hlist : isListName name = true ↔ name = usedList ∨ name = compilerUsedList := by
      simp [isListName]
    by_cases hname : name = usedList ∨ name = compilerUsedList
    · simp [hlist.mpr hname, hname, imp_iff_not_or, or_comm]
    · simp [hlist, not_or.mp hname]
  | call => by_cases hmem : value ∈ n.operands.tail <;> simp [hmem]
  | _ => simp

namespace ValueGraph

variable {g g' : ValueGraph} {start value user : Nat}

/-- A chain of uses from `start` through the values `between` to `last`, which puts what it uses into memory. -/
structure EscapeChain (g : ValueGraph) (start : Nat) (between : List Nat) (last : Nat) : Prop where
  uses : (start :: between ++ [last]).IsChain fun value user => user ∈ g.usersOf value
  carriers : ∀ value ∈ between, ∃ n, g.node? value = some n ∧ n.kind.Carrier
  memory : ∃ n, g.node? last = some n ∧ n.PutsIntoMemory (between.getLastD start)

theorem effectOf_eq_handsOn_iff :
    g.effectOf value user = .handsOn ↔ ∃ n, g.node? user = some n ∧ n.kind.Carrier := by
  rw [effectOf]
  cases g.node? user with
  | none => simp
  | some n => simp [ValueNode.effectOn_eq_handsOn_iff]

theorem effectOf_eq_escapes_iff :
    g.effectOf value user = .escapes ↔ ∃ n, g.node? user = some n ∧ n.PutsIntoMemory value := by
  rw [effectOf]
  cases g.node? user with
  | none => simp
  | some n => simp [ValueNode.effectOn_eq_escapes_iff]

/-- A chain with one more link. -/
theorem isChain_concat_iff {R : Nat → Nat → Prop} {between : List Nat} {last : Nat} :
    (start :: between ++ [last]).IsChain R
      ↔ (start :: between).IsChain R ∧ R (between.getLastD start) last := by
  rw [List.isChain_append]
  simp [List.getLast?_cons, List.getLastD_eq_getLast?]

/-- The values that hold an address are the ends of chains of carriers. -/
theorem carries_iff_exists_chain :
    g.Carries start value ↔ ∃ between : List Nat,
      ((start :: between).IsChain fun value user => user ∈ g.usersOf value) ∧
        (∀ value ∈ between, ∃ n, g.node? value = some n ∧ n.kind.Carrier) ∧
        between.getLastD start = value := by
  constructor
  · intro hcarries
    induction hcarries with
    | refl => exact ⟨[], .singleton _, by simp, rfl⟩
    | @step value user _ huser heffect ih =>
      obtain ⟨between, hchain, hcarriers, hlast⟩ := ih
      refine ⟨between ++ [user], isChain_concat_iff.mpr ⟨hchain, hlast ▸ huser⟩, ?_, by simp⟩
      rw [List.forall_mem_append]
      exact ⟨hcarriers, List.forall_mem_singleton.mpr (effectOf_eq_handsOn_iff.mp heffect)⟩
  · intro hparts
    obtain ⟨between, hchain, hcarriers, rfl⟩ := hparts
    induction between using List.reverseRecOn with
    | nil => exact .refl
    | append_singleton front user ih =>
      obtain ⟨hfront, huser⟩ := isChain_concat_iff.mp hchain
      obtain ⟨hcarriers, hcarrier⟩ := List.forall_mem_append.mp hcarriers
      rw [List.getLastD_concat]
      refine .step (ih hfront hcarriers) huser ?_
      exact effectOf_eq_handsOn_iff.mpr (hcarrier user (List.mem_singleton_self user))

/-- An address escapes exactly if some chain of uses puts it into memory. -/
theorem escapes_iff_exists_chain :
    g.Escapes start ↔ ∃ between last, g.EscapeChain start between last := by
  constructor
  · intro hescapes
    obtain ⟨value, hcarries, last, huser, heffect⟩ := hescapes
    obtain ⟨between, hchain, hcarriers, rfl⟩ := carries_iff_exists_chain.mp hcarries
    exact ⟨between, last, isChain_concat_iff.mpr ⟨hchain, huser⟩, hcarriers,
      effectOf_eq_escapes_iff.mp heffect⟩
  · intro hparts
    obtain ⟨between, last, huses, hcarriers, hmemory⟩ := hparts
    obtain ⟨hchain, huser⟩ := isChain_concat_iff.mp huses
    exact ⟨_, carries_iff_exists_chain.mpr ⟨between, hchain, hcarriers, rfl⟩, last, huser,
      effectOf_eq_escapes_iff.mpr hmemory⟩

/-! ### The order of users -/

/-- A graph with the same nodes, the users of which may stand in another order. -/
structure Reordered (g g' : ValueGraph) : Prop where
  size : g'.size = g.size
  node : ∀ value n, g.node? value = some n →
    ∃ users, users.Perm n.users ∧ g'.node? value = some { n with users }

theorem Reordered.node?_eq_none (h : g.Reordered g') (hn : g.node? value = none) :
    g'.node? value = none := by
  have hsize : g.size ≤ value := Array.getElem?_eq_none_iff.mp hn
  rw [← h.size] at hsize
  exact Array.getElem?_eq_none hsize

theorem Reordered.mem_usersOf_iff (h : g.Reordered g') :
    user ∈ g'.usersOf value ↔ user ∈ g.usersOf value := by
  rw [usersOf, usersOf]
  cases hn : g.node? value with
  | none => rw [h.node?_eq_none hn]
  | some n =>
    obtain ⟨users, hperm, hn'⟩ := h.node value n hn
    rw [hn']
    exact hperm.mem_iff

theorem Reordered.effectOf_eq (h : g.Reordered g') (value user : Nat) :
    g'.effectOf value user = g.effectOf value user := by
  rw [effectOf, effectOf]
  cases hn : g.node? user with
  | none => rw [h.node?_eq_none hn]
  | some n =>
    obtain ⟨users, -, hn'⟩ := h.node user n hn
    rw [hn']
    rfl

theorem Reordered.escapes_iff (h : g.Reordered g') : g'.Escapes start ↔ g.Escapes start := by
  have hcarries : ∀ value, g'.Carries start value ↔ g.Carries start value := by
    intro value
    constructor
    · intro hvalue
      induction hvalue with
      | refl => exact .refl
      | step _ huser heffect ih =>
        exact .step ih (h.mem_usersOf_iff.mp huser) (h.effectOf_eq _ _ ▸ heffect)
    · intro hvalue
      induction hvalue with
      | refl => exact .refl
      | step _ huser heffect ih =>
        exact .step ih (h.mem_usersOf_iff.mpr huser) ((h.effectOf_eq _ _).trans heffect)
  simp only [Escapes, LetsEscape, hcarries, h.mem_usersOf_iff, h.effectOf_eq]

/-- The graph with the users of one value the other way round. -/
def reverseUsers (g : ValueGraph) (value : Nat) : ValueGraph :=
  ⟨g.nodes.modify value fun n => { n with users := n.users.reverse }⟩

theorem reordered_reverseUsers (g : ValueGraph) (value : Nat) : g.Reordered (g.reverseUsers value) where
  size := Array.size_modify ..
  node := by
    intro other n hn
    rw [node?, reverseUsers, Array.getElem?_modify, show g.nodes[other]? = some n from hn]
    split
    · exact ⟨n.users.reverse, List.reverse_perm _, rfl⟩
    · exact ⟨n.users, .refl _, rfl⟩

end ValueGraph

/-! ### The end of the walk -/

namespace EscapeWalk

variable {g : ValueGraph} {start limit taken : Nat} {w : EscapeWalk}

/-- A walk that is over: the address was found to escape, or the users of all values that hold it have been
looked at. -/
def Ended (result : EscapeWalk × Bool) : Prop :=
  result.2 = true ∨ result.1.pending = []

/-- With a limit beyond the number of values, it is not the limit that ends a walk. -/
theorem ended_run (h : Sound g start taken w) (hlimit : g.size + 1 ≤ limit + taken) :
    Ended (run g limit w) := by
  induction limit generalizing w taken with
  | zero =>
    have hlength := h.length_le
    have htaken := h.taken_eq
    have hpending : w.pending = [] := List.length_eq_zero_iff.mp (by omega)
    exact .inr hpending
  | succ limit ih =>
    rw [run]
    split
    · next hpending => exact .inr hpending
    · next value rest hpending =>
      have husers : ((g.node? value).map ValueNode.users).getD [] = g.usersOf value := rfl
      cases hscan : scan g value (g.usersOf value) { w with pending := rest } with
      | mk w' found =>
        simp only [husers, hscan]
        cases found with
        | true => exact .inl rfl
        | false => exact ih (h.scan hpending hscan) (by omega)

end EscapeWalk

namespace Program

/-- The address of a function can get into memory exactly if the function is marked as used other than by calls
and a chain of uses from its value leads there. The walk that finds this out always comes to its end, and
the order of the users of a value makes no difference. -/
theorem addressEscapes_iff_exists_chain (p : Program) (f : Function) :
    (p.addressEscapes f = true ↔ f.addressTaken = true ∧
      ∃ value, p.valueOf? (.function f.id) = some value ∧
        ∃ between last, p.values.EscapeChain value between last) ∧
    EscapeWalk.Ended (p.escapeWalk f) ∧
    ∀ values, p.values.Reordered values →
      ({ p with values } : Program).addressEscapes f = p.addressEscapes f := by
  refine ⟨?_, ?_, fun values hvalues => ?_⟩
  · simp only [addressEscapes_iff, ValueGraph.escapes_iff_exists_chain]
  · rw [escapeWalk]
    split
    · exact EscapeWalk.ended_run (EscapeWalk.sound_start ..) (by omega)
    · exact .inr rfl
  · rw [Bool.eq_iff_iff, addressEscapes_iff, addressEscapes_iff]
    simp only [valueOf?, hvalues.escapes_iff]

/-- A function whose address goes through a value that uses itself and then to a call of the function: as the
callee it is harmless there, as an argument it is not. -/
def selfCallProgram : Program :=
  { functions := { elems := [{ id := 1, name := "handler", addressTaken := true }], next := 2 }
    values := ⟨#[
      { kind := .global none usedList }, { kind := .global none compilerUsedList },
      { kind := .function 1, users := [3, 5] }, { kind := .phi, operands := [2, 3], users := [3, 4] },
      { kind := .select, operands := [3], users := [5] }, { kind := .call, operands := [2, 4] }]⟩
    bindings := [(.function 1, 2)], pointerSize := 4 }

theorem addressEscapes_iff_exists_chain_selfCall :
    selfCallProgram.values.EscapeChain 2 [3, 4] 5 ∧
    ∀ f ∈ selfCallProgram.functions.elems, selfCallProgram.addressEscapes f = true ∧
      ({ selfCallProgram with values := selfCallProgram.values.reverseUsers 2 } : Program).addressEscapes f
        = true := by
  have hchain : selfCallProgram.values.EscapeChain 2 [3, 4] 5 := by
    refine ⟨by decide, ?_, ⟨_, rfl, .inr (.inr ⟨rfl, by decide⟩)⟩⟩
    simp only [List.forall_mem_cons]
    exact ⟨⟨_, rfl, trivial⟩, ⟨_, rfl, trivial⟩, by simp⟩
  refine ⟨hchain, List.forall_mem_singleton.mpr ?_⟩
  obtain ⟨hescapes, -, horder⟩ := addressEscapes_iff_exists_chain selfCallProgram
    { id := 1, name := "handler", addressTaken := true }
  have htrue := hescapes.mpr ⟨rfl, 2, rfl, [3, 4], 5, hchain⟩
  exact ⟨htrue, (horder _ (ValueGraph.reordered_reverseUsers ..)).trans htrue⟩

end Program
end ThumbHardening
