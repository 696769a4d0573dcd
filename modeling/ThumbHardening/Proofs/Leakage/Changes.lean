import ThumbHardening.Proofs.Leakage.Alike

/-!
# Changes that leaks outlast

Of the operations on a program, those that change what no profile shows, that add an object whose content refers
to no symbol, that keep a symbol, or that add a quiet function leave the program alike to the one it came from.
-/

namespace ThumbHardening

/-- An entry of an initializer by which no symbol is used. -/
def Pointer.Plain : Pointer → Prop
  | .null | .raw _ | .block _ _ => True
  | .global _ _ | .function _ => False

theorem Function.Quiet.withId {f : Function} (h : f.Quiet) (id : Nat) : Function.Quiet { f with id } :=
  ⟨h.addressTaken, h.body, h.saved, h.calls, h.ids⟩

namespace Program

variable {p q q' : Program} {extra : List Function} {id : Nat}

/-! ### Functions -/

theorem Alike.withFunctions (h : p.Alike q []) {functions : Roster Function}
    (hprofiles : functions.elems.map Function.profile = q.functions.elems.map Function.profile)
    (hnext : functions.next = q.functions.next) : p.Alike { q with functions } [] := by
  obtain ⟨kept, hkept, hold⟩ := h.functions
  rw [List.append_nil] at hkept
  exact {
    functions := ⟨functions.elems, (List.append_nil _).symm, by rw [hprofiles, hkept, hold]⟩
    next_le := h.next_le.trans_eq hnext.symm
    quiet := h.quiet
    fresh := h.fresh
    aliases := h.aliases
    values := h.values
    bindings := h.bindings
    named := h.named }

theorem Alike.updateFunction (h : p.Alike q []) {change : Function → Function}
    (hprofile : ∀ f, q.function? id = some f → (change f).profile = f.profile) :
    p.Alike (q.updateFunction id change) [] :=
  h.withFunctions (Roster.map_update hprofile) (Roster.next_update ..)

/-- Once a free name is taken, it belongs to a function only if its symbol is that function. -/
theorem lookup_function_iff {name other : String} {symbol : Symbol} (hfree : q.isFreeName name = true) :
    ((name, symbol) :: q.names).lookup other = some (.function id) ↔
      q.symbolNamed? other = some (.function id) ∨ name = other ∧ symbol = .function id := by
  rw [isFreeName, Bool.and_eq_true, Option.isNone_iff_eq_none] at hfree
  rw [List.lookup_cons]
  by_cases heq : other = name
  · subst heq
    simp [hfree.1]
  · simp [beq_false_of_ne heq, Ne.symm heq, symbolNamed?]

theorem valueOf?_bind_of_ne {name : String} {symbol other : Symbol} {kind : ValueKind} {operands : List Nat}
    (hne : other ≠ symbol) : (q.bind name symbol kind operands).valueOf? other = q.valueOf? other := by
  rw [valueOf?, Program.bind, List.lookup_cons, beq_false_of_ne hne]
  rfl

theorem Alike.addFunction (h : p.Alike q extra) {f : Function} (hf : f.Quiet) (hid : f.id = 0)
    (hadd : q.addFunction f = .ok (q', id)) :
    id = q.functions.next ∧ p.Alike q' (extra ++ [{ f with id }]) := by
  obtain ⟨rfl, hfree, rfl⟩ := addFunction_eq_ok hadd
  rw [Roster.idFor_of_id_eq_zero hid, Roster.insert_of_id_eq_zero hid]
  refine ⟨rfl, ?_⟩
  obtain ⟨kept, hkept, hprofiles⟩ := h.functions
  refine {
    functions := ⟨kept, ?_, hprofiles⟩, next_le := Nat.le_succ_of_le h.next_le
    quiet := ?_, fresh := ?_, aliases := h.aliases, values := h.values.add (.inr (by simp))
    bindings := fun old hold => ?_, named := fun name other => ?_ }
  · change q.functions.elems ++ _ = kept ++ (extra ++ _)
    rw [hkept, List.append_assoc]
    rfl
  · exact List.forall_mem_append.mpr ⟨h.quiet, List.forall_mem_singleton.mpr (hf.withId _)⟩
  · exact List.forall_mem_append.mpr ⟨h.fresh, List.forall_mem_singleton.mpr h.next_le⟩
  · have hne : Symbol.function old ≠ .function q.functions.next :=
      fun heq => absurd h.next_le (Nat.not_le_of_lt (Symbol.function.inj heq ▸ hold))
    rw [valueOf?_bind_of_ne hne]
    exact h.bindings old hold
  · refine (lookup_function_iff hfree).trans ((or_congr_left (h.named name other)).trans ?_)
    simp [or_assoc, or_and_right, exists_or]

/-! ### Objects -/

/-- The values made for plain entries use nothing that was there. -/
theorem Alike.resolveEntries (h : p.Alike q extra) {entries : List Pointer}
    (hplain : ∀ entry ∈ entries, entry.Plain) {operands : List Nat}
    (heq : q.resolveEntries entries = (q', .ok operands)) :
    p.Alike q' extra ∧ ∀ operand ∈ operands, p.values.size ≤ operand := by
  induction entries generalizing q operands with
  | nil =>
    cases heq
    exact ⟨h, by simp⟩
  | cons entry rest ih =>
    obtain ⟨hfirst, hrest⟩ := List.forall_mem_cons.mp hplain
    rw [Program.resolveEntries] at heq
    split at heq
    · cases heq
    · next q₁ operand hentry =>
      obtain ⟨hresult, hoperands⟩ := Prod.mk.inj heq
      obtain ⟨others, hothers, rfl⟩ := Outcome.map_eq_ok_iff.mp hoperands
      have hstep : p.Alike q₁ extra ∧ ∀ value ∈ operand.toList, p.values.size ≤ value := by
        cases entry with
        | null | raw value =>
          cases hentry
          exact ⟨h, by simp⟩
        | global | function => exact hfirst.elim
        | block function id =>
          obtain ⟨value, -, hblock⟩ := Outcome.map_eq_ok_iff.mp hentry
          cases hblock
          exact ⟨{ h with values := h.values.add (.inl (.inl rfl)) }, by simpa using h.values.size_le⟩
      obtain ⟨hlast, hle⟩ := ih hstep.1 hrest (Prod.ext hresult hothers)
      exact ⟨hlast, List.forall_mem_append.mpr ⟨hstep.2, hle⟩⟩

theorem Alike.addGlobal (h : p.Alike q extra) {g : GlobalObject}
    (hplain : ∀ entry ∈ (g.initializer.map Initializer.entries).getD [], entry.Plain)
    (hadd : q.addGlobal g = (q', .ok id)) : p.Alike q' extra := by
  rw [Program.addGlobal] at hadd
  split at hadd
  · next hfree =>
    have hframe := resolveEntries_frame q ((g.initializer.map Initializer.entries).getD [])
    split at hadd
    · cases hadd
    · next q₁ operands hentries =>
      cases hadd
      rw [hentries] at hframe
      obtain ⟨values, rfl⟩ := hframe
      obtain ⟨hvalues, hoperands⟩ := h.resolveEntries hplain hentries
      refine { hvalues with
        values := hvalues.values.add (.inr hoperands), bindings := fun old hold => ?_, named := fun name other => ?_ }
      · rw [valueOf?_bind_of_ne (by simp)]
        exact h.bindings old hold
      · refine (lookup_function_iff hfree).trans ?_
        simpa using h.named name other
  · cases hadd

/-- A symbol that is kept is used by a list whose name is reserved, and that hands no address on. -/
theorem Alike.use (h : p.Alike q extra) (hwf : p.WellFormed) (symbol : Symbol) (value : Nat) :
    p.Alike (q.use symbol value) extra := by
  rw [Program.use]
  split
  · exact h
  · obtain ⟨n, hn, hkind⟩ := Option.map_eq_some_iff.mp hwf.usedList
    obtain ⟨n', hn', hkind', -⟩ := h.values.node _ n hn
    have hinert : n'.kind.Inert := .inr ⟨none, usedList, hkind'.trans hkind, by decide⟩
    exact { h with values := h.values.addOperand (.inl ⟨n', hn', hinert⟩) }

end Program
end ThumbHardening
