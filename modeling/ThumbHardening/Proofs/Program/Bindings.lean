import ThumbHardening.Proofs.Program
import ThumbHardening.Proofs.ValueGraph.Uses
import ThumbHardening.Verify

/-!
# Symbols and their values

In a program that has been built, every symbol that exists is bound to a value, the value says which symbol it
stands for, and the uses of all values can be read from both ends.
-/

namespace ThumbHardening

/-- The symbol that a kind of value stands for. -/
def ValueKind.symbol? : ValueKind → Option Symbol
  | .function id => some (.function id)
  | .global (some id) _ => some (.global id)
  | .aliased id => some (.aliased id)
  | _ => none

/-- The symbol that an entry of an initializer refers to. -/
def Pointer.symbol? : Pointer → Option Symbol
  | .null | .raw _ => none
  | .global id _ => some (.global id)
  | .function id | .block id _ => some (.function id)

namespace ValueGraph

variable {g : ValueGraph}

def kind? (g : ValueGraph) (value : Nat) : Option ValueKind :=
  (g.node? value).map ValueNode.kind

theorem kind?_clearOperands (g : ValueGraph) (user value : Nat) :
    (g.clearOperands user).kind? value = g.kind? value := by
  rw [kind?, node?_clearOperands_eq, kind?]
  cases g.node? value <;> rfl

theorem kind?_setOperands (g : ValueGraph) (user : Nat) (operands : List Nat) (value : Nat) :
    (g.setOperands user operands).kind? value = g.kind? value := by
  rw [← kind?_clearOperands g user]
  exact kind_addOperands ..

theorem kind?_addOperand (g : ValueGraph) (user operand value : Nat) :
    (g.addOperand user operand).kind? value = g.kind? value :=
  kind_addOperand ..

theorem lt_size_of_kind? {value : Nat} {kind : ValueKind} (h : g.kind? value = some kind) :
    value < g.size := by
  obtain ⟨n, hn, -⟩ := Option.map_eq_some_iff.mp h
  exact lt_size_of_node? hn

theorem kind?_add_of_some {value : Nat} {kind : ValueKind} (h : g.kind? value = some kind)
    (new : ValueKind) (operands : List Nat) : (g.add new operands).kind? value = some kind := by
  rw [kind?, kind_add, if_neg (Nat.ne_of_lt (lt_size_of_kind? h))]
  exact h

end ValueGraph

namespace Program

variable {p q : Program} {symbol other : Symbol} {value : Nat}

/-! ### Which symbols exist -/

@[simp] theorem hasSymbol_function (p : Program) (id : Nat) :
    p.hasSymbol (.function id) = p.functions.ids.contains id := by
  rw [hasSymbol, symbolName?, Option.isSome_map, function?, Roster.isSome_get?]

@[simp] theorem hasSymbol_global (p : Program) (id : Nat) :
    p.hasSymbol (.global id) = p.globals.ids.contains id := by
  rw [hasSymbol, symbolName?, Option.isSome_map, global?, Roster.isSome_get?]

@[simp] theorem hasSymbol_aliased (p : Program) (id : Nat) :
    p.hasSymbol (.aliased id) = p.aliases.ids.contains id := by
  rw [hasSymbol, symbolName?, Option.isSome_map, alias?, Roster.isSome_get?]

theorem hasSymbol_congr (hfunctions : q.functions.ids = p.functions.ids)
    (hglobals : q.globals.ids = p.globals.ids) (haliases : q.aliases.ids = p.aliases.ids)
    (symbol : Symbol) : q.hasSymbol symbol = p.hasSymbol symbol := by
  cases symbol <;> simp [hfunctions, hglobals, haliases]

/-- The order of the objects makes no difference to which symbols there are. -/
theorem hasSymbol_of_reorder {ids : List Nat} {globals : Roster GlobalObject}
    (h : p.globals.reorder ids = .ok globals) (symbol : Symbol) :
    ({ p with globals } : Program).hasSymbol symbol = p.hasSymbol symbol := by
  cases symbol with
  | global id =>
    have hperm : globals.ids.Perm p.globals.ids := (Roster.perm_of_reorder h).map _
    rw [hasSymbol_global, hasSymbol_global, Bool.eq_iff_iff, List.contains_iff_mem, List.contains_iff_mem]
    exact hperm.mem_iff
  | function id | aliased id => rfl

theorem valueOf?_bind (p : Program) (name : String) (symbol other : Symbol) (kind : ValueKind)
    (operands : List Nat) :
    (p.bind name symbol kind operands).valueOf? other
      = if other = symbol then some p.values.size else p.valueOf? other := by
  rw [valueOf?, bind, List.lookup_cons]
  split
  · next heq => rw [if_pos (beq_iff_eq.mp heq)]
  · next hne => rw [if_neg (by simpa using hne)]; rfl

/-! ### Bound symbols -/

/-- Symbols and values belong together. -/
structure Tied (p : Program) : Prop where
  bound : ∀ symbol, p.hasSymbol symbol = true → ∃ value, p.valueOf? symbol = some value
  owner : ∀ symbol value, p.valueOf? symbol = some value →
    (p.values.kind? value).bind ValueKind.symbol? = some symbol
  list : p.values.kind? compilerUsedValue = some (.global none ThumbHardening.compilerUsedList)
  uses : p.values.Mirrored

namespace Tied

/-- Symbols stay tied to their values as long as none joins and the values keep their kinds. -/
theorem of_kinds (h : p.Tied) (hsymbols : ∀ symbol, q.hasSymbol symbol = p.hasSymbol symbol)
    (hbindings : q.bindings = p.bindings)
    (hkinds : ∀ value kind, p.values.kind? value = some kind → q.values.kind? value = some kind)
    (huses : q.values.Mirrored) : q.Tied := by
  have hvalues : ∀ symbol, q.valueOf? symbol = p.valueOf? symbol := by
    intro symbol
    rw [valueOf?, hbindings, valueOf?]
  refine ⟨fun symbol hsymbol => ?_, fun symbol value hvalue => ?_, hkinds _ _ h.list, huses⟩
  · rw [hvalues]
    exact h.bound symbol (hsymbols symbol ▸ hsymbol)
  · rw [hvalues] at hvalue
    obtain ⟨kind, hkind, howner⟩ := Option.bind_eq_some_iff.mp (h.owner symbol value hvalue)
    rw [hkinds _ _ hkind]
    exact howner

theorem addValue (h : p.Tied) (kind : ValueKind) {operands : List Nat}
    (hoperands : ∀ operand ∈ operands, operand ≤ p.values.size) :
    Tied { p with values := p.values.add kind operands } :=
  h.of_kinds (fun _ => rfl) rfl (fun _ _ hkind => ValueGraph.kind?_add_of_some hkind ..)
    (h.uses.add kind hoperands)

/-- A new symbol is bound to a new value of its own. -/
theorem bind {name : String} {kind : ValueKind} {operands : List Nat} (h : p.Tied)
    (hsymbols : ∀ other, q.hasSymbol other = true → p.hasSymbol other = true ∨ other = symbol)
    (hbindings : q.bindings = p.bindings) (hvalues : q.values = p.values)
    (hkind : kind.symbol? = some symbol) (hoperands : ∀ operand ∈ operands, operand ≤ p.values.size) :
    (q.bind name symbol kind operands).Tied := by
  have hold : ∀ other, q.valueOf? other = p.valueOf? other := by
    intro other
    rw [valueOf?, hbindings, valueOf?]
  refine ⟨fun other hother => ?_, fun other value hvalue => ?_, ?_, ?_⟩
  · rw [valueOf?_bind]
    split
    · exact ⟨_, rfl⟩
    · next hne =>
      rw [hold]
      exact h.bound other ((hsymbols other hother).resolve_right hne)
  · change ((q.values.add kind operands).kind? value).bind _ = _
    rw [valueOf?_bind] at hvalue
    split at hvalue
    · next heq =>
      cases hvalue
      rw [ValueGraph.kind?, ValueGraph.kind_add, if_pos rfl, heq]
      exact hkind
    · rw [hold] at hvalue
      obtain ⟨kind', hkind', howner⟩ := Option.bind_eq_some_iff.mp (h.owner other value hvalue)
      rw [hvalues, ValueGraph.kind?_add_of_some hkind']
      exact howner
  · change (q.values.add kind operands).kind? _ = _
    rw [hvalues]
    exact ValueGraph.kind?_add_of_some h.list ..
  · change (q.values.add kind operands).Mirrored
    rw [hvalues]
    exact h.uses.add kind hoperands

theorem setOperands (h : p.Tied) {user : Nat} {operands : List Nat} (huser : user < p.values.size)
    (hoperands : ∀ operand ∈ operands, operand < p.values.size) :
    Tied { p with values := p.values.setOperands user operands } :=
  h.of_kinds (fun _ => rfl) rfl (fun value _ hkind => (ValueGraph.kind?_setOperands _ _ _ value).trans hkind)
    (h.uses.setOperands huser hoperands)

theorem addOperand (h : p.Tied) {user operand : Nat} (huser : user < p.values.size)
    (hoperand : operand < p.values.size) :
    Tied { p with values := p.values.addOperand user operand } :=
  h.of_kinds (fun _ => rfl) rfl (fun value _ hkind => (ValueGraph.kind?_addOperand _ _ _ value).trans hkind)
    (h.uses.addOperand huser hoperand)

theorem new {pointerSize : Nat} (h : Program.new pointerSize = .ok p) : p.Tied := by
  obtain ⟨-, rfl⟩ := new_eq_ok h
  have hempty : ValueGraph.Mirrored {} := by
    intro value user
    simp [ValueGraph.usersOf, ValueGraph.operandsOf, ValueGraph.node?]
  refine ⟨fun symbol hsymbol => ?_, fun symbol value hvalue => ?_, rfl, ?_⟩
  · cases symbol <;> simp [Roster.ids] at hsymbol
  · cases hvalue
  · exact (hempty.add _ (by simp)).add _ (by simp)

theorem lt_size (h : p.Tied) (hvalue : p.valueOf? symbol = some value) : value < p.values.size := by
  obtain ⟨kind, hkind, -⟩ := Option.bind_eq_some_iff.mp (h.owner symbol value hvalue)
  exact ValueGraph.lt_size_of_kind? hkind

/-- Different symbols are bound to different values. -/
theorem symbol_unique (h : p.Tied) (hvalue : p.valueOf? symbol = some value)
    (hother : p.valueOf? other = some value) : symbol = other := by
  have howner := h.owner symbol value hvalue
  rw [h.owner other value hother] at howner
  exact (Option.some.inj howner).symm

/-- What the entries of an initializer stand for are values of the program. -/
theorem resolveEntries (h : p.Tied) (entries : List Pointer) :
    (p.resolveEntries entries).1.Tied ∧ p.values.size ≤ (p.resolveEntries entries).1.values.size ∧
      ∀ operands, (p.resolveEntries entries).2 = .ok operands →
        ∀ operand ∈ operands, operand < (p.resolveEntries entries).1.values.size := by
  induction entries generalizing p with
  | nil =>
    refine ⟨h, Nat.le_refl _, fun operands hoperands => ?_⟩
    cases hoperands
    simp
  | cons entry rest ih =>
    rw [Program.resolveEntries]
    cases hentry : p.resolveEntry entry with
    | error e =>
      refine ⟨h, Nat.le_refl _, fun operands hoperands => ?_⟩
      cases hoperands
    | ok result =>
      obtain ⟨q, first⟩ := result
      obtain ⟨hq, hgrows, hfirst⟩ : q.Tied ∧ p.values.size ≤ q.values.size ∧
          ∀ operand ∈ first, operand < q.values.size := by
        rcases resolveEntry_eq_ok hentry with ⟨rfl, hbound⟩ | ⟨symbol, value, hvalue, rfl, rfl⟩
        · refine ⟨h, Nat.le_refl _, fun operand hoperand => ?_⟩
          obtain ⟨symbol, hsymbol⟩ := hbound operand hoperand
          exact h.lt_size hsymbol
        · have hsize : (p.addBlockAddress value).values.size = p.values.size + 1 :=
            ValueGraph.size_add ..
          refine ⟨h.addValue _ (by simpa using (h.lt_size hvalue).le), by omega, fun operand hoperand => ?_⟩
          cases hoperand
          omega
      obtain ⟨hrest, hmore, hoperands⟩ := ih hq
      refine ⟨hrest, hgrows.trans hmore, fun operands hresult operand hmem => ?_⟩
      obtain ⟨others, hothers, rfl⟩ := Outcome.map_eq_ok_iff.mp hresult
      rcases List.mem_append.mp hmem with hmem | hmem
      · exact (hfirst operand (Option.mem_toList.mp hmem)).trans_le hmore
      · exact hoperands others hothers operand hmem

/-- Entries can be resolved if what they refer to exists. -/
theorem exists_resolveEntries_eq_ok (h : p.Tied) {entries : List Pointer}
    (hentries : ∀ entry ∈ entries, ∀ symbol ∈ entry.symbol?, p.hasSymbol symbol = true) :
    ∃ q operands, p.resolveEntries entries = (q, .ok operands) := by
  have hvalues : ∀ entry ∈ entries, ∀ symbol ∈ entry.symbol?, ∃ value, p.valueOf? symbol = some value :=
    fun entry hentry symbol hsymbol => h.bound symbol (hentries entry hentry symbol hsymbol)
  clear h hentries
  induction entries generalizing p with
  | nil => exact ⟨p, [], rfl⟩
  | cons entry rest ih =>
    obtain ⟨hfirst, hrest⟩ := List.forall_mem_cons.mp hvalues
    obtain ⟨q, operand, hentry⟩ : ∃ q operand, p.resolveEntry entry = .ok (q, operand) := by
      cases entry with
      | null | raw _ => exact ⟨p, none, rfl⟩
      | global _ _ | function _ | block _ _ =>
        obtain ⟨value, hvalue⟩ := hfirst _ rfl
        rw [resolveEntry, valueOf_eq_ok_iff.mpr hvalue]
        exact ⟨_, _, rfl⟩
    have hsame : ∀ symbol, q.valueOf? symbol = p.valueOf? symbol := by
      rcases resolveEntry_eq_ok hentry with ⟨rfl, -⟩ | ⟨_, _, -, rfl, -⟩ <;> exact fun _ => rfl
    obtain ⟨q', operands, hmore⟩ := ih fun entry hentry symbol hsymbol => by
      rw [hsame]
      exact hrest entry hentry symbol hsymbol
    rw [Program.resolveEntries, hentry]
    simp only [hmore]
    exact ⟨_, _, rfl⟩

/-- An object with a free name can be added if what it refers to exists. -/
theorem exists_addGlobal_eq_ok (h : p.Tied) {g : GlobalObject} (hname : p.isFreeName g.name = true)
    (hentries : ∀ entry ∈ (g.initializer.map Initializer.entries).getD [],
      ∀ symbol ∈ entry.symbol?, p.hasSymbol symbol = true) :
    ∃ q id, p.addGlobal g = (q, .ok id) := by
  obtain ⟨q, operands, hoperands⟩ := h.exists_resolveEntries_eq_ok hentries
  rw [addGlobal, if_pos hname, hoperands]
  exact ⟨_, _, rfl⟩

end Tied

theorem hasSymbol_insertFunction {f : Function} :
    ({ p with functions := p.functions.insert f } : Program).hasSymbol symbol = true ↔
      p.hasSymbol symbol = true ∨ symbol = .function (p.functions.idFor f) := by
  cases symbol with
  | function id =>
    have hids := Roster.ids_insert (fun _ _ => rfl) p.functions f
    simp [hids]
  | global id | aliased id => simp

theorem hasSymbol_insertGlobal {g : GlobalObject} :
    ({ p with globals := p.globals.insert g } : Program).hasSymbol symbol = true ↔
      p.hasSymbol symbol = true ∨ symbol = .global (p.globals.idFor g) := by
  cases symbol with
  | global id =>
    have hids := Roster.ids_insert (fun _ _ => rfl) p.globals g
    simp [hids]
  | function id | aliased id => simp

theorem hasSymbol_insertAlias {a : Alias} :
    ({ p with aliases := p.aliases.insert a } : Program).hasSymbol symbol = true ↔
      p.hasSymbol symbol = true ∨ symbol = .aliased (p.aliases.idFor a) := by
  cases symbol with
  | aliased id =>
    have hids := Roster.ids_insert (fun _ _ => rfl) p.aliases a
    simp [hids]
  | function id | global id => simp

theorem Built.tied (h : p.Built) : p.Tied := by
  induction h with
  | new hnew => exact .new hnew
  | addFunction _ hadd ih =>
    obtain ⟨rfl, -, rfl⟩ := addFunction_eq_ok hadd
    exact ih.bind (fun _ => hasSymbol_insertFunction.mp) rfl rfl rfl (by simp)
  | @addGlobal p g _ ih =>
    obtain ⟨hentries, -, hoperands⟩ := ih.resolveEntries ((g.initializer.map Initializer.entries).getD [])
    rw [Program.addGlobal]
    split
    · split
      · next q e heq =>
        rw [heq] at hentries
        exact hentries
      · next q operands heq =>
        rw [heq] at hentries hoperands
        refine hentries.bind (fun _ => hasSymbol_insertGlobal.mp) rfl rfl rfl fun operand hmem => ?_
        exact (hoperands operands rfl operand hmem).le
    · exact ih
  | @addAlias p _ name target _ _ hadd ih =>
    obtain ⟨rfl, -, rfl⟩ := addAlias_eq_ok hadd
    refine ih.bind (fun _ => hasSymbol_insertAlias.mp) rfl rfl rfl fun operand hmem => ?_
    exact (ih.lt_size (Option.mem_toList.mp hmem)).le
  | setAliasTarget _ hset ih =>
    obtain ⟨value, aliasValue, hvalue, halias, rfl⟩ := setAliasTarget_eq_ok hset
    have hoperands : ∀ operand ∈ [value], operand < _ := List.forall_mem_singleton.mpr (ih.lt_size hvalue)
    have hset := ih.setOperands (ih.lt_size halias) hoperands
    exact hset.of_kinds (hasSymbol_congr rfl rfl (Roster.ids_update fun _ => rfl)) rfl (fun _ _ => id) hset.uses
  | @appendToUsed p _ symbol hbuilt happend ih =>
    obtain ⟨value, hvalue, rfl⟩ := appendToUsed_eq_ok happend
    have hlist : usedValue < p.values.size :=
      ValueGraph.lt_size_of_kind? (g := p.values) hbuilt.wellFormed.usedList
    rw [use]
    split
    · exact ih
    · have hused := ih.addOperand hlist (ih.lt_size hvalue)
      exact hused.of_kinds (fun _ => rfl) rfl (fun _ _ => id) hused.uses
  | appendToCompilerUsed _ happend ih =>
    obtain ⟨value, hvalue, rfl⟩ := appendToCompilerUsed_eq_ok happend
    exact ih.addOperand (ValueGraph.lt_size_of_kind? ih.list) (ih.lt_size hvalue)
  | changeFunctions _ hids ih =>
    exact ih.of_kinds (hasSymbol_congr hids rfl rfl) rfl (fun _ _ => id) ih.uses
  | changeGlobals _ hids ih =>
    exact ih.of_kinds (hasSymbol_congr rfl hids rfl) rfl (fun _ _ => id) ih.uses
  | reorderGlobals _ hreorder ih =>
    obtain ⟨globals, hglobals, rfl⟩ := Outcome.map_eq_ok_iff.mp hreorder
    exact ih.of_kinds (hasSymbol_of_reorder hglobals) rfl (fun _ _ => id) ih.uses
  | addValue _ hadd ih =>
    obtain ⟨hoperands, rfl⟩ := ValueGraph.add?_eq_some hadd
    exact ih.addValue _ hoperands
  | addOperand _ hadd ih =>
    obtain ⟨huser, hoperand, rfl⟩ := ValueGraph.addOperand?_eq_some hadd
    exact ih.addOperand huser hoperand
  | setOperands _ hset ih =>
    obtain ⟨huser, hoperands, rfl⟩ := ValueGraph.setOperands?_eq_some hset
    exact ih.setOperands huser hoperands

end Program
end ThumbHardening
