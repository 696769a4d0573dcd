import ThumbHardening.Proofs.Aliases

/-!
# Used symbols

In a program that has been built, only symbols that exist are bound to values, so only such symbols can be put on
the list of used symbols, and no symbol is on it twice. The set of used symbols and the table of names are kept in
line with that. A new symbol has an ID that none had before, so it takes no value away from another one.
-/

namespace ThumbHardening
namespace Program

variable {p : Program} {symbol : Symbol}

theorem valueOf?_congr {q : Program} (h : q.bindings = p.bindings) (symbol : Symbol) :
    q.valueOf? symbol = p.valueOf? symbol := by
  rw [valueOf?, h, valueOf?]

theorem symbolNamed?_congr {q : Program} (h : q.names = p.names) (name : String) :
    q.symbolNamed? name = p.symbolNamed? name := by
  rw [symbolNamed?, h, symbolNamed?]

/-! ### Symbols that are bound -/

/-- What is bound exists. -/
def BoundExist (p : Program) : Prop :=
  ∀ symbol value, p.valueOf? symbol = some value → p.hasSymbol symbol = true

theorem BoundExist.of_same {q : Program} (h : p.BoundExist) (hbindings : q.bindings = p.bindings)
    (hsymbols : ∀ symbol, q.hasSymbol symbol = p.hasSymbol symbol) : q.BoundExist := by
  intro symbol value hvalue
  rw [valueOf?_congr hbindings] at hvalue
  rw [hsymbols]
  exact h symbol value hvalue

/-- A new symbol may be bound once it exists. -/
theorem BoundExist.bind {q : Program} {name : String} {kind : ValueKind} {operands : List Nat} (h : p.BoundExist)
    (hbindings : q.bindings = p.bindings)
    (hsymbols : ∀ other, p.hasSymbol other = true → q.hasSymbol other = true)
    (hsymbol : q.hasSymbol symbol = true) : (q.bind name symbol kind operands).BoundExist := by
  intro other value hvalue
  change q.hasSymbol other = true
  rw [valueOf?_bind] at hvalue
  split at hvalue
  · next heq => rwa [heq]
  · rw [valueOf?_congr hbindings] at hvalue
    exact hsymbols other (h other value hvalue)

theorem Built.boundExist (h : p.Built) : p.BoundExist := by
  induction h with
  | new hnew =>
    obtain ⟨-, rfl⟩ := new_eq_ok hnew
    intro symbol value hvalue
    cases hvalue
  | @addFunction p _ f _ _ hadd ih =>
    obtain ⟨rfl, -, rfl⟩ := addFunction_eq_ok hadd
    exact ih.bind rfl (fun _ => hasSymbol_insertFunction.mpr ∘ .inl) (hasSymbol_insertFunction.mpr (.inr rfl))
  | @addGlobal p g _ ih =>
    obtain ⟨values, hentries⟩ := resolveEntries_frame p ((g.initializer.map Initializer.entries).getD [])
    rw [Program.addGlobal]
    split
    · split
      · next heq =>
        rw [heq] at hentries
        exact hentries ▸ ih.of_same rfl fun _ => rfl
      · next heq =>
        rw [heq] at hentries
        subst hentries
        exact ih.bind rfl (fun _ => hasSymbol_insertGlobal.mpr ∘ .inl) (hasSymbol_insertGlobal.mpr (.inr rfl))
    · exact ih
  | @addAlias p _ name target _ _ hadd ih =>
    obtain ⟨rfl, -, rfl⟩ := addAlias_eq_ok hadd
    exact ih.bind rfl (fun _ => hasSymbol_insertAlias.mpr ∘ .inl) (hasSymbol_insertAlias.mpr (.inr rfl))
  | setAliasTarget _ hset ih =>
    obtain ⟨_, _, -, -, rfl⟩ := setAliasTarget_eq_ok hset
    exact ih.of_same rfl (hasSymbol_congr rfl rfl (Roster.ids_update fun _ => rfl))
  | @appendToUsed p _ symbol _ happend ih =>
    obtain ⟨value, -, rfl⟩ := appendToUsed_eq_ok happend
    obtain ⟨values, used, usedSet, hframe⟩ := use_frame p symbol value
    rw [hframe]
    exact ih.of_same rfl fun _ => rfl
  | appendToCompilerUsed _ happend ih =>
    obtain ⟨value, -, rfl⟩ := appendToCompilerUsed_eq_ok happend
    exact ih.of_same rfl fun _ => rfl
  | changeFunctions _ hids ih =>
    exact ih.of_same rfl (hasSymbol_congr hids rfl rfl)
  | changeGlobals _ hids ih =>
    exact ih.of_same rfl (hasSymbol_congr rfl hids rfl)
  | reorderGlobals _ hreorder ih =>
    obtain ⟨globals, hglobals, rfl⟩ := Outcome.map_eq_ok_iff.mp hreorder
    exact ih.of_same rfl (hasSymbol_of_reorder hglobals)
  | addValue _ _ ih | addOperand _ _ ih | setOperands _ _ ih => exact ih.of_same rfl fun _ => rfl

/-! ### Symbols that have to be kept -/

/-- What a program records of its symbols: those on the list of used ones are bound, each is on it once, the set
holds the same ones, and a name that is taken belongs to a symbol that is bound. -/
structure Recorded (p : Program) : Prop where
  nodup : p.used.Nodup
  mem_usedSet : ∀ symbol, symbol ∈ p.usedSet ↔ symbol ∈ p.used
  bound : ∀ symbol ∈ p.used, ∃ value, p.valueOf? symbol = some value
  named : ∀ entry ∈ p.names, ∃ value, p.valueOf? entry.2 = some value

theorem Recorded.of_same {q : Program} (h : p.Recorded) (hused : q.used = p.used) (hset : q.usedSet = p.usedSet)
    (hnames : q.names = p.names) (hbindings : q.bindings = p.bindings) : q.Recorded := by
  have hvalues := valueOf?_congr hbindings
  refine ⟨hused ▸ h.nodup, fun symbol => ?_, fun symbol hsymbol => ?_, fun entry hentry => ?_⟩
  · rw [hset, hused]
    exact h.mem_usedSet symbol
  · rw [hvalues]
    exact h.bound symbol (hused ▸ hsymbol)
  · rw [hvalues]
    exact h.named entry (hnames ▸ hentry)

theorem Recorded.bind (h : p.Recorded) (name : String) (symbol : Symbol) (kind : ValueKind)
    (operands : List Nat) : (p.bind name symbol kind operands).Recorded := by
  have hbound : ∀ other, other = symbol ∨ (∃ value, p.valueOf? other = some value) →
      ∃ value, (p.bind name symbol kind operands).valueOf? other = some value := by
    intro other hother
    rw [valueOf?_bind]
    split
    · exact ⟨_, rfl⟩
    · next hne => exact hother.resolve_left hne
  refine ⟨h.nodup, h.mem_usedSet, fun other hother => hbound other (.inr (h.bound other hother)),
    fun entry hentry => hbound entry.2 ?_⟩
  rcases List.mem_cons.mp hentry with rfl | hold
  · exact .inl rfl
  · exact .inr (h.named entry hold)

theorem Recorded.use {value : Nat} (h : p.Recorded) (hvalue : p.valueOf? symbol = some value) :
    (p.use symbol value).Recorded := by
  rw [Program.use]
  split
  · exact h
  · next hnew =>
    rw [isUsed, List.contains_iff_mem, h.mem_usedSet] at hnew
    refine ⟨List.nodup_append.mpr ⟨h.nodup, List.nodup_singleton _, fun a ha b hb heq => hnew ?_⟩,
      fun other => ?_, ?_, h.named⟩
    · rw [← List.mem_singleton.mp hb, ← heq]
      exact ha
    · change other ∈ symbol :: p.usedSet ↔ other ∈ p.used ++ [symbol]
      rw [List.mem_cons, h.mem_usedSet, List.mem_append, List.mem_singleton, or_comm]
    · intro other hother
      rcases List.mem_append.mp hother with hold | hother
      · exact h.bound other hold
      · exact ⟨value, List.mem_singleton.mp hother ▸ hvalue⟩

theorem Built.recorded (h : p.Built) : p.Recorded := by
  induction h with
  | new hnew =>
    obtain ⟨-, rfl⟩ := new_eq_ok hnew
    exact ⟨List.nodup_nil, fun _ => .rfl, fun _ hsymbol => (nomatch hsymbol), fun _ hentry => nomatch hentry⟩
  | @addFunction p _ f _ _ hadd ih =>
    obtain ⟨-, -, rfl⟩ := addFunction_eq_ok hadd
    exact Recorded.bind (p := { p with functions := p.functions.insert f }) (ih.of_same rfl rfl rfl rfl) ..
  | @addGlobal p g _ ih =>
    obtain ⟨values, hentries⟩ := resolveEntries_frame p ((g.initializer.map Initializer.entries).getD [])
    rw [Program.addGlobal]
    split
    · split
      · next heq =>
        rw [heq] at hentries
        exact hentries ▸ ih.of_same rfl rfl rfl rfl
      · next heq =>
        rw [heq] at hentries
        subst hentries
        exact Recorded.bind (p := { p with values, globals := p.globals.insert g }) (ih.of_same rfl rfl rfl rfl) ..
    · exact ih
  | @addAlias p _ name target _ _ hadd ih =>
    obtain ⟨-, -, rfl⟩ := addAlias_eq_ok hadd
    exact Recorded.bind (p := { p with aliases := p.aliases.insert { name, target } }) (ih.of_same rfl rfl rfl rfl) ..
  | setAliasTarget _ hset ih =>
    obtain ⟨_, _, -, -, rfl⟩ := setAliasTarget_eq_ok hset
    exact ih.of_same rfl rfl rfl rfl
  | appendToUsed _ happend ih =>
    obtain ⟨value, hvalue, rfl⟩ := appendToUsed_eq_ok happend
    exact ih.use hvalue
  | appendToCompilerUsed _ happend ih =>
    obtain ⟨value, -, rfl⟩ := appendToCompilerUsed_eq_ok happend
    exact ih.of_same rfl rfl rfl rfl
  | reorderGlobals _ hreorder ih =>
    obtain ⟨globals, -, rfl⟩ := Outcome.map_eq_ok_iff.mp hreorder
    exact ih.of_same rfl rfl rfl rfl
  | changeFunctions _ _ ih | changeGlobals _ _ ih | addValue _ _ ih | addOperand _ _ ih | setOperands _ _ ih =>
    exact ih.of_same rfl rfl rfl rfl

theorem Built.isUsed_iff (h : p.Built) : p.isUsed symbol = true ↔ symbol ∈ p.used :=
  List.contains_iff_mem.trans (h.recorded.mem_usedSet symbol)

/-- Symbols on the list exist. -/
theorem Built.hasSymbol_of_used (h : p.Built) (hsymbol : symbol ∈ p.used) : p.hasSymbol symbol = true := by
  obtain ⟨value, hvalue⟩ := h.recorded.bound symbol hsymbol
  exact h.boundExist symbol value hvalue

/-- Symbols that are found by a name exist. -/
theorem Built.hasSymbol_of_symbolNamed? (h : p.Built) {name : String} (hnamed : p.symbolNamed? name = some symbol) :
    p.hasSymbol symbol = true := by
  obtain ⟨before, behind, hsplit, -⟩ := List.lookup_eq_some_iff.mp hnamed
  obtain ⟨value, hvalue⟩ := h.recorded.named (name, symbol) (hsplit ▸ by simp)
  exact h.boundExist symbol value hvalue

/-- Objects that are yet to come are neither bound nor used. -/
theorem Built.lt_next_of_valueOf? (h : p.Built) {id value : Nat} (hvalue : p.valueOf? (.global id) = some value) :
    id < p.globals.next := by
  have hsymbol := h.boundExist _ _ hvalue
  rw [hasSymbol_global, List.contains_iff_mem] at hsymbol
  obtain ⟨g, hg, rfl⟩ := List.mem_map.mp hsymbol
  exact h.global_lt g hg

theorem Built.function_lt_next_of_valueOf? (h : p.Built) {id value : Nat}
    (hvalue : p.valueOf? (.function id) = some value) : id < p.functions.next := by
  have hsymbol := h.boundExist _ _ hvalue
  rw [hasSymbol_function, List.contains_iff_mem] at hsymbol
  obtain ⟨f, hf, rfl⟩ := List.mem_map.mp hsymbol
  exact h.wellFormed.functions f hf

/-! ### What stays -/

/-- Every name that is taken keeps its symbol, every symbol its value, and every value but the list of used symbols
what it uses. -/
structure Keeps (p q : Program) : Prop where
  aliases : q.aliases = p.aliases
  pointerSize : q.pointerSize = p.pointerSize
  named : ∀ name symbol, p.symbolNamed? name = some symbol → q.symbolNamed? name = some symbol
  bound : ∀ symbol value, p.valueOf? symbol = some value → q.valueOf? symbol = some value
  size_le : p.values.size ≤ q.values.size
  operands : ∀ value < p.values.size, value ≠ usedValue → q.values.operandsOf value = p.values.operandsOf value

namespace Keeps

variable {q r : Program}

theorem of_same (haliases : q.aliases = p.aliases) (hpointerSize : q.pointerSize = p.pointerSize)
    (hnames : q.names = p.names) (hbindings : q.bindings = p.bindings) (hvalues : q.values = p.values) :
    p.Keeps q := by
  refine ⟨haliases, hpointerSize, fun name symbol hnamed => ?_, fun symbol value hvalue => ?_,
    hvalues ▸ Nat.le_refl _, fun _ _ _ => hvalues ▸ rfl⟩
  · rwa [symbolNamed?_congr hnames]
  · rwa [valueOf?_congr hbindings]

theorem trans (h : p.Keeps q) (h' : q.Keeps r) : p.Keeps r := by
  refine ⟨h'.aliases.trans h.aliases, h'.pointerSize.trans h.pointerSize,
    fun name symbol hnamed => h'.named name symbol (h.named name symbol hnamed),
    fun symbol value hvalue => h'.bound symbol value (h.bound symbol value hvalue),
    h.size_le.trans h'.size_le, fun value hlt hne => ?_⟩
  rw [h'.operands value (hlt.trans_le h.size_le) hne, h.operands value hlt hne]

/-- A symbol that has no value gets one under a free name, after the values that it uses have been added. -/
theorem bind {name : String} {kind : ValueKind} {operands : List Nat} (hfree : p.isFreeName name = true)
    (hnew : ∀ value, p.valueOf? symbol ≠ some value) (haliases : r.aliases = p.aliases)
    (hpointerSize : r.pointerSize = p.pointerSize) (hnames : r.names = p.names)
    (hbindings : r.bindings = p.bindings) (hsize : p.values.size ≤ r.values.size)
    (hkept : ∀ value < p.values.size, r.values.operandsOf value = p.values.operandsOf value) :
    p.Keeps (r.bind name symbol kind operands) := by
  have hgrows : (r.bind name symbol kind operands).values.size = r.values.size + 1 := ValueGraph.size_add ..
  refine ⟨haliases, hpointerSize, fun other symbol hnamed => ?_, fun other value hvalue => ?_, by omega,
    fun value hlt _ => ?_⟩
  · rw [symbolNamed?_bind, if_neg, symbolNamed?_congr hnames]
    · exact hnamed
    · rintro rfl
      rw [isFreeName, hnamed] at hfree
      cases hfree
  · rw [valueOf?_bind, if_neg, valueOf?_congr hbindings]
    · exact hvalue
    · rintro rfl
      exact hnew value hvalue
  · exact (operandsOf_add_of_lt (hlt.trans_le hsize) ..).trans (hkept value hlt)

theorem addGlobal (h : p.Built) {g : GlobalObject} {id : Nat} (hid : g.id = 0)
    (hadd : p.addGlobal g = (q, .ok id)) : p.Keeps q := by
  obtain ⟨values, hframe⟩ := resolveEntries_frame p ((g.initializer.map Initializer.entries).getD [])
  obtain ⟨hbindings, haliases, hsize, hkept⟩ :=
    operandsOf_resolveEntries p ((g.initializer.map Initializer.entries).getD [])
  have hnew : ∀ value, p.valueOf? (.global p.globals.next) ≠ some value :=
    fun value hvalue => Nat.lt_irrefl _ (h.lt_next_of_valueOf? hvalue)
  rw [Program.addGlobal] at hadd
  split at hadd
  · next hfree =>
    split at hadd
    · cases hadd
    · next hentries =>
      cases hadd
      rw [hentries] at hframe hsize hkept
      subst hframe
      have hfresh : p.globals.idFor g = p.globals.next := Roster.idFor_of_id_eq_zero hid
      dsimp only
      rw [hfresh]
      exact .bind hfree hnew rfl rfl rfl rfl hsize hkept
  · cases hadd

theorem addFunction (h : p.Built) {f : Function} {id : Nat} (hid : f.id = 0)
    (hadd : p.addFunction f = .ok (q, id)) : p.Keeps q := by
  have hnew : ∀ value, p.valueOf? (.function p.functions.next) ≠ some value :=
    fun value hvalue => Nat.lt_irrefl _ (h.function_lt_next_of_valueOf? hvalue)
  obtain ⟨rfl, hfree, rfl⟩ := addFunction_eq_ok hadd
  rw [Roster.idFor_of_id_eq_zero hid]
  exact .bind hfree hnew rfl rfl rfl rfl (Nat.le_refl _) fun _ _ => rfl

theorem use (h : p.Built) (symbol : Symbol) (value : Nat) : p.Keeps (p.use symbol value) := by
  have hlist : usedValue < p.values.size :=
    ValueGraph.lt_size_of_kind? (g := p.values) h.wellFormed.usedList
  rw [Program.use]
  split
  · exact .of_same rfl rfl rfl rfl rfl
  · refine ⟨rfl, rfl, fun _ _ => id, fun _ _ => id, (ValueGraph.size_addOperand ..).ge, fun _ _ hne => ?_⟩
    exact operandsOf_addOperand_of_ne hlist hne

end Keeps
end Program
end ThumbHardening
