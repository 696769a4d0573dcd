import ThumbHardening.Program
import ThumbHardening.Proofs.Roster
import ThumbHardening.Proofs.Steps
import ThumbHardening.Proofs.ValueGraph

/-!
# Programs that can be built

IDs and values are given out in order, so whatever a program has built so far lies below the next one. All
operations on a program keep it that way, whatever they are given.
-/

namespace ThumbHardening
namespace Program

variable {p p' : Program}

/-! ### Symbols by name -/

theorem symbolNamed?_bind (p : Program) (name other : String) (symbol : Symbol) (kind : ValueKind)
    (operands : List Nat) :
    (p.bind name symbol kind operands).symbolNamed? other
      = if other = name then some symbol else p.symbolNamed? other := by
  rw [symbolNamed?, bind, List.lookup_cons]
  split
  · next heq => rw [if_pos (beq_iff_eq.mp heq)]
  · next hne => rw [if_neg (by simpa using hne)]; rfl

/-! ### Call targets -/

/-- Following aliases ends at a function of the program, also in another program that has the same aliases and
this function. -/
theorem follow_eq_ok {symbol : Symbol} {id limit : Nat} {seen : List Nat}
    (h : p.follow limit seen symbol = .ok id) (haliases : p'.aliases = p.aliases) :
    id ∈ p.functions.ids ∧ (id ∈ p'.functions.ids → p'.follow limit seen symbol = .ok id) := by
  fun_induction p.follow limit seen symbol with
  | case1 limit seen function hcontains =>
    cases h
    rw [Roster.contains_eq, List.contains_iff_mem] at hcontains
    refine ⟨hcontains, fun hid => ?_⟩
    rw [follow, Roster.contains_eq, if_pos (List.contains_iff_mem.mpr hid)]
  | case2 | case3 | case4 | case5 | case6 | case7 => cases h
  | case8 seen aliasId a ha hseen limit ih =>
    obtain ⟨hmem, hfollow⟩ := ih h
    refine ⟨hmem, fun hid => ?_⟩
    rw [follow, alias?, haliases, ← alias?, ha]
    simp only [hseen]
    exact hfollow hid

theorem mem_ids_of_resolveFunction {symbol : Symbol} {id : Nat}
    (h : p.resolveFunction symbol = .ok id) : id ∈ p.functions.ids :=
  (follow_eq_ok h rfl).1

theorem resolveFunction_of_aliases {symbol : Symbol} {id : Nat} (haliases : p'.aliases = p.aliases)
    (h : p.resolveFunction symbol = .ok id) (hid : id ∈ p'.functions.ids) :
    p'.resolveFunction symbol = .ok id := by
  rw [resolveFunction, haliases]
  exact (follow_eq_ok h haliases).2 hid

theorem follow_congr (hfunctions : p'.functions.ids = p.functions.ids) (hglobals : p'.globals = p.globals)
    (haliases : p'.aliases = p.aliases) (limit : Nat) (seen : List Nat) (symbol : Symbol) :
    p'.follow limit seen symbol = p.follow limit seen symbol := by
  have hcontains (id : Nat) : p'.functions.contains id = p.functions.contains id := by
    rw [Roster.contains_eq, Roster.contains_eq, hfunctions]
  fun_induction p.follow limit seen symbol <;>
    simp_all [follow, global?, alias?]

/-- What a symbol resolves to depends on which functions there are, not on what they are. -/
theorem resolveFunction_congr (hfunctions : p'.functions.ids = p.functions.ids) (hglobals : p'.globals = p.globals)
    (haliases : p'.aliases = p.aliases) : p'.resolveFunction = p.resolveFunction := by
  funext symbol
  rw [resolveFunction, resolveFunction, haliases, follow_congr hfunctions hglobals haliases]

/-! ### Adding a global object -/

theorem valueOf_eq_ok_iff {symbol : Symbol} {value : Nat} :
    p.valueOf symbol = .ok value ↔ p.valueOf? symbol = some value := by
  rw [valueOf]
  cases p.valueOf? symbol <;> simp

/-- An entry stands for the value of a symbol, or for a new one that uses it. -/
theorem resolveEntry_eq_ok {entry : Pointer} {operand : Option Nat}
    (h : p.resolveEntry entry = .ok (p', operand)) :
    (p' = p ∧ ∀ value ∈ operand, ∃ symbol, p.valueOf? symbol = some value) ∨
      ∃ symbol value, p.valueOf? symbol = some value ∧ p' = p.addBlockAddress value ∧
        operand = some p.values.size := by
  cases entry with
  | null | raw value =>
    cases h
    exact .inl ⟨rfl, fun _ hvalue => nomatch hvalue⟩
  | global id offset | function id =>
    obtain ⟨value, hvalue, heq⟩ := Outcome.map_eq_ok_iff.mp h
    cases heq
    refine .inl ⟨rfl, fun other hother => ?_⟩
    cases hother
    exact ⟨_, valueOf_eq_ok_iff.mp hvalue⟩
  | block function id =>
    obtain ⟨value, hvalue, heq⟩ := Outcome.map_eq_ok_iff.mp h
    cases heq
    exact .inr ⟨_, value, valueOf_eq_ok_iff.mp hvalue, rfl, rfl⟩

/-- Resolving the entries of an initializer does nothing but add addresses of blocks. -/
theorem resolveEntries_induction {P : Program → Prop} (entries : List Pointer) (hstart : P p)
    (hstep : ∀ p value, P p → P (p.addBlockAddress value)) : P (p.resolveEntries entries).1 := by
  induction entries generalizing p with
  | nil => exact hstart
  | cons entry rest ih =>
    rw [resolveEntries]
    split
    · exact hstart
    · next q operand hentry =>
      apply ih
      rcases resolveEntry_eq_ok hentry with ⟨rfl, -⟩ | ⟨_, value, -, rfl, -⟩
      · exact hstart
      · exact hstep p value hstart

theorem resolveEntries_frame (p : Program) (entries : List Pointer) :
    ∃ values, (p.resolveEntries entries).1 = { p with values } := by
  apply resolveEntries_induction (P := fun q => ∃ values, q = { p with values }) entries ⟨p.values, rfl⟩
  intro q value hq
  obtain ⟨values, rfl⟩ := hq
  exact ⟨_, rfl⟩

/-- Adding an object changes nothing but the global objects, the names and the values behind the symbols. -/
theorem addGlobal_eq {g : GlobalObject} {id : Nat} (h : p.addGlobal g = (p', .ok id)) :
    id = p.globals.idFor g ∧ p.isFreeName g.name = true ∧
      ∃ values bindings, p' = { p with
        globals := p.globals.insert g, names := (g.name, .global id) :: p.names, values, bindings } := by
  rw [addGlobal] at h
  split at h
  · next hfree =>
    have hframe := resolveEntries_frame p ((g.initializer.map Initializer.entries).getD [])
    split at h
    · cases h
    · next q operands hentries =>
      rw [hentries] at hframe
      obtain ⟨values, rfl⟩ := hframe
      cases h
      exact ⟨rfl, hfree, _, _, rfl⟩
  · cases h

theorem addGlobal_eq_ok {g : GlobalObject} {id : Nat} (h : p.addGlobal g = (p', .ok id)) :
    id = p.globals.idFor g ∧ p'.globals = p.globals.insert g ∧ p'.pointerSize = p.pointerSize ∧
      p'.functions = p.functions := by
  obtain ⟨hid, -, values, bindings, rfl⟩ := addGlobal_eq h
  exact ⟨hid, rfl, rfl, rfl⟩

/-- The name of the object is taken by then, and other names belong to what they did. -/
theorem symbolNamed?_addGlobal {g : GlobalObject} {id : Nat} (h : p.addGlobal g = (p', .ok id)) (name : String) :
    p'.symbolNamed? name = if name = g.name then some (.global id) else p.symbolNamed? name := by
  obtain ⟨-, -, values, bindings, rfl⟩ := addGlobal_eq h
  rw [symbolNamed?, List.lookup_cons]
  split
  · next heq => rw [if_pos (beq_iff_eq.mp heq)]
  · next hne => rw [if_neg (by simpa using hne)]; rfl

/-- Whether adding an object succeeds or not, there is at most that one more. -/
theorem addGlobal_frame (p : Program) (g : GlobalObject) :
    ∃ values, (p.addGlobal g).1 = { p with values } ∨
      p.isFreeName g.name = true ∧ ∃ bindings, (p.addGlobal g).1 = { p with
        globals := p.globals.insert g, names := (g.name, .global (p.globals.idFor g)) :: p.names, values
        bindings } := by
  obtain ⟨values, hframe⟩ := resolveEntries_frame p ((g.initializer.map Initializer.entries).getD [])
  rw [addGlobal]
  split
  · next hfree =>
    split
    · next hentries =>
      rw [hentries] at hframe
      exact ⟨values, .inl hframe⟩
    · next hentries =>
      rw [hentries] at hframe
      obtain rfl := hframe
      exact ⟨_, .inr ⟨hfree, _, rfl⟩⟩
  · exact ⟨p.values, .inl rfl⟩

/-! ### What the other operations make -/

theorem new_eq_ok {pointerSize : Nat} (h : Program.new pointerSize = .ok p) :
    (pointerSize = 4 ∨ pointerSize = 8) ∧
      p = { values := (ValueGraph.add {} (.global none usedList) []).add (.global none compilerUsedList) []
            pointerSize } := by
  rw [Program.new] at h
  split at h
  · next hsize =>
    cases h
    exact ⟨hsize, rfl⟩
  · cases h

theorem addFunction_eq_ok {f : Function} {id : Nat} (h : p.addFunction f = .ok (p', id)) :
    id = p.functions.idFor f ∧ p.isFreeName f.name = true ∧
      p' = bind { p with functions := p.functions.insert f } f.name (.function id) (.function id) [] := by
  rw [addFunction] at h
  split at h
  · next hfree =>
    cases h
    exact ⟨rfl, hfree, rfl⟩
  · cases h

theorem addAlias_eq_ok {name : String} {target : Symbol} {id : Nat} (h : p.addAlias name target = .ok (p', id)) :
    id = p.aliases.next ∧ p.isFreeName name = true ∧
      p' = bind { p with aliases := p.aliases.insert { name, target } } name (.aliased id) (.aliased id)
        (p.valueOf? target).toList := by
  rw [addAlias] at h
  split at h
  · next hfree =>
    cases h
    exact ⟨rfl, hfree, rfl⟩
  · cases h

theorem setAliasTarget_eq_ok {id : Nat} {target : Symbol} (h : p.setAliasTarget id target = .ok p') :
    ∃ value aliasValue, p.valueOf? target = some value ∧ p.valueOf? (.aliased id) = some aliasValue ∧
      p' = { p with
        aliases := p.aliases.update id fun a => { a with target }
        values := p.values.setOperands aliasValue [value] } := by
  rw [setAliasTarget] at h
  obtain ⟨value, hvalue, h⟩ := Outcome.bind_eq_ok_iff.mp h
  obtain ⟨aliasValue, halias, h⟩ := Outcome.bind_eq_ok_iff.mp h
  split at h
  · cases h
  · cases h
    exact ⟨value, aliasValue, valueOf_eq_ok_iff.mp hvalue, valueOf_eq_ok_iff.mp halias, rfl⟩

theorem use_frame (p : Program) (symbol : Symbol) (value : Nat) :
    ∃ values used usedSet, p.use symbol value = { p with values, used, usedSet } := by
  rw [use]
  split
  · exact ⟨p.values, p.used, p.usedSet, rfl⟩
  · exact ⟨_, _, _, rfl⟩

theorem appendToUsed_eq_ok {symbol : Symbol} (h : p.appendToUsed symbol = .ok p') :
    ∃ value, p.valueOf? symbol = some value ∧ p' = p.use symbol value := by
  obtain ⟨value, hvalue, rfl⟩ := Outcome.map_eq_ok_iff.mp h
  exact ⟨value, valueOf_eq_ok_iff.mp hvalue, rfl⟩

theorem appendToCompilerUsed_eq_ok {symbol : Symbol} (h : p.appendToCompilerUsed symbol = .ok p') :
    ∃ value, p.valueOf? symbol = some value ∧
      p' = { p with values := p.values.addOperand compilerUsedValue value } := by
  obtain ⟨value, hvalue, rfl⟩ := Outcome.map_eq_ok_iff.mp h
  exact ⟨value, valueOf_eq_ok_iff.mp hvalue, rfl⟩

/-! ### Well-formed programs -/

/-- What has been built lies below what is built next. -/
structure WellFormed (p : Program) : Prop where
  functions : ∀ f ∈ p.functions.elems, f.id < p.functions.next
  values : p.values.Closed
  bindings : ∀ entry ∈ p.bindings, entry.2 < p.values.size
  usedList : (p.values.node? usedValue).map ValueNode.kind
    = some (.global none ThumbHardening.usedList)
  compilerUsed : compilerUsedValue < p.values.size

namespace WellFormed

theorem new {pointerSize : Nat} (h : Program.new pointerSize = .ok p) : p.WellFormed := by
  obtain ⟨-, rfl⟩ := new_eq_ok h
  have hempty : ValueGraph.Closed {} := by
    intro value n hn
    cases hn
  refine ⟨?_, (hempty.add _ _).add _ _, ?_, rfl, Nat.lt_succ_self 1⟩
  · intro f hf
    cases hf
  · intro entry hentry
    cases hentry

/-- The values there are and the list of used symbols stay when a value is added. -/
theorem addValue (h : p.WellFormed) (kind : ValueKind) (operands : List Nat) :
    WellFormed { p with values := p.values.add kind operands } := by
  have hused : usedValue ≠ p.values.size := by
    obtain ⟨n, hn, -⟩ := Option.map_eq_some_iff.mp h.usedList
    exact Nat.ne_of_lt (ValueGraph.lt_size_of_node? hn)
  have hgrows : ∀ {value}, value < p.values.size → value < (p.values.add kind operands).size :=
    fun hvalue => Nat.lt_of_lt_of_eq (Nat.lt_succ_of_lt hvalue) (ValueGraph.size_add ..).symm
  refine ⟨h.functions, h.values.add kind operands, fun entry hentry => ?_, ?_, hgrows h.compilerUsed⟩
  · exact hgrows (h.bindings entry hentry)
  · exact (ValueGraph.kind_add ..).trans ((if_neg hused).trans h.usedList)

theorem bind (h : p.WellFormed) (name : String) (symbol : Symbol) (kind : ValueKind) (operands : List Nat) :
    (p.bind name symbol kind operands).WellFormed := by
  have hvalues := h.addValue kind operands
  refine ⟨hvalues.functions, hvalues.values, fun entry hentry => ?_, hvalues.usedList,
    hvalues.compilerUsed⟩
  rcases List.mem_cons.mp hentry with rfl | hentry
  · exact Nat.lt_of_lt_of_eq (Nat.lt_succ_self _) (ValueGraph.size_add ..).symm
  · exact hvalues.bindings entry hentry

theorem addOperand (h : p.WellFormed) {user : Nat} (huser : user < p.values.size) (operand : Nat) :
    WellFormed { p with values := p.values.addOperand user operand } := by
  have hsize := ValueGraph.size_addOperand p.values user operand
  refine ⟨h.functions, h.values.addOperand huser operand, fun entry hentry => ?_, ?_,
    Nat.lt_of_lt_of_eq h.compilerUsed hsize.symm⟩
  · exact Nat.lt_of_lt_of_eq (h.bindings entry hentry) hsize.symm
  · exact (ValueGraph.kind_addOperand ..).trans h.usedList

theorem setOperands (h : p.WellFormed) {user : Nat} (huser : user < p.values.size)
    (operands : List Nat) :
    WellFormed { p with values := p.values.setOperands user operands } := by
  have hsize := ValueGraph.size_setOperands p.values user operands
  refine ⟨h.functions, h.values.setOperands huser operands, fun entry hentry => ?_, ?_,
    Nat.lt_of_lt_of_eq h.compilerUsed hsize.symm⟩
  · exact Nat.lt_of_lt_of_eq (h.bindings entry hentry) hsize.symm
  · obtain ⟨n, hn, -⟩ := Option.map_eq_some_iff.mp h.usedList
    have hlt := ValueGraph.lt_size_of_node? hn
    rw [← hsize] at hlt
    obtain ⟨m, hm⟩ := ValueGraph.exists_node? hlt
    have hkind := ValueGraph.kind_setOperands hm
    rw [h.usedList] at hkind
    exact (congrArg (Option.map ValueNode.kind) hm).trans hkind.symm

theorem lt_size_of_valueOf (h : p.WellFormed) {symbol : Symbol} {value : Nat}
    (hvalue : p.valueOf? symbol = some value) : value < p.values.size := by
  obtain ⟨l, r, hsplit, -⟩ := List.lookup_eq_some_iff.mp hvalue
  exact h.bindings (symbol, value) (hsplit ▸ by simp)

theorem addFunction (h : p.WellFormed) {f : Function} {id : Nat}
    (hadd : p.addFunction f = .ok (p', id)) : p'.WellFormed := by
  obtain ⟨-, -, rfl⟩ := addFunction_eq_ok hadd
  apply bind
  have hfunctions := Roster.lt_next_insert (fun _ _ => rfl) h.functions f
  exact ⟨hfunctions, h.values, h.bindings, h.usedList, h.compilerUsed⟩

theorem addGlobal (h : p.WellFormed) (g : GlobalObject) : (p.addGlobal g).1.WellFormed := by
  have hentries : (p.resolveEntries ((g.initializer.map Initializer.entries).getD [])).1.WellFormed :=
    resolveEntries_induction _ h fun _ _ hp => hp.addValue _ _
  rw [Program.addGlobal]
  split
  · split
    · next q _ heq =>
      rw [heq] at hentries
      exact hentries
    · next q _ heq =>
      rw [heq] at hentries
      apply bind
      exact ⟨hentries.functions, hentries.values, hentries.bindings, hentries.usedList,
        hentries.compilerUsed⟩
  · exact h

theorem addAlias (h : p.WellFormed) {name : String} {target : Symbol} {id : Nat}
    (hadd : p.addAlias name target = .ok (p', id)) : p'.WellFormed := by
  obtain ⟨-, -, rfl⟩ := addAlias_eq_ok hadd
  apply bind
  exact ⟨h.functions, h.values, h.bindings, h.usedList, h.compilerUsed⟩

theorem use (h : p.WellFormed) (symbol : Symbol) (value : Nat) : (p.use symbol value).WellFormed := by
  obtain ⟨n, hn, -⟩ := Option.map_eq_some_iff.mp h.usedList
  rw [Program.use]
  split
  · exact h
  · have hvalues := h.addOperand (ValueGraph.lt_size_of_node? hn) value
    exact ⟨hvalues.functions, hvalues.values, hvalues.bindings, hvalues.usedList,
      hvalues.compilerUsed⟩

theorem withFunctions (h : p.WellFormed) {functions : List Function}
    (hids : functions.map Function.id = p.functions.ids) :
    WellFormed { p with functions := { p.functions with elems := functions } } := by
  refine ⟨fun f hf => ?_, h.values, h.bindings, h.usedList, h.compilerUsed⟩
  have hmem : f.id ∈ p.functions.ids := hids ▸ List.mem_map_of_mem hf
  obtain ⟨old, hold, heq⟩ := List.mem_map.mp hmem
  exact heq ▸ h.functions old hold

end WellFormed

/-- The programs that the operations on programs make out of an empty one. -/
inductive Built : Program → Prop
  | new {p : Program} {pointerSize : Nat} : Program.new pointerSize = .ok p → Built p
  | addFunction {p p' : Program} {f : Function} {id : Nat} : Built p →
      p.addFunction f = .ok (p', id) → Built p'
  | addGlobal {p : Program} (g : GlobalObject) : Built p → Built (p.addGlobal g).1
  | addAlias {p p' : Program} {name : String} {target : Symbol} {id : Nat} : Built p →
      p.addAlias name target = .ok (p', id) → Built p'
  | setAliasTarget {p p' : Program} {id : Nat} {target : Symbol} : Built p →
      p.setAliasTarget id target = .ok p' → Built p'
  | appendToUsed {p p' : Program} {symbol : Symbol} : Built p →
      p.appendToUsed symbol = .ok p' → Built p'
  | appendToCompilerUsed {p p' : Program} {symbol : Symbol} : Built p →
      p.appendToCompilerUsed symbol = .ok p' → Built p'
  | changeFunctions {p : Program} {functions : List Function} : Built p →
      functions.map Function.id = p.functions.ids →
      Built { p with functions := { p.functions with elems := functions } }
  | changeGlobals {p : Program} {globals : List GlobalObject} : Built p →
      globals.map GlobalObject.id = p.globals.ids →
      Built { p with globals := { p.globals with elems := globals } }
  | reorderGlobals {p p' : Program} {order : List Nat} : Built p →
      p.reorderGlobals order = .ok p' → Built p'
  | addValue {p : Program} {kind : ValueKind} {operands : List Nat} {values : ValueGraph} : Built p →
      p.values.add? kind operands = some values → Built { p with values }
  | addOperand {p : Program} {user operand : Nat} {values : ValueGraph} : Built p →
      p.values.addOperand? user operand = some values → Built { p with values }
  | setOperands {p : Program} {user : Nat} {operands : List Nat} {values : ValueGraph} : Built p →
      p.values.setOperands? user operands = some values → Built { p with values }

theorem Built.wellFormed (h : p.Built) : p.WellFormed := by
  induction h with
  | new hnew => exact .new hnew
  | addFunction _ hadd ih => exact ih.addFunction hadd
  | addGlobal g _ ih => exact ih.addGlobal g
  | addAlias _ hadd ih => exact ih.addAlias hadd
  | setAliasTarget _ hset ih =>
    obtain ⟨value, aliasValue, -, halias, rfl⟩ := setAliasTarget_eq_ok hset
    have hvalues := ih.setOperands (ih.lt_size_of_valueOf halias) [value]
    exact ⟨hvalues.functions, hvalues.values, hvalues.bindings, hvalues.usedList,
      hvalues.compilerUsed⟩
  | appendToUsed _ happend ih =>
    obtain ⟨value, -, rfl⟩ := appendToUsed_eq_ok happend
    exact ih.use _ _
  | appendToCompilerUsed _ happend ih =>
    obtain ⟨value, -, rfl⟩ := appendToCompilerUsed_eq_ok happend
    exact ih.addOperand ih.compilerUsed value
  | changeFunctions _ hids ih => exact ih.withFunctions hids
  | changeGlobals _ _ ih =>
    exact ⟨ih.functions, ih.values, ih.bindings, ih.usedList, ih.compilerUsed⟩
  | reorderGlobals _ hreorder ih =>
    obtain ⟨globals, -, rfl⟩ := Outcome.map_eq_ok_iff.mp hreorder
    exact ⟨ih.functions, ih.values, ih.bindings, ih.usedList, ih.compilerUsed⟩
  | addValue _ hadd ih =>
    obtain ⟨-, rfl⟩ := ValueGraph.add?_eq_some hadd
    exact ih.addValue _ _
  | addOperand _ hadd ih =>
    obtain ⟨huser, -, rfl⟩ := ValueGraph.addOperand?_eq_some hadd
    exact ih.addOperand huser _
  | setOperands _ hset ih =>
    obtain ⟨huser, -, rfl⟩ := ValueGraph.setOperands?_eq_some hset
    exact ih.setOperands huser _

/-- No operation changes the size of pointers. -/
theorem Built.pointerSize (h : p.Built) : p.pointerSize = 4 ∨ p.pointerSize = 8 := by
  induction h with
  | new hnew =>
    obtain ⟨hsize, rfl⟩ := new_eq_ok hnew
    exact hsize
  | addFunction _ hadd ih =>
    obtain ⟨-, -, rfl⟩ := addFunction_eq_ok hadd
    exact ih
  | @addGlobal p g _ ih =>
    obtain ⟨values, hframe | ⟨-, bindings, hframe⟩⟩ := addGlobal_frame p g
    all_goals
      rw [hframe]
      exact ih
  | addAlias _ hadd ih =>
    obtain ⟨-, -, rfl⟩ := addAlias_eq_ok hadd
    exact ih
  | setAliasTarget _ hset ih =>
    obtain ⟨_, _, -, -, rfl⟩ := setAliasTarget_eq_ok hset
    exact ih
  | @appendToUsed p _ symbol _ happend ih =>
    obtain ⟨value, -, rfl⟩ := appendToUsed_eq_ok happend
    obtain ⟨values, used, usedSet, hframe⟩ := use_frame p symbol value
    rw [hframe]
    exact ih
  | appendToCompilerUsed _ happend ih =>
    obtain ⟨value, -, rfl⟩ := appendToCompilerUsed_eq_ok happend
    exact ih
  | reorderGlobals _ hreorder ih =>
    obtain ⟨globals, -, rfl⟩ := Outcome.map_eq_ok_iff.mp hreorder
    exact ih
  | changeFunctions _ _ ih | changeGlobals _ _ ih | addValue _ _ ih | addOperand _ _ ih
  | setOperands _ _ ih => exact ih

/-- The global objects lie below the next one, wherever they have been moved since. -/
theorem Built.global_lt (h : p.Built) : ∀ g ∈ p.globals.elems, g.id < p.globals.next := by
  induction h with
  | new hnew =>
    obtain ⟨-, rfl⟩ := new_eq_ok hnew
    exact fun g hg => absurd hg List.not_mem_nil
  | addFunction _ hadd ih =>
    obtain ⟨-, -, rfl⟩ := addFunction_eq_ok hadd
    exact ih
  | @addGlobal p g _ ih =>
    obtain ⟨values, hframe | ⟨-, bindings, hframe⟩⟩ := addGlobal_frame p g
    · rw [hframe]
      exact ih
    · rw [hframe]
      exact Roster.lt_next_insert (fun _ _ => rfl) ih g
  | addAlias _ hadd ih =>
    obtain ⟨-, -, rfl⟩ := addAlias_eq_ok hadd
    exact ih
  | setAliasTarget _ hset ih =>
    obtain ⟨_, _, -, -, rfl⟩ := setAliasTarget_eq_ok hset
    exact ih
  | @appendToUsed p _ symbol _ happend ih =>
    obtain ⟨value, -, rfl⟩ := appendToUsed_eq_ok happend
    obtain ⟨values, used, usedSet, hframe⟩ := use_frame p symbol value
    rw [hframe]
    exact ih
  | appendToCompilerUsed _ happend ih =>
    obtain ⟨value, -, rfl⟩ := appendToCompilerUsed_eq_ok happend
    exact ih
  | changeFunctions _ _ ih => exact ih
  | changeGlobals _ hids ih =>
    intro g hg
    have hmem : g.id ∈ Roster.ids _ := hids ▸ List.mem_map_of_mem hg
    obtain ⟨old, hold, heq⟩ := List.mem_map.mp hmem
    exact heq ▸ ih old hold
  | reorderGlobals _ hreorder ih =>
    obtain ⟨globals, hglobals, rfl⟩ := Outcome.map_eq_ok_iff.mp hreorder
    intro g hg
    exact Roster.next_of_reorder hglobals ▸ ih g ((Roster.perm_of_reorder hglobals).mem_iff.mp hg)
  | addValue _ _ ih | addOperand _ _ ih | setOperands _ _ ih => exact ih

end Program
end ThumbHardening
