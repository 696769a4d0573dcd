import ThumbHardening.Proofs.Program.Bindings

/-!
# Aliases in the value graph

An alias may be added before its target. It uses the value of its target only if the target was there when
the alias was pointed to it last, and has not been bound to another value since. The walk along the uses of
a function sees what an alias of it lets escape exactly along such uses.
-/

namespace ThumbHardening

/-- A change that builds a program up: a new symbol, another target for an alias, an entry of a list of kept
symbols, or a use by a value of its own. -/
inductive Construction where
  | function (f : Function)
  | global (g : GlobalObject)
  | aliased (name : String) (target : Symbol)
  | retarget (id : Nat) (target : Symbol)
  | keep (symbol : Symbol)
  | keepForCompiler (symbol : Symbol)
  | use (kind : ValueKind) (operands : List Nat)

namespace Program

variable {p q : Program} {symbol : Symbol} {value : Nat}

/-- The program after a change, if the change succeeds. -/
def construct? (p : Program) : Construction → Option Program
  | .function f => (p.addFunction f).toOption.map Prod.fst
  | .global g =>
    match p.addGlobal g with
    | (p, .ok _) => some p
    | (_, .error _) => none
  | .aliased name target => (p.addAlias name target).toOption.map Prod.fst
  | .retarget id target => (p.setAliasTarget id target).toOption
  | .keep symbol => (p.appendToUsed symbol).toOption
  | .keepForCompiler symbol => (p.appendToCompilerUsed symbol).toOption
  | .use kind operands => (p.values.add? kind operands).map fun values => { p with values }

def constructAll? (p : Program) (changes : List Construction) : Option Program :=
  changes.foldlM construct? p

/-- The change points the alias with this ID to this symbol. -/
def Points (p : Program) (id : Nat) (symbol : Symbol) : Construction → Prop
  | .aliased _ target => id = p.aliases.next ∧ symbol = target
  | .retarget id' target => id = id' ∧ symbol = target
  | _ => False

/-- Some change pointed the alias to the symbol while this was the value of the symbol. -/
def PointedTo (start : Program) (changes : List Construction) (id : Nat) (symbol : Symbol) (value : Nat) :
    Prop :=
  ∃ before change p, before ++ [change] <+: changes ∧ start.constructAll? before = some p ∧
    p.Points id symbol change ∧ p.valueOf? symbol = some value


/-- The value of an alias uses the value, and no other. -/
def Connected (p : Program) (id value : Nat) : Prop :=
  ∃ node, p.valueOf? (.aliased id) = some node ∧ p.values.operandsOf node = [value] ∧
    node ∈ p.values.usersOf value

/-- Aliases lead from the first symbol to the second. -/
inductive Leads (p : Program) : Symbol → Symbol → Prop
  | refl (symbol : Symbol) : Leads p symbol symbol
  | step {id : Nat} {a : Alias} {symbol : Symbol} : p.alias? id = some a → Leads p a.target symbol →
      Leads p (.aliased id) symbol

/-! ### The aliases there are -/

/-- Aliases have different IDs, all of which have been given out. -/
theorem Built.aliases (h : p.Built) : p.aliases.ids.Nodup ∧ ∀ id ∈ p.aliases.ids, id < p.aliases.next := by
  induction h with
  | new hnew =>
    obtain ⟨-, rfl⟩ := new_eq_ok hnew
    exact ⟨List.nodup_nil, fun _ hid => nomatch hid⟩
  | addFunction _ hadd ih =>
    obtain ⟨-, -, rfl⟩ := addFunction_eq_ok hadd
    exact ih
  | @addGlobal p g _ ih =>
    obtain ⟨values, hframe | ⟨-, bindings, hframe⟩⟩ := addGlobal_frame p g
    all_goals
      rw [hframe]
      exact ih
  | @addAlias p _ name target _ _ hadd ih =>
    obtain ⟨rfl, -, rfl⟩ := addAlias_eq_ok hadd
    have hids : (p.aliases.insert { name, target }).ids = p.aliases.ids ++ [p.aliases.next] :=
      Roster.ids_insert (fun _ _ => rfl) ..
    change (p.aliases.insert _).ids.Nodup ∧ ∀ id ∈ (p.aliases.insert _).ids, id < p.aliases.next + 1
    rw [hids, List.nodup_append_comm, List.singleton_append, List.nodup_cons, List.forall_mem_append,
      List.forall_mem_singleton]
    exact ⟨⟨fun hmem => Nat.lt_irrefl _ (ih.2 _ hmem), ih.1⟩,
      fun id hid => Nat.lt_succ_of_lt (ih.2 id hid), Nat.lt_succ_self _⟩
  | @setAliasTarget p _ id target _ hset ih =>
    obtain ⟨_, _, -, -, rfl⟩ := setAliasTarget_eq_ok hset
    have hids : (p.aliases.update id fun a => { a with target }).ids = p.aliases.ids :=
      Roster.ids_update fun _ => rfl
    rw [hids, Roster.next_update]
    exact ih
  | @appendToUsed p _ symbol _ happend ih =>
    obtain ⟨value, -, rfl⟩ := appendToUsed_eq_ok happend
    obtain ⟨values, used, usedSet, hframe⟩ := use_frame p symbol value
    rw [hframe]
    exact ih
  | appendToCompilerUsed _ happend ih =>
    obtain ⟨value, -, rfl⟩ := appendToCompilerUsed_eq_ok happend
    exact ih
  | reorderGlobals _ hreorder ih =>
    obtain ⟨globals, -, rfl⟩ := Outcome.map_eq_ok_iff.mp hreorder
    exact ih
  | changeFunctions _ _ ih | changeGlobals _ _ ih | addValue _ _ ih | addOperand _ _ ih | setOperands _ _ ih =>
    exact ih

/-- The value of a symbol is none of the lists. -/
theorem Tied.ne_list (h : p.Tied) (hlists : p.WellFormed) (hvalue : p.valueOf? symbol = some value) :
    value ≠ usedValue ∧ value ≠ compilerUsedValue := by
  have howner := h.owner symbol value hvalue
  constructor
  · rintro rfl
    rw [ValueGraph.kind?, hlists.usedList] at howner
    cases howner
  · rintro rfl
    rw [h.list] at howner
    cases howner

/-! ### One change -/

/-- What a change does to the aliases: it points one of them to a symbol, so that it uses the value that the
symbol has by then, and leaves the others alone. Symbols get new values only. -/
structure Constructed (p : Program) (change : Construction) (q : Program) : Prop where
  built : q.Built
  size_le : p.values.size ≤ q.values.size
  bound : ∀ symbol value, q.valueOf? symbol = some value → value < p.values.size →
    p.valueOf? symbol = some value
  aliases : ∀ a ∈ q.aliases.elems, ∃ node, q.valueOf? (.aliased a.id) = some node ∧
    ((p.Points a.id a.target change ∧ q.values.operandsOf node = (p.valueOf? a.target).toList) ∨
      ((∀ target, ¬ p.Points a.id target change) ∧ a ∈ p.aliases.elems ∧
        p.valueOf? (.aliased a.id) = some node ∧ q.values.operandsOf node = p.values.operandsOf node))

variable {change : Construction}

theorem mem_ids_of_mem_aliases {a : Alias} (h : a ∈ p.aliases.elems) : a.id ∈ p.aliases.ids :=
  List.mem_map_of_mem (f := Alias.id) h

theorem Built.exists_valueOf_alias (h : p.Built) {a : Alias} (ha : a ∈ p.aliases.elems) :
    ∃ node, p.valueOf? (.aliased a.id) = some node :=
  h.tied.bound _ (by simpa using mem_ids_of_mem_aliases ha)

/-- A change that concerns no alias. -/
theorem Constructed.of_kept (h : p.Built) (hbuilt : q.Built) (haliases : q.aliases = p.aliases)
    (hpoints : ∀ id target, ¬ p.Points id target change) (hsize : p.values.size ≤ q.values.size)
    (hbound : ∀ symbol value, q.valueOf? symbol = some value → value < p.values.size →
      p.valueOf? symbol = some value)
    (hvalues : ∀ id, q.valueOf? (.aliased id) = p.valueOf? (.aliased id))
    (hoperands : ∀ id node, p.valueOf? (.aliased id) = some node →
      q.values.operandsOf node = p.values.operandsOf node) : Constructed p change q := by
  refine ⟨hbuilt, hsize, hbound, fun a ha => ?_⟩
  rw [haliases] at ha
  obtain ⟨node, hnode⟩ := h.exists_valueOf_alias ha
  exact ⟨node, (hvalues a.id).trans hnode, .inr ⟨hpoints a.id, ha, hnode, hoperands _ _ hnode⟩⟩

theorem operandsOf_add_of_lt {g : ValueGraph} (h : value < g.size) (kind : ValueKind) (operands : List Nat) :
    (g.add kind operands).operandsOf value = g.operandsOf value := by
  rw [ValueGraph.operandsOf_add, if_neg (Nat.ne_of_lt h)]

/-- A new symbol that is no alias, bound after the values that it uses have been added. -/
theorem Constructed.of_bind {r : Program} {name : String} {kind : ValueKind} {operands : List Nat} (h : p.Built)
    (hbuilt : (r.bind name symbol kind operands).Built) (hpoints : ∀ id target, ¬ p.Points id target change)
    (hsymbol : ∀ id, Symbol.aliased id ≠ symbol) (haliases : r.aliases = p.aliases)
    (hbindings : r.bindings = p.bindings) (hsize : p.values.size ≤ r.values.size)
    (hkept : ∀ value < p.values.size, r.values.operandsOf value = p.values.operandsOf value) :
    Constructed p change (r.bind name symbol kind operands) := by
  have hvalues : ∀ other, r.valueOf? other = p.valueOf? other := by
    intro other
    rw [valueOf?, hbindings, valueOf?]
  have hgrows : (r.bind name symbol kind operands).values.size = r.values.size + 1 := ValueGraph.size_add ..
  refine .of_kept h hbuilt haliases hpoints (by omega) (fun other value hvalue hlt => ?_) (fun id => ?_)
    fun id node hnode => ?_
  · rw [valueOf?_bind] at hvalue
    split at hvalue
    · cases hvalue
      omega
    · rwa [hvalues] at hvalue
  · rw [valueOf?_bind, if_neg (hsymbol id), hvalues]
  · have hlt := h.tied.lt_size hnode
    exact (operandsOf_add_of_lt (hlt.trans_le hsize) ..).trans (hkept node hlt)

/-- Resolving the entries of an initializer leaves the values there are alone. -/
theorem operandsOf_resolveEntries (p : Program) (entries : List Pointer) :
    (p.resolveEntries entries).1.bindings = p.bindings ∧
      (p.resolveEntries entries).1.aliases = p.aliases ∧
      p.values.size ≤ (p.resolveEntries entries).1.values.size ∧
      ∀ value < p.values.size,
        (p.resolveEntries entries).1.values.operandsOf value = p.values.operandsOf value := by
  apply resolveEntries_induction (P := fun q => q.bindings = p.bindings ∧ q.aliases = p.aliases ∧
    p.values.size ≤ q.values.size ∧
    ∀ value < p.values.size, q.values.operandsOf value = p.values.operandsOf value) entries
  · exact ⟨rfl, rfl, Nat.le_refl _, fun _ _ => rfl⟩
  · intro q value hq
    obtain ⟨hbindings, haliases, hsize, hkept⟩ := hq
    have hgrows : (q.addBlockAddress value).values.size = q.values.size + 1 := ValueGraph.size_add ..
    refine ⟨hbindings, haliases, by omega, fun value hvalue => ?_⟩
    exact (operandsOf_add_of_lt (hvalue.trans_le hsize) ..).trans (hkept value hvalue)

/-- A value that is the operand of one more value. -/
theorem operandsOf_addOperand_of_ne {g : ValueGraph} {user operand : Nat} (huser : user < g.size)
    (hne : value ≠ user) : (g.addOperand user operand).operandsOf value = g.operandsOf value := by
  rw [ValueGraph.operandsOf_addOperand huser, if_neg hne]

theorem constructed_addAlias {name : String} {target : Symbol} {id : Nat} (h : p.Built)
    (hadd : p.addAlias name target = .ok (q, id)) : Constructed p (.aliased name target) q := by
  have hbuilt := Built.addAlias h hadd
  obtain ⟨rfl, -, rfl⟩ := addAlias_eq_ok hadd
  refine ⟨hbuilt, ?_, fun symbol value hvalue hlt => ?_, fun a ha => ?_⟩
  · exact (Nat.le_succ _).trans_eq (ValueGraph.size_add ..).symm
  · rw [valueOf?_bind] at hvalue
    split at hvalue
    · cases hvalue
      exact absurd hlt (Nat.lt_irrefl _)
    · exact hvalue
  · rcases List.mem_append.mp ha with hold | hnew
    · have hid := h.aliases.2 _ (mem_ids_of_mem_aliases hold)
      obtain ⟨node, hnode⟩ := h.exists_valueOf_alias hold
      refine ⟨node, ?_, .inr ⟨fun target hpoints => ?_, hold, hnode, ?_⟩⟩
      · rw [valueOf?_bind, if_neg fun heq => Nat.ne_of_lt hid (Symbol.aliased.inj heq)]
        exact hnode
      · exact Nat.ne_of_lt hid hpoints.1
      · exact operandsOf_add_of_lt (h.tied.lt_size hnode) ..
    · rw [List.mem_singleton.mp hnew]
      refine ⟨p.values.size, ?_, .inl ⟨⟨rfl, rfl⟩, ?_⟩⟩
      · rw [valueOf?_bind]
        exact if_pos rfl
      · exact (ValueGraph.operandsOf_add ..).trans (if_pos rfl)

theorem constructed_setAliasTarget {id : Nat} {target : Symbol} (h : p.Built)
    (hset : p.setAliasTarget id target = .ok q) : Constructed p (.retarget id target) q := by
  have hbuilt := Built.setAliasTarget h hset
  obtain ⟨value, aliasValue, hvalue, halias, rfl⟩ := setAliasTarget_eq_ok hset
  have hlt := h.tied.lt_size halias
  refine ⟨hbuilt, (ValueGraph.size_setOperands ..).ge, fun _ _ hbound _ => hbound, fun a ha => ?_⟩
  rw [Roster.update_eq_map h.aliases.1] at ha
  obtain ⟨old, hold, rfl⟩ := List.mem_map.mp ha
  have hoperands := ValueGraph.operandsOf_setOperands hlt [value]
  split
  · next hid =>
    have hid : old.id = id := hid
    subst hid
    refine ⟨aliasValue, halias, .inl ⟨⟨rfl, rfl⟩, ?_⟩⟩
    rw [hoperands, if_pos rfl, hvalue]
    rfl
  · next hid =>
    obtain ⟨node, hnode⟩ := h.exists_valueOf_alias hold
    refine ⟨node, hnode, .inr ⟨fun _ hpoints => hid hpoints.1, hold, hnode, ?_⟩⟩
    rw [hoperands, if_neg]
    rintro rfl
    exact hid (Symbol.aliased.inj (h.tied.symbol_unique hnode halias))

/-- A change does what it is meant to for the aliases. -/
theorem constructed_of_construct? (h : p.Built) (hchange : p.construct? change = some q) :
    Constructed p change q := by
  have hused : usedValue < p.values.size := ValueGraph.lt_size_of_kind? (g := p.values) h.wellFormed.usedList
  cases change with
  | function f =>
    obtain ⟨⟨q', id⟩, hadd, rfl⟩ := Option.map_eq_some_iff.mp hchange
    rw [Outcome.toOption_eq_some_iff] at hadd
    have hbuilt := Built.addFunction h hadd
    obtain ⟨rfl, -, rfl⟩ := addFunction_eq_ok hadd
    exact .of_bind h hbuilt (fun _ _ => id) (by simp) rfl rfl (Nat.le_refl _) fun _ _ => rfl
  | global g =>
    have hbuilt := Built.addGlobal g h
    rw [construct?] at hchange
    split at hchange
    · next r id hadd =>
      cases hchange
      rw [hadd] at hbuilt
      obtain ⟨hbindings, haliases, hsize, hkept⟩ :=
        operandsOf_resolveEntries p ((g.initializer.map Initializer.entries).getD [])
      rw [addGlobal] at hadd
      split at hadd
      · split at hadd
        · cases hadd
        · next hentries =>
          cases hadd
          rw [hentries] at hbindings haliases hsize hkept
          exact .of_bind h hbuilt (fun _ _ => id) (by simp) haliases hbindings hsize hkept
      · cases hadd
    · cases hchange
  | aliased name target =>
    obtain ⟨⟨q', id⟩, hadd, rfl⟩ := Option.map_eq_some_iff.mp hchange
    exact constructed_addAlias h (Outcome.toOption_eq_some_iff.mp hadd)
  | retarget id target => exact constructed_setAliasTarget h (Outcome.toOption_eq_some_iff.mp hchange)
  | keep symbol =>
    have happend := Outcome.toOption_eq_some_iff.mp hchange
    have hbuilt := Built.appendToUsed h happend
    obtain ⟨value, -, rfl⟩ := appendToUsed_eq_ok happend
    rw [use] at hbuilt ⊢
    split
    · exact .of_kept h h rfl (fun _ _ => id) (Nat.le_refl _) (fun _ _ hbound _ => hbound) (fun _ => rfl)
        fun _ _ _ => rfl
    · next hnew =>
      rw [if_neg hnew] at hbuilt
      refine .of_kept h hbuilt rfl (fun _ _ => id) (ValueGraph.size_addOperand ..).ge
        (fun _ _ hbound _ => hbound) (fun _ => rfl) fun id node hnode => ?_
      exact operandsOf_addOperand_of_ne hused (h.tied.ne_list h.wellFormed hnode).1
  | keepForCompiler symbol =>
    have happend := Outcome.toOption_eq_some_iff.mp hchange
    have hbuilt := Built.appendToCompilerUsed h happend
    obtain ⟨value, -, rfl⟩ := appendToCompilerUsed_eq_ok happend
    refine .of_kept h hbuilt rfl (fun _ _ => id) (ValueGraph.size_addOperand ..).ge
      (fun _ _ hbound _ => hbound) (fun _ => rfl) fun id node hnode => ?_
    exact operandsOf_addOperand_of_ne h.wellFormed.compilerUsed (h.tied.ne_list h.wellFormed hnode).2
  | use kind operands =>
    obtain ⟨values, hadd, rfl⟩ := Option.map_eq_some_iff.mp hchange
    have hbuilt := Built.addValue h hadd
    obtain ⟨-, rfl⟩ := ValueGraph.add?_eq_some hadd
    refine .of_kept h hbuilt rfl (fun _ _ => id) ?_ (fun _ _ hbound _ => hbound) (fun _ => rfl)
      fun id node hnode => ?_
    · exact (Nat.le_succ _).trans_eq (ValueGraph.size_add ..).symm
    · exact operandsOf_add_of_lt (h.tied.lt_size hnode) ..

/-! ### Many changes -/

variable {start : Program} {changes : List Construction} {id : Nat}

theorem constructAll?_concat :
    start.constructAll? (changes ++ [change]) = some q
      ↔ ∃ p, start.constructAll? changes = some p ∧ p.construct? change = some q := by
  rw [constructAll?, List.foldlM_append, ← constructAll?]
  cases start.constructAll? changes <;> simp

theorem pointedTo_concat :
    start.PointedTo (changes ++ [change]) id symbol value
      ↔ start.PointedTo changes id symbol value ∨ ∃ p, start.constructAll? changes = some p ∧
        p.Points id symbol change ∧ p.valueOf? symbol = some value := by
  constructor
  · intro hparts
    obtain ⟨before, last, p, hprefix, hparts⟩ := hparts
    rcases List.prefix_concat_iff.mp hprefix with heq | hprefix
    · obtain ⟨rfl, hlast⟩ := List.append_inj' heq rfl
      cases hlast
      exact .inr ⟨p, hparts⟩
    · exact .inl ⟨before, last, p, hprefix, hparts⟩
  · rintro (⟨before, last, p, hprefix, hparts⟩ | ⟨p, hparts⟩)
    · exact ⟨before, last, p, hprefix.trans (List.prefix_append ..), hparts⟩
    · exact ⟨changes, change, p, List.prefix_rfl, hparts⟩

/-- What holds of the aliases after a number of changes: each has used what it was pointed to, if that had a
value by then, and uses the value that its target has now if it ever was pointed to that. -/
structure Traced (start : Program) (changes : List Construction) (p : Program) : Prop where
  built : p.Built
  lt_size : ∀ id symbol value, start.PointedTo changes id symbol value → value < p.values.size
  aliases : ∀ a ∈ p.aliases.elems, ∃ node, p.valueOf? (.aliased a.id) = some node ∧
    (∀ value ∈ p.values.operandsOf node, start.PointedTo changes a.id a.target value) ∧
    ∀ value, start.PointedTo changes a.id a.target value → p.valueOf? a.target = some value →
      p.values.operandsOf node = [value]

theorem Traced.construct (h : Traced start changes p) (hrun : start.constructAll? changes = some p)
    (hchange : p.construct? change = some q) : Traced start (changes ++ [change]) q := by
  have hstep := constructed_of_construct? h.built hchange
  have hsplit : ∀ {id symbol value}, start.PointedTo (changes ++ [change]) id symbol value ↔
      start.PointedTo changes id symbol value ∨
        (p.Points id symbol change ∧ p.valueOf? symbol = some value) := by
    intro id symbol value
    rw [pointedTo_concat, hrun]
    simp
  have hlt : ∀ {id symbol value}, start.PointedTo (changes ++ [change]) id symbol value →
      value < p.values.size := by
    intro id symbol value hpointed
    rcases hsplit.mp hpointed with hold | ⟨-, hvalue⟩
    · exact h.lt_size id symbol value hold
    · exact h.built.tied.lt_size hvalue
  refine ⟨hstep.built, fun id symbol value hpointed => (hlt hpointed).trans_le hstep.size_le, fun a ha => ?_⟩
  obtain ⟨node, hnode, ⟨hpoints, hoperands⟩ | ⟨hpoints, hold, hnode', hoperands⟩⟩ := hstep.aliases a ha
  · refine ⟨node, hnode, fun value hvalue => ?_, fun value hpointed hvalue => ?_⟩
    · rw [hoperands, Option.mem_toList] at hvalue
      exact hsplit.mpr (.inr ⟨hpoints, hvalue⟩)
    -- A value that is bound now and was there before was bound before.
    · rw [hoperands, hstep.bound _ _ hvalue (hlt hpointed), Option.toList_some]
  · obtain ⟨other, hother, hfrom, hto⟩ := h.aliases a hold
    rw [hnode'] at hother
    cases hother
    refine ⟨node, hnode, fun value hvalue => ?_, fun value hpointed hvalue => ?_⟩
    · rw [hoperands] at hvalue
      exact hsplit.mpr (.inl (hfrom value hvalue))
    · have hbefore := hstep.bound _ _ hvalue (hlt hpointed)
      rw [hoperands]
      exact hto value ((hsplit.mp hpointed).resolve_right fun hnow => hpoints _ hnow.1) hbefore

theorem traced_constructAll {pointerSize : Nat} (hnew : Program.new pointerSize = .ok start)
    (hrun : start.constructAll? changes = some p) : Traced start changes p := by
  induction changes using List.reverseRecOn generalizing p with
  | nil =>
    cases hrun
    have hnone : start.aliases.elems = [] := by
      obtain ⟨-, rfl⟩ := new_eq_ok hnew
      rfl
    refine ⟨.new hnew, fun id symbol value hpointed => ?_, fun a ha => ?_⟩
    · obtain ⟨before, last, q, hprefix, -⟩ := hpointed
      simp at hprefix
    · rw [hnone] at ha
      cases ha
  | append_singleton changes change ih =>
    obtain ⟨q, hbefore, hchange⟩ := constructAll?_concat.mp hrun
    exact (ih hbefore).construct hbefore hchange

theorem Traced.connected_iff (h : Traced start changes p) {a : Alias} (ha : a ∈ p.aliases.elems)
    (hvalue : p.valueOf? a.target = some value) :
    p.Connected a.id value ↔ start.PointedTo changes a.id a.target value := by
  obtain ⟨node, hnode, hfrom, hto⟩ := h.aliases a ha
  constructor
  · intro hparts
    obtain ⟨other, hother, hoperands, -⟩ := hparts
    rw [hnode] at hother
    cases hother
    exact hfrom value (hoperands ▸ List.mem_singleton_self value)
  · intro hpointed
    have hoperands := hto value hpointed hvalue
    refine ⟨node, hnode, hoperands, (h.built.tied.uses value node).mpr ?_⟩
    exact hoperands ▸ List.mem_singleton_self value

/-! ### Uses of aliases -/

theorem Connected.handsOn (h : p.Tied) (hconnected : p.Connected id value) {node : Nat}
    (hnode : p.valueOf? (.aliased id) = some node) :
    node ∈ p.values.usersOf value ∧ p.values.effectOf value node = .handsOn := by
  obtain ⟨other, hother, -, huser⟩ := hconnected
  rw [hnode] at hother
  cases hother
  refine ⟨huser, ?_⟩
  obtain ⟨kind, hkind, howner⟩ := Option.bind_eq_some_iff.mp (h.owner _ _ hnode)
  obtain ⟨n, hn, rfl⟩ := Option.map_eq_some_iff.mp hkind
  rw [ValueGraph.effectOf_of_node? hn, ValueNode.effectOn]
  revert howner
  cases n.kind with
  | aliased other => exact fun _ => rfl
  | global id name => cases id <;> simp [ValueKind.symbol?]
  | _ => simp [ValueKind.symbol?]

/-- The value of a function gets into the aliases that lead to it as long as each is connected to its target. -/
theorem carries_of_follow (h : p.Tied) {limit function : Nat} {seen : List Nat}
    (hfollow : p.follow limit seen symbol = .ok function)
    (hconnected : ∀ id a, p.Leads symbol (.aliased id) → p.alias? id = some a →
      ∃ value, p.valueOf? a.target = some value ∧ p.Connected id value)
    (hvalue : p.valueOf? symbol = some value) :
    ∃ root, p.valueOf? (.function function) = some root ∧ p.values.Carries root value := by
  fun_induction p.follow limit seen symbol generalizing value with
  | case1 limit seen id hcontains =>
    cases hfollow
    exact ⟨value, hvalue, .refl⟩
  | case2 | case3 | case4 | case5 | case6 | case7 => cases hfollow
  | case8 seen id a ha hseen limit ih =>
    obtain ⟨next, hnext, hfirst⟩ := hconnected id a (.refl _) ha
    obtain ⟨root, hroot, hcarries⟩ := ih hfollow (fun id b hleads => hconnected id b (.step ha hleads)) hnext
    obtain ⟨huser, heffect⟩ := hfirst.handsOn h hvalue
    exact ⟨root, hroot, .step hcarries huser heffect⟩

theorem carries_trans {g : ValueGraph} {first second third : Nat} (h : g.Carries first second)
    (h' : g.Carries second third) : g.Carries first third := by
  induction h' with
  | refl => exact h
  | step _ huser heffect ih => exact .step ih huser heffect

/-- In a program built change by change, an alias is connected to its target exactly if some change pointed it
there while the target had the value that it has now. Whatever lets the value of an alias escape lets the
address of the function escape that the alias resolves to, if all aliases passed on the way are connected
so. -/
theorem connected_iff_pointedTo {pointerSize : Nat} (hnew : Program.new pointerSize = .ok start)
    (hrun : start.constructAll? changes = some p) :
    (∀ a ∈ p.aliases.elems, p.hasSymbol a.target = true → ∃ value, p.valueOf? a.target = some value ∧
      (p.Connected a.id value ↔ start.PointedTo changes a.id a.target value)) ∧
    ∀ f ∈ p.functions.elems, ∀ a ∈ p.aliases.elems, p.resolveFunction (.aliased a.id) = .ok f.id →
      (∀ passed ∈ p.aliases.elems, p.Leads (.aliased a.id) (.aliased passed.id) →
        ∃ value, p.valueOf? passed.target = some value ∧
          start.PointedTo changes passed.id passed.target value) →
      ∃ node, p.valueOf? (.aliased a.id) = some node ∧
        (p.values.Escapes node → p.addressEscapes f = f.addressTaken) := by
  have htraced := traced_constructAll hnew hrun
  have htied := htraced.built.tied
  constructor
  · intro a ha htarget
    obtain ⟨value, hvalue⟩ := htied.bound _ htarget
    exact ⟨value, hvalue, htraced.connected_iff ha hvalue⟩
  · intro f _ a ha hresolve hpointed
    obtain ⟨node, hnode⟩ := htraced.built.exists_valueOf_alias ha
    refine ⟨node, hnode, fun hescapes => ?_⟩
    have hconnected : ∀ id b, p.Leads (.aliased a.id) (.aliased id) → p.alias? id = some b →
        ∃ value, p.valueOf? b.target = some value ∧ p.Connected id value := by
      intro id b hleads hb
      have hid : b.id = id := Roster.id_of_get? hb
      subst hid
      obtain ⟨value, hvalue, hpointed⟩ := hpointed b (Roster.mem_of_get? hb) hleads
      exact ⟨value, hvalue, (htraced.connected_iff (Roster.mem_of_get? hb) hvalue).mpr hpointed⟩
    obtain ⟨root, hroot, hcarries⟩ := carries_of_follow htied hresolve hconnected hnode
    obtain ⟨value, hvalue, hlets⟩ := hescapes
    rw [Bool.eq_iff_iff, addressEscapes_iff]
    exact and_iff_left ⟨root, hroot, value, carries_trans hcarries hvalue, hlets⟩

/-- An empty program, built up. -/
def builtFrom (changes : List Construction) : Program :=
  let start := (Program.new 4).toOption.getD { pointerSize := 4 }
  (start.constructAll? changes).getD start

/-- A handler with an alias that is stored; the alias is added behind the handler. -/
def handlerFirst : List Construction :=
  [.function { name := "handler", addressTaken := true }, .aliased "entry" (.function 1), .use .store [3]]

theorem connected_iff_pointedTo_handlerFirst :
    Program.new 4 = .ok (builtFrom []) ∧
      (builtFrom []).constructAll? handlerFirst = some (builtFrom handlerFirst) ∧
      (builtFrom handlerFirst).Connected 1 2 ∧
      ∃ f ∈ (builtFrom handlerFirst).functions.elems,
        (builtFrom handlerFirst).resolveFunction (.aliased 1) = .ok f.id ∧
        (builtFrom handlerFirst).addressEscapes f = true := by
  have hnew : Program.new 4 = .ok (builtFrom []) := rfl
  have hrun : (builtFrom []).constructAll? handlerFirst = some (builtFrom handlerFirst) := rfl
  obtain ⟨hconnected, hescapes⟩ := connected_iff_pointedTo hnew hrun
  have hpointed : (builtFrom []).PointedTo handlerFirst 1 (.function 1) 2 :=
    ⟨[.function { name := "handler", addressTaken := true }], .aliased "entry" (.function 1), _,
      ⟨[.use .store [3]], rfl⟩, rfl, ⟨rfl, rfl⟩, rfl⟩
  have haliases : (builtFrom handlerFirst).aliases.elems = [⟨1, "entry", .function 1⟩] := by decide
  simp only [haliases, List.forall_mem_singleton] at hconnected hescapes
  obtain ⟨value, hvalue, hiff⟩ := hconnected (by decide)
  obtain rfl : 2 = value := Option.some.inj hvalue
  obtain ⟨node, hnode, hsame⟩ :=
    hescapes _ (List.mem_singleton_self _) (by decide) fun _ => ⟨2, rfl, hpointed⟩
  obtain rfl : 3 = node := Option.some.inj hnode
  exact ⟨hnew, hrun, hiff.mpr hpointed, _, List.mem_singleton_self _, by decide,
    hsame ⟨3, .refl, 4, by decide, by decide⟩⟩

/-- The same the other way round: the alias is added before the handler. -/
def aliasFirst : List Construction :=
  [.aliased "entry" (.function 1), .function { name := "handler", addressTaken := true }, .use .store [2]]

/-- An alias that is added before its target is not connected to it, and its uses are not seen. -/
theorem not_connected_aliasFirst :
    Program.new 4 = .ok (builtFrom []) ∧
      (builtFrom []).constructAll? aliasFirst = some (builtFrom aliasFirst) ∧
      (builtFrom aliasFirst).alias? 1 = some ⟨1, "entry", .function 1⟩ ∧
      (builtFrom aliasFirst).hasSymbol (.function 1) = true ∧
      (∀ value, ¬ (builtFrom aliasFirst).Connected 1 value) ∧
      ∃ f ∈ (builtFrom aliasFirst).functions.elems,
        (builtFrom aliasFirst).resolveFunction (.aliased 1) = .ok f.id ∧ f.addressTaken = true ∧
        (∃ node, (builtFrom aliasFirst).valueOf? (.aliased 1) = some node ∧
          (builtFrom aliasFirst).values.Escapes node) ∧
        (builtFrom aliasFirst).addressEscapes f = false := by
  refine ⟨rfl, rfl, by decide, by decide, fun value hconnected => ?_, _, List.mem_singleton_self _, by decide,
    rfl, ⟨2, rfl, 2, .refl, 4, by decide, by decide⟩, by decide⟩
  obtain ⟨node, hnode, hoperands, -⟩ := hconnected
  cases hnode
  cases hoperands

end Program
end ThumbHardening
