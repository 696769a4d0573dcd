import ThumbHardening.Proofs.Program.Names
import ThumbHardening.Proofs.Program.Refusals
import ThumbHardening.Proofs.Program.Used

/-!
# Symbols in step

A program knows its symbols from several sides: by their IDs, by the table of names, by their values, and some of
them as used ones, on a list and in a set. Requests that are served keep the sides in step, and so do those that
are refused, as long as what they bring along has no ID yet. What a search by name finds is what an account of the
names that are taken would say, and the used symbols are those that were asked for.
-/

namespace ThumbHardening

/-- The kind of the value of a symbol with this name. -/
def Symbol.kind (name : String) : Symbol → ValueKind
  | .function id => .function id
  | .global id => .global (some id) name
  | .aliased id => .aliased id

/-- Whether what a request brings along has no ID yet. -/
def Request.IsNew : Request → Prop
  | .addFunction f => f.id = 0
  | .addGlobal g => g.id = 0
  | .addAlias _ _ | .setAliasTarget _ _ | .appendToUsed _ | .appendToCompilerUsed _ => True

namespace Program

variable {p q : Program} {name : String} {symbol : Symbol} {r : Request}

/-! ### Requests one after the other -/

/-- The program after a number of requests, whether or not they are refused. -/
def serveAll (p : Program) (requests : List Request) : Program :=
  requests.foldl (fun p r => (p.serve r).1) p

/-- What is noted about each of a number of requests, if anything. -/
def account {α : Type} (note : Program → Request → Option α) (p : Program) : List Request → List α
  | [] => []
  | r :: rest => (note p r).toList ++ account note (p.serve r).1 rest

/-- The name that a request takes, with the symbol that gets it. -/
def named? (p : Program) : Request → Option (String × Symbol)
  | .addFunction f => (p.addFunction f).toOption.map fun added => (f.name, .function added.2)
  | .addGlobal g => (p.addGlobal g).2.toOption.map fun id => (g.name, .global id)
  | .addAlias name target => (p.addAlias name target).toOption.map fun added => (name, .aliased added.2)
  | .setAliasTarget _ _ | .appendToUsed _ | .appendToCompilerUsed _ => none

/-- The symbol that a request asks to keep, if it exists. -/
def kept? (p : Program) : Request → Option Symbol
  | .appendToUsed symbol => (p.appendToUsed symbol).toOption.map fun _ => symbol
  | _ => none

theorem serveAll_concat (p : Program) (requests : List Request) (r : Request) :
    p.serveAll (requests ++ [r]) = ((p.serveAll requests).serve r).1 :=
  List.foldl_concat ..

theorem account_concat {α : Type} (note : Program → Request → Option α) (p : Program) (requests : List Request)
    (r : Request) :
    p.account note (requests ++ [r]) = p.account note requests ++ (note (p.serveAll requests) r).toList := by
  induction requests generalizing p with
  | nil => simp [account, serveAll]
  | cons first rest ih =>
    rw [List.cons_append, account, ih, account, List.append_assoc]
    rfl

/-! ### One request -/

theorem hasSymbol_iff_mem_entries : p.hasSymbol symbol = true ↔ symbol ∈ p.entries.map Prod.snd := by
  rw [map_snd_entries]
  cases symbol <;> simp

/-- What a request does to the symbols, given the name that it takes and the symbol that it asks to keep. -/
structure Served (p q : Program) (named : Option (String × Symbol)) (kept : Option Symbol) : Prop where
  built : q.Built
  entries : q.entries.Perm (named.toList ++ p.entries)
  names : q.names = named.toList ++ p.names
  free : ∀ entry ∈ named, p.isFreeName entry.1 = true ∧ p.hasSymbol entry.2 = false
  bound : ∀ symbol value, p.valueOf? symbol = some value → q.valueOf? symbol = some value
  kinds : ∀ value kind, p.values.kind? value = some kind → q.values.kind? value = some kind
  value : ∀ entry ∈ named, ∃ value, q.valueOf? entry.2 = some value ∧
    q.values.kind? value = some (entry.2.kind entry.1)
  used : ∀ symbol, symbol ∈ q.used ↔ symbol ∈ p.used ∨ symbol ∈ kept
  operands : p.used.map p.valueOf? = (p.values.operandsOf usedValue).map some →
    q.used.map q.valueOf? = (q.values.operandsOf usedValue).map some

namespace Served

/-- A request that takes no name and keeps no symbol. -/
theorem of_same (hbuilt : q.Built) (hentries : q.entries = p.entries) (hnames : q.names = p.names)
    (hbindings : q.bindings = p.bindings)
    (hkinds : ∀ value kind, p.values.kind? value = some kind → q.values.kind? value = some kind)
    (hused : q.used = p.used) (hoperands : q.values.operandsOf usedValue = p.values.operandsOf usedValue) :
    Served p q none none := by
  have hvalues := valueOf?_congr hbindings
  refine ⟨hbuilt, .of_eq hentries, hnames, by simp, fun symbol value hvalue => ?_, hkinds, by simp, by simp [hused],
    fun hlist => ?_⟩
  · rwa [hvalues]
  · rw [hused, hoperands, ← hlist]
    exact List.map_congr_left fun symbol _ => hvalues symbol

/-- A request that brings a new symbol, which is bound after the values that it uses have been added. -/
theorem of_bind {operands : List Nat} {kind : ValueKind} (h : p.Built)
    (hbuilt : (q.bind name symbol kind operands).Built) (hfree : p.isFreeName name = true)
    (hnew : p.hasSymbol symbol = false) (hentries : q.entries.Perm ((name, symbol) :: p.entries))
    (hnames : q.names = p.names) (hkind : kind = symbol.kind name) (hbindings : q.bindings = p.bindings)
    (hused : q.used = p.used)
    (hkinds : ∀ value kind, p.values.kind? value = some kind → q.values.kind? value = some kind)
    (hoperands : q.values.operandsOf usedValue = p.values.operandsOf usedValue) :
    Served p (q.bind name symbol kind operands) (some (name, symbol)) none := by
  have hvalues := valueOf?_congr hbindings
  have hlist : usedValue < q.values.size :=
    ValueGraph.lt_size_of_kind? (hkinds _ _ (show p.values.kind? usedValue = _ from h.wellFormed.usedList))
  have hbound : ∀ other value, p.valueOf? other = some value →
      (q.bind name symbol kind operands).valueOf? other = some value := by
    intro other value hvalue
    rw [valueOf?_bind, if_neg, hvalues]
    · exact hvalue
    · rintro rfl
      rw [h.boundExist other value hvalue] at hnew
      cases hnew
  refine ⟨hbuilt, hentries, congrArg ((name, symbol) :: ·) hnames, ?_, hbound, fun value kind' hkind' => ?_, ?_,
    by simp [Program.bind, hused], fun hlisted => ?_⟩
  · rintro _ ⟨⟩
    exact ⟨hfree, hnew⟩
  · exact ValueGraph.kind?_add_of_some (hkinds value kind' hkind') ..
  · rintro _ ⟨⟩
    refine ⟨q.values.size, by rw [valueOf?_bind, if_pos rfl], ?_⟩
    exact (ValueGraph.kind_add ..).trans (by rw [if_pos rfl, hkind])
  · change q.used.map _ = ((q.values.add kind operands).operandsOf usedValue).map some
    rw [operandsOf_add_of_lt hlist, hoperands, hused, ← hlisted]
    refine List.map_congr_left fun other hother => ?_
    obtain ⟨value, hvalue⟩ := h.recorded.bound other hother
    rw [hvalue]
    exact hbound other value hvalue

theorem refl (h : p.Built) : Served p p none none :=
  .of_same h rfl rfl rfl (fun _ _ => id) rfl rfl

end Served

/-- Resolving the entries of an initializer keeps the kinds of the values there are. -/
theorem kind?_resolveEntries (p : Program) (entries : List Pointer) (value : Nat) (kind : ValueKind)
    (h : p.values.kind? value = some kind) : (p.resolveEntries entries).1.values.kind? value = some kind :=
  resolveEntries_induction (P := fun q => q.values.kind? value = some kind) entries h
    fun _ _ hq => ValueGraph.kind?_add_of_some hq ..

theorem served_addFunction (h : p.Built) {f : Function} (hid : f.id = 0) :
    Served p (p.serve (.addFunction f)).1 (p.named? (.addFunction f)) none := by
  rw [serve, named?]
  cases hadd : p.addFunction f with
  | error e => exact .refl h
  | ok added =>
    obtain ⟨q, id⟩ := added
    have hbuilt := Built.addFunction h hadd
    obtain ⟨rfl, hfree, rfl⟩ := addFunction_eq_ok hadd
    rw [Roster.idFor_of_id_eq_zero hid] at hbuilt ⊢
    refine .of_bind h hbuilt hfree ?_ (entries_insertFunction hid) rfl rfl rfl rfl (fun _ _ => id) rfl
    simpa using Roster.next_notMem_ids h.wellFormed.functions

theorem served_addGlobal (h : p.Built) {g : GlobalObject} (hid : g.id = 0) :
    Served p (p.serve (.addGlobal g)).1 (p.named? (.addGlobal g)) none := by
  obtain ⟨values, hframe⟩ := resolveEntries_frame p ((g.initializer.map Initializer.entries).getD [])
  have hkinds := kind?_resolveEntries p ((g.initializer.map Initializer.entries).getD [])
  obtain ⟨-, -, -, hoperands⟩ := operandsOf_resolveEntries p ((g.initializer.map Initializer.entries).getD [])
  have hlist := hoperands usedValue
    (ValueGraph.lt_size_of_kind? (show p.values.kind? usedValue = _ from h.wellFormed.usedList))
  have hbuilt := Built.addGlobal g h
  rw [serve, named?]
  cases hadd : p.addGlobal g with
  | mk q outcome =>
    rw [hadd] at hbuilt
    rw [addGlobal] at hadd
    split at hadd
    · next hfree =>
      split at hadd
      · next hentries =>
        cases hadd
        rw [hentries] at hframe hkinds hlist
        subst hframe
        exact .of_same hbuilt rfl rfl rfl hkinds rfl hlist
      · next hentries =>
        cases hadd
        rw [hentries] at hframe hkinds hlist
        subst hframe
        dsimp only at hbuilt ⊢
        rw [Roster.idFor_of_id_eq_zero hid] at hbuilt ⊢
        refine .of_bind h hbuilt hfree ?_ (entries_insertGlobal (p := { p with values }) hid) rfl rfl rfl rfl hkinds
          hlist
        simpa using Roster.next_notMem_ids h.global_lt
    · cases hadd
      exact .refl h

theorem served_addAlias (h : p.Built) (name : String) (target : Symbol) :
    Served p (p.serve (.addAlias name target)).1 (p.named? (.addAlias name target)) none := by
  rw [serve, named?]
  cases hadd : p.addAlias name target with
  | error e => exact .refl h
  | ok added =>
    obtain ⟨q, id⟩ := added
    have hbuilt := Built.addAlias h hadd
    obtain ⟨rfl, hfree, rfl⟩ := addAlias_eq_ok hadd
    refine .of_bind h hbuilt hfree ?_ (entries_insertAlias name target) rfl rfl rfl rfl (fun _ _ => id) rfl
    rw [hasSymbol_aliased, Bool.eq_false_iff, ne_eq, List.contains_iff_mem]
    exact fun hmem => Nat.lt_irrefl _ (h.aliases.2 _ hmem)

/-- Pointing an alias elsewhere changes what the alias uses, and the list of used symbols is no alias. -/
theorem served_setAliasTarget (h : p.Built) (id : Nat) (target : Symbol) :
    Served p (p.serve (.setAliasTarget id target)).1 none none := by
  rw [serve]
  cases hset : p.setAliasTarget id target with
  | error e => exact .refl h
  | ok q =>
    change Served p q none none
    have hbuilt := Built.setAliasTarget h hset
    obtain ⟨value, aliasValue, -, halias, rfl⟩ := setAliasTarget_eq_ok hset
    refine .of_same hbuilt ?_ rfl rfl (fun value kind => ?_) rfl ?_
    · have hview : (p.aliases.update id fun a => { a with target }).elems.map
          (fun a => (a.name, Symbol.aliased a.id)) = p.aliases.elems.map fun a => (a.name, Symbol.aliased a.id) :=
        Roster.map_update fun _ _ => rfl
      rw [entries, hview, entries]
    · exact (ValueGraph.kind?_setOperands ..).trans
    · rw [ValueGraph.operandsOf_setOperands (h.tied.lt_size halias), if_neg]
      exact (h.tied.ne_list h.wellFormed halias).1.symm

theorem served_appendToCompilerUsed (h : p.Built) (symbol : Symbol) :
    Served p (p.serve (.appendToCompilerUsed symbol)).1 none none := by
  rw [serve]
  cases happend : p.appendToCompilerUsed symbol with
  | error e => exact .refl h
  | ok q =>
    change Served p q none none
    have hbuilt := Built.appendToCompilerUsed h happend
    obtain ⟨value, -, rfl⟩ := appendToCompilerUsed_eq_ok happend
    refine .of_same hbuilt rfl rfl rfl (fun value kind => (ValueGraph.kind?_addOperand ..).trans) rfl ?_
    exact operandsOf_addOperand_of_ne h.wellFormed.compilerUsed (by decide)

theorem served_appendToUsed (h : p.Built) (symbol : Symbol) :
    Served p (p.serve (.appendToUsed symbol)).1 none (p.kept? (.appendToUsed symbol)) := by
  rw [serve, kept?]
  cases happend : p.appendToUsed symbol with
  | error e => exact .refl h
  | ok q =>
    change Served p q none (some symbol)
    have hbuilt := Built.appendToUsed h happend
    obtain ⟨value, hvalue, rfl⟩ := appendToUsed_eq_ok happend
    rw [use] at hbuilt ⊢
    split
    · next hold =>
      have hmem : ∀ other ∈ some symbol, other ∈ p.used := by
        rintro _ ⟨⟩
        exact h.isUsed_iff.mp hold
      exact { Served.refl h with used := fun other => (or_iff_left_of_imp (hmem other)).symm }
    · next hnew =>
      rw [if_neg hnew] at hbuilt
      have hlist : usedValue < p.values.size :=
        ValueGraph.lt_size_of_kind? (show p.values.kind? usedValue = _ from h.wellFormed.usedList)
      refine ⟨hbuilt, .refl _, rfl, by simp, fun _ _ => id, fun value kind => (ValueGraph.kind?_addOperand ..).trans,
        by simp, by simp [eq_comm], fun hlisted => ?_⟩
      change (p.used ++ [symbol]).map p.valueOf? = ((p.values.addOperand _ _).operandsOf usedValue).map some
      rw [ValueGraph.operandsOf_addOperand hlist, if_pos rfl, List.map_append, List.map_append, hlisted]
      simp [hvalue]

/-- What a request does to the symbols, whether or not it is refused. -/
theorem served (h : p.Built) (hnew : r.IsNew) : Served p (p.serve r).1 (p.named? r) (p.kept? r) := by
  cases r with
  | addFunction f => exact served_addFunction h hnew
  | addGlobal g => exact served_addGlobal h hnew
  | addAlias name target => exact served_addAlias h name target
  | setAliasTarget id target => exact served_setAliasTarget h id target
  | appendToUsed symbol => exact served_appendToUsed h symbol
  | appendToCompilerUsed symbol => exact served_appendToCompilerUsed h symbol

/-! ### All requests -/

/-- In a list of pairs with different first parts, a search finds exactly the pairs that there are. -/
theorem lookup_eq_some_iff_mem {pairs : List (String × Symbol)} (h : (pairs.map Prod.fst).Nodup) :
    pairs.lookup name = some symbol ↔ (name, symbol) ∈ pairs := by
  induction pairs with
  | nil => simp
  | cons first rest ih =>
    obtain ⟨key, value⟩ := first
    obtain ⟨hkey, hrest⟩ := List.nodup_cons.mp h
    rw [List.lookup_cons, List.mem_cons, Prod.mk.injEq]
    by_cases heq : name = key
    · subst heq
      have habsent : (name, symbol) ∉ rest := fun hmem => hkey (List.mem_map.mpr ⟨_, hmem, rfl⟩)
      simp [habsent, eq_comm]
    · simp [beq_eq_false_iff_ne.mpr heq, heq, ih hrest]

/-- What is different in all parts of a list stays so if the next one has something new there. -/
theorem nodup_map_append_toList {α β : Type} {view : α → β} {taken : List α} {next : Option α}
    (h : (taken.map view).Nodup) (hnew : ∀ entry ∈ next, view entry ∉ taken.map view) :
    ((taken ++ next.toList).map view).Nodup := by
  cases next with
  | none => simpa using h
  | some entry =>
    rw [Option.toList_some, List.map_append, List.map_singleton]
    exact (List.perm_append_singleton ..).nodup_iff.mpr (h.cons (hnew entry rfl))

/-- A program whose symbols are those of a list of names that are taken, and that keeps those asked for. -/
structure Ledger (p : Program) (taken : List (String × Symbol)) (asked : List Symbol) : Prop where
  built : p.Built
  entries : p.entries.Perm taken
  /-- The table of names holds the latest name first. -/
  table : p.names = taken.reverse
  names : (taken.map Prod.fst).Nodup
  symbols : (taken.map Prod.snd).Nodup
  unreserved : ∀ entry ∈ taken, isListName entry.1 = false
  values : ∀ entry ∈ taken, ∃ value, p.valueOf? entry.2 = some value ∧
    p.values.kind? value = some (entry.2.kind entry.1)
  used : ∀ symbol, symbol ∈ p.used ↔ symbol ∈ asked
  operands : p.used.map p.valueOf? = (p.values.operandsOf usedValue).map some

namespace Ledger

variable {taken : List (String × Symbol)} {asked : List Symbol}

theorem new {pointerSize : Nat} (h : Program.new pointerSize = .ok p) : p.Ledger [] [] := by
  have hbuilt := Built.new h
  obtain ⟨-, rfl⟩ := new_eq_ok h
  exact ⟨hbuilt, .refl _, rfl, List.nodup_nil, List.nodup_nil, by simp, by simp, by simp, rfl⟩

theorem mem_entries (h : p.Ledger taken asked) {entry : String × Symbol} : entry ∈ p.entries ↔ entry ∈ taken :=
  h.entries.mem_iff

theorem serve (h : p.Ledger taken asked) (hnew : r.IsNew) :
    (p.serve r).1.Ledger (taken ++ (p.named? r).toList) (asked ++ (p.kept? r).toList) := by
  have hserved := served h.built hnew
  have hnames : ∀ entry ∈ p.named? r, entry.1 ∉ taken.map Prod.fst := by
    intro entry hentry
    have hfree := (isFreeName_iff.mp (hserved.free entry hentry).1).1
    rwa [Program.taken, h.table, List.map_reverse, List.mem_reverse] at hfree
  have hsymbols : ∀ entry ∈ p.named? r, entry.2 ∉ taken.map Prod.snd := by
    intro entry hentry
    have hmissing := (hserved.free entry hentry).2
    rwa [Bool.eq_false_iff, ne_eq, hasSymbol_iff_mem_entries, (h.entries.map Prod.snd).mem_iff] at hmissing
  refine ⟨hserved.built, ?_, ?_, ?_, ?_, ?_, ?_, fun symbol => ?_, hserved.operands h.operands⟩
  · exact hserved.entries.trans (List.perm_append_comm.trans (h.entries.append_right _))
  · rw [hserved.names, h.table, List.reverse_append]
    cases p.named? r <;> rfl
  · exact nodup_map_append_toList h.names hnames
  · exact nodup_map_append_toList h.symbols hsymbols
  · intro entry hentry
    rcases List.mem_append.mp hentry with hold | hentry
    · exact h.unreserved entry hold
    · exact (isFreeName_iff.mp (hserved.free entry (Option.mem_toList.mp hentry)).1).2
  · intro entry hentry
    rcases List.mem_append.mp hentry with hold | hentry
    · obtain ⟨value, hvalue, hkind⟩ := h.values entry hold
      exact ⟨value, hserved.bound _ _ hvalue, hserved.kinds _ _ hkind⟩
    · exact hserved.value entry (Option.mem_toList.mp hentry)
  · rw [hserved.used, h.used, List.mem_append, Option.mem_toList, Option.mem_def]

/-- Any number of requests, by one after the other. -/
theorem serveAll {start : Program} {pointerSize : Nat} (hstart : Program.new pointerSize = .ok start)
    {requests : List Request} (hnew : ∀ r ∈ requests, r.IsNew) :
    (start.serveAll requests).Ledger (start.account named? requests) (start.account kept? requests) := by
  induction requests using List.reverseRecOn with
  | nil => exact .new hstart
  | append_singleton requests r ih =>
    rw [serveAll_concat, account_concat, account_concat]
    exact (ih fun r hr => hnew r (List.mem_append_left _ hr)).serve (hnew r (by simp))

theorem symbolName?_eq_some_iff (h : p.Ledger taken asked) :
    p.symbolName? symbol = some name ↔ (name, symbol) ∈ taken := by
  have hsymbols : (p.entries.map Prod.snd).Nodup := (h.entries.map _).nodup_iff.mpr h.symbols
  rw [map_snd_entries] at hsymbols
  obtain ⟨hothers, haliases, -⟩ := List.nodup_append.mp hsymbols
  obtain ⟨hfunctions, hglobals, -⟩ := List.nodup_append.mp hothers
  rw [← h.mem_entries]
  exact Program.symbolName?_eq_some_iff hfunctions.of_map hglobals.of_map haliases.of_map

theorem symbolNamed?_eq (h : p.Ledger taken asked) (name : String) :
    p.symbolNamed? name = taken.lookup name := by
  have hnames : (taken.reverse.map Prod.fst).Nodup := ((List.reverse_perm taken).map _).nodup_iff.mpr h.names
  refine Option.ext fun symbol => ?_
  rw [symbolNamed?, h.table, lookup_eq_some_iff_mem hnames, lookup_eq_some_iff_mem h.names, List.mem_reverse]

end Ledger

/-! ### What is in step -/

/-- What all sides say of the symbols of a program. -/
structure InStep (p : Program) : Prop where
  /-- The table of names holds each name of an element with its symbol, once. -/
  names : p.names.Perm p.entries
  named : ∀ name symbol, p.symbolNamed? name = some symbol ↔ p.symbolName? symbol = some name
  ownName : ∀ symbol other name, p.symbolName? symbol = some name → p.symbolName? other = some name →
    symbol = other
  unreserved : ∀ symbol name, p.symbolName? symbol = some name → isListName name = false
  bound : ∀ symbol, (∃ value, p.valueOf? symbol = some value) ↔ p.hasSymbol symbol = true
  ownValue : ∀ symbol other value, p.valueOf? symbol = some value → p.valueOf? other = some value →
    symbol = other
  kind : ∀ symbol value name, p.valueOf? symbol = some value → p.symbolName? symbol = some name →
    p.values.kind? value = some (symbol.kind name)
  usedOnce : p.used.Nodup
  isUsed : ∀ symbol, p.isUsed symbol = true ↔ symbol ∈ p.used
  usedExist : ∀ symbol ∈ p.used, p.hasSymbol symbol = true
  usedList : p.values.kind? usedValue = some (.global none ThumbHardening.usedList)
  usedValues : p.used.map p.valueOf? = (p.values.operandsOf usedValue).map some

theorem Ledger.inStep {taken : List (String × Symbol)} {asked : List Symbol} (h : p.Ledger taken asked) :
    p.InStep where
  names := h.table ▸ (List.reverse_perm taken).trans h.entries.symm
  named name symbol := by
    rw [h.symbolNamed?_eq, lookup_eq_some_iff_mem h.names, h.symbolName?_eq_some_iff]
  ownName symbol other name hsymbol hother := by
    have hfound := (lookup_eq_some_iff_mem h.names).mpr (h.symbolName?_eq_some_iff.mp hsymbol)
    rw [(lookup_eq_some_iff_mem h.names).mpr (h.symbolName?_eq_some_iff.mp hother)] at hfound
    exact (Option.some.inj hfound).symm
  unreserved symbol name hsymbol := h.unreserved _ (h.symbolName?_eq_some_iff.mp hsymbol)
  bound symbol := ⟨fun ⟨value, hvalue⟩ => h.built.boundExist symbol value hvalue, h.built.tied.bound symbol⟩
  ownValue symbol other value := h.built.tied.symbol_unique
  kind symbol value name hvalue hsymbol := by
    obtain ⟨value', hvalue', hkind⟩ := h.values _ (h.symbolName?_eq_some_iff.mp hsymbol)
    rw [hvalue] at hvalue'
    rwa [Option.some.inj hvalue']
  usedOnce := h.built.recorded.nodup
  isUsed symbol := h.built.isUsed_iff
  usedExist symbol := h.built.hasSymbol_of_used
  usedList := h.built.wellFormed.usedList
  usedValues := h.operands

/-- A name belongs to a function exactly if the function has it. -/
theorem InStep.symbolNamed?_eq_function_iff (h : p.InStep) (hids : p.functions.ids.Nodup) {f : Function}
    (hf : f ∈ p.functions.elems) : p.symbolNamed? name = some (.function f.id) ↔ f.name = name := by
  have hget : p.function? f.id = some f := Roster.get?_id hids hf
  rw [h.named, symbolName?, hget, Option.map_some, Option.some_inj]

/-- From an empty program on, requests to add symbols, to point aliases elsewhere and to keep symbols, served or
refused, leave all sides in step. A search by name finds what the requests that were served have taken the name
for, and the used symbols are those that could be kept. -/
theorem serveAll_inStep {start : Program} {pointerSize : Nat} (hstart : Program.new pointerSize = .ok start)
    (requests : List Request) (hnew : ∀ r ∈ requests, r.IsNew) :
    (start.serveAll requests).InStep ∧
      (∀ name, (start.serveAll requests).symbolNamed? name = (start.account named? requests).lookup name) ∧
      ∀ symbol, (start.serveAll requests).isUsed symbol = true ↔ symbol ∈ start.account kept? requests := by
  have hledger := Ledger.serveAll hstart hnew
  refine ⟨hledger.inStep, hledger.symbolNamed?_eq, fun symbol => ?_⟩
  rw [hledger.inStep.isUsed, hledger.used]

/-- Requests of all sorts, of which four are refused: a name is taken, a name is reserved, an object refers to a
symbol that does not exist, and so does a list. -/
def mixedRequests : List Request :=
  [.addFunction { name := "f" }, .addGlobal { name := "f", size := 4 }, .addGlobal danglingTable,
    .addGlobal { name := "g", size := 4 }, .addAlias usedList (.function 1), .addAlias "a" (.global 1),
    .appendToUsed (.aliased 1), .appendToUsed (.function 1), .appendToUsed (.aliased 1), .appendToUsed (.global 9),
    .appendToCompilerUsed (.function 1), .setAliasTarget 1 (.function 1)]

/-- After them, each of the three symbols is found by its name, and two are used. -/
theorem serveAll_mixedRequests :
    ∃ start, Program.new 4 = .ok start ∧ (∀ r ∈ mixedRequests, r.IsNew) ∧
      (start.serveAll mixedRequests).InStep ∧
      (start.serveAll mixedRequests).symbolNamed? "a" = some (.aliased 1) ∧
      (start.serveAll mixedRequests).isUsed (.aliased 1) = true ∧
      (start.serveAll mixedRequests).isUsed (.global 9) = false := by
  obtain ⟨start, hstart⟩ : ∃ start, Program.new 4 = .ok start := ⟨_, rfl⟩
  have hnew : ∀ r ∈ mixedRequests, r.IsNew := by
    simp [mixedRequests, Request.IsNew, danglingTable]
  obtain ⟨hstep, hnamed, hused⟩ := serveAll_inStep hstart mixedRequests hnew
  cases hstart
  refine ⟨_, rfl, hnew, hstep, ?_, ?_, ?_⟩
  · rw [hnamed]
    decide +kernel
  · rw [hused]
    decide +kernel
  · rw [Bool.eq_false_iff, ne_eq, hused]
    decide +kernel

end Program
end ThumbHardening
