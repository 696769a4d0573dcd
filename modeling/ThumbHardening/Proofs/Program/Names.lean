import ThumbHardening.Proofs.Program
import Mathlib.Data.List.Nodup
import Mathlib.Data.List.Perm.Subperm

/-!
# Names of symbols

A name is free if it is not taken and not that of a list, and whatever names are taken, some are left. The
elements of a program have names of their own: each of them is an entry, a name with the symbol that has it.
-/

namespace ThumbHardening
namespace Program

variable {p : Program} {name : String} {symbol : Symbol}

/-- The names that are taken. -/
def taken (p : Program) : List String :=
  p.names.map Prod.fst

theorem symbolNamed?_eq_none_iff : p.symbolNamed? name = none ↔ name ∉ p.taken := by
  rw [symbolNamed?, List.lookup_eq_none_iff, taken, List.mem_map]
  constructor
  · rintro hnone ⟨entry, hentry, rfl⟩
    simpa using hnone entry hentry
  · intro hfree entry hentry
    exact bne_iff_ne.mpr fun heq => hfree ⟨entry, hentry, heq.symm⟩

theorem isFreeName_iff : p.isFreeName name = true ↔ name ∉ p.taken ∧ isListName name = false := by
  rw [isFreeName, Bool.and_eq_true, Option.isNone_iff_eq_none, symbolNamed?_eq_none_iff]
  simp

/-- A number is known by its decimal digits. -/
theorem repr_injective : Function.Injective Nat.repr := by
  intro m n h
  have hdigits := congrArg (fun s => Nat.ofDigitChars 10 s.toList 0) h
  simpa only [Nat.toList_repr, Nat.ofDigitChars_ten_toDigits] using hdigits

/-- Of different names, one more than there are taken ones, some name is not taken. -/
theorem exists_notMem_of_injective {nameAt : Nat → String} (h : Function.Injective nameAt)
    (taken : List String) : ∃ k ≤ taken.length, nameAt k ∉ taken := by
  by_contra! hall
  have hnodup : ((List.range (taken.length + 1)).map nameAt).Nodup := List.nodup_range.map h
  have hsub : (List.range (taken.length + 1)).map nameAt ⊆ taken := by
    intro name hname
    obtain ⟨k, hk, rfl⟩ := List.mem_map.mp hname
    exact hall k (Nat.le_of_lt_succ (List.mem_range.mp hk))
  have hle := hnodup.length_le_of_subset hsub
  rw [List.length_map, List.length_range] at hle
  exact Nat.not_succ_le_self _ hle

/-! ### Symbols with their names -/

/-- The symbols with their names. -/
def entries (p : Program) : List (String × Symbol) :=
  p.functions.elems.map (fun f => (f.name, .function f.id))
    ++ p.globals.elems.map (fun g => (g.name, .global g.id))
    ++ p.aliases.elems.map (fun a => (a.name, .aliased a.id))

theorem map_snd_entries (p : Program) :
    p.entries.map Prod.snd
      = p.functions.ids.map .function ++ p.globals.ids.map .global ++ p.aliases.ids.map .aliased := by
  simp only [entries, Roster.ids, List.map_append, List.map_map]
  rfl

/-- With distinct IDs, an entry holds the name of its symbol. -/
theorem symbolName?_eq_some_iff (hfunctions : p.functions.ids.Nodup) (hglobals : p.globals.ids.Nodup)
    (haliases : p.aliases.ids.Nodup) : p.symbolName? symbol = some name ↔ (name, symbol) ∈ p.entries := by
  cases symbol with
  | function id =>
    simp only [symbolName?, function?, Option.map_eq_some_iff, entries, List.mem_append, List.mem_map,
      Prod.mk.injEq, Symbol.function.injEq, reduceCtorEq, and_false, exists_false, or_false]
    constructor
    · rintro ⟨f, hf, rfl⟩
      exact ⟨f, Roster.mem_of_get? hf, rfl, Roster.id_of_get? hf⟩
    · rintro ⟨f, hf, rfl, rfl⟩
      exact ⟨f, Roster.get?_id hfunctions hf, rfl⟩
  | global id =>
    simp only [symbolName?, global?, Option.map_eq_some_iff, entries, List.mem_append, List.mem_map,
      Prod.mk.injEq, Symbol.global.injEq, reduceCtorEq, and_false, exists_false, or_false, false_or]
    constructor
    · rintro ⟨g, hg, rfl⟩
      exact ⟨g, Roster.mem_of_get? hg, rfl, Roster.id_of_get? hg⟩
    · rintro ⟨g, hg, rfl, rfl⟩
      exact ⟨g, Roster.get?_id hglobals hg, rfl⟩
  | aliased id =>
    simp only [symbolName?, alias?, Option.map_eq_some_iff, entries, List.mem_append, List.mem_map,
      Prod.mk.injEq, Symbol.aliased.injEq, reduceCtorEq, and_false, exists_false, false_or]
    constructor
    · rintro ⟨a, ha, rfl⟩
      exact ⟨a, Roster.mem_of_get? ha, rfl, Roster.id_of_get? ha⟩
    · rintro ⟨a, ha, rfl, rfl⟩
      exact ⟨a, Roster.get?_id haliases ha, rfl⟩

/-! ### New symbols -/

theorem entries_insertFunction {f : Function} (h : f.id = 0) :
    ({ p with functions := p.functions.insert f } : Program).entries.Perm
      ((f.name, .function p.functions.next) :: p.entries) := by
  rw [Roster.insert_of_id_eq_zero h, entries, List.map_append, List.append_assoc, List.append_assoc, entries,
    List.append_assoc]
  exact List.perm_middle

theorem entries_insertGlobal {g : GlobalObject} (h : g.id = 0) :
    ({ p with globals := p.globals.insert g } : Program).entries.Perm
      ((g.name, .global p.globals.next) :: p.entries) := by
  rw [Roster.insert_of_id_eq_zero h, entries, List.map_append, ← List.append_assoc, List.append_assoc, entries]
  exact List.perm_middle

theorem entries_insertAlias (name : String) (target : Symbol) :
    ({ p with aliases := p.aliases.insert { name, target } } : Program).entries.Perm
      ((name, .aliased p.aliases.next) :: p.entries) := by
  rw [Roster.insert_of_id_eq_zero rfl, entries, List.map_append, ← List.append_assoc, entries]
  exact List.perm_append_singleton ..

end Program
end ThumbHardening
