import ThumbHardening.Proofs.Aliases

/-!
# What a symbol resolves to

Aliases are followed from a symbol until there is nothing more to follow or an alias comes up again. An alias leads
to one symbol only, so everything that a symbol leads to lies on one path. Either the path has a last symbol, which
gives the answer, or it comes back to one of its aliases and goes round for ever. All that is on a cycle leads back
to the alias that comes up again, so that alias is on the cycle itself and not on the way into it.
-/

namespace ThumbHardening
namespace Program

/-- The symbol that an alias is pointed to. -/
def target? (p : Program) : Symbol → Option Symbol
  | .aliased id => (p.alias? id).map Alias.target
  | .function _ | .global _ => none

/-- The symbol that so many aliases in a row lead to. -/
def after? (p : Program) : Nat → Symbol → Option Symbol
  | 0, symbol => some symbol
  | n + 1, symbol => (p.target? symbol).bind (p.after? n)

/-- The chain of aliases that starts with a symbol never ends. -/
def Endless (p : Program) (symbol : Symbol) : Prop :=
  ∀ n, (p.after? n symbol).isSome = true

/-- Following aliases comes to an end with an answer, however long it takes. The IDs `seen` are those of the aliases
passed on the way. -/
inductive Ends (p : Program) : (seen : List Nat) → Symbol → Except ProgramError Nat → Prop
  | function {seen id f} : p.function? id = some f → Ends p seen (.function id) (.ok id)
  | global {seen id g} : p.global? id = some g → Ends p seen (.global id) (.error (.notAFunction g.name))
  | missing {seen symbol} : p.hasSymbol symbol = false → Ends p seen symbol (.error (.unknownSymbol symbol))
  | again {seen id a} : p.alias? id = some a → id ∈ seen → Ends p seen (.aliased id) (.error (.aliasCycle a.name))
  | pass {seen id a answer} : p.alias? id = some a → id ∉ seen → Ends p (id :: seen) a.target answer →
      Ends p seen (.aliased id) answer

/-- What there is to be found by following aliases from a symbol. -/
inductive Verdict (p : Program) (symbol : Symbol) : Except ProgramError Nat → Prop
  | function {id f} : p.Leads symbol (.function id) → p.function? id = some f → Verdict p symbol (.ok id)
  | global {id g} : p.Leads symbol (.global id) → p.global? id = some g →
      Verdict p symbol (.error (.notAFunction g.name))
  | missing {last} : p.Leads symbol last → p.hasSymbol last = false →
      Verdict p symbol (.error (.unknownSymbol last))
  | cycle {id a} : p.Leads symbol (.aliased id) → p.alias? id = some a → p.Leads a.target (.aliased id) →
      Verdict p symbol (.error (.aliasCycle a.name))

variable {p : Program} {symbol other last : Symbol} {answer : Except ProgramError Nat} {seen : List Nat} {id : Nat}
  {a : Alias}

/-! ### Symbols that exist -/

theorem hasSymbol_of_function? {f : Function} (h : p.function? id = some f) : p.hasSymbol (.function id) = true := by
  rw [hasSymbol, symbolName?, h]
  rfl

theorem hasSymbol_of_global? {g : GlobalObject} (h : p.global? id = some g) : p.hasSymbol (.global id) = true := by
  rw [hasSymbol, symbolName?, h]
  rfl

theorem hasSymbol_of_alias? (h : p.alias? id = some a) : p.hasSymbol (.aliased id) = true := by
  rw [hasSymbol, symbolName?, h]
  rfl

theorem mem_ids_of_alias? (h : p.alias? id = some a) : id ∈ p.aliases.ids := by
  simpa using hasSymbol_of_alias? h

/-! ### The search ends -/

theorem Ends.unique {answer' : Except ProgramError Nat} (h : p.Ends seen symbol answer)
    (h' : p.Ends seen symbol answer') : answer = answer' := by
  induction h with
  | function | global | missing | again =>
    cases h' <;> grind [hasSymbol_of_function?, hasSymbol_of_global?, hasSymbol_of_alias?]
  | pass ha hnew _ ih =>
    cases h' with
    | missing hmissing => simp [hasSymbol_of_alias? ha] at hmissing
    | again _ hseen => exact absurd hseen hnew
    | pass ha' _ hrest =>
      obtain rfl := Option.some.inj (ha.symm.trans ha')
      exact ih hrest

/-- As only aliases that exist are passed, and none of them twice, a limit above their number is not reached. -/
theorem ends_follow {limit : Nat} (hnodup : seen.Nodup) (hseen : ∀ id ∈ seen, id ∈ p.aliases.ids)
    (hlimit : p.aliases.size < limit + seen.length) : p.Ends seen symbol (p.follow limit seen symbol) := by
  fun_induction p.follow limit seen symbol with
  | case1 limit seen id hcontains =>
    obtain ⟨f, hf⟩ : ∃ f, p.function? id = some f := by
      rwa [← Option.isSome_iff_exists, function?, Roster.isSome_get?, ← Roster.contains_eq]
    exact .function hf
  | case2 limit seen id hcontains =>
    refine .missing ?_
    rw [hasSymbol_function, ← Roster.contains_eq]
    simpa using hcontains
  | case3 limit seen id g hg => exact .global hg
  | case4 limit seen id hg => exact .missing (by simp [hasSymbol, symbolName?, hg])
  | case5 limit seen id ha => exact .missing (by simp [hasSymbol, symbolName?, ha])
  | case6 limit seen id a ha hagain => exact .again ha (List.contains_iff_mem.mp hagain)
  | case7 seen id a ha hnew =>
    have hnew : id ∉ seen := by simpa using hnew
    have hall : ∀ other ∈ id :: seen, other ∈ p.aliases.ids :=
      List.forall_mem_cons.mpr ⟨mem_ids_of_alias? ha, hseen⟩
    have hcount := (List.subperm_of_subset (List.nodup_cons.mpr ⟨hnew, hnodup⟩) hall).length_le
    rw [Roster.ids, List.length_map, List.length_cons] at hcount
    rw [Roster.size] at hlimit
    omega
  | case8 seen id a ha hnew limit ih =>
    have hnew : id ∉ seen := by simpa using hnew
    refine .pass ha hnew (ih (List.nodup_cons.mpr ⟨hnew, hnodup⟩) ?_ ?_)
    · exact List.forall_mem_cons.mpr ⟨mem_ids_of_alias? ha, hseen⟩
    · rw [List.length_cons]
      omega

theorem ends_resolveFunction (p : Program) (symbol : Symbol) : p.Ends [] symbol (p.resolveFunction symbol) :=
  ends_follow List.nodup_nil (fun _ hid => nomatch hid) (Nat.lt_succ_self _)

/-! ### One path -/

theorem Leads.trans (h : p.Leads symbol other) (h' : p.Leads other last) : p.Leads symbol last := by
  induction h with
  | refl => exact h'
  | step ha _ ih => exact .step ha (ih h')

theorem target?_of_alias? (h : p.alias? id = some a) : p.target? (.aliased id) = some a.target := by
  rw [target?, h]
  rfl

theorem target?_eq_none (h : p.hasSymbol symbol = false) : p.target? symbol = none := by
  cases symbol with
  | function | global => rfl
  | aliased id =>
    cases ha : p.alias? id with
    | none => rw [target?, ha]; rfl
    | some a => simp [hasSymbol_of_alias? ha] at h

/-- Whatever a symbol leads to leads on to the last symbol. -/
theorem Leads.leads_last (h : p.Leads symbol other) (hlast : p.Leads symbol last) (hend : p.target? last = none) :
    p.Leads other last := by
  induction h with
  | refl => exact hlast
  | step ha _ ih =>
    cases hlast with
    | refl => simp [target?_of_alias? ha] at hend
    | step ha' hrest =>
      obtain rfl := Option.some.inj (ha.symm.trans ha')
      exact ih hrest

theorem Leads.last_unique (h : p.Leads symbol other) (hother : p.target? other = none)
    (hlast : p.Leads symbol last) (hend : p.target? last = none) : other = last := by
  cases h.leads_last hlast hend with
  | refl => rfl
  | step ha => simp [target?_of_alias? ha] at hother

theorem not_endless_of_leads (h : p.Leads symbol last) (hend : p.target? last = none) : ¬ p.Endless symbol := by
  induction h with
  | refl =>
    intro hendless
    simpa [after?, hend] using hendless 1
  | step ha _ ih =>
    intro hendless
    refine ih hend fun n => ?_
    have hlonger := hendless (n + 1)
    rwa [after?, target?_of_alias? ha] at hlonger

/-- Whatever leads to an alias on a cycle leads on for ever. -/
theorem endless_of_cycle (h : p.Leads symbol (.aliased id)) (ha : p.alias? id = some a)
    (hback : p.Leads a.target (.aliased id)) : p.Endless symbol := by
  intro n
  induction n generalizing symbol with
  | zero => rfl
  | succ n ih =>
    rw [after?]
    cases h with
    | refl =>
      rw [target?_of_alias? ha]
      exact ih hback
    | step hfirst hrest =>
      rw [target?_of_alias? hfirst]
      exact ih hrest

/-! ### The answer -/

/-- The search finds what there is to be found: each alias that it has passed leads to where it is. -/
theorem Ends.verdict {start : Symbol} (h : p.Ends seen symbol answer) (hstart : p.Leads start symbol)
    (hseen : ∀ id ∈ seen, ∀ a, p.alias? id = some a → p.Leads a.target symbol) : p.Verdict start answer := by
  induction h with
  | function hf => exact .function hstart hf
  | global hg => exact .global hstart hg
  | missing hmissing => exact .missing hstart hmissing
  | again ha hagain => exact .cycle hstart ha (hseen _ hagain _ ha)
  | pass ha _ _ ih =>
    have hnext := Leads.step ha (.refl _)
    refine ih (hstart.trans hnext) (List.forall_mem_cons.mpr ⟨fun b hb => ?_, fun id hid b hb => ?_⟩)
    · obtain rfl := Option.some.inj (ha.symm.trans hb)
      exact .refl _
    · exact (hseen id hid b hb).trans hnext

theorem verdict_resolveFunction (p : Program) (symbol : Symbol) : p.Verdict symbol (p.resolveFunction symbol) :=
  (ends_resolveFunction p symbol).verdict (.refl _) fun _ hid => nomatch hid

/-- If the path has a last symbol, the answer is the one there. -/
theorem ends_last (h : p.Leads symbol last) (hend : p.target? last = none) :
    p.Ends [] last (p.resolveFunction symbol) := by
  have hverdict := verdict_resolveFunction p symbol
  generalize p.resolveFunction symbol = answer at hverdict
  cases hverdict with
  | function hleads hf =>
    obtain rfl := hleads.last_unique rfl h hend
    exact .function hf
  | global hleads hg =>
    obtain rfl := hleads.last_unique rfl h hend
    exact .global hg
  | missing hleads hmissing =>
    obtain rfl := hleads.last_unique (target?_eq_none hmissing) h hend
    exact .missing hmissing
  | cycle hleads ha hback => exact absurd (endless_of_cycle hleads ha hback) (not_endless_of_leads h hend)

theorem resolveFunction_of_leads (h : p.Leads symbol last) (hend : p.target? last = none)
    (hanswer : p.Ends [] last answer) : p.resolveFunction symbol = answer :=
  (ends_last h hend).unique hanswer

theorem ends_iff : p.Ends [] symbol answer ↔ p.resolveFunction symbol = answer :=
  ⟨(ends_resolveFunction p symbol).unique, fun heq => heq ▸ ends_resolveFunction p symbol⟩

theorem resolveFunction_eq_ok_iff :
    p.resolveFunction symbol = .ok id ↔ p.Leads symbol (.function id) ∧ p.hasSymbol (.function id) = true := by
  refine ⟨fun h => ?_, fun h => ?_⟩
  · have hverdict := verdict_resolveFunction p symbol
    rw [h] at hverdict
    cases hverdict with
    | function hleads hf => exact ⟨hleads, hasSymbol_of_function? hf⟩
  · obtain ⟨hleads, hhas⟩ := h
    obtain ⟨f, hf⟩ : ∃ f, p.function? id = some f := by
      simpa [hasSymbol, symbolName?, Option.isSome_iff_exists] using hhas
    exact resolveFunction_of_leads hleads rfl (.function hf)

theorem resolveFunction_eq_notAFunction_iff {name : String} :
    p.resolveFunction symbol = .error (.notAFunction name)
      ↔ ∃ id g, p.Leads symbol (.global id) ∧ p.global? id = some g ∧ g.name = name := by
  refine ⟨fun h => ?_, fun h => ?_⟩
  · have hverdict := verdict_resolveFunction p symbol
    rw [h] at hverdict
    cases hverdict with
    | global hleads hg => exact ⟨_, _, hleads, hg, rfl⟩
  · obtain ⟨id, g, hleads, hg, rfl⟩ := h
    exact resolveFunction_of_leads hleads rfl (.global hg)

theorem resolveFunction_eq_unknownSymbol_iff :
    p.resolveFunction symbol = .error (.unknownSymbol other)
      ↔ p.Leads symbol other ∧ p.hasSymbol other = false := by
  refine ⟨fun h => ?_, fun h => ?_⟩
  · have hverdict := verdict_resolveFunction p symbol
    rw [h] at hverdict
    cases hverdict with
    | missing hleads hmissing => exact ⟨hleads, hmissing⟩
  · exact resolveFunction_of_leads h.1 (target?_eq_none h.2) (.missing h.2)

/-- The name of a cycle is that of an alias which leads back to itself. -/
theorem cycle_of_resolveFunction {name : String} (h : p.resolveFunction symbol = .error (.aliasCycle name)) :
    ∃ id a, p.Leads symbol (.aliased id) ∧ p.alias? id = some a ∧ a.name = name ∧
      p.Leads a.target (.aliased id) := by
  have hverdict := verdict_resolveFunction p symbol
  rw [h] at hverdict
  cases hverdict with
  | cycle hleads ha hback => exact ⟨_, _, hleads, ha, rfl, hback⟩

theorem resolveFunction_eq_aliasCycle_iff :
    (∃ name, p.resolveFunction symbol = .error (.aliasCycle name)) ↔ p.Endless symbol := by
  refine ⟨fun h => ?_, fun h => ?_⟩
  · obtain ⟨name, h⟩ := h
    obtain ⟨id, a, hleads, ha, -, hback⟩ := cycle_of_resolveFunction h
    exact endless_of_cycle hleads ha hback
  · have hverdict := verdict_resolveFunction p symbol
    generalize p.resolveFunction symbol = answer at hverdict
    cases hverdict with
    | function hleads => exact absurd h (not_endless_of_leads hleads rfl)
    | global hleads => exact absurd h (not_endless_of_leads hleads rfl)
    | missing hleads hmissing => exact absurd h (not_endless_of_leads hleads (target?_eq_none hmissing))
    | cycle => exact ⟨_, rfl⟩

/-- Following aliases comes to an end for every program and every symbol. The answer is a function that the aliases
lead to, or the refusal of a global object or of a missing symbol that they lead to. The chain is refused as a cycle
exactly if it never ends, by the name of an alias on the cycle. -/
theorem resolveFunction_classifies (p : Program) (symbol : Symbol) :
    (∀ answer, p.Ends [] symbol answer ↔ p.resolveFunction symbol = answer) ∧
    (∀ id, p.resolveFunction symbol = .ok id ↔
      p.Leads symbol (.function id) ∧ p.hasSymbol (.function id) = true) ∧
    (∀ name, p.resolveFunction symbol = .error (.notAFunction name) ↔
      ∃ id g, p.Leads symbol (.global id) ∧ p.global? id = some g ∧ g.name = name) ∧
    (∀ missing, p.resolveFunction symbol = .error (.unknownSymbol missing) ↔
      p.Leads symbol missing ∧ p.hasSymbol missing = false) ∧
    ((∃ name, p.resolveFunction symbol = .error (.aliasCycle name)) ↔ p.Endless symbol) ∧
    ∀ name, p.resolveFunction symbol = .error (.aliasCycle name) →
      ∃ id a, p.Leads symbol (.aliased id) ∧ p.alias? id = some a ∧ a.name = name ∧
        p.Leads a.target (.aliased id) :=
  ⟨fun _ => ends_iff, fun _ => resolveFunction_eq_ok_iff, fun _ => resolveFunction_eq_notAFunction_iff,
    fun _ => resolveFunction_eq_unknownSymbol_iff, resolveFunction_eq_aliasCycle_iff,
    fun _ => cycle_of_resolveFunction⟩

/-- An alias outside of a cycle of two others. -/
def outsideCycle : Program :=
  { aliases :=
      { elems := [⟨1, "outside", .aliased 2⟩, ⟨2, "first", .aliased 3⟩, ⟨3, "second", .aliased 2⟩], next := 4 }
    pointerSize := 4 }

/-- The alias that is named is the one on the cycle, not the one that leads into it. -/
theorem resolveFunction_classifies_outsideCycle :
    outsideCycle.resolveFunction (.aliased 1) = .error (.aliasCycle "first") ∧
      outsideCycle.Endless (.aliased 1) ∧
      ∃ id a, outsideCycle.alias? id = some a ∧ a.name = "first" ∧ outsideCycle.Leads a.target (.aliased id) := by
  have hrefused : outsideCycle.resolveFunction (.aliased 1) = .error (.aliasCycle "first") := by decide
  obtain ⟨-, -, -, -, hendless, hnamed⟩ := resolveFunction_classifies outsideCycle (.aliased 1)
  obtain ⟨id, a, -, ha, hname, hback⟩ := hnamed "first" hrefused
  exact ⟨hrefused, hendless.mp ⟨"first", hrefused⟩, id, a, ha, hname, hback⟩

end Program
end ThumbHardening
