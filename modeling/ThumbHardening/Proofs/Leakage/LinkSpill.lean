import ThumbHardening.Leakage.LinkSpill
import ThumbHardening.Proofs.Program

/-!
# Spills of the link register as a least fixed point

The rounds of the analysis add functions until nothing changes, which happens before they run out. What they
arrive at is the least set of functions closed under tail calls: a function is in it exactly if tail calls
lead from it to one that may spill the link register whatever it tail-calls. If no two functions share an ID
the analysis answers with this set.
-/

namespace ThumbHardening

/-- Where a call or a tail call goes. -/
inductive Callee where
  | symbol (symbol : Symbol)
  /-- Code that is not part of the program or not known. -/
  | unknown
  deriving DecidableEq, Repr

/-- The target of a direct call. Nothing can be called under the name of a global object. -/
def Operand.callee? : Operand → Option Callee
  | .symbol (.global _) _ _ => none
  | .symbol s _ _ => some (.symbol s)
  | .external _ => some .unknown
  | _ => none

def Instr.tailCallee? (i : Instr) : Option Callee :=
  match i.opcode with
  | .tailCall => i.operands.head?.bind Operand.callee?
  | .tailCallIndirect => some .unknown
  | _ => none

def Function.tailCallees (f : Function) : List Callee :=
  f.instrs.filterMap Instr.tailCallee?

/-- A function that may spill the link register whatever the functions do that it tail-calls. -/
def Function.SpillsItself (f : Function) : Prop :=
  f.body = none ∨ f.calleeSaved = none ∨ f.savesLink = true ∨ .unknown ∈ f.tailCallees

/-- The functions from which tail calls lead to one that may spill the link register by itself. -/
inductive Program.SpillsLink (p : Program) : Nat → Prop
  | self {f : Function} : f ∈ p.functions.elems → f.SpillsItself → SpillsLink p f.id
  | tail {f : Function} {symbol : Symbol} {id : Nat} : f ∈ p.functions.elems →
      .symbol symbol ∈ f.tailCallees → p.resolveFunction symbol = .ok id → SpillsLink p id →
      SpillsLink p f.id

theorem Program.SpillsLink.mem_ids {p : Program} {id : Nat} (h : p.SpillsLink id) :
    id ∈ p.functions.ids := by
  cases h with
  | self hf => exact List.mem_map_of_mem hf
  | tail hf => exact List.mem_map_of_mem hf

/-- That the answer for an ID is yes. Of the functions with this ID only the last one counts for what it does itself,
and each of them for its tail calls. -/
def Program.SaidToSpill (p : Program) (id : Nat) : Prop :=
  (∃ f, p.functions.elems.reverse.find? (·.id = id) = some f ∧ f.SpillsItself) ∨
    ∃ f ∈ p.functions.elems, f.id = id ∧ ∃ symbol callee, .symbol symbol ∈ f.tailCallees ∧
      p.resolveFunction symbol = .ok callee ∧ p.SpillsLink callee

/-- Only functions from which tail calls lead to a spill are said to spill the link register. -/
theorem Program.SaidToSpill.spillsLink {p : Program} {id : Nat} (h : p.SaidToSpill id) : p.SpillsLink id := by
  rcases h with ⟨f, hlast, hself⟩ | ⟨f, hf, rfl, symbol, callee, hsymbol, hresolve, hspills⟩
  · have hid : f.id = id := by simpa using List.find?_some hlast
    exact hid ▸ .self (List.mem_reverse.mp (List.mem_of_find?_eq_some hlast)) hself
  · exact .tail hf hsymbol hresolve hspills

/-- If no two functions share an ID, all of them are. -/
theorem Program.saidToSpill_iff {p : Program} {id : Nat} (hids : p.functions.ids.Nodup) :
    p.SaidToSpill id ↔ p.SpillsLink id := by
  refine ⟨SaidToSpill.spillsLink, fun h => ?_⟩
  cases h with
  | @self f hf hself =>
    obtain ⟨last, hlast⟩ : ∃ last, p.functions.elems.reverse.find? (·.id = f.id) = some last := by
      rw [← Option.isSome_iff_exists, List.find?_isSome]
      exact ⟨f, List.mem_reverse.mpr hf, decide_eq_true rfl⟩
    have hid : last.id = f.id := by simpa using List.find?_some hlast
    have hmem := List.mem_reverse.mp (List.mem_of_find?_eq_some hlast)
    exact .inl ⟨last, hlast, Roster.eq_of_id_eq hids hf hmem hid.symm ▸ hself⟩
  | tail hf hsymbol hresolve hspills => exact .inr ⟨_, hf, rfl, _, _, hsymbol, hresolve, hspills⟩

theorem Program.callTarget_congr {p p' : Program} (hfunctions : p'.functions.ids = p.functions.ids)
    (hglobals : p'.globals = p.globals) (haliases : p'.aliases = p.aliases) : p'.callTarget = p.callTarget := by
  funext name i
  simp only [callTarget, resolveFunction_congr hfunctions hglobals haliases]

/-! ### The rounds -/

namespace LinkSpill

/-- The functions that reach one that spills, as far as the tail calls that were found say. -/
inductive Spilling (calls : List TailCalls) : Nat → Prop
  | self {t : TailCalls} : t ∈ calls → t.spills = true → Spilling calls t.function
  | tail {t : TailCalls} {callee : Nat} : t ∈ calls → callee ∈ t.callees → Spilling calls callee →
      Spilling calls t.function

variable {calls : List TailCalls} {spilling : List Nat} {rounds id : Nat}

theorem mem_spread_iff :
    id ∈ spread calls spilling ↔ ∃ t ∈ calls, t.function = id ∧
      (t.spills = true ∨ t.function ∈ spilling ∨ ∃ callee ∈ t.callees, callee ∈ spilling) := by
  simp only [spread, List.mem_map, List.mem_filter, Bool.or_eq_true, List.any_eq_true,
    List.contains_iff_mem, or_assoc]
  constructor
  · intro hparts
    obtain ⟨t, ⟨ht, hcase⟩, hid⟩ := hparts
    exact ⟨t, ht, hid, hcase⟩
  · intro hparts
    obtain ⟨t, ht, hid, hcase⟩ := hparts
    exact ⟨t, ⟨ht, hcase⟩, hid⟩

/-- A round loses no function that an earlier one has selected. -/
theorem sublist_spread {selected : TailCalls → Bool}
    (h : spilling = (calls.filter selected).map TailCalls.function) :
    spilling.Sublist (spread calls spilling) := by
  have hkept : calls.filter selected = (calls.filter fun t =>
      t.spills || spilling.contains t.function || t.callees.any spilling.contains).filter selected := by
    rw [List.filter_filter]
    apply List.filter_congr
    intro t ht
    cases hselected : selected t with
    | false => rfl
    | true =>
      have hmem : t.function ∈ spilling :=
        h ▸ List.mem_map_of_mem (List.mem_filter.mpr ⟨ht, hselected⟩)
      simp [hmem]
  conv_lhs => rw [h, hkept]
  exact List.filter_sublist.map _

/-- Every round but the last adds a function, so with enough rounds the last one adds none. -/
theorem spread_spreadAll {selected : TailCalls → Bool}
    (h : spilling = (calls.filter selected).map TailCalls.function)
    (hrounds : calls.length < rounds + spilling.length) :
    spread calls (spreadAll calls rounds spilling) = spreadAll calls rounds spilling := by
  induction rounds generalizing selected spilling with
  | zero =>
    have hlength : spilling.length ≤ calls.length := by
      rw [h, List.length_map]
      exact List.length_filter_le ..
    omega
  | succ rounds ih =>
    have hsub := sublist_spread h
    rw [spreadAll]
    split
    · next hlength => exact (hsub.eq_of_length hlength.symm).symm
    · next hlength =>
      have hle := hsub.length_le
      exact ih rfl (by omega)

theorem spilling_of_mem_spreadAll (hstart : ∀ id ∈ spilling, Spilling calls id)
    (h : id ∈ spreadAll calls rounds spilling) : Spilling calls id := by
  induction rounds generalizing spilling with
  | zero => exact hstart id h
  | succ rounds ih =>
    rw [spreadAll] at h
    split at h
    · exact hstart id h
    · refine ih (fun id hid => ?_) h
      obtain ⟨t, ht, rfl, hspills | hmem | ⟨callee, hcallee, hmem⟩⟩ := mem_spread_iff.mp hid
      · exact .self ht hspills
      · exact hstart _ hmem
      · exact .tail ht hcallee (hstart callee hmem)

/-- The rounds arrive at the least set that is closed under tail calls. -/
theorem mem_spreadAll_iff :
    id ∈ spreadAll calls (calls.length + 1) [] ↔ Spilling calls id := by
  constructor
  · exact spilling_of_mem_spreadAll (by simp)
  · have hnone : [] = (calls.filter fun _ => false).map TailCalls.function := by simp
    have hfixed : spread calls (spreadAll calls (calls.length + 1) [])
        = spreadAll calls (calls.length + 1) [] := spread_spreadAll hnone (by simp)
    intro h
    induction h with
    | self ht hspills =>
      rw [← hfixed]
      exact mem_spread_iff.mpr ⟨_, ht, rfl, .inl hspills⟩
    | tail ht hcallee _ ih =>
      rw [← hfixed]
      exact mem_spread_iff.mpr ⟨_, ht, rfl, .inr (.inr ⟨_, hcallee, ih⟩)⟩

theorem mem_settle_iff {reaching : List Nat} :
    id ∈ settle calls reaching ↔ (∃ t, calls.reverse.find? (·.function = id) = some t ∧ t.spills = true) ∨
      ∃ t ∈ calls, t.function = id ∧ ∃ callee ∈ t.callees, callee ∈ reaching := by
  simp only [settle, lastEntry, List.mem_map, List.mem_filter, Bool.or_eq_true, List.any_eq_true,
    List.contains_iff_mem, Option.any_eq_true]
  constructor
  · rintro ⟨t, ⟨ht, hlast | hcallee⟩, rfl⟩
    · exact .inl hlast
    · exact .inr ⟨t, ht, rfl, hcallee⟩
  · rintro (⟨t, hlast, hspills⟩ | ⟨t, ht, rfl, hcallee⟩)
    · have hid : t.function = id := by simpa using List.find?_some hlast
      subst hid
      exact ⟨t, ⟨List.mem_reverse.mp (List.mem_of_find?_eq_some hlast), .inl ⟨t, hlast, hspills⟩⟩, rfl⟩
    · exact ⟨t, ⟨ht, .inr hcallee⟩, rfl⟩

end LinkSpill

/-! ### The tail calls of a function -/

namespace TailCalls

variable {p : Program} {name : String} {t t' : TailCalls} {i : Instr} {f : Function}

theorem resolveFunction_global (p : Program) (id : Nat) :
    (p.resolveFunction (.global id)).toOption = none := by
  rw [Program.resolveFunction, Program.follow]
  split <;> rfl

theorem callTarget_eq_ok {target : CallTarget} (h : p.callTarget name i = .ok target) :
    (i.operands.head?.bind Operand.callee? = some .unknown ∧ target = .external) ∨
      ∃ symbol id, i.operands.head?.bind Operand.callee? = some (.symbol symbol) ∧
        p.resolveFunction symbol = .ok id ∧ target = .internal id := by
  rw [Program.callTarget] at h
  split at h
  · next symbol _ _ _ hoperands =>
    split at h
    · next id hid =>
      cases h
      refine .inr ⟨symbol, id, ?_, hid, rfl⟩
      cases symbol with
      | global global =>
        have hnone := resolveFunction_global p global
        rw [hid] at hnone
        cases hnone
      | function | aliased => simp [hoperands, Operand.callee?]
    · cases h
  · next hoperands =>
    cases h
    exact .inl ⟨by simp [hoperands, Operand.callee?], rfl⟩
  · cases h

/-- What one instruction adds. -/
theorem extend_eq_ok (h : extend p name t i = .ok t') :
    (i.tailCallee? = none ∧ t' = t) ∨ (i.tailCallee? = some .unknown ∧ t' = { t with spills := true }) ∨
      ∃ symbol id, i.tailCallee? = some (.symbol symbol) ∧ p.resolveFunction symbol = .ok id ∧
        t' = { t with callees := t.callees ++ [id] } := by
  rw [extend] at h
  split at h
  · next hopcode =>
    have hcallee : i.tailCallee? = i.operands.head?.bind Operand.callee? := by
      simp [Instr.tailCallee?, hopcode]
    obtain ⟨target, htarget, rfl⟩ := Outcome.map_eq_ok_iff.mp h
    rw [hcallee]
    rcases callTarget_eq_ok htarget with ⟨hunknown, rfl⟩ | ⟨symbol, id, hsymbol, hid, rfl⟩
    · exact .inr (.inl ⟨hunknown, rfl⟩)
    · exact .inr (.inr ⟨symbol, id, hsymbol, hid, rfl⟩)
  · next hopcode =>
    cases h
    exact .inr (.inl ⟨by simp [Instr.tailCallee?, hopcode], rfl⟩)
  · next hdirect hindirect =>
    cases h
    refine .inl ⟨?_, rfl⟩
    rw [Instr.tailCallee?]
    split
    · next hopcode => exact absurd hopcode hdirect
    · next hopcode => exact absurd hopcode hindirect
    · rfl

theorem foldlM_extend_eq_ok {code : List Instr} (h : code.foldlM (extend p name) t = .ok t') :
    t'.function = t.function ∧
      (t'.spills = true ↔ t.spills = true ∨ .unknown ∈ code.filterMap Instr.tailCallee?) ∧
      ∀ id, id ∈ t'.callees ↔ id ∈ t.callees ∨
        ∃ symbol, .symbol symbol ∈ code.filterMap Instr.tailCallee? ∧
          p.resolveFunction symbol = .ok id := by
  induction code generalizing t with
  | nil =>
    cases h
    simp
  | cons i rest ih =>
    rw [List.foldlM_cons, Outcome.bind_eq_ok_iff] at h
    obtain ⟨t₁, hfirst, hrest⟩ := h
    obtain ⟨hfunction, hspills, hcallees⟩ := ih hrest
    rcases extend_eq_ok hfirst with ⟨hnone, rfl⟩ | ⟨hunknown, rfl⟩ | ⟨symbol, id, hsymbol, hid, rfl⟩
    · rw [List.filterMap_cons_none hnone]
      exact ⟨hfunction, hspills, hcallees⟩
    · rw [List.filterMap_cons_some hunknown]
      refine ⟨hfunction, by simp [hspills], fun id => ?_⟩
      simp [hcallees id]
    · rw [List.filterMap_cons_some hsymbol]
      refine ⟨hfunction, by simp [hspills], fun other => ?_⟩
      have hfirst : (∃ s, s = symbol ∧ p.resolveFunction s = .ok other) ↔ other = id := by
        rw [exists_eq_left, hid, Except.ok.injEq]
        exact eq_comm
      simp only [hcallees other, List.mem_append, List.mem_cons, List.not_mem_nil, or_false,
        Callee.symbol.injEq, or_and_right, exists_or, hfirst, or_assoc]

/-- The tail calls of a function are read off its code. -/
theorem ofFunction_eq_ok (h : ofFunction p f = .ok t) :
    t.function = f.id ∧ (t.spills = true ↔ f.SpillsItself) ∧
      ∀ id, id ∈ t.callees ↔ ∃ symbol, .symbol symbol ∈ f.tailCallees ∧
        p.resolveFunction symbol = .ok id := by
  obtain ⟨hfunction, hspills, hcallees⟩ := foldlM_extend_eq_ok h
  refine ⟨hfunction, ?_, fun id => ?_⟩
  · rw [hspills, Function.SpillsItself, Function.tailCallees]
    simp [or_assoc]
  · rw [hcallees id, Function.tailCallees]
    simp

end TailCalls

/-! ### The answer -/

namespace LinkSpill

variable {p : Program} {spills : LinkSpill} {id : Nat}

theorem spilling_iff {calls : List TailCalls}
    (h : List.Forall₂ (fun f t => TailCalls.ofFunction p f = .ok t) p.functions.elems calls) :
    Spilling calls id ↔ p.SpillsLink id := by
  constructor
  · intro hspills
    induction hspills with
    | self ht hself =>
      obtain ⟨f, hf, hok⟩ := Pairs.exists_of_mem_right h ht
      obtain ⟨hfunction, hspills, -⟩ := TailCalls.ofFunction_eq_ok hok
      rw [hfunction]
      exact .self hf (hspills.mp hself)
    | tail ht hcallee _ ih =>
      obtain ⟨f, hf, hok⟩ := Pairs.exists_of_mem_right h ht
      obtain ⟨hfunction, -, hcallees⟩ := TailCalls.ofFunction_eq_ok hok
      obtain ⟨symbol, hsymbol, hresolve⟩ := (hcallees _).mp hcallee
      rw [hfunction]
      exact .tail hf hsymbol hresolve ih
  · intro hspills
    induction hspills with
    | self hf hself =>
      obtain ⟨t, ht, hok⟩ := Pairs.exists_of_mem_left h hf
      obtain ⟨hfunction, hspills, -⟩ := TailCalls.ofFunction_eq_ok hok
      rw [← hfunction]
      exact .self ht (hspills.mpr hself)
    | tail hf hsymbol hresolve _ ih =>
      obtain ⟨t, ht, hok⟩ := Pairs.exists_of_mem_left h hf
      obtain ⟨hfunction, -, hcallees⟩ := TailCalls.ofFunction_eq_ok hok
      rw [← hfunction]
      exact .tail ht ((hcallees _).mpr ⟨_, hsymbol, hresolve⟩) ih

/-- The answers are read off the code of the functions. -/
theorem mem_settle_iff_saidToSpill {calls : List TailCalls}
    (h : List.Forall₂ (fun f t => TailCalls.ofFunction p f = .ok t) p.functions.elems calls) :
    id ∈ settle calls (spreadAll calls (calls.length + 1) []) ↔ p.SaidToSpill id := by
  rw [mem_settle_iff, Program.SaidToSpill]
  refine or_congr ?_ ?_
  · have hlast : Option.Rel (fun f t => TailCalls.ofFunction p f = .ok t)
        (p.functions.elems.reverse.find? (·.id = id)) (calls.reverse.find? (·.function = id)) :=
      Pairs.find? (List.forall₂_reverse_iff.mpr h) fun f t hok => by rw [(TailCalls.ofFunction_eq_ok hok).1]
    generalize p.functions.elems.reverse.find? (·.id = id) = f at hlast ⊢
    generalize calls.reverse.find? (·.function = id) = t at hlast ⊢
    cases hlast with
    | none => simp
    | some hok => simp [(TailCalls.ofFunction_eq_ok hok).2.1]
  · simp only [mem_spreadAll_iff, spilling_iff h]
    constructor
    · rintro ⟨t, ht, rfl, callee, hcallee, hspills⟩
      obtain ⟨f, hf, hok⟩ := Pairs.exists_of_mem_right h ht
      obtain ⟨hfunction, -, hcallees⟩ := TailCalls.ofFunction_eq_ok hok
      obtain ⟨symbol, hsymbol, hresolve⟩ := (hcallees callee).mp hcallee
      exact ⟨f, hf, hfunction.symm, symbol, callee, hsymbol, hresolve, hspills⟩
    · rintro ⟨f, hf, rfl, symbol, callee, hsymbol, hresolve, hspills⟩
      obtain ⟨t, ht, hok⟩ := Pairs.exists_of_mem_left h hf
      obtain ⟨hfunction, -, hcallees⟩ := TailCalls.ofFunction_eq_ok hok
      exact ⟨t, ht, hfunction, callee, (hcallees callee).mpr ⟨symbol, hsymbol, hresolve⟩, hspills⟩

/-- The analysis knows the functions of the program, and finds those that are said to spill the link register. -/
theorem compute_eq_ok (h : compute p = .ok spills) :
    spills.known = p.functions.ids ∧ ∀ id, id ∈ spills.spilling ↔ p.SaidToSpill id := by
  obtain ⟨calls, hcalls, rfl⟩ := Outcome.map_eq_ok_iff.mp h
  have hpairs := Outcome.mapM_eq_ok hcalls
  refine ⟨?_, fun id => mem_settle_iff_saidToSpill hpairs⟩
  exact Pairs.map_eq hpairs fun f t hok => (TailCalls.ofFunction_eq_ok hok).1

/-- If a declaration is followed by a function with its ID that returns at once, it is the latter that counts. -/
example :
    let graph : FlowGraph := { blocks := ({} : Roster Block).insert (.ofCode [.ret]), entry := 1 }
    let shared : List Function :=
      [{ id := 1, name := "abort" }, { id := 1, name := "leaf", body := some graph, calleeSaved := some [] }]
    compute { functions := { elems := shared, next := 2 }, pointerSize := 4 }
      = .ok { known := [1, 1], spilling := [] } := by decide +kernel

theorem canSpill_iff (h : compute p = .ok spills) (hid : id ∈ p.functions.ids) :
    spills.canSpill id = true ↔ p.SaidToSpill id := by
  obtain ⟨hknown, hspilling⟩ := compute_eq_ok h
  simp [canSpill, hknown, hid, hspilling]

end LinkSpill
end ThumbHardening
