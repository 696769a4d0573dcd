import ThumbHardening.Proofs.Leakage.Growth
import ThumbHardening.Proofs.Leakage.Lockstep
import ThumbHardening.Proofs.Leakage.Profile
import ThumbHardening.Proofs.Program
import ThumbHardening.Proofs.Verify

/-!
# Programs that leak alike

A program may have got other code, values and functions and still leak what it did: its old functions keep
their profiles, its values grow, and the new functions neither call anything nor have their addresses taken.
The analysis cannot tell such a program from the one it came from, but for the number of functions.
-/

namespace ThumbHardening

/-- A function that nothing can be learnt about: it calls nothing, keeps its return address and is only
called itself. -/
structure Function.Quiet (f : Function) : Prop where
  addressTaken : f.addressTaken = false
  body : f.body.isSome = true
  saved : ∃ saved, f.calleeSaved = some saved ∧ f.savesLink = false
  calls : Code.Silent f.instrs
  ids : (f.blocks.map Block.id).Nodup

theorem Function.Quiet.not_spillsItself {f : Function} (h : f.Quiet) : ¬ f.SpillsItself := by
  obtain ⟨saved, hsaved, hlink⟩ := h.saved
  have hbody := h.body
  intro hcase
  rcases hcase with hnone | hnone | hspills | htail
  · rw [hnone] at hbody
    cases hbody
  · rw [hnone] at hsaved
    cases hsaved
  · rw [hlink] at hspills
    cases hspills
  · obtain ⟨i, hi, hcallee⟩ := List.mem_filterMap.mp htail
    rw [(h.calls i hi).2] at hcallee
    cases hcallee

namespace Program

/-- A program `q` that leaks what `p` does, with functions `extra` behind those of `p`. -/
structure Alike (p q : Program) (extra : List Function) : Prop where
  functions : ∃ kept, q.functions.elems = kept ++ extra ∧
    kept.map Function.profile = p.functions.elems.map Function.profile
  next_le : p.functions.next ≤ q.functions.next
  quiet : ∀ f ∈ extra, f.Quiet
  fresh : ∀ f ∈ extra, p.functions.next ≤ f.id
  aliases : q.aliases = p.aliases
  values : p.values.Grown q.values
  bindings : ∀ id < p.functions.next, q.valueOf? (.function id) = p.valueOf? (.function id)
  /-- Only the new functions have taken names that no function had. -/
  named : ∀ name id, q.symbolNamed? name = some (.function id) ↔
    p.symbolNamed? name = some (.function id) ∨ ∃ f ∈ extra, f.name = name ∧ f.id = id

variable {p q : Program} {extra : List Function} {f f' : Function} {id : Nat}
  {spills spills' : LinkSpill} {c : Callee} {b b' : Block}

theorem Alike.refl (p : Program) : p.Alike p [] where
  functions := ⟨p.functions.elems, (List.append_nil _).symm, rfl⟩
  next_le := Nat.le_refl _
  quiet := by simp
  fresh := by simp
  aliases := rfl
  values := .refl _
  bindings := fun _ _ => rfl
  named := by simp

/-! ### Spills -/

theorem Alike.mem_elems (h : p.Alike q extra) (hf : f' ∈ q.functions.elems) :
    (∃ f ∈ p.functions.elems, f'.profile = f.profile) ∨ f' ∈ extra := by
  obtain ⟨kept, hkept, hprofiles⟩ := h.functions
  rw [hkept] at hf
  refine (List.mem_append.mp hf).imp_left fun hf => ?_
  exact Pairs.exists_of_mem_right (Pairs.of_map_eq hprofiles) hf

theorem Alike.exists_mem_elems (h : p.Alike q extra) (hf : f ∈ p.functions.elems) :
    ∃ f' ∈ q.functions.elems, f'.profile = f.profile := by
  obtain ⟨kept, hkept, hprofiles⟩ := h.functions
  obtain ⟨f', hf', hprofile⟩ := Pairs.exists_of_mem_left (Pairs.of_map_eq hprofiles) hf
  exact ⟨f', by rw [hkept]; exact List.mem_append_left _ hf', hprofile⟩

/-- The functions from which tail calls lead to a spill are the same. -/
theorem Alike.spillsLink_iff (h : p.Alike q extra) : q.SpillsLink id ↔ p.SpillsLink id := by
  constructor
  · intro hspills
    induction hspills with
    | self hf hself =>
      rcases h.mem_elems hf with ⟨f, hf, hprofile⟩ | hextra
      · rw [Function.id_eq_of_profile hprofile]
        exact .self hf ((Function.spillsItself_iff hprofile).mp hself)
      · exact absurd hself (h.quiet _ hextra).not_spillsItself
    | @tail f' symbol callee hf hsymbol hresolve _ ih =>
      rcases h.mem_elems hf with ⟨f, hf, hprofile⟩ | hextra
      · rw [Function.id_eq_of_profile hprofile]
        have hresolve := resolveFunction_of_aliases h.aliases.symm hresolve ih.mem_ids
        rw [Function.tailCallees_eq_of_profile hprofile] at hsymbol
        exact .tail hf hsymbol hresolve ih
      · obtain ⟨i, hi, hcallee⟩ := List.mem_filterMap.mp hsymbol
        rw [((h.quiet _ hextra).calls i hi).2] at hcallee
        cases hcallee
  · intro hspills
    induction hspills with
    | self hf hself =>
      obtain ⟨f', hf', hprofile⟩ := h.exists_mem_elems hf
      rw [← Function.id_eq_of_profile hprofile]
      exact .self hf' ((Function.spillsItself_iff hprofile).mpr hself)
    | tail hf hsymbol hresolve _ ih =>
      obtain ⟨f', hf', hprofile⟩ := h.exists_mem_elems hf
      rw [← Function.id_eq_of_profile hprofile]
      rw [← Function.tailCallees_eq_of_profile hprofile] at hsymbol
      exact .tail hf' hsymbol (resolveFunction_of_aliases h.aliases hresolve ih.mem_ids) ih

/-- The last function with an ID is the same, since those that joined have IDs of their own. -/
theorem Alike.find?_last (h : p.Alike q extra) (hid : id < p.functions.next) :
    Option.Rel (fun f f' : Function => f'.profile = f.profile)
      (p.functions.elems.reverse.find? (·.id = id)) (q.functions.elems.reverse.find? (·.id = id)) := by
  obtain ⟨kept, hkept, hprofiles⟩ := h.functions
  have hfresh : extra.reverse.find? (·.id = id) = none := by
    refine List.find?_eq_none.mpr fun f hf hsame => ?_
    have hle := h.fresh f (List.mem_reverse.mp hf)
    rw [of_decide_eq_true hsame] at hle
    omega
  rw [hkept, List.reverse_append, List.find?_append, hfresh, Option.none_or]
  exact Pairs.find? (List.forall₂_reverse_iff.mpr (Pairs.of_map_eq hprofiles)) fun f f' hprofile => by
    rw [Function.id_eq_of_profile hprofile]

/-- The answers for the functions of the old program are the same. -/
theorem Alike.saidToSpill_iff (h : p.Alike q extra) (hid : id < p.functions.next) :
    q.SaidToSpill id ↔ p.SaidToSpill id := by
  refine or_congr ?_ ?_
  · have hlast := h.find?_last hid
    generalize p.functions.elems.reverse.find? (·.id = id) = f at hlast ⊢
    generalize q.functions.elems.reverse.find? (·.id = id) = f' at hlast ⊢
    cases hlast with
    | none => simp
    | some hprofile => simp [Function.spillsItself_iff hprofile]
  · constructor
    · rintro ⟨f', hf', rfl, symbol, callee, hsymbol, hresolve, hspills⟩
      rw [h.spillsLink_iff] at hspills
      rcases h.mem_elems hf' with ⟨f, hf, hprofile⟩ | hextra
      · rw [Function.tailCallees_eq_of_profile hprofile] at hsymbol
        have hresolve := resolveFunction_of_aliases h.aliases.symm hresolve hspills.mem_ids
        exact ⟨f, hf, (Function.id_eq_of_profile hprofile).symm, symbol, callee, hsymbol, hresolve, hspills⟩
      · exact absurd (h.fresh f' hextra) (Nat.not_le_of_lt hid)
    · rintro ⟨f, hf, rfl, symbol, callee, hsymbol, hresolve, hspills⟩
      obtain ⟨f', hf', hprofile⟩ := h.exists_mem_elems hf
      rw [← h.spillsLink_iff] at hspills
      rw [← Function.tailCallees_eq_of_profile hprofile] at hsymbol
      have hresolve := resolveFunction_of_aliases h.aliases hresolve hspills.mem_ids
      exact ⟨f', hf', Function.id_eq_of_profile hprofile, symbol, callee, hsymbol, hresolve, hspills⟩

theorem Alike.maySpill_iff (h : p.Alike q extra) (hwf : p.WellFormed)
    (hspills : LinkSpill.compute p = .ok spills) (hspills' : LinkSpill.compute q = .ok spills') :
    c.MaySpill q spills' ↔ c.MaySpill p spills := by
  have hlt : ∀ id ∈ p.functions.ids, id < p.functions.next := by
    intro id hid
    obtain ⟨f, hf, rfl⟩ := List.mem_map.mp hid
    exact hwf.functions f hf
  cases c with
  | unknown => exact Iff.rfl
  | symbol symbol =>
    constructor
    · intro hparts
      obtain ⟨id, hresolve, hspill⟩ := hparts
      rw [LinkSpill.canSpill_iff hspills' (mem_ids_of_resolveFunction hresolve)] at hspill
      have hid := (h.spillsLink_iff.mp hspill.spillsLink).mem_ids
      refine ⟨id, resolveFunction_of_aliases h.aliases.symm hresolve hid, ?_⟩
      exact (LinkSpill.canSpill_iff hspills hid).mpr ((h.saidToSpill_iff (hlt id hid)).mp hspill)
    · intro hparts
      obtain ⟨id, hresolve, hspill⟩ := hparts
      have hold := mem_ids_of_resolveFunction hresolve
      rw [LinkSpill.canSpill_iff hspills hold] at hspill
      have hid := (h.spillsLink_iff.mpr hspill.spillsLink).mem_ids
      refine ⟨id, resolveFunction_of_aliases h.aliases hresolve hid, ?_⟩
      exact (LinkSpill.canSpill_iff hspills' hid).mpr ((h.saidToSpill_iff (hlt id hold)).mpr hspill)

/-! ### Functions -/

theorem Alike.addressEscapes_eq (h : p.Alike q extra) (hwf : p.WellFormed)
    (hf : f ∈ p.functions.elems) (hprofile : f'.profile = f.profile) :
    q.addressEscapes f' = p.addressEscapes f := by
  have hid := Function.id_eq_of_profile hprofile
  have htaken : f'.addressTaken = f.addressTaken := congrArg FunctionProfile.addressTaken hprofile
  rw [Bool.eq_iff_iff, addressEscapes_iff, addressEscapes_iff, hid, htaken,
    h.bindings f.id (hwf.functions f hf)]
  apply and_congr_right
  intro _
  apply exists_congr
  intro value
  apply and_congr_right
  intro hvalue
  exact h.values.escapes_iff hwf.values (hwf.lt_size_of_valueOf hvalue)

open LeakageSweep in
theorem Alike.sameFunction (h : p.Alike q extra) (hwf : p.WellFormed)
    (hspills : LinkSpill.compute p = .ok spills) (hspills' : LinkSpill.compute q = .ok spills')
    (hverify : p.verifyFunction f = .ok ()) (hverify' : q.verifyFunction f' = .ok ())
    (hids : (f.blocks.map Block.id).Nodup) (hf : f ∈ p.functions.elems)
    (hprofile : f'.profile = f.profile) : SameFunction p q spills spills' f f' := by
  refine ⟨Function.id_eq_of_profile hprofile, h.addressEscapes_eq hwf hf hprofile, ?_⟩
  have hblocks : (f'.body.map fun g => g.blocks.elems.map Block.profile)
      = f.body.map fun g => g.blocks.elems.map Block.profile := congrArg FunctionProfile.blocks hprofile
  rw [verifyFunction_eq_ok_iff] at hverify hverify'
  rw [Function.blocks] at hids
  generalize f.body = body at hblocks hverify hids
  generalize f'.body = body' at hblocks hverify'
  cases body with
  | none =>
    obtain rfl : body' = none := by simpa using hblocks
    exact .none
  | some g =>
    obtain ⟨g', rfl, hprofiles⟩ := Option.map_eq_some_iff.mp hblocks
    refine .some ⟨hids, Pairs.imp (Pairs.of_map_eq hprofiles) fun b hb b' hb' hblock => ?_⟩
    have hconsistent := ((hverify g rfl).2 b hb).consistent
    have hconsistent' := ((hverify' g' rfl).2 b' hb').consistent
    refine ⟨congrArg BlockProfile.id hblock, congrArg BlockProfile.trap hblock, ?_, ?_⟩
    · rw [Code.leaksInside_iff hconsistent, Code.leaksInside_iff hconsistent', hblock]
      simp only [h.maySpill_iff hwf hspills hspills']
    · rw [Code.endsLeaking_iff hconsistent, Code.endsLeaking_iff hconsistent', hblock]
      simp only [h.maySpill_iff hwf hspills hspills']

end Program

namespace LeakageSweep

variable {p q : Program} {spills spills' : LinkSpill} {extra : List Function} {f : Function}
  {s s' t t' : LeakageSweep} {more : Nat}

/-- A quiet function leaves no mark. -/
theorem Agree.visitQuiet (h : Agree more s t) (hf : f.Quiet) (hclean : ∀ id, (f.id, id) ∉ t.blocks)
    (hvisit : LeakageSweep.visitFunction q spills' f t = (t', none)) : Agree (more + 1) s t' := by
  obtain ⟨g, hbody⟩ := Option.isSome_iff_exists.mp hf.body
  have hnot : ∀ b ∈ g.blocks.elems, ∀ i ∈ b.instrs, ¬ spills'.Leaking q i := by
    intro b hb i hi hleaking
    obtain ⟨c, hc, -⟩ := leaking_iff.mp hleaking
    rw [(hf.calls i _).1] at hc
    · cases hc
    · rw [Function.instrs, Function.blocks, hbody]
      exact List.mem_flatMap.mpr ⟨b, hb, hi⟩
  have hids : g.blocks.ids.Nodup := by
    have hids := hf.ids
    rw [Function.blocks, hbody] at hids
    exact hids
  have hescapes : q.addressEscapes f = false := by
    rw [Bool.eq_false_iff, ne_eq, Program.addressEscapes_iff, hf.addressTaken]
    simp
  simp only [LeakageSweep.visitFunction, hbody, hescapes, Bool.false_eq_true, if_false] at hvisit
  have hstart : Agree (more + 1) s ((g.blocks.elems.filter fun b => !b.trap).foldl countBlock
      { t with
        statistics := { t.statistics with functions := t.statistics.functions + 1 }
        warnings := t.warnings + q.escapeWarnings f }) := by
    have hcount := h.functionCount
    refine Agree.foldl_countBlock (s := s) ?_ [] _
    exact ⟨h.blocks, h.functions, by dsimp only; omega, h.functionsLeakable, h.blocksLeakable⟩
  refine Steps.runAll_induction hvisit hstart fun b hb u u' hstep hu => ?_
  obtain ⟨answer, hanswer, rfl⟩ := visitBlock_eq_ite hstep
  have hfalse : answer ≠ true := by
    rw [ne_eq, isGivenAway_eq_ok hids hanswer]
    intro hcase
    -- Nothing in the function leaks, and no block of it has a mark that could spread.
    rcases hcase with ⟨index, i, hi, hleaking, -⟩ | ⟨front, hfront, hmark | ⟨index, i, hi, hleaking⟩⟩
    · exact hnot b (List.mem_of_mem_filter hb) i (List.mem_of_getElem? hi) hleaking
    · rw [hu.blocks, ← h.blocks] at hmark
      exact hclean front.id hmark
    · exact hnot front (FlowGraph.mem_of_layoutPredecessor? hfront) i (Code.mem_of_lastNonDebug? hi) hleaking
  rw [if_neg hfalse]
  exact hu

/-- Neither does a list of them. -/
theorem Agree.visitNew (h : Agree more s t) (hextra : ∀ f ∈ extra, f.Quiet)
    (hclean : ∀ f ∈ extra, ∀ id, (f.id, id) ∉ s.blocks)
    (hrun : Steps.runAll (LeakageSweep.visitFunction q spills') extra t = (t', none)) :
    Agree (more + extra.length) s t' := by
  induction extra generalizing more t with
  | nil =>
    cases hrun
    exact h
  | cons f rest ih =>
    obtain ⟨u, hfirst, hrest⟩ := Steps.runAll_cons_eq_none_iff.mp hrun
    obtain ⟨hf, hothers⟩ := List.forall_mem_cons.mp hextra
    obtain ⟨hcleanFirst, hcleanRest⟩ := List.forall_mem_cons.mp hclean
    have hu := h.visitQuiet hf (h.blocks.symm ▸ hcleanFirst) hfirst
    have hlast := ih hu hothers hcleanRest hrest
    rwa [Nat.add_assoc, Nat.add_comm 1, ← List.length_cons] at hlast

/-- The analysis finds the same in both programs. -/
theorem visitProgram_agree (h : p.Alike q extra) (hwf : p.WellFormed) (hverify : p.verify = .ok ())
    (hverify' : q.verify = .ok ()) (hfunctions : p.functions.ids.Nodup)
    (hblocks : ∀ f ∈ p.functions.elems, (f.blocks.map Block.id).Nodup)
    (hspills : LinkSpill.compute p = .ok spills) (hspills' : LinkSpill.compute q = .ok spills')
    (hvisit : visitProgram p spills = (s, none)) (hvisit' : visitProgram q spills' = (t, none)) :
    Agree extra.length s t := by
  obtain ⟨kept, hkept, hprofiles⟩ := h.functions
  rw [visitProgram, hkept] at hvisit'
  obtain ⟨u, hold, hnew⟩ := Steps.runAll_append_eq_none_iff.mp hvisit'
  have hpairs : List.Forall₂ (SameFunction p q spills spills') p.functions.elems kept :=
    Pairs.imp (Pairs.of_map_eq hprofiles) fun f hf f' hf' hprofile =>
      h.sameFunction hwf hspills hspills' (Program.verifyFunction_of_verify hverify hf)
        (Program.verifyFunction_of_verify hverify' (hkept ▸ List.mem_append_left _ hf'))
        (hblocks f hf) hf hprofile
  have hagree : Agree 0 s u :=
    Pairs.runAll hpairs hvisit hold ⟨rfl, rfl, rfl, rfl, rfl⟩
      fun f f' hf s s' t t' hs ht hst => hst.visitFunction hf hs ht
  -- Functions of `p` have left no marks for the new ones.
  have hclean : ∀ f ∈ extra, ∀ id, (f.id, id) ∉ s.blocks := by
    intro f hf id
    have hframe := (runAll_visitFunction hfunctions (fun f hf g hbody => ?_) (by simp) hvisit).1
    · rw [hframe]
      · simp
      · intro hmem
        obtain ⟨old, hold, hid⟩ := List.mem_map.mp hmem
        have hlt := hwf.functions old hold
        have hfresh := h.fresh f hf
        change old.id = f.id at hid
        omega
    · have hids := hblocks f hf
      rw [Function.blocks, hbody] at hids
      exact hids
  have hlast := hagree.visitNew h.quiet hclean hnew
  rwa [Nat.zero_add] at hlast

end LeakageSweep
end ThumbHardening
