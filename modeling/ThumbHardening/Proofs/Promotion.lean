import ThumbHardening.Promotion
import ThumbHardening.Proofs.Leakage.Changes

/-!
# Runs of the promotion

A run of the promotion is a sequence of moves, each of which makes one global object and takes one stack object
out of a frame. A run that reports no change has made no move.
-/

namespace ThumbHardening
namespace Promotion

variable {p : Program} {s s' : State} {function : Nat} {c : Candidate} {statistics : PromotionStatistics}
  {changed : Bool}

theorem globalFor_eq {g : GlobalObject} (h : globalFor p c = .ok g) :
    g = { name := c.name, size := c.size, align := max c.align 1
          initializer := some (sentinelInitializer c.type c.size p.pointerSize)
          linkage := .hidden, type := some c.type } := by
  rw [globalFor, GlobalDraft.build] at h
  split at h
  · cases h
  · cases h
  · next hname hsize =>
    cases hname
    cases hsize
    split at h
    · cases h
    · cases h
      rfl

/-- A move makes an object, and then changes one function. -/
theorem promote_eq_none (h : promote function c s = (s', none)) :
    ∃ g q id, globalFor s.program c = .ok g ∧ s.program.addGlobal g = (q, .ok id) ∧
      s' = { program := q.updateFunction function (moveOut c.object id)
             statistics := { s.statistics with promoted := s.statistics.promoted + 1 } } := by
  rw [promote] at h
  split at h
  · cases h
  · split at h
    · cases h
    · next g hg =>
      split at h
      · cases h
      · next q id hadd =>
        cases h
        exact ⟨g, q, id, hg, hadd, rfl⟩

/-- Whatever counting an object and moving one preserve holds at the end of a run. -/
theorem run_induction {P : State → Prop} (hok : (run statistics p).outcome = .ok changed)
    (hstart : P { program := p, statistics })
    (hcount : ∀ s fate, P s → P { s with statistics := count s.statistics fate })
    (hmove : ∀ function c s s', promote function c s = (s', none) → P s → P s') :
    ∃ s, P s ∧ (run statistics p).program = s.program ∧
      changed = decide (statistics.promoted < s.statistics.promoted) := by
  have hfates : ∀ (fates : List Fate) (s : State), P s →
      P { s with statistics := fates.foldl count s.statistics } := by
    intro fates
    induction fates with
    | nil => exact fun s hs => hs
    | cons fate rest ih => exact fun s hs => ih _ (hcount s fate hs)
  rw [run] at hok ⊢
  split at hok
  · cases hok
  · next g _ =>
    cases hrun : Steps.runAll promoteComponent g.components { program := p, statistics } with
    | mk s failure =>
      simp only [hrun] at hok ⊢
      cases failure with
      | some e => cases hok
      | none =>
        cases hok
        refine ⟨s, ?_, rfl, rfl⟩
        refine Steps.runAll_induction hrun hstart fun component _ s s' hcomponent hs => ?_
        refine Steps.runAll_induction hcomponent hs fun function _ s s' hfunction hs => ?_
        exact Steps.runAll_induction hfunction (hfates _ s hs) fun c _ s s' => hmove function c s s'

/-- A run that reports no change has left the program as it was. -/
theorem program_of_unchanged (hok : (run statistics p).outcome = .ok false) :
    (run statistics p).program = p := by
  have hmove : ∀ function c s s', promote function c s = (s', none) →
      statistics.promoted ≤ s.statistics.promoted →
      statistics.promoted < s'.statistics.promoted := by
    intro function c s s' hmove hle
    obtain ⟨g, q, id, -, -, rfl⟩ := promote_eq_none hmove
    exact Nat.lt_succ_of_le hle
  obtain ⟨s, ⟨hle, hsame⟩, hprogram, hchanged⟩ := run_induction hok
    (P := fun s => statistics.promoted ≤ s.statistics.promoted ∧
      (s.statistics.promoted = statistics.promoted → s.program = p))
    ⟨Nat.le_refl _, fun _ => rfl⟩
    (fun s fate hs => by cases fate <;> exact hs)
    (fun function c s s' hstep hs => by
      have hlt := hmove function c s s' hstep hs.1
      exact ⟨Nat.le_of_lt hlt, fun heq => by omega⟩)
  rw [hprogram]
  apply hsame
  simp only [Bool.false_eq, decide_eq_false_iff_not] at hchanged
  omega

/-! ### Visits -/

/-- The functions in the order in which they are visited, with whether they count as recursive. -/
def visits (g : CallGraph) : List (Bool × Nat) :=
  g.components.flatMap fun c => c.functions.map fun id => (c.cyclic, id)

/-- Visits a function. -/
def visit (v : Bool × Nat) (s : State) : State × Option PromotionError :=
  promoteFunction v.1 v.2 s

theorem runAll_promoteComponent_eq (g : CallGraph) (s : State) :
    Steps.runAll promoteComponent g.components s = Steps.runAll visit (visits g) s := by
  have hcomponent : promoteComponent
      = fun c => Steps.runAll visit (c.functions.map fun id => (c.cyclic, id)) := by
    funext c s
    change Steps.runAll (fun id => visit (c.cyclic, id)) c.functions s = _
    rw [Steps.runAll_map]
  rw [hcomponent, Steps.runAll_flatMap, visits]

/-- What a run reports at its end. -/
def report (statistics : PromotionStatistics) (s : State) : Option PromotionError → Except PromotionError Bool
  | some e => .error e
  | none => .ok (statistics.promoted < s.statistics.promoted)

/-- A run visits the functions one after the other. -/
theorem run_eq {g : CallGraph} {statistics : PromotionStatistics} {failure : Option PromotionError}
    (hbuild : CallGraph.build p = .ok g)
    (hrun : Steps.runAll visit (visits g) { program := p, statistics } = (s, failure)) :
    (run statistics p).program = s.program ∧
      (run statistics p).outcome = report statistics s failure := by
  rw [← runAll_promoteComponent_eq] at hrun
  rw [run, hbuild]
  simp only [hrun]
  exact ⟨trivial, by cases failure <;> rfl⟩

/-! ### Leaks -/

theorem callee?_replaced {object global : Nat} (o : Operand) :
    (if o = .frame object then Operand.address (.global global) else o).callee? = o.callee? := by
  split
  · next h =>
    rw [h]
    rfl
  · rfl

/-- Neither a stack object nor a global object is ever called. -/
theorem profile_moveOut (object global : Nat) (f : Function) :
    (moveOut object global f).profile = f.profile := by
  change (f.updateBody _).profile = f.profile
  apply Function.profile_updateBody
  intro g _
  rw [replaceOperand, List.map_map]
  apply List.map_congr_left
  intro b _
  refine Block.profile_eq_of_callAlike (.of_forall₂ ?_)
  rw [List.forall₂_map_right_iff]
  refine List.forall₂_same.mpr fun i _ => .of_operands ?_
  cases i.operands with
  | nil => rfl
  | cons first rest => exact callee?_replaced first

theorem entries_sentinelInitializer (type : DataType) (size ptr : Nat) :
    (sentinelInitializer type size ptr).entries = [] := by
  rw [sentinelInitializer]
  split <;> rfl

/-- A successful run leaves a program that leaks alike. -/
theorem run_alike {q : Program} (h : p.Alike q []) (hok : (run statistics q).outcome = .ok changed) :
    p.Alike (run statistics q).program [] := by
  obtain ⟨s, hs, hprogram, -⟩ := run_induction (P := fun s => p.Alike s.program []) hok h
    (fun _ _ hs => hs)
    (fun function c s s' hmove hs => by
      obtain ⟨g, q, id, hg, hadd, rfl⟩ := promote_eq_none hmove
      refine (hs.addGlobal ?_ hadd).updateFunction fun f _ => profile_moveOut c.object id f
      rw [globalFor_eq hg, Option.map_some, Option.getD_some, entries_sentinelInitializer]
      exact List.forall_mem_nil _)
  rw [hprogram]
  exact hs

end Promotion
end ThumbHardening
