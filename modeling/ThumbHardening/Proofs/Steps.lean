import ThumbHardening.Steps
import Mathlib.Algebra.GroupWithZero.Nat
import Mathlib.Data.List.Forall2

/-!
# Runs that succeed

A chain of steps succeeds exactly when each step does, and whatever all steps preserve holds at the end.
-/

namespace ThumbHardening

namespace Outcome
variable {ε α β : Type}

theorem bind_eq_ok_iff {x : Except ε α} {f : α → Except ε β} {b : β} :
    x >>= f = .ok b ↔ ∃ a, x = .ok a ∧ f a = .ok b := by
  cases x with
  | error e =>
    refine ⟨fun h => ?_, ?_⟩
    · cases h
    · intro hparts
      obtain ⟨a, ha, -⟩ := hparts
      cases ha
  | ok a =>
    refine ⟨fun h => ⟨a, rfl, h⟩, ?_⟩
    intro hparts
    obtain ⟨a', ha, h⟩ := hparts
    cases ha
    exact h

theorem seq_eq_ok_iff {x : Except ε Unit} {y : Except ε β} {b : β} :
    (x >>= fun _ => y) = .ok b ↔ x = .ok () ∧ y = .ok b := by
  rw [bind_eq_ok_iff]
  exact ⟨fun h => ⟨h.choose_spec.1, h.choose_spec.2⟩, fun h => ⟨(), h⟩⟩

theorem mapError_eq_ok_iff {ε' : Type} {x : Except ε α} {f : ε → ε'} {a : α} :
    x.mapError f = .ok a ↔ x = .ok a := by
  cases x <;> simp [Except.mapError]

theorem map_eq_ok_iff {x : Except ε α} {f : α → β} {b : β} :
    x.map f = .ok b ↔ ∃ a, x = .ok a ∧ f a = b := by
  cases x with
  | error e => simp [Except.map]
  | ok a => simp [Except.map]

theorem exists_eq_ok_of_isSome {x : Except ε α} (h : x.toOption.isSome = true) :
    ∃ a, x = .ok a := by
  cases x with
  | error e => cases h
  | ok a => exact ⟨a, rfl⟩

theorem toOption_eq_some_iff {x : Except ε α} {a : α} : x.toOption = some a ↔ x = .ok a := by
  cases x <;> simp [Except.toOption]

theorem forM_eq_ok_iff {f : α → Except ε Unit} {xs : List α} :
    xs.forM f = .ok () ↔ ∀ x ∈ xs, f x = .ok () := by
  induction xs with
  | nil => exact ⟨fun _ _ hx => (List.not_mem_nil hx).elim, fun _ => rfl⟩
  | cons x rest ih =>
    change (f x >>= fun _ => rest.forM f) = .ok () ↔ _
    rw [seq_eq_ok_iff, List.forall_mem_cons, ← ih]

theorem mapM_eq_ok {f : α → Except ε β} {xs : List α} {ys : List β} (h : xs.mapM f = .ok ys) :
    List.Forall₂ (fun x y => f x = .ok y) xs ys := by
  induction xs generalizing ys with
  | nil =>
    cases h
    exact .nil
  | cons x rest ih =>
    rw [List.mapM_cons, bind_eq_ok_iff] at h
    obtain ⟨y, hy, h⟩ := h
    obtain ⟨others, hothers, h⟩ := bind_eq_ok_iff.mp h
    cases h
    exact .cons hy (ih hothers)

/-- Going through a list succeeds if every element does. -/
theorem exists_mapM_eq_ok {f : α → Except ε β} {xs : List α} (h : ∀ x ∈ xs, ∃ y, f x = .ok y) :
    ∃ ys, xs.mapM f = .ok ys := by
  induction xs with
  | nil => exact ⟨[], rfl⟩
  | cons x rest ih =>
    obtain ⟨⟨y, hy⟩, hrest⟩ := List.forall_mem_cons.mp h
    obtain ⟨ys, hys⟩ := ih hrest
    exact ⟨y :: ys, by rw [List.mapM_cons, hy, hys]; rfl⟩

end Outcome

namespace Steps
variable {α σ ε : Type} {step : α → σ → σ × Option ε}

theorem runAll_cons_eq_none_iff {a : α} {rest : List α} {s s' : σ} :
    runAll step (a :: rest) s = (s', none)
      ↔ ∃ t, step a s = (t, none) ∧ runAll step rest t = (s', none) := by
  rw [runAll]
  cases hstep : step a s with
  | mk t failure =>
    cases failure with
    | none => simp
    | some e => simp

theorem runAll_append_eq_none_iff {xs ys : List α} {s s' : σ} :
    runAll step (xs ++ ys) s = (s', none)
      ↔ ∃ t, runAll step xs s = (t, none) ∧ runAll step ys t = (s', none) := by
  induction xs generalizing s with
  | nil => simp [runAll]
  | cons x rest ih =>
    simp only [List.cons_append, runAll_cons_eq_none_iff, ih]
    constructor
    · intro hparts
      obtain ⟨t, ht, u, hu, hrest⟩ := hparts
      exact ⟨u, ⟨t, ht, hu⟩, hrest⟩
    · intro hparts
      obtain ⟨u, ⟨t, ht, hu⟩, hrest⟩ := hparts
      exact ⟨t, ht, u, hu, hrest⟩

theorem runAll_map {β : Type} (f : β → α) (xs : List β) (s : σ) :
    runAll step (xs.map f) s = runAll (fun x => step (f x)) xs s := by
  induction xs generalizing s with
  | nil => rfl
  | cons x rest ih => simp only [List.map_cons, runAll, ih]

theorem runAll_append (xs ys : List α) (s : σ) :
    runAll step (xs ++ ys) s = match runAll step xs s with
      | (t, some e) => (t, some e)
      | (t, none) => runAll step ys t := by
  induction xs generalizing s with
  | nil => rfl
  | cons x rest ih =>
    rw [List.cons_append, runAll, runAll]
    split
    · rfl
    · exact ih _

/-- Runs one after the other are one run. -/
theorem runAll_flatMap {β : Type} (f : β → List α) (xs : List β) (s : σ) :
    runAll (fun x => runAll step (f x)) xs s = runAll step (xs.flatMap f) s := by
  induction xs generalizing s with
  | nil => rfl
  | cons x rest ih =>
    rw [List.flatMap_cons, runAll_append, runAll]
    rcases runAll step (f x) s with ⟨t, _ | e⟩
    · exact ih t
    · rfl

/-- What each step preserves, whether or not it fails, holds at the end of a run that may fail. -/
theorem runAll_keeps {P : σ → Prop} {xs : List α} {s : σ} (hstart : P s)
    (hstep : ∀ a ∈ xs, ∀ t, P t → P (step a t).1) : P (runAll step xs s).1 := by
  induction xs generalizing s with
  | nil => exact hstart
  | cons a rest ih =>
    obtain ⟨hfirst, hrest⟩ := List.forall_mem_cons.mp hstep
    have hnext := hfirst s hstart
    rw [runAll]
    split
    · next heq =>
      rw [heq] at hnext
      exact hnext
    · next heq =>
      rw [heq] at hnext
      exact ih hnext hrest

/-- That a condition decides whether a step or a run succeeds, what holds then, and what it may fail with
otherwise. -/
structure Decided (succeeds : Prop) (done : σ → Prop) (failed : ε → Prop) (result : σ × Option ε) : Prop where
  ok : succeeds → result.2 = none ∧ done result.1
  error : ¬succeeds → ∃ e, result.2 = some e ∧ failed e

namespace Decided
variable {succeeds succeeds' : Prop} {done done' : σ → Prop} {failed : ε → Prop} {result : σ × Option ε}
  {state : σ}

theorem success (h : succeeds) (hdone : done state) : Decided succeeds done failed (state, none) :=
  ⟨fun _ => ⟨rfl, hdone⟩, fun hnot => absurd h hnot⟩

theorem failure {e : ε} (h : ¬succeeds) (hfailed : failed e) : Decided succeeds done failed (state, some e) :=
  ⟨fun hyes => absurd hyes h, fun _ => ⟨e, rfl, hfailed⟩⟩

theorem imp (h : Decided succeeds done failed result) (hiff : succeeds' ↔ succeeds)
    (hdone : ∀ state, done state → done' state) : Decided succeeds' done' failed result :=
  ⟨fun hyes => (h.ok (hiff.mp hyes)).imp_right (hdone _), fun hnot => h.error fun hyes => hnot (hiff.mpr hyes)⟩

theorem eq_none_iff (h : Decided succeeds done failed result) : result.2 = none ↔ succeeds := by
  refine ⟨fun hnone => ?_, fun hyes => (h.ok hyes).1⟩
  by_contra hnot
  obtain ⟨e, he, -⟩ := h.error hnot
  rw [hnone] at he
  cases he

theorem runAll_cons {a : α} {rest : List α} (hfirst : Decided succeeds done failed (step a state))
    (hrest : ∀ next, done next → Decided succeeds' done' failed (runAll step rest next)) :
    Decided (succeeds ∧ succeeds') done' failed (runAll step (a :: rest) state) := by
  rcases hstep : step a state with ⟨next, outcome⟩
  rw [hstep] at hfirst
  rw [runAll, hstep]
  by_cases hyes : succeeds
  · obtain ⟨hnone, hdone⟩ := hfirst.ok hyes
    cases hnone
    exact (hrest next hdone).imp (and_iff_right hyes) fun _ => id
  · obtain ⟨e, he, hfailed⟩ := hfirst.error hyes
    cases he
    exact .failure (fun h => hyes h.1) hfailed

end Decided

/-- What each step preserves holds at the end of a run. -/
theorem runAll_induction {P : σ → Prop} {xs : List α} {s s' : σ}
    (h : runAll step xs s = (s', none)) (hstart : P s)
    (hstep : ∀ a ∈ xs, ∀ t t', step a t = (t', none) → P t → P t') : P s' := by
  induction xs generalizing s with
  | nil =>
    cases h
    exact hstart
  | cons a rest ih =>
    obtain ⟨t, ht, hrest⟩ := runAll_cons_eq_none_iff.mp h
    exact ih hrest (hstep a (List.mem_cons_self ..) s t ht hstart)
      fun a' ha' => hstep a' (List.mem_cons_of_mem _ ha')

/-- If it can be told of each element whether its step fails once the steps before have succeeded, then a run
fails if and only if that is so for some element. -/
theorem runAll_fails_iff {Fails : α → Prop} {xs : List α} {s : σ}
    (hstep : ∀ front a back t, xs = front ++ a :: back → runAll step front s = (t, none) →
      ((∃ e, (step a t).2 = some e) ↔ Fails a)) :
    (∃ e, (runAll step xs s).2 = some e) ↔ ∃ a ∈ xs, Fails a := by
  induction xs generalizing s with
  | nil => simp [runAll]
  | cons a rest ih =>
    have hfirst := hstep [] a rest s rfl rfl
    rw [List.exists_mem_cons_iff, ← hfirst, runAll]
    rcases hstep' : step a s with ⟨t, _ | e⟩
    · have hrest := ih (s := t) fun front b back u hsplit hrun =>
        hstep (a :: front) b back u (congrArg (a :: ·) hsplit)
          (runAll_cons_eq_none_iff.mpr ⟨t, hstep', hrun⟩)
      simp [hrest]
    · simp

/-- A number that every step adds to goes up by the sum of what the steps add. -/
theorem runAll_sum (number : σ → Nat) {weight : α → Nat} {xs : List α} {s s' : σ}
    (h : runAll step xs s = (s', none))
    (hstep : ∀ front a back t t', xs = front ++ a :: back → step a t = (t', none) →
      runAll step back t' = (s', none) → number t' = number t + weight a) :
    number s' = number s + (xs.map weight).sum := by
  induction xs generalizing s with
  | nil =>
    cases h
    rfl
  | cons a rest ih =>
    obtain ⟨t, ht, hrest⟩ := runAll_cons_eq_none_iff.mp h
    have hlater := ih hrest fun front b back u u' hsplit =>
      hstep (a :: front) b back u u' (congrArg (a :: ·) hsplit)
    rw [hlater, hstep [] a rest s t rfl ht hrest, List.map_cons, List.sum_cons, Nat.add_assoc]

/-- A run that changes every element has changed each of them by a step. -/
theorem mapAll_eq_none {step : α → σ → α × σ × Option ε} {xs ys : List α} {s s' : σ}
    (h : mapAll step xs s = (ys, s', none)) :
    List.Forall₂ (fun x y => ∃ t t', step x t = (y, t', none)) xs ys := by
  induction xs generalizing ys s with
  | nil =>
    cases h
    exact .nil
  | cons x rest ih =>
    rw [mapAll] at h
    cases hstep : step x s with
    | mk y after =>
      obtain ⟨t, failure⟩ := after
      rw [hstep] at h
      cases failure with
      | some e => cases h
      | none =>
        cases hrest : mapAll step rest t with
        | mk ys' after' =>
          obtain ⟨t', failure'⟩ := after'
          simp only [hrest] at h
          cases h
          exact .cons ⟨s, t, hstep⟩ (ih hrest)

/-- A run that fails has changed the elements in front of the one that it fails at, and left those behind. -/
theorem mapAll_eq_some {step : α → σ → α × σ × Option ε} {xs ys : List α} {s s' : σ} {e : ε}
    (h : mapAll step xs s = (ys, s', some e)) :
    ∃ front x back front' y t, xs = front ++ x :: back ∧ ys = front' ++ y :: back ∧
      List.Forall₂ (fun x y => ∃ t t', step x t = (y, t', none)) front front' ∧ step x t = (y, s', some e) := by
  induction xs generalizing ys s with
  | nil => cases h
  | cons x rest ih =>
    rw [mapAll] at h
    rcases hstep : step x s with ⟨y, t, _ | e'⟩
    · rcases hrest : mapAll step rest t with ⟨ys', t', failure⟩
      simp only [hstep, hrest] at h
      cases h
      obtain ⟨front, x', back, front', y', t'', rfl, rfl, hfront, hfails⟩ := ih hrest
      exact ⟨x :: front, x', back, y :: front', y', t'', rfl, rfl, .cons ⟨s, t, hstep⟩ hfront, hfails⟩
    · simp only [hstep] at h
      cases h
      exact ⟨[], x, rest, [], y, s, rfl, rfl, .nil, hstep⟩

end Steps

/-! ### Lists related element by element -/

namespace Pairs
variable {α β γ : Type} {R : α → β → Prop} {xs : List α} {ys : List β}

theorem exists_of_mem_right (h : List.Forall₂ R xs ys) {y : β} (hy : y ∈ ys) : ∃ x ∈ xs, R x y := by
  induction h with
  | nil => cases hy
  | cons hxy _ ih =>
    rcases List.mem_cons.mp hy with rfl | hy
    · exact ⟨_, List.mem_cons_self, hxy⟩
    · obtain ⟨x, hx, hR⟩ := ih hy
      exact ⟨x, List.mem_cons_of_mem _ hx, hR⟩

theorem exists_of_mem_left (h : List.Forall₂ R xs ys) {x : α} (hx : x ∈ xs) : ∃ y ∈ ys, R x y := by
  obtain ⟨y, hy, hR⟩ := exists_of_mem_right h.flip hx
  exact ⟨y, hy, hR⟩

theorem imp {R' : α → β → Prop} (h : List.Forall₂ R xs ys)
    (hR : ∀ x ∈ xs, ∀ y ∈ ys, R x y → R' x y) : List.Forall₂ R' xs ys := by
  induction h with
  | nil => exact .nil
  | cons hxy _ ih =>
    refine .cons (hR _ List.mem_cons_self _ List.mem_cons_self hxy) (ih fun x hx y hy => ?_)
    exact hR x (List.mem_cons_of_mem _ hx) y (List.mem_cons_of_mem _ hy)

theorem getElem? (h : List.Forall₂ R xs ys) (k : Nat) : Option.Rel R xs[k]? ys[k]? := by
  induction h generalizing k with
  | nil => exact .none
  | cons hxy _ ih =>
    cases k with
    | zero => exact .some hxy
    | succ k => exact ih k

theorem filter (h : List.Forall₂ R xs ys) {keep : α → Bool} {keep' : β → Bool}
    (hR : ∀ x y, R x y → keep' y = keep x) : List.Forall₂ R (xs.filter keep) (ys.filter keep') := by
  induction h with
  | nil => exact .nil
  | @cons x y xs ys hxy _ ih =>
    rw [List.filter_cons, List.filter_cons, hR x y hxy]
    split
    · exact .cons hxy ih
    · exact ih

/-- A relation between two states that outlasts each pair of steps outlasts them all. -/
theorem foldl {σ τ : Type} {Q : σ → τ → Prop} {step : σ → α → σ} {step' : τ → β → τ} {s : σ} {t : τ}
    (h : List.Forall₂ R xs ys) (hstart : Q s t)
    (hstep : ∀ x y, R x y → ∀ s t, Q s t → Q (step s x) (step' t y)) :
    Q (xs.foldl step s) (ys.foldl step' t) := by
  induction h generalizing s t with
  | nil => exact hstart
  | cons hxy _ ih => exact ih (hstep _ _ hxy s t hstart)

theorem runAll {σ τ ε ε' : Type} {Q : σ → τ → Prop} {step : α → σ → σ × Option ε}
    {step' : β → τ → τ × Option ε'} {s s' : σ} {t t' : τ} (h : List.Forall₂ R xs ys)
    (hrun : Steps.runAll step xs s = (s', none)) (hrun' : Steps.runAll step' ys t = (t', none))
    (hstart : Q s t)
    (hstep : ∀ x y, R x y → ∀ s s' t t', step x s = (s', none) → step' y t = (t', none) → Q s t →
      Q s' t') : Q s' t' := by
  induction h generalizing s t with
  | nil =>
    cases hrun
    cases hrun'
    exact hstart
  | cons hxy _ ih =>
    obtain ⟨s₁, hfirst, hrest⟩ := Steps.runAll_cons_eq_none_iff.mp hrun
    obtain ⟨t₁, hfirst', hrest'⟩ := Steps.runAll_cons_eq_none_iff.mp hrun'
    exact ih hrest hrest' (hstep _ _ hxy _ _ _ _ hfirst hfirst' hstart)

/-- Steps that do the same for related elements do the same for related lists. -/
theorem runAll_eq {σ ε : Type} {step : α → σ → σ × Option ε} {step' : β → σ → σ × Option ε}
    (h : List.Forall₂ R xs ys) (hstep : ∀ x y, R x y → step' y = step x) :
    Steps.runAll step' ys = Steps.runAll step xs := by
  funext state
  induction h generalizing state with
  | nil => rfl
  | cons hxy _ ih => simp only [Steps.runAll, hstep _ _ hxy, ih]

theorem foldl_eq {σ : Type} {step : σ → α → σ} {step' : σ → β → σ} (h : List.Forall₂ R xs ys)
    (hstep : ∀ x y, R x y → ∀ s, step' s y = step s x) (s : σ) : ys.foldl step' s = xs.foldl step s := by
  refine (foldl h rfl fun x y hxy s t hst => ?_).symm
  rw [hst, hstep x y hxy]

theorem find? (h : List.Forall₂ R xs ys) {which : α → Bool} {which' : β → Bool}
    (hR : ∀ x y, R x y → which' y = which x) : Option.Rel R (xs.find? which) (ys.find? which') := by
  induction h with
  | nil => exact .none
  | cons hxy _ ih =>
    rw [List.find?_cons, List.find?_cons, hR _ _ hxy]
    split
    · exact .some hxy
    · exact ih

theorem mapM_eq {ε : Type} {f : α → Except ε γ} {g : β → Except ε γ} (h : List.Forall₂ R xs ys)
    (hR : ∀ x y, R x y → g y = f x) : ys.mapM g = xs.mapM f := by
  induction h with
  | nil => rfl
  | cons hxy _ ih => rw [List.mapM_cons, List.mapM_cons, hR _ _ hxy, ih]

theorem of_map_eq {f : α → γ} {g : β → γ} (h : ys.map g = xs.map f) :
    List.Forall₂ (fun x y => g y = f x) xs ys := by
  induction xs generalizing ys with
  | nil =>
    rw [List.map_eq_nil_iff.mp h]
    exact .nil
  | cons x rest ih =>
    obtain ⟨y, others, rfl, hy, hothers⟩ := List.map_eq_cons_iff.mp h
    exact .cons hy (ih hothers)

theorem map_eq (h : List.Forall₂ R xs ys) {f : α → γ} {g : β → γ} (hR : ∀ x y, R x y → g y = f x) :
    ys.map g = xs.map f := by
  induction h with
  | nil => rfl
  | cons hxy _ ih => rw [List.map_cons, List.map_cons, hR _ _ hxy, ih]

end Pairs
end ThumbHardening
