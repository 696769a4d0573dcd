import ThumbHardening.Leakage.Escape
import Mathlib.Data.List.Nodup
import Mathlib.Data.Finset.Card
import Mathlib.Data.Finset.Range

/-!
# Escaping addresses as reachability

The walk takes up every value that comes to hold the address, each of them once, so it ends before its limit
does. The address escapes exactly if a chain of uses that hand it on leads to a use that lets it get into
memory.
-/

namespace ThumbHardening
namespace ValueGraph

def usersOf (g : ValueGraph) (value : Nat) : List Nat :=
  ((g.node? value).map ValueNode.users).getD []

/-- The values that come to hold the address that `start` holds. -/
inductive Carries (g : ValueGraph) (start : Nat) : Nat → Prop
  | refl : Carries g start start
  | step {value user : Nat} : Carries g start value → user ∈ g.usersOf value →
      g.effectOf value user = .handsOn → Carries g start user

def LetsEscape (g : ValueGraph) (value : Nat) : Prop :=
  ∃ user ∈ g.usersOf value, g.effectOf value user = .escapes

/-- The address that `start` holds can get into memory. -/
def Escapes (g : ValueGraph) (start : Nat) : Prop :=
  ∃ value, g.Carries start value ∧ g.LetsEscape value

theorem lt_size_of_handsOn {g : ValueGraph} {value user : Nat} (h : g.effectOf value user = .handsOn) :
    user < g.size := by
  rw [effectOf] at h
  split at h
  · next n hn => exact (Array.getElem?_eq_some_iff.mp hn).1
  · cases h

end ValueGraph

namespace EscapeWalk
open ValueGraph

variable {g : ValueGraph} {start value limit taken : Nat} {w w' : EscapeWalk}

/-- What holds of a walk that has taken up `taken` values: those that are not pending are done with. -/
structure Sound (g : ValueGraph) (start taken : Nat) (w : EscapeWalk) : Prop where
  nodup : w.reached.Nodup
  start_mem : start ∈ w.reached
  bounded : ∀ v ∈ w.reached, v = start ∨ v < g.size
  carried : ∀ v ∈ w.reached, g.Carries start v
  pending : ∀ v ∈ w.pending, v ∈ w.reached
  taken_eq : w.reached.length = w.pending.length + taken
  done : ∀ v ∈ w.reached, v ∈ w.pending ∨
    (¬ g.LetsEscape v ∧ ∀ user ∈ g.usersOf v, g.effectOf v user = .handsOn → user ∈ w.reached)

theorem sound_start (g : ValueGraph) (start : Nat) :
    Sound g start 0 { reached := [start], pending := [start] } := by
  refine ⟨List.nodup_singleton _, List.mem_singleton_self _, fun v hv => ?_, fun v hv => ?_,
    fun v => id, rfl, fun v => .inl⟩
  · exact .inl (List.mem_singleton.mp hv)
  · rw [List.mem_singleton.mp hv]
    exact .refl

/-- No more values can be reached than there are, so a walk for which none is left has ended. -/
theorem Sound.length_le (h : Sound g start taken w) : w.reached.length ≤ g.size + 1 := by
  have hsub : w.reached.toFinset ⊆ insert start (Finset.range g.size) := by
    intro v hv
    rw [Finset.mem_insert, Finset.mem_range]
    exact h.bounded v (List.mem_toFinset.mp hv)
  have hcard := (Finset.card_le_card hsub).trans (Finset.card_insert_le _ _)
  rwa [List.toFinset_card_of_nodup h.nodup, Finset.card_range] at hcard

/-- With no value pending, the values reached are all that hold the address, and none lets it escape. -/
theorem Sound.not_escapes (h : Sound g start taken w) (hpending : w.pending = []) :
    ¬ g.Escapes start := by
  have hdone := h.done
  simp only [hpending, List.not_mem_nil, false_or] at hdone
  have hreached : ∀ {v}, g.Carries start v → v ∈ w.reached := by
    intro v hv
    induction hv with
    | refl => exact h.start_mem
    | step _ huser heffect ih => exact (hdone _ ih).2 _ huser heffect
  intro hescapes
  obtain ⟨v, hv, hlets⟩ := hescapes
  exact (hdone v (hreached hv)).1 hlets

theorem reach_eq (w : EscapeWalk) (user : Nat) :
    ∃ new, (w.reach user).reached = new ++ w.reached ∧ (w.reach user).pending = new ++ w.pending ∧
      (w.reached.Nodup → (w.reach user).reached.Nodup) ∧ (∀ v ∈ new, v = user) ∧
      user ∈ (w.reach user).reached := by
  rw [reach]
  split
  · next hold => exact ⟨[], rfl, rfl, id, by simp, List.contains_iff_mem.mp hold⟩
  · next hfresh =>
    rw [List.contains_iff_mem] at hfresh
    exact ⟨[user], rfl, rfl, fun hw => List.nodup_cons.mpr ⟨hfresh, hw⟩, by simp, List.mem_cons_self⟩

/-- Looking at users in vain has reached those that the address is handed on to. -/
theorem scan_eq_false {users : List Nat} (h : scan g value users w = (w', false)) :
    ∃ new, w'.reached = new ++ w.reached ∧ w'.pending = new ++ w.pending ∧
      (w.reached.Nodup → w'.reached.Nodup) ∧
      (∀ user ∈ new, user ∈ users ∧ g.effectOf value user = .handsOn) ∧
      ∀ user ∈ users, g.effectOf value user ≠ .escapes ∧
        (g.effectOf value user = .handsOn → user ∈ w'.reached) := by
  induction users generalizing w with
  | nil =>
    cases h
    exact ⟨[], rfl, rfl, id, by simp, by simp⟩
  | cons user rest ih =>
    rw [scan] at h
    split at h
    · cases h
    · next heffect =>
      obtain ⟨new, hreached, hpending, hnodup, hnew, hrest⟩ := ih h
      obtain ⟨first, hreached₁, hpending₁, hnodup₁, hfirst, hmem⟩ := reach_eq w user
      refine ⟨new ++ first, ?_, ?_, fun hw => hnodup (hnodup₁ hw), fun u hu => ?_,
        List.forall_mem_cons.mpr ⟨⟨by simp [heffect], fun _ => ?_⟩, hrest⟩⟩
      · rw [hreached, hreached₁, List.append_assoc]
      · rw [hpending, hpending₁, List.append_assoc]
      · rcases List.mem_append.mp hu with hu | hu
        · exact ⟨List.mem_cons_of_mem _ (hnew u hu).1, (hnew u hu).2⟩
        · rw [hfirst u hu]
          exact ⟨List.mem_cons_self, heffect⟩
      · rw [hreached]
        exact List.mem_append_right _ hmem
    all_goals
      next heffect =>
      obtain ⟨new, hreached, hpending, hnodup, hnew, hrest⟩ := ih h
      refine ⟨new, hreached, hpending, hnodup, fun u hu => ?_, List.forall_mem_cons.mpr ⟨?_, hrest⟩⟩
      · exact ⟨List.mem_cons_of_mem _ (hnew u hu).1, (hnew u hu).2⟩
      · simp [heffect]

theorem scan_eq_true {users : List Nat} (h : scan g value users w = (w', true)) :
    ∃ user ∈ users, g.effectOf value user = .escapes := by
  induction users generalizing w with
  | nil => cases h
  | cons user rest ih =>
    rw [scan] at h
    split at h
    · next heffect => exact ⟨user, List.mem_cons_self, heffect⟩
    all_goals
      obtain ⟨u, hu, heffect⟩ := ih h
      exact ⟨u, List.mem_cons_of_mem _ hu, heffect⟩

/-- Taking up the next pending value. -/
theorem Sound.scan {rest : List Nat} (h : Sound g start taken w) (hpending : w.pending = value :: rest)
    (hscan : scan g value (g.usersOf value) { w with pending := rest } = (w', false)) :
    Sound g start (taken + 1) w' := by
  obtain ⟨new, hreached, hpending', hnodup, hnew, hlooked⟩ := scan_eq_false hscan
  change w'.reached = new ++ w.reached at hreached
  change w'.pending = new ++ rest at hpending'
  have hvalue : g.Carries start value := h.carried value (h.pending value (by simp [hpending]))
  have hold : ∀ v ∈ w.reached, v ∈ w'.reached := fun v hv => hreached ▸ List.mem_append_right _ hv
  have hlength := h.taken_eq
  refine ⟨hnodup h.nodup, hold start h.start_mem, fun v hv => ?_, fun v hv => ?_, fun v hv => ?_, ?_,
    fun v hv => ?_⟩
  · rw [hreached] at hv
    rcases List.mem_append.mp hv with hv | hv
    · exact .inr (lt_size_of_handsOn (hnew v hv).2)
    · exact h.bounded v hv
  · rw [hreached] at hv
    rcases List.mem_append.mp hv with hv | hv
    · exact .step hvalue (hnew v hv).1 (hnew v hv).2
    · exact h.carried v hv
  · rw [hreached]
    rw [hpending'] at hv
    rcases List.mem_append.mp hv with hv | hv
    · exact List.mem_append_left _ hv
    · exact List.mem_append_right _ (h.pending v (by simp [hpending, hv]))
  · rw [hpending, List.length_cons] at hlength
    rw [hreached, hpending', List.length_append, List.length_append, hlength]
    omega
  · rw [hreached] at hv
    rw [hpending']
    rcases List.mem_append.mp hv with hv | hv
    · exact .inl (List.mem_append_left _ hv)
    · rcases h.done v hv with hv | ⟨hlets, hclosed⟩
      -- The value that was taken up has had its users looked at; others wait as before.
      · rw [hpending] at hv
        rcases List.mem_cons.mp hv with rfl | hv
        · refine .inr ⟨?_, fun u hu => (hlooked u hu).2⟩
          intro hlets
          obtain ⟨u, hu, heffect⟩ := hlets
          exact (hlooked u hu).1 heffect
        · exact .inl (List.mem_append_right _ hv)
      · exact .inr ⟨hlets, fun u hu heffect => hold u (hclosed u hu heffect)⟩

theorem run_iff (h : Sound g start taken w) (hlimit : g.size + 1 ≤ limit + taken) :
    (run g limit w).2 = true ↔ g.Escapes start := by
  induction limit generalizing w taken with
  | zero =>
    have hlength := h.length_le
    have htaken := h.taken_eq
    have hpending : w.pending = [] := List.length_eq_zero_iff.mp (by omega)
    exact iff_of_false (by simp [run]) (h.not_escapes hpending)
  | succ limit ih =>
    rw [run]
    split
    · next hpending => exact iff_of_false (by simp) (h.not_escapes hpending)
    · next value rest hpending =>
      have husers : ((g.node? value).map ValueNode.users).getD [] = g.usersOf value := rfl
      cases hscan : EscapeWalk.scan g value (g.usersOf value) { w with pending := rest } with
      | mk w' found =>
        simp only [husers, hscan]
        cases found with
        | true =>
          have hvalue := h.carried value (h.pending value (by simp [hpending]))
          exact iff_of_true rfl ⟨value, hvalue, scan_eq_true hscan⟩
        | false => exact ih (h.scan hpending hscan) (by omega)

end EscapeWalk

/-- The address of a function can get into memory if it is used other than by calls and a chain of uses leads
there from its value. -/
theorem Program.addressEscapes_iff {p : Program} {f : Function} :
    p.addressEscapes f = true ↔ f.addressTaken = true ∧
      ∃ value, p.valueOf? (.function f.id) = some value ∧ p.values.Escapes value := by
  rw [addressEscapes, escapeWalk]
  split
  · next value htaken hvalue =>
    rw [EscapeWalk.run_iff (EscapeWalk.sound_start p.values value) (by omega)]
    simp [htaken, hvalue]
  · next hnone =>
    refine iff_of_false (by simp) ?_
    intro hparts
    obtain ⟨htaken, value, hvalue, -⟩ := hparts
    exact hnone value htaken hvalue

end ThumbHardening
