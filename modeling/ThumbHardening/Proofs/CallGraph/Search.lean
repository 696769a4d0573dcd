import ThumbHardening.CallGraph
import Mathlib.Data.List.Nodup
import Mathlib.Data.List.Perm.Subperm
import Mathlib.Logic.Relation

/-!
# The depth-first search of a call graph

The functions that are being visited form a chain. What is on the stack reaches that chain, and what has left
the stack lies in finished components, from which no call leads back. A visit returns the earliest function on
the old stack that the new part of the stack reaches. If there is none, the new part is a component: all of it
was found from its first function, no call leaves it but to finished components, and it reaches the chain, so
it reaches that function.
-/

namespace ThumbHardening
namespace CallGraph

def Calls (g : CallGraph) (a b : Nat) : Prop :=
  b ∈ g.calleesOf a

/-- That one function calls another, perhaps through further ones. Every function reaches itself. -/
def Reaches (g : CallGraph) : Nat → Nat → Prop :=
  Relation.ReflTransGen g.Calls

variable {g : CallGraph}

theorem Reaches.mem_of_closed {P : Nat → Prop} (hP : ∀ a b, P a → g.Calls a b → P b) {a b : Nat}
    (h : g.Reaches a b) (ha : P a) : P b := by
  induction h with
  | refl => exact ha
  | tail _ hcall ih => exact hP _ _ ih hcall

/-! ### Finished components -/

/-- In disjoint sets an element has one place. -/
theorem index_eq_of_mem {components : List (List Nat)} (hnodup : components.flatten.Nodup) {j k : Nat}
    {c d : List Nat} (hj : components[j]? = some c) (hk : components[k]? = some d) {a : Nat}
    (hc : a ∈ c) (hd : a ∈ d) : j = k := by
  obtain ⟨hjlt, rfl⟩ := List.getElem?_eq_some_iff.mp hj
  obtain ⟨hklt, rfl⟩ := List.getElem?_eq_some_iff.mp hk
  have hdisjoint := List.pairwise_iff_getElem.mp (List.nodup_flatten.mp hnodup).2
  rcases Nat.lt_trichotomy j k with hlt | heq | hlt
  · exact absurd hd (hdisjoint j k hjlt hklt hlt hc)
  · exact heq
  · exact absurd hc (hdisjoint k j hklt hjlt hlt hd)

/-- Sets of functions that reach each other, in an order in which calls lead to no later set. -/
structure Layered (g : CallGraph) (components : List (List Nat)) : Prop where
  nonempty : ∀ c ∈ components, c ≠ []
  connected : ∀ c ∈ components, ∀ a ∈ c, ∀ b ∈ c, g.Reaches a b
  backward : ∀ (k : Nat) (c : List Nat), components[k]? = some c → ∀ a ∈ c, ∀ b, g.Calls a b →
    ∃ j ≤ k, ∃ d, components[j]? = some d ∧ b ∈ d

namespace Layered
variable {components : List (List Nat)}

theorem nil (g : CallGraph) : g.Layered [] :=
  ⟨by simp, by simp, by simp⟩

theorem closed (h : g.Layered components) {a b : Nat} (ha : a ∈ components.flatten)
    (hcall : g.Calls a b) : b ∈ components.flatten := by
  obtain ⟨c, hc, hac⟩ := List.mem_flatten.mp ha
  obtain ⟨k, hk⟩ := List.mem_iff_getElem?.mp hc
  obtain ⟨j, -, d, hd, hb⟩ := h.backward k c hk a hac b hcall
  exact List.mem_flatten.mpr ⟨d, List.mem_of_getElem? hd, hb⟩

/-- A new set that calls nothing but itself and the old ones comes last. -/
theorem append (h : g.Layered components) {c : List Nat} (hne : c ≠ [])
    (hconnected : ∀ a ∈ c, ∀ b ∈ c, g.Reaches a b)
    (hcalls : ∀ a ∈ c, ∀ b, g.Calls a b → b ∈ c ∨ b ∈ components.flatten) :
    g.Layered (components ++ [c]) := by
  refine ⟨?_, ?_, fun k d hk a ha b hcall => ?_⟩
  · simpa [or_imp, forall_and] using And.intro h.nonempty hne
  · simpa [or_imp, forall_and] using And.intro h.connected hconnected
  · have hold : ∀ {j : Nat} {e : List Nat}, components[j]? = some e →
        (components ++ [c])[j]? = some e := fun he => by
      rw [List.getElem?_append_left (List.getElem?_eq_some_iff.mp he).1, he]
    rcases Nat.lt_or_ge k components.length with hlt | hge
    · rw [List.getElem?_append_left hlt] at hk
      obtain ⟨j, hj, e, he, hb⟩ := h.backward k d hk a ha b hcall
      exact ⟨j, hj, e, hold he, hb⟩
    · rw [List.getElem?_append_right hge, List.getElem?_singleton] at hk
      split at hk
      · cases hk
        rcases hcalls a ha b hcall with hb | hb
        · exact ⟨components.length, hge, c, by simp, hb⟩
        · obtain ⟨e, he, hb⟩ := List.mem_flatten.mp hb
          obtain ⟨j, hj⟩ := List.mem_iff_getElem?.mp he
          have hlt := (List.getElem?_eq_some_iff.mp hj).1
          exact ⟨j, by omega, e, hold hj, hb⟩
      · cases hk

end Layered

/-! ### States of the search -/

namespace Search

/-- The functions found so far, the latest one first. -/
def nodes (s : Search) : List Nat :=
  s.found.map Prod.fst

theorem lookup_eq_none_iff {s : Search} {v : Nat} : s.found.lookup v = none ↔ v ∉ s.nodes := by
  simp only [List.lookup_eq_none_iff, nodes, List.mem_map, not_exists, not_and, bne_iff_ne]
  exact ⟨fun h entry hentry heq => h entry hentry heq.symm, fun h entry hentry heq => h entry hentry heq.symm⟩

theorem exists_lookup {s : Search} {v : Nat} (h : v ∈ s.nodes) : ∃ i, s.found.lookup v = some i := by
  cases hlookup : s.found.lookup v with
  | some i => exact ⟨i, rfl⟩
  | none => exact absurd h (lookup_eq_none_iff.mp hlookup)

theorem mem_nodes_of_lookup {s : Search} {v i : Nat} (h : s.found.lookup v = some i) : v ∈ s.nodes := by
  by_contra hv
  rw [lookup_eq_none_iff.mpr hv] at h
  cases h

/-- What holds of a search in the course of the visits of `path`. -/
structure Sound (g : CallGraph) (path : List Nat) (s : Search) : Prop where
  known : s.nodes ⊆ g.nodes
  nodup : s.nodes.Nodup
  placed : (s.stack ++ s.components.flatten).Perm s.nodes
  index_lt : ∀ v i, s.found.lookup v = some i → i < s.found.length
  path_sub : path ⊆ s.stack
  explored : ∀ v ∈ s.stack, v ∉ path → ∀ w, g.Calls v w → w ∈ s.nodes
  returns : ∀ v ∈ s.stack, ∃ u ∈ path, g.Reaches v u
  layered : g.Layered s.components

/-- What a later state of the search keeps of an earlier one. -/
structure Grows (s t : Search) : Prop where
  index : ∀ v i, s.found.lookup v = some i → t.found.lookup v = some i
  fresh : ∀ v i, v ∉ s.nodes → t.found.lookup v = some i → s.found.length ≤ i
  length_le : s.found.length ≤ t.found.length
  components : s.components <+: t.components
  stack : s.stack <:+ t.stack

variable {path : List Nat} {s s' t t' : Search} {node callee low reached : Nat}

namespace Sound

theorem mem_nodes_iff (h : s.Sound g path) {v : Nat} :
    v ∈ s.nodes ↔ v ∈ s.stack ∨ v ∈ s.components.flatten := by
  rw [← h.placed.mem_iff, List.mem_append]

theorem nodup_stack (h : s.Sound g path) : (s.stack ++ s.components.flatten).Nodup :=
  h.placed.nodup_iff.mpr h.nodup

theorem not_mem_components (h : s.Sound g path) {v : Nat} (hv : v ∈ s.stack) :
    v ∉ s.components.flatten :=
  fun hmem => (List.nodup_append.mp h.nodup_stack).2.2 v hv v hmem rfl

/-- As long as a function has not been found, fewer have been found than there are. -/
theorem length_lt (h : s.Sound g path) (hnode : node ∈ g.nodes) (hnew : node ∉ s.nodes) :
    s.found.length < g.nodes.length := by
  have hsub : (node :: s.nodes).Subperm g.nodes :=
    List.subperm_of_subset (List.nodup_cons.mpr ⟨hnew, h.nodup⟩)
      (List.cons_subset.mpr ⟨hnode, h.known⟩)
  have hle := hsub.length_le
  rwa [List.length_cons, nodes, List.length_map] at hle

end Sound

namespace Grows

theorem mem_nodes (h : s.Grows t) {v : Nat} (hv : v ∈ s.nodes) : v ∈ t.nodes := by
  obtain ⟨i, hi⟩ := exists_lookup hv
  exact mem_nodes_of_lookup (h.index v i hi)

theorem trans (h : s.Grows t) (h' : t.Grows t') : s.Grows t' where
  index v i hi := h'.index v i (h.index v i hi)
  fresh v i hv hi := by
    by_cases hfound : v ∈ t.nodes
    · obtain ⟨j, hj⟩ := exists_lookup hfound
      have heq : some j = some i := (h'.index v j hj).symm.trans hi
      cases heq
      exact h.fresh v i hv hj
    · exact Nat.le_trans h.length_le (h'.fresh v i hfound hi)
  length_le := Nat.le_trans h.length_le h'.length_le
  components := h.components.trans h'.components
  stack := h.stack.trans h'.stack

/-- An index that was given out before belongs to a function that was found before. -/
theorem lookup_of_lt (h : s.Grows t) {v i : Nat} (hi : t.found.lookup v = some i)
    (hlt : i < s.found.length) : s.found.lookup v = some i := by
  by_cases hv : v ∈ s.nodes
  · obtain ⟨j, hj⟩ := exists_lookup hv
    rw [hj, ← h.index v j hj, hi]
  · have hge := h.fresh v i hv hi
    omega

/-- Nothing comes back to the stack. -/
theorem mem_stack (h : s.Grows t) (hs : s.Sound g path) {path' : List Nat} (ht : t.Sound g path')
    {v : Nat} (hv : v ∈ t.stack) (hold : v ∈ s.nodes) : v ∈ s.stack := by
  rcases hs.mem_nodes_iff.mp hold with hstack | hdone
  · exact hstack
  · refine absurd ?_ (ht.not_mem_components hv)
    obtain ⟨c, hc, hvc⟩ := List.mem_flatten.mp hdone
    exact List.mem_flatten.mpr ⟨c, h.components.subset hc, hvc⟩

end Grows

/-! ### Entering a function -/

theorem lookup_enter (s : Search) (node v : Nat) :
    (s.enter node).found.lookup v = if v = node then some s.found.length else s.found.lookup v := by
  change ((node, s.found.length) :: s.found).lookup v = _
  rw [List.lookup_cons]
  split
  · next h => rw [if_pos (by simpa using h)]
  · next h => rw [if_neg (by simpa using h)]

theorem Sound.enter (h : s.Sound g path) (hnode : node ∈ g.nodes) (hnew : node ∉ s.nodes) :
    (s.enter node).Sound g (node :: path) where
  known := List.cons_subset.mpr ⟨hnode, h.known⟩
  nodup := List.nodup_cons.mpr ⟨hnew, h.nodup⟩
  placed := h.placed.cons node
  index_lt v i hi := by
    rw [lookup_enter] at hi
    change i < s.found.length + 1
    split at hi
    · cases hi
      exact Nat.lt_succ_self _
    · exact Nat.lt_succ_of_lt (h.index_lt v i hi)
  path_sub := List.cons_subset_cons node h.path_sub
  explored v hv hpath w hcall := by
    rw [List.mem_cons, not_or] at hpath
    exact List.mem_cons_of_mem _ (h.explored v (List.mem_of_ne_of_mem hpath.1 hv) hpath.2 w hcall)
  returns v hv := by
    rcases List.mem_cons.mp hv with rfl | hv
    · exact ⟨v, List.mem_cons_self, .refl⟩
    · obtain ⟨u, hu, hreach⟩ := h.returns v hv
      exact ⟨u, List.mem_cons_of_mem _ hu, hreach⟩
  layered := h.layered

theorem grows_enter (hnew : node ∉ s.nodes) : s.Grows (s.enter node) where
  index v i hi := by
    rw [lookup_enter, if_neg, hi]
    rintro rfl
    exact hnew (mem_nodes_of_lookup hi)
  fresh v i hv hi := by
    rw [lookup_enter] at hi
    split at hi
    · cases hi
      exact Nat.le_refl _
    · rw [lookup_eq_none_iff.mpr hv] at hi
      cases hi
  length_le := Nat.le_succ _
  components := List.prefix_refl _
  stack := List.suffix_cons ..

/-! ### Visits -/

/-- The outcome of a visit of `node` in the course of the visits of `path`. -/
structure Visited (g : CallGraph) (path : List Nat) (node : Nat) (s t : Search) (low : Nat) : Prop where
  sound : t.Sound g path
  grows : s.Grows t
  found : node ∈ t.nodes
  reaches : ∀ v ∈ t.stack, v ∉ s.stack → g.Reaches node v
  low_le : low ≤ s.found.length
  /-- An early function that the visit returns is on the old stack, and `node` reaches it. -/
  low_reached : low < s.found.length → ∃ u ∈ s.stack, s.found.lookup u = some low ∧ g.Reaches node u
  /-- No call from the new part of the stack leads to an earlier function of the old stack. -/
  crossing : ∀ v ∈ t.stack, v ∉ s.stack → ∀ w ∈ s.stack, g.Calls v w →
    ∀ i, s.found.lookup w = some i → low ≤ i

/-- A visit of `node` that began in `s` and has looked at the callees in `seen`. -/
structure Visiting (g : CallGraph) (path : List Nat) (node : Nat) (seen : List Nat) (s t : Search)
    (low : Nat) : Prop where
  sound : t.Sound g (node :: path)
  grows : (s.enter node).Grows t
  reaches : ∀ v ∈ t.stack, v ∉ s.stack → g.Reaches node v
  low_le : low ≤ s.found.length
  low_reached : low < s.found.length → ∃ u ∈ s.stack, s.found.lookup u = some low ∧ g.Reaches node u
  crossing : ∀ v ∈ t.stack, v ∉ s.stack → v ≠ node → ∀ w ∈ s.stack, g.Calls v w →
    ∀ i, s.found.lookup w = some i → low ≤ i
  seen_found : ∀ w ∈ seen, w ∈ t.nodes
  seen_low : ∀ w ∈ seen, w ∈ s.stack → ∀ i, s.found.lookup w = some i → low ≤ i

namespace Visiting
variable {seen : List Nat}

theorem enter (hs : s.Sound g path) (hnode : node ∈ g.nodes) (hnew : node ∉ s.nodes) :
    Visiting g path node [] s (s.enter node) s.found.length where
  sound := hs.enter hnode hnew
  grows := ⟨fun _ _ => id, fun v i hv hi => absurd (mem_nodes_of_lookup hi) hv, Nat.le_refl _,
    List.prefix_refl _, List.suffix_refl _⟩
  reaches v hv hold := by
    rcases List.mem_cons.mp hv with rfl | hv
    · exact .refl
    · exact absurd hv hold
  low_le := Nat.le_refl _
  low_reached hlt := absurd hlt (Nat.lt_irrefl _)
  crossing v hv hold hne := absurd (List.mem_of_ne_of_mem hne hv) hold
  seen_found := by simp
  seen_low := by simp

/-- The part of the stack above `node` belongs to its visit. -/
theorem exists_stack (h : Visiting g path node seen s t low) :
    ∃ new, t.stack = new ++ node :: s.stack := by
  obtain ⟨new, hnew⟩ := h.grows.stack
  exact ⟨new, hnew.symm⟩

/-- Looking at a callee that has been found. -/
theorem step_found (h : Visiting g path node seen s t low) (hs : s.Sound g path)
    (hnew : node ∉ s.nodes) (hcall : g.Calls node callee) {index : Nat}
    (hindex : t.found.lookup callee = some index) :
    Visiting g path node (seen ++ [callee]) s t
      (if t.stack.contains callee then min low index else low) := by
  have hle : (if t.stack.contains callee then min low index else low) ≤ low := by
    split
    · exact Nat.min_le_left ..
    · exact Nat.le_refl _
  have hgrows := (grows_enter hnew).trans h.grows
  refine ⟨h.sound, h.grows, h.reaches, Nat.le_trans hle h.low_le, fun hlt => ?_, ?_, ?_, ?_⟩
  · by_cases hearly : t.stack.contains callee = true ∧ index < low
    · obtain ⟨hstack, hearly⟩ := hearly
      have hold := hgrows.lookup_of_lt hindex (Nat.lt_of_lt_of_le hearly h.low_le)
      rw [if_pos hstack, Nat.min_eq_right (Nat.le_of_lt hearly)]
      exact ⟨callee, hgrows.mem_stack hs h.sound (List.contains_iff_mem.mp hstack)
        (mem_nodes_of_lookup hold), hold, .single hcall⟩
    · have heq : (if t.stack.contains callee then min low index else low) = low := by
        split
        · next hstack => exact Nat.min_eq_left (Nat.le_of_not_lt fun hlt => hearly ⟨hstack, hlt⟩)
        · rfl
      rw [heq] at hlt ⊢
      exact h.low_reached hlt
  · intro v hv hold hne w hw hcall i hi
    exact Nat.le_trans hle (h.crossing v hv hold hne w hw hcall i hi)
  · simpa [or_imp, forall_and] using And.intro h.seen_found (mem_nodes_of_lookup hindex)
  · intro w hw hstack i hi
    rcases List.mem_append.mp hw with hw | hw
    · exact Nat.le_trans hle (h.seen_low w hw hstack i hi)
    · rw [List.mem_singleton.mp hw] at hstack hi
      have heq : some i = some index := (hgrows.index _ _ hi).symm.trans hindex
      cases heq
      rw [if_pos (List.contains_iff_mem.mpr (hgrows.stack.subset hstack))]
      exact Nat.min_le_right ..

/-- Visiting a callee that has not been found. -/
theorem step_new (h : Visiting g path node seen s t low) (hs : s.Sound g path)
    (hnew : node ∉ s.nodes) (hcall : g.Calls node callee) (hcallee : callee ∉ t.nodes)
    (hvisit : Visited g (node :: path) callee t t' reached) :
    Visiting g path node (seen ++ [callee]) s t' (min low reached) := by
  have hgrows := (grows_enter hnew).trans h.grows
  refine ⟨hvisit.sound, h.grows.trans hvisit.grows, fun v hv hold => ?_,
    Nat.le_trans (Nat.min_le_left ..) h.low_le, fun hlt => ?_, fun v hv hold hne w hw hcall i hi => ?_, ?_, ?_⟩
  · by_cases hstack : v ∈ t.stack
    · exact h.reaches v hstack hold
    · exact (hvisit.reaches v hv hstack).head hcall
  · rcases Nat.le_total low reached with hle | hle
    · rw [Nat.min_eq_left hle] at hlt ⊢
      exact h.low_reached hlt
    · rw [Nat.min_eq_right hle] at hlt ⊢
      obtain ⟨u, hu, hindex, hreach⟩ := hvisit.low_reached (Nat.lt_of_lt_of_le hlt hgrows.length_le)
      have hold := hgrows.lookup_of_lt hindex hlt
      exact ⟨u, hgrows.mem_stack hs h.sound hu (mem_nodes_of_lookup hold), hold, hreach.head hcall⟩
  · by_cases hstack : v ∈ t.stack
    · exact Nat.le_trans (Nat.min_le_left ..) (h.crossing v hstack hold hne w hw hcall i hi)
    · exact Nat.le_trans (Nat.min_le_right ..)
        (hvisit.crossing v hv hstack w (hgrows.stack.subset hw) hcall i (hgrows.index w i hi))
  · have hkept : ∀ w ∈ seen, w ∈ t'.nodes := fun w hw => hvisit.grows.mem_nodes (h.seen_found w hw)
    simpa [or_imp, forall_and] using And.intro hkept hvisit.found
  · intro w hw hstack i hi
    rcases List.mem_append.mp hw with hw | hw
    · exact Nat.le_trans (Nat.min_le_left ..) (h.seen_low w hw hstack i hi)
    · rw [List.mem_singleton.mp hw] at hi
      exact absurd (hgrows.mem_nodes (mem_nodes_of_lookup hi)) hcallee

/-- Looking at all callees, if visits of new ones do what they should. -/
theorem visitCallees (visit : Nat → Search → Search × Nat) {callees : List Nat}
    (h : Visiting g path node seen s t low) (hs : s.Sound g path) (hnew : node ∉ s.nodes)
    (hcalls : ∀ callee ∈ callees, g.Calls node callee)
    (hvisit : ∀ callee t, g.Calls node callee → t.Sound g (node :: path) → callee ∉ t.nodes →
      s.found.length < t.found.length →
      Visited g (node :: path) callee t (visit callee t).1 (visit callee t).2) :
    Visiting g path node (seen ++ callees) s (visitCallees visit callees (t, low)).1
      (visitCallees visit callees (t, low)).2 := by
  induction callees generalizing seen t low with
  | nil =>
    rw [List.append_nil]
    exact h
  | cons callee rest ih =>
    obtain ⟨hcall, hrest⟩ := List.forall_mem_cons.mp hcalls
    rw [CallGraph.visitCallees, List.append_cons]
    split
    · next hlookup =>
      have hcallee := lookup_eq_none_iff.mp hlookup
      exact ih (h.step_new hs hnew hcall hcallee
        (hvisit callee t hcall h.sound hcallee h.grows.length_le)) hrest
    · next index hindex => exact ih (h.step_found hs hnew hcall hindex) hrest

/-! ### The end of a visit -/

/-- What the visit has put on the stack calls nothing below it, unless an early function is returned. -/
theorem closed (h : Visiting g path node (g.calleesOf node) s s' s.found.length) (hs : s.Sound g path)
    (hnew : node ∉ s.nodes) {v w : Nat} (hv : v ∈ s'.stack) (hold : v ∉ s.stack)
    (hcall : g.Calls v w) : (w ∈ s'.stack ∧ w ∉ s.stack) ∨ w ∈ s'.components.flatten := by
  have hgrows := (grows_enter hnew).trans h.grows
  have hfound : w ∈ s'.nodes := by
    by_cases hnode : v = node
    · exact h.seen_found w (hnode ▸ hcall)
    · refine h.sound.explored v hv (fun hpath => ?_) w hcall
      exact hold (hs.path_sub (List.mem_of_ne_of_mem hnode hpath))
  rcases h.sound.mem_nodes_iff.mp hfound with hstack | hdone
  · refine .inl ⟨hstack, fun hbelow => ?_⟩
    obtain ⟨i, hi⟩ := exists_lookup (hs.mem_nodes_iff.mpr (.inl hbelow))
    have hlt := hs.index_lt w i hi
    have hle : s.found.length ≤ i := by
      by_cases hnode : v = node
      · exact h.seen_low w (hnode ▸ hcall) hbelow i hi
      · exact h.crossing v hv hold hnode w hbelow hcall i hi
    omega
  · exact .inr hdone

/-- Without an early function to return, all that the visit has put on the stack reaches `node`. -/
theorem reaches_node (h : Visiting g path node (g.calleesOf node) s s' s.found.length)
    (hs : s.Sound g path) (hnew : node ∉ s.nodes) {v : Nat} (hv : v ∈ s'.stack) (hold : v ∉ s.stack) :
    g.Reaches v node := by
  obtain ⟨u, hu, hreach⟩ := h.sound.returns v hv
  rcases List.mem_cons.mp hu with rfl | hu
  · exact hreach
  · have hbelow := hs.path_sub hu
    have hinside : (u ∈ s'.stack ∧ u ∉ s.stack) ∨ u ∈ s'.components.flatten := by
      refine hreach.mem_of_closed (P := fun w => (w ∈ s'.stack ∧ w ∉ s.stack) ∨
        w ∈ s'.components.flatten) (fun a b ha hcall => ?_) (.inl ⟨hv, hold⟩)
      rcases ha with ⟨ha, hnot⟩ | ha
      · exact h.closed hs hnew ha hnot hcall
      · exact .inr (h.sound.layered.closed ha hcall)
    rcases hinside with ⟨-, hnot⟩ | hdone
    · exact absurd hbelow hnot
    · refine absurd hdone (h.sound.not_mem_components ?_)
      exact h.grows.stack.subset (List.mem_cons_of_mem _ hbelow)

/-- A visit that found its way back to an earlier function leaves its part on the stack. -/
theorem leave (h : Visiting g path node (g.calleesOf node) s s' low) (hs : s.Sound g path)
    (hnew : node ∉ s.nodes) (hlow : low ≠ s.found.length) : Visited g path node s s' low := by
  have hgrows := (grows_enter hnew).trans h.grows
  obtain ⟨u, hu, -, hreach⟩ := h.low_reached (Nat.lt_of_le_of_ne h.low_le hlow)
  have hsound : s'.Sound g path := by
    refine { h.sound with
      path_sub := fun v hv => hgrows.stack.subset (hs.path_sub hv)
      explored := fun v hv hpath w hcall => ?_
      returns := fun v hv => ?_ }
    · by_cases hnode : v = node
      · exact h.seen_found w (hnode ▸ hcall)
      · refine h.sound.explored v hv (fun hmem => hpath ?_) w hcall
        exact List.mem_of_ne_of_mem hnode hmem
    · obtain ⟨x, hx, hreturn⟩ := h.sound.returns v hv
      rcases List.mem_cons.mp hx with rfl | hx
      · obtain ⟨y, hy, hback⟩ := hs.returns u hu
        exact ⟨y, hy, (hreturn.trans hreach).trans hback⟩
      · exact ⟨x, hx, hreturn⟩
  refine ⟨hsound, hgrows, h.grows.mem_nodes List.mem_cons_self, h.reaches, h.low_le, h.low_reached,
    fun v hv hold w hw hcall i hi => ?_⟩
  by_cases hnode : v = node
  · exact h.seen_low w (hnode ▸ hcall) hw i hi
  · exact h.crossing v hv hold hnode w hw hcall i hi

theorem complete_eq {new rest : List Nat} (hstack : s.stack = new ++ node :: rest) (hnode : node ∉ new) :
    s.complete node
      = { s with stack := rest, components := s.components ++ [new ++ [node]] } := by
  have hfirst : ∀ v ∈ new, decide (v ≠ node) = true := fun v hv => by
    simpa using fun heq : v = node => hnode (heq ▸ hv)
  have habove : (new ++ node :: rest).takeWhile (fun v => decide (v ≠ node)) = new := by
    rw [List.takeWhile_append_of_pos hfirst, List.takeWhile_cons_of_neg (by simp), List.append_nil]
  rw [complete, hstack, habove, List.append_cons, List.drop_left' (by simp)]

variable {new : List Nat}

/-- The part of the stack that ends with `node` is what the visit has put there. -/
theorem mem_part_iff (h : Visiting g path node seen s s' low) (hstack : s'.stack = new ++ node :: s.stack)
    {v : Nat} : v ∈ new ++ [node] ↔ v ∈ s'.stack ∧ v ∉ s.stack := by
  have hnodup := (List.nodup_append.mp h.sound.nodup_stack).1
  rw [List.append_cons] at hstack
  rw [hstack] at hnodup ⊢
  constructor
  · exact fun hv => ⟨List.mem_append_left _ hv, fun hbelow =>
      (List.nodup_append.mp hnodup).2.2 v hv v hbelow rfl⟩
  · exact fun hparts => (List.mem_append.mp hparts.1).resolve_right hparts.2

theorem node_not_mem (h : Visiting g path node seen s s' low) (hstack : s'.stack = new ++ node :: s.stack) :
    node ∉ new := by
  have hnodup := (List.nodup_append.mp h.sound.nodup_stack).1
  rw [hstack] at hnodup
  exact fun hmem => (List.nodup_append.mp hnodup).2.2 node hmem node List.mem_cons_self rfl

/-- Without an early function to return, that part is a component. -/
theorem layered_append (h : Visiting g path node (g.calleesOf node) s s' s.found.length)
    (hs : s.Sound g path) (hnew : node ∉ s.nodes) (hstack : s'.stack = new ++ node :: s.stack) :
    g.Layered (s'.components ++ [new ++ [node]]) := by
  refine h.sound.layered.append (by simp) (fun a ha b hb => ?_) fun a ha b hcall => ?_
  · obtain ⟨ha, hold⟩ := (h.mem_part_iff hstack).mp ha
    obtain ⟨hb, hold'⟩ := (h.mem_part_iff hstack).mp hb
    exact (h.reaches_node hs hnew ha hold).trans (h.reaches b hb hold')
  · obtain ⟨ha, hold⟩ := (h.mem_part_iff hstack).mp ha
    exact (h.closed hs hnew ha hold hcall).imp_left (h.mem_part_iff hstack).mpr

/-- Completing a component only moves functions from the stack. -/
theorem placed_append (h : Visiting g path node seen s s' low)
    (hstack : s'.stack = new ++ node :: s.stack) :
    (s.stack ++ (s'.components ++ [new ++ [node]]).flatten).Perm s'.nodes := by
  refine List.Perm.trans ?_ h.sound.placed
  have hflatten : (s'.components ++ [new ++ [node]]).flatten
      = s'.components.flatten ++ (new ++ [node]) := by simp
  rw [hflatten, hstack, List.append_cons new node s.stack]
  calc (s.stack ++ (s'.components.flatten ++ (new ++ [node]))).Perm
        (s.stack ++ ((new ++ [node]) ++ s'.components.flatten)) :=
      .append_left _ List.perm_append_comm
    _ = (s.stack ++ (new ++ [node])) ++ s'.components.flatten := (List.append_assoc ..).symm
    List.Perm _ (((new ++ [node]) ++ s.stack) ++ s'.components.flatten) :=
      List.perm_append_comm.append_right _

/-- A visit that found no way back to an earlier function completes a component. -/
theorem complete (h : Visiting g path node (g.calleesOf node) s s' s.found.length)
    (hs : s.Sound g path) (hnew : node ∉ s.nodes) :
    Visited g path node s (s'.complete node) s.found.length := by
  have hgrows := (grows_enter hnew).trans h.grows
  obtain ⟨new, hstack⟩ := h.exists_stack
  rw [complete_eq hstack (h.node_not_mem hstack)]
  have hsound : Sound g path
      { s' with stack := s.stack, components := s'.components ++ [new ++ [node]] } :=
    { known := h.sound.known
      nodup := h.sound.nodup
      placed := h.placed_append hstack
      index_lt := h.sound.index_lt
      path_sub := hs.path_sub
      explored := fun v hv hpath w hcall => hgrows.mem_nodes (hs.explored v hv hpath w hcall)
      returns := hs.returns
      layered := h.layered_append hs hnew hstack }
  exact ⟨hsound, ⟨hgrows.index, hgrows.fresh, hgrows.length_le,
      hgrows.components.trans (List.prefix_append ..), List.suffix_refl _⟩,
    h.grows.mem_nodes List.mem_cons_self, fun v hv hold => absurd hv hold, Nat.le_refl _,
    fun hlt => absurd hlt (Nat.lt_irrefl _), fun v hv hold => absurd hv hold⟩

end Visiting

/-! ### Whole searches -/

/-- Every visit does what it should, if its limit leaves room for the functions that have not been found. -/
theorem visited_visit (hcalls : ∀ a b, g.Calls a b → b ∈ g.nodes) (limit : Nat) (hs : s.Sound g path)
    (hnode : node ∈ g.nodes) (hnew : node ∉ s.nodes)
    (hlimit : g.nodes.length ≤ s.found.length + limit) :
    Visited g path node s (g.visit limit node s).1 (g.visit limit node s).2 := by
  have hlength := hs.length_lt hnode hnew
  induction limit generalizing path node s with
  | zero => omega
  | succ limit ih =>
    have hvisiting := (Visiting.enter hs hnode hnew).visitCallees (g.visit limit) hs hnew (fun _ => id)
      fun callee t hcall ht hcallee hgrown =>
        ih ht (hcalls _ _ hcall) hcallee (by omega) (ht.length_lt (hcalls _ _ hcall) hcallee)
    rw [List.nil_append] at hvisiting
    rw [CallGraph.visit]
    split
    next t low hcallees =>
    rw [hcallees] at hvisiting
    split
    · next hlow =>
      subst hlow
      exact hvisiting.complete hs hnew
    · next hlow => exact hvisiting.leave hs hnew hlow

/-- Between two visits nothing is on the stack. -/
theorem Sound.stack_eq_nil (h : s.Sound g []) : s.stack = [] := by
  refine List.eq_nil_iff_forall_not_mem.mpr fun v hv => ?_
  obtain ⟨u, hu, -⟩ := h.returns v hv
  cases hu

theorem sound_start (g : CallGraph) : ({} : Search).Sound g [] where
  known := List.nil_subset _
  nodup := List.nodup_nil
  placed := .refl _
  index_lt := by simp
  path_sub := List.nil_subset _
  explored := by simp
  returns := by simp
  layered := .nil g

/-- A function is visited unless it has been found. -/
theorem sound_visitNew (hcalls : ∀ a b, g.Calls a b → b ∈ g.nodes) (hs : s.Sound g [])
    (hnode : node ∈ g.nodes) (ht : (if (s.found.lookup node).isSome then s
      else (g.visit (g.nodes.length + 1) node s).1) = t) :
    t.Sound g [] ∧ node ∈ t.nodes ∧ s.nodes ⊆ t.nodes := by
  subst ht
  split
  · next hfound =>
    obtain ⟨i, hi⟩ := Option.isSome_iff_exists.mp hfound
    exact ⟨hs, mem_nodes_of_lookup hi, List.Subset.refl _⟩
  · next hnew =>
    rw [Option.not_isSome_iff_eq_none, lookup_eq_none_iff] at hnew
    have hvisited := visited_visit hcalls (g.nodes.length + 1) hs hnode hnew (by omega)
    exact ⟨hvisited.sound, hvisited.found, fun v hv => hvisited.grows.mem_nodes hv⟩

end Search

/-- The search ends with every function of the graph in one component, whether or not the graph lists functions
more than once. -/
theorem search_sound (hcalls : ∀ a b, g.Calls a b → b ∈ g.nodes) :
    g.Layered g.search.components ∧ g.search.components.flatten.Nodup ∧
      ∀ v, v ∈ g.search.components.flatten ↔ v ∈ g.nodes := by
  have hfold : ∀ (nodes : List Nat) (s t : Search), nodes ⊆ g.nodes → s.Sound g [] →
      nodes.foldl (fun s node => if (s.found.lookup node).isSome then s
        else (g.visit (g.nodes.length + 1) node s).1) s = t →
      t.Sound g [] ∧ nodes ⊆ t.nodes ∧ s.nodes ⊆ t.nodes := by
    intro nodes
    induction nodes with
    | nil =>
      rintro s _ - hs rfl
      exact ⟨hs, List.nil_subset _, List.Subset.refl _⟩
    | cons node rest ih =>
      intro s t hsub hs ht
      obtain ⟨hnode, hrest⟩ := List.cons_subset.mp hsub
      obtain ⟨hs', hfound, hkept⟩ := Search.sound_visitNew hcalls hs hnode rfl
      obtain ⟨ht', hothers, hkept'⟩ := ih _ t hrest hs' ht
      exact ⟨ht', List.cons_subset.mpr ⟨hkept' hfound, hothers⟩, List.Subset.trans hkept hkept'⟩
  obtain ⟨hsound, hall, -⟩ := hfold g.nodes {} g.search (List.Subset.refl _) (Search.sound_start g) rfl
  have hplaced := hsound.placed
  rw [hsound.stack_eq_nil, List.nil_append] at hplaced
  refine ⟨hsound.layered, hplaced.nodup_iff.mpr hsound.nodup, fun v => ?_⟩
  rw [hplaced.mem_iff]
  exact ⟨fun hv => hsound.known hv, fun hv => hall hv⟩

theorem search_spec (hnodes : g.nodes.Nodup) (hcalls : ∀ a b, g.Calls a b → b ∈ g.nodes) :
    g.Layered g.search.components ∧ g.search.components.flatten.Perm g.nodes := by
  obtain ⟨hlayered, hnodup, hmem⟩ := search_sound hcalls
  exact ⟨hlayered, (List.perm_ext_iff_of_nodup hnodup hnodes).mpr hmem⟩

end CallGraph
end ThumbHardening
