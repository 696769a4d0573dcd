import ThumbHardening.Proofs.Layout.Frame
import ThumbHardening.Proofs.Predication.Insertion
import ThumbHardening.Proofs.Verify

/-!
# Etched code

Etching puts the address of a decoy into the first instruction of a block. The code stays acceptable if and only if
that instruction is no `It`, since an `It` needs all its operands to name its conditions.
-/

namespace ThumbHardening

/-- Whether the first instruction of a block is an `It`. -/
def Block.startsWithIt (b : Block) : Bool :=
  b.instrs.head?.any Instr.isIt

namespace Layout

variable {p q : Program} {f f' : Function} {g g' : FlowGraph} {b : Block} {decoy : Nat}
  {etched : List (BlockPointer × Nat)}

theorem sound_etchBlock (h : b.Sound) (decoy : Nat) : (etchBlock decoy b).Sound := by
  refine ⟨h.id_ne_zero, h.one_next, fun htrap => ?_⟩
  have hfirst := h.trap_first htrap
  cases hcode : b.instrs with
  | nil =>
    rw [hcode] at hfirst
    cases hfirst
  | cons i rest =>
    rw [hcode] at hfirst
    simpa [etchBlock, hcode] using hfirst

/-- An etched block is accepted unless it begins with an `It`. -/
theorem soundCode_etchBlock (h : p.SoundCode f g b.instrs) (hit : b.startsWithIt = false)
    (hdecoy : p.hasSymbol (.global decoy) = true) : p.SoundCode f g (etchBlock decoy b).instrs := by
  rw [Block.startsWithIt] at hit
  cases hcode : b.instrs with
  | nil =>
    rw [etchBlock, hcode, List.modify_nil, ← hcode]
    exact h
  | cons i rest =>
    rw [hcode] at h hit
    have hplain : i.isIt = false := by simpa using hit
    have hchanged : (etchBlock decoy b).instrs
        = { i with operands := i.operands.set 0 (etching decoy) } :: rest := by
      rw [etchBlock, hcode, List.modify_zero_cons]
    refine ⟨?_, ?_⟩
    · have hrole : Code.SameRole i { i with operands := i.operands.set 0 (etching decoy) } :=
        ⟨hplain, hplain, rfl, rfl, rfl, rfl⟩
      rw [etchBlock, hcode]
      exact Code.isConsistent_modify h.consistent rfl hrole
    · rw [hchanged]
      obtain ⟨hfirst, hrest⟩ := List.forall_mem_cons.mp h.resolves
      refine List.forall_mem_cons.mpr ⟨fun operand hoperand => ?_, hrest⟩
      rcases List.mem_or_eq_of_mem_set hoperand with hold | rfl
      · exact hfirst operand hold
      · exact hdecoy

/-- An `It` that holds the address of a decoy names no condition. -/
theorem not_soundCode_etchBlock (h : p.SoundCode f g b.instrs) (hit : b.startsWithIt = true) (decoy : Nat) :
    ¬ q.SoundCode f' g' (etchBlock decoy b).instrs := by
  intro hafter
  rw [Block.startsWithIt] at hit
  cases hcode : b.instrs with
  | nil =>
    rw [hcode] at hit
    cases hit
  | cons i rest =>
    rw [hcode] at h hit
    have hit : i.isIt = true := by simpa using hit
    have hfields := Instr.itFields?_isSome h.consistent List.mem_cons_self hit
    have hchanged : { i with operands := i.operands.set 0 (etching decoy) } ∈ (etchBlock decoy b).instrs := by
      rw [etchBlock, hcode, List.modify_zero_cons]
      exact List.mem_cons_self
    have hafter := Instr.itFields?_isSome hafter.consistent hchanged hit
    have hoperands : i.operands ≠ [] := by
      intro hempty
      simp [Instr.itFields?, hempty] at hfields
    obtain ⟨first, others, hsplit⟩ := List.exists_cons_of_ne_nil hoperands
    simp [Instr.itFields?, hsplit, etching] at hafter

theorem etchedAs_cases (etched : List (BlockPointer × Nat)) (t : BlockPointer) (b : Block) :
    etchedAs etched t b = b ∨ ∃ decoy, (t, decoy) ∈ etched ∧ etchedAs etched t b = etchBlock decoy b := by
  rw [etchedAs]
  cases hlookup : etched.lookup t with
  | none => exact .inl rfl
  | some decoy =>
    obtain ⟨before, after, hsplit, -⟩ := List.lookup_eq_some_iff.mp hlookup
    exact .inr ⟨decoy, hsplit ▸ by simp, rfl⟩

theorem exists_etchedAs_of_mem {t : BlockPointer} (h : t ∈ etched.map Prod.fst) (b : Block) :
    ∃ decoy, etchedAs etched t b = etchBlock decoy b := by
  rw [etchedAs]
  cases hlookup : etched.lookup t with
  | some decoy => exact ⟨decoy, rfl⟩
  | none =>
    obtain ⟨entry, hentry, rfl⟩ := List.mem_map.mp h
    exact absurd (List.lookup_eq_none_iff.mp hlookup entry hentry) (by simp)

/-- A function with etched blocks is accepted if it was accepted and no `It` has been etched. -/
theorem verifyFunction_etchFunction (h : p.verifyFunction f = .ok ())
    (hdecoys : ∀ entry ∈ etched, p.hasSymbol (.global entry.2) = true)
    (hits : ∀ g, f.body = some g → ∀ b ∈ g.blocks.elems, g.block? b.id = some b →
      ⟨f.id, b.id⟩ ∈ etched.map Prod.fst → b.startsWithIt = false) :
    p.verifyFunction (etchFunction etched f) = .ok () := by
  rw [verifyFunction_eq_ok_iff] at h ⊢
  intro g' hg'
  obtain ⟨g, hg, rfl⟩ := Option.map_eq_some_iff.mp hg'
  obtain ⟨hsound, hcode⟩ := h g hg
  have hblocks : ∀ b' ∈ (g.blocks.mapFound fun b => etchedAs etched ⟨f.id, b.id⟩ b).elems,
      b' ∈ g.blocks.elems ∨ ∃ b ∈ g.blocks.elems, ∃ decoy, b' = etchBlock decoy b ∧ b.startsWithIt = false ∧
        p.hasSymbol (.global decoy) = true := by
    intro b' hb'
    rcases Roster.mem_mapFound hb' with hold | ⟨b, hget, rfl⟩
    · exact .inl hold
    · have hb := Roster.mem_of_get? hget
      rcases etchedAs_cases etched ⟨f.id, b.id⟩ b with heq | ⟨decoy, hmem, heq⟩
      · rw [heq]
        exact .inl hb
      · exact .inr ⟨b, hb, decoy, heq, hits g hg b hb hget (List.mem_map_of_mem hmem), hdecoys _ hmem⟩
  have hids : (g.blocks.mapFound fun b => etchedAs etched ⟨f.id, b.id⟩ b).ids = g.blocks.ids :=
    Roster.ids_mapFound fun b => id_etchedAs etched ⟨f.id, b.id⟩ b
  have hcontains : ∀ id, (g.blocks.mapFound fun b => etchedAs etched ⟨f.id, b.id⟩ b).contains id
      = g.blocks.contains id := by
    intro id
    rw [Roster.contains_eq, hids, ← Roster.contains_eq]
  refine ⟨⟨hsound.entry_ne_zero, ?_, fun b' hb' => ?_, fun b' hb' edge hedge => ?_⟩, fun b' hb' => ?_⟩
  · exact (hcontains _).trans hsound.contains_entry
  · rcases hblocks b' hb' with hold | ⟨b, hb, decoy, rfl, -⟩
    · exact hsound.blocks b' hold
    · exact sound_etchBlock (hsound.blocks b hb) decoy
  · refine (hcontains _).trans ?_
    rcases hblocks b' hb' with hold | ⟨b, hb, decoy, rfl, -⟩
    · exact hsound.targets b' hold edge hedge
    · exact hsound.targets b hb edge hedge
  · have hafter : p.SoundCode f g b'.instrs := by
      rcases hblocks b' hb' with hold | ⟨b, hb, decoy, rfl, hit, hdecoy⟩
      · exact hcode b' hold
      · exact soundCode_etchBlock (hcode b hb) hit hdecoy
    exact ⟨hafter.consistent, fun i hi operand hoperand => (hafter.resolves i hi operand hoperand).mono
      (fun _ => id) (fun id => (hcontains id).trans) (fun _ _ => id) rfl fun _ => id⟩

end Layout
end ThumbHardening
