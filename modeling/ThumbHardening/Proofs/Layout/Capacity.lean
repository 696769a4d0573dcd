import ThumbHardening.Proofs.Layout.Additions
import ThumbHardening.Proofs.Layout.Budget

/-!
# Capacities

After a successful run the objects of a class and the decoys made for it are within the capacity of the
class, each decoy belongs to the class it was made for, and the count of decoy entries is the bytes of the
decoys. That includes the decoy that only the guard needs: if the data class has no room for it, or would no
longer have a 64-bit size, the run stops without an answer of this kind.
-/

namespace ThumbHardening
namespace Layout

/-! ### The objects of a plan -/

/-- The decoys of a plan with the objects made of them, in the order of their creation. -/
abbrev Decoys := List (DecoyPlan × GlobalObject)

/-- The bytes of the decoys that were planned for a class. -/
def Decoys.bytes (decoys : Decoys) (c : StorageClass) : Nat :=
  totalSize ((decoys.filter fun d => d.1.storage = c).map Prod.snd)

namespace Made
variable {next : Nat} {decoys : List DecoyPlan} {objects : List GlobalObject}

theorem length_eq (h : Made next decoys objects) : decoys.length = objects.length := by
  induction h with
  | nil => rfl
  | cons name rest ih => simp only [List.length_cons, ih]

theorem eq_decoyObject (h : Made next decoys objects) :
    ∀ d ∈ decoys.zip objects, ∃ name id, d.2 = { decoyObject name d.1 with id } := by
  induction h with
  | nil => simp
  | cons name rest ih =>
    intro d hd
    rcases List.mem_cons.mp hd with rfl | hd
    · exact ⟨name, _, rfl⟩
    · exact ih d hd

theorem bytes_zip (h : Made next decoys objects) (c : StorageClass) :
    Decoys.bytes (decoys.zip objects) c = plannedBytes c decoys := by
  induction h with
  | nil => rfl
  | cons name rest ih =>
    next d decoys objects =>
    by_cases hc : d.storage = c
    · simpa [Decoys.bytes, totalSize, plannedBytes, hc, decoyObject] using ih
    · simpa [Decoys.bytes, totalSize, plannedBytes, hc] using ih

end Made

theorem plannedWords_mul {ptr : Nat} {decoys : List DecoyPlan}
    (hsound : ∀ d ∈ decoys, d.Sound ptr) (c : StorageClass) :
    plannedWords ptr c decoys * ptr = plannedBytes c decoys := by
  induction decoys with
  | nil => simp [plannedWords, plannedBytes]
  | cons d rest ih =>
    obtain ⟨hd, hrest⟩ := List.forall_mem_cons.mp hsound
    have hsplit : plannedBytes c (d :: rest) = plannedBytes c [d] + plannedBytes c rest :=
      plannedBytes_append c [d] rest
    rw [plannedWords_cons, Nat.add_mul, ih hrest, hsplit, plannedBytes_singleton]
    by_cases hc : d.storage = c
    · simp [plannedWords, hc, Nat.div_mul_cancel hd.whole]
    · simp [plannedWords, hc]

end Layout

/-! ### Runs of the randomizer -/

namespace LayoutRandomizer
open Layout

variable {r : LayoutRandomizer} {stream : RandomStream} {p : Program} {changed : Bool}

/-- A run that succeeds has carried out its plan. -/
theorem runWith_eq_ok (hon : r.options.randomization = true)
    (hok : (r.runWith stream p).outcome = .ok changed) :
    ∃ warnings plan s, Layout.plan r.options p (Members.ofProgram p) stream = (warnings, .ok plan) ∧
      carryOut r.options plan
        { program := p, statistics := (Members.ofProgram p).statistics } = (s, none) ∧
      (r.runWith stream p).program = s.program ∧
      (r.runWith stream p).pass.statistics = s.statistics := by
  rw [runWith] at hok ⊢
  simp only [hon, Bool.not_true, Bool.false_eq_true, if_false] at hok ⊢
  cases hrng : checkRngAddress r.options with
  | error e =>
    rw [hrng] at hok
    cases hok
  | ok _ =>
    rw [hrng] at hok
    simp only at hok ⊢
    split at hok
    · cases hok
    · next warnings plan hplan =>
      simp only [hplan]
      cases hcarry : carryOut r.options plan
          { program := p, statistics := (Members.ofProgram p).statistics } with
      | mk s failure =>
        simp only [hcarry] at hok
        cases failure with
        | some e => cases hok
        | none => exact ⟨warnings, plan, s, rfl, hcarry, rfl, rfl⟩

/-- The decoys of a run are those of its plan, and with the objects of the program before they make up the
objects of the program after it. -/
structure Added (r : LayoutRandomizer) (stream : RandomStream) (p : Program) (decoys : Decoys) :
    Prop where
  planned : ∃ warnings plan,
    Layout.plan r.options p (Members.ofProgram p) stream = (warnings, .ok plan) ∧
      decoys.map Prod.fst = plan.decoys
  made : ∀ d ∈ decoys, ∃ name id, d.2 = { decoyObject name d.1 with id }
  objects : (r.runWith stream p).program.globals.elems.Perm (p.globals.elems ++ decoys.map Prod.snd)

/-- What a plan within the budget comes to once it is carried out. -/
private theorem exists_added (hptr : IsPointerSize p.pointerSize) (hids : p.globals.ids.Nodup)
    (hon : r.options.randomization = true)
    (hok : (r.runWith stream p).outcome = .ok changed) :
    ∃ decoys, Added r stream p decoys ∧
      (∀ d ∈ decoys, StorageClass.of? d.2 = some d.1.storage) ∧
      (∀ c, (r.runWith stream p).pass.statistics.decoyWords.get c * p.pointerSize = decoys.bytes c) ∧
      ∃ plan : Plan, plan.WithinBudget r.options p.pointerSize (Members.ofProgram p).statistics.bytes ∧
        ∀ c, decoys.bytes c = plannedBytes c plan.decoys := by
  obtain ⟨warnings, plan, s, hplan, hcarry, hprogram, hstatistics⟩ := runWith_eq_ok hon hok
  obtain ⟨objects, hmade, hobjects, -, -, hwords⟩ := carryOut_eq_none hcarry
  have hbudget := withinBudget_of_plan hptr (Members.nodup_ofClass hids) hplan
  have hfst : (plan.decoys.zip objects).map Prod.fst = plan.decoys :=
    List.map_fst_zip (Nat.le_of_eq hmade.length_eq)
  have hsnd : (plan.decoys.zip objects).map Prod.snd = objects :=
    List.map_snd_zip (Nat.le_of_eq hmade.length_eq.symm)
  refine ⟨plan.decoys.zip objects, ⟨⟨warnings, plan, hplan, hfst⟩, hmade.eq_decoyObject, ?_⟩,
    ?_, ?_, plan, hbudget, hmade.bytes_zip⟩
  · rw [hprogram, hsnd]
    exact hobjects
  · intro d hd
    obtain ⟨name, id, hobject⟩ := hmade.eq_decoyObject d hd
    have hmem : d.1 ∈ plan.decoys := hfst ▸ List.mem_map_of_mem hd
    rw [hobject]
    exact (hbudget.sound d.1 hmem).class_eq name
  · intro c
    rw [hstatistics, hwords c, Members.get_decoyWords_ofProgram, Nat.zero_add,
      plannedWords_mul hbudget.sound c]
    exact (hmade.bytes_zip c).symm

/-- After a successful run the objects of every class and its decoys are within its capacity. Every decoy belongs
to the class that it was planned for, and the count of entries says how large the decoys of a class are. -/
theorem class_bytes_le_capacity (hptr : IsPointerSize p.pointerSize) (hids : p.globals.ids.Nodup)
    (hsmall : totalSize p.globals.elems < 2 ^ 64) (hon : r.options.randomization = true)
    (hok : (r.runWith stream p).outcome = .ok changed) :
    ∃ decoys, Added r stream p decoys ∧
      (∀ d ∈ decoys, StorageClass.of? d.2 = some d.1.storage) ∧
      (∀ c, (r.runWith stream p).pass.statistics.decoyWords.get c * p.pointerSize = decoys.bytes c) ∧
      ∀ c, totalSize (originals p c) + decoys.bytes c ≤ c.capacity r.options := by
  obtain ⟨decoys, hadded, hclass, hwords, plan, hbudget, hbytes⟩ :=
    exists_added hptr hids hon hok
  refine ⟨decoys, hadded, hclass, hwords, fun c => ?_⟩
  rw [← Members.get_bytes_ofProgram hsmall, hbytes]
  exact hbudget.fits c

/-! ### A table and its guard -/

/-- The stream in which every word is one. -/
def constantStream : RandomStream :=
  { block := fun _ => Vector.replicate 16 1 }

/-- A program with a single table in the data class. -/
def tableProgram (size : Nat) : Program :=
  let empty : Program := (Program.new 4).toOption.getD { pointerSize := 4 }
  (empty.addGlobal { name := "table", size, initializer := some (.bytes [1]) }).1

/-- A randomizer that makes a guard and has room in the data class alone. -/
def guardRandomizer (maxData : Nat) : LayoutRandomizer :=
  { options :=
      { randomization := true, guard := true, maxRodata := 0, maxData, maxBss := 0 } }

/-- A table of 20 bytes leaves 80 of 100 bytes to the decoys. -/
theorem class_bytes_le_capacity_small_table :
    ∃ decoys, Added (guardRandomizer 100) constantStream (tableProgram 20) decoys ∧
      20 + decoys.bytes .data ≤ 100 := by
  have hptr : IsPointerSize (tableProgram 20).pointerSize := .inl rfl
  have hok : ((guardRandomizer 100).runWith constantStream (tableProgram 20)).outcome = .ok true := by
    decide +kernel
  obtain ⟨decoys, hadded, -, -, hbound⟩ :=
    class_bytes_le_capacity hptr (by decide) (by decide) rfl hok
  have hused : totalSize (originals (tableProgram 20) .data) = 20 := by decide
  refine ⟨decoys, hadded, ?_⟩
  rw [← hused]
  exact hbound .data

/-- Next to a table that leaves 15 of `2 ^ 64 - 1` bytes the decoy of the guard has no room, and what the data class
would hold is no 64-bit number. -/
example : ((guardRandomizer (2 ^ 64 - 1)).runWith constantStream (tableProgram (2 ^ 64 - 16))).outcome
    = .error (.fault .sizeOverflow) := by decide +kernel

end LayoutRandomizer
end ThumbHardening
