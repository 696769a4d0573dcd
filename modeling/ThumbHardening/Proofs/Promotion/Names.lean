import ThumbHardening.Proofs.Program.Names
import ThumbHardening.Proofs.Promotion.Promoted

/-!
# Names of promoted objects

A new global object is named for its function and its stack object. If that name is taken, numbers are tried
behind it until one is free. The names for all objects of a function are chosen before the first of them is
taken, so the run fails if two of them are the same, and it also fails if one is the name of a list. Given that
calls resolve and that alignments are proper, nothing else makes a run fail but an object too large for the
memory.
-/

namespace ThumbHardening

/-- A failure because a name is taken or memory does not suffice. -/
def PromotionError.IsShortage (e : PromotionError) : Prop :=
  e = .fault .outOfMemory ∨ ∃ name, e = .program (.duplicateName name)

namespace Promotion

variable {p : Program} {f : Function} {c : Candidate} {s s' s'' : State} {function : Nat} {base : String}
  {taken taken' names names' : List String}

/-! ### The first name that is free -/

/-- The first of the names tried for an object that is not taken. -/
def firstFree (taken : List String) (base : String) : String :=
  nameAt base (((List.range taken.length).find? fun k => nameAt base k ∉ taken).getD taken.length)

theorem uniqueName_eq (p : Program) (base : String) : uniqueName p base = firstFree p.taken base := by
  have hlength : p.taken.length = p.names.length := List.length_map _
  have hfree : ∀ name, (p.symbolNamed? name).isNone = decide (name ∉ p.taken) := by
    intro name
    rw [Bool.eq_iff_iff, Option.isNone_iff_eq_none, Program.symbolNamed?_eq_none_iff, decide_eq_true_iff]
  simp only [uniqueName, hfree, firstFree, hlength]

theorem nameAt_injective (base : String) : Function.Injective (nameAt base) := by
  have hlonger : ∀ k, base ≠ nameAt base (k + 1) := by
    intro k heq
    have hlength := congrArg String.length heq
    simp only [nameAt, String.length_append] at hlength
    have hdot : ".".length = 1 := rfl
    omega
  intro j k h
  match j, k with
  | 0, 0 => rfl
  | 0, k + 1 => exact absurd h (hlonger k)
  | j + 1, 0 => exact absurd h.symm (hlonger j)
  | j + 1, k + 1 => exact Program.repr_injective ((String.append_right_inj _).mp h)

/-- The names in front of the first free one are taken. -/
theorem firstFree_spec (taken : List String) (base : String) :
    ∃ k, firstFree taken base = nameAt base k ∧ nameAt base k ∉ taken ∧ ∀ j < k, nameAt base j ∈ taken := by
  rw [firstFree]
  cases hfind : (List.range taken.length).find? fun k => nameAt base k ∉ taken with
  | some k =>
    obtain ⟨hfree, -, hfirst⟩ := List.find?_range_eq_some.mp hfind
    exact ⟨k, rfl, of_decide_eq_true hfree, fun j hj => by simpa using hfirst j hj⟩
  | none =>
    have hall : ∀ j < taken.length, nameAt base j ∈ taken := fun j hj => by
      simpa using List.find?_eq_none.mp hfind j (List.mem_range.mpr hj)
    obtain ⟨k, hk, hfree⟩ := Program.exists_notMem_of_injective (nameAt_injective base) taken
    have hlast : k = taken.length := by
      by_contra hne
      exact hfree (hall k (by omega))
    exact ⟨taken.length, rfl, hlast ▸ hfree, hall⟩

theorem firstFree_notMem (taken : List String) (base : String) : firstFree taken base ∉ taken := by
  obtain ⟨k, hk, hfree, -⟩ := firstFree_spec taken base
  rwa [hk]

theorem firstFree_eq {k : Nat} (hfree : nameAt base k ∉ taken) (htaken : ∀ j < k, nameAt base j ∈ taken) :
    firstFree taken base = nameAt base k := by
  obtain ⟨k', hk', hfree', htaken'⟩ := firstFree_spec taken base
  rcases Nat.lt_trichotomy k k' with hlt | rfl | hlt
  · exact absurd (htaken' k hlt) hfree
  · exact hk'
  · exact absurd (htaken k' hlt) hfree'

theorem firstFree_perm (h : taken.Perm taken') (base : String) : firstFree taken base = firstFree taken' base := by
  simp only [firstFree, h.mem_iff, h.length_eq]

/-! ### Names that fit -/

/-- Whether free names can be taken one after the other. -/
def Acceptable (names : List String) : Prop :=
  names.Nodup ∧ ∀ name ∈ names, isListName name = false

instance (names : List String) : Decidable (Acceptable names) :=
  inferInstanceAs (Decidable (_ ∧ _))

/-- Whether the objects of some functions get names that can be taken. Each list has the names wanted for the
objects of one function. -/
def NamesFit (taken : List String) : List (List String) → Prop
  | [] => True
  | wanted :: rest =>
    Acceptable (wanted.map (firstFree taken)) ∧ NamesFit (wanted.map (firstFree taken) ++ taken) rest

instance decidableNamesFit : (taken : List String) → (wanted : List (List String)) →
    Decidable (NamesFit taken wanted)
  | _, [] => .isTrue trivial
  | taken, wanted :: rest =>
    have := decidableNamesFit (wanted.map (firstFree taken) ++ taken) rest
    inferInstanceAs (Decidable (_ ∧ _))

/-- That no name tried for one of some objects is tried for another one, or is the name of a list. -/
def NamesApart (wanted : List String) : Prop :=
  wanted.Pairwise (fun a b => ∀ j k, nameAt a j ≠ nameAt b k) ∧
    ∀ a ∈ wanted, ∀ k, isListName (nameAt a k) = false

/-- Names are apart exactly if what comes out can be taken whatever other names there are. -/
theorem namesApart_iff {wanted : List String} :
    NamesApart wanted ↔ ∀ taken, Acceptable (wanted.map (firstFree taken)) := by
  constructor
  · rintro ⟨hpairs, hlists⟩ taken
    refine ⟨List.pairwise_map.mpr (hpairs.imp fun {a b} hne => ?_), fun name hname => ?_⟩
    · obtain ⟨j, hj, -⟩ := firstFree_spec taken a
      obtain ⟨k, hk, -⟩ := firstFree_spec taken b
      rw [hj, hk]
      exact hne j k
    · obtain ⟨a, ha, rfl⟩ := List.mem_map.mp hname
      obtain ⟨k, hk, -⟩ := firstFree_spec taken a
      rw [hk]
      exact hlists a ha k
  · intro h
    -- Names that come before the one in question may all be taken.
    have hreached : ∀ (taken : List String) (a : String) (k : Nat), nameAt a k ∉ taken →
        (List.range k).map (nameAt a) ⊆ taken → firstFree taken a = nameAt a k := by
      intro taken a k hfree hsub
      exact firstFree_eq hfree fun j hj => hsub (List.mem_map_of_mem (List.mem_range.mpr hj))
    have hbefore : ∀ a k, nameAt a k ∉ (List.range k).map (nameAt a) := by
      intro a k hmem
      obtain ⟨j, hj, heq⟩ := List.mem_map.mp hmem
      exact Nat.ne_of_lt (List.mem_range.mp hj) (nameAt_injective a heq)
    refine ⟨?_, fun a ha k => ?_⟩
    · refine List.pairwise_iff_getElem.mpr fun m n hm hn hmn j k heq => ?_
      let others := (List.range j).map (nameAt wanted[m]) ++ (List.range k).map (nameAt wanted[n])
      have hfree : nameAt wanted[m] j ∉ others := by
        rw [List.mem_append, not_or]
        exact ⟨hbefore _ j, heq ▸ hbefore _ k⟩
      have hfirst := hreached others _ j hfree (List.subset_append_left ..)
      have hsecond := hreached others _ k (heq ▸ hfree) (List.subset_append_right ..)
      have hne := List.pairwise_iff_getElem.mp (List.pairwise_map.mp (h others).1) m n hm hn hmn
      exact hne (hfirst.trans (heq.trans hsecond.symm))
    · have hname := (h ((List.range k).map (nameAt a))).2 _ (List.mem_map_of_mem ha)
      rwa [hreached _ a k (hbefore a k) (List.Subset.refl _)] at hname

theorem namesFit_of_apart {wanted : List (List String)} (h : ∀ names ∈ wanted, NamesApart names)
    (taken : List String) : NamesFit taken wanted := by
  induction wanted generalizing taken with
  | nil => trivial
  | cons names rest ih =>
    obtain ⟨hnames, hrest⟩ := List.forall_mem_cons.mp h
    exact ⟨namesApart_iff.mp hnames taken, ih hrest _⟩

/-! ### Moves out of one function -/

/-- What moves out of a function have done to a program, given the names of the new objects. -/
structure Moved (function : Nat) (names : List String) (s s' : State) : Prop where
  names : s'.program.taken.Perm (names ++ s.program.taken)
  pointerSize : s'.program.pointerSize = s.program.pointerSize
  others : ∀ id ≠ function, s'.program.function? id = s.program.function? id

theorem Moved.refl (function : Nat) (h : s'.program = s.program) : Moved function [] s s' :=
  ⟨.of_eq (by rw [h, List.nil_append]), by rw [h], fun _ _ => by rw [h]⟩

theorem Moved.trans (h : Moved function names s s') (h' : Moved function names' s' s'') :
    Moved function (names ++ names') s s'' := by
  refine ⟨h'.names.trans ?_, h'.pointerSize.trans h.pointerSize,
    fun id hid => (h'.others id hid).trans (h.others id hid)⟩
  rw [List.append_assoc]
  exact (h.names.append_left _).trans (List.perm_append_comm_assoc ..)

/-- A name is free after moves if it was free before and is not one of theirs. -/
theorem Moved.isFreeName_iff (h : Moved function names s s') {name : String} :
    s'.program.isFreeName name = true ↔ s.program.isFreeName name = true ∧ name ∉ names := by
  rw [Program.isFreeName_iff, Program.isFreeName_iff, h.names.mem_iff, List.mem_append, not_or]
  constructor
  · exact fun ⟨⟨hnew, hold⟩, hlist⟩ => ⟨⟨hold, hlist⟩, hnew⟩
  · exact fun ⟨⟨hold, hlist⟩, hnew⟩ => ⟨⟨hnew, hold⟩, hlist⟩

theorem isPowerOfTwo_max_one {align : Nat} (h : align = 0 ∨ ∃ k, align = 2 ^ k) :
    Address.isPowerOfTwo (max align 1) = true := by
  rcases h with rfl | ⟨k, rfl⟩
  · decide
  · rw [Nat.max_eq_left Nat.one_le_two_pow, Address.isPowerOfTwo, Nat.log2_two_pow, beq_iff_eq]
    rfl

/-- A move with a proper alignment is made if there is memory and the name is free. -/
theorem promote_decided (halign : c.align = 0 ∨ ∃ k, c.align = 2 ^ k) (function : Nat) (s : State) :
    Steps.Decided
      (fitsMemory c.type c.size s.program.pointerSize = true ∧ s.program.isFreeName c.name = true)
      (Moved function [c.name] s) PromotionError.IsShortage (promote function c s) := by
  have hbuild : ∃ g, globalFor s.program c = .ok g := by
    simp [globalFor, GlobalDraft.build, isPowerOfTwo_max_one halign]
  obtain ⟨g, hg⟩ := hbuild
  have hname : g.name = c.name ∧ (g.initializer.map Initializer.entries).getD [] = [] := by
    rw [globalFor_eq hg]
    exact ⟨rfl, entries_sentinelInitializer ..⟩
  obtain ⟨hname, hentries⟩ := hname
  rw [promote, hg]
  cases hfits : fitsMemory c.type c.size s.program.pointerSize with
  | false => exact .failure (by simp) (.inl rfl)
  | true =>
    simp only [Program.addGlobal, hentries, Program.resolveEntries, hname]
    cases hfree : s.program.isFreeName c.name with
    | false => exact .failure (by simp) (.inr ⟨c.name, rfl⟩)
    | true =>
      refine .success (by simp) ⟨.of_eq rfl, rfl, fun id hne => ?_⟩
      · refine (Roster.get?_update ?_ function id).trans (if_neg hne)
        exact fun _ => rfl

/-- The moves out of a function are made if there is memory and all names are free and different. -/
theorem runAll_promote_decided {candidates : List Candidate}
    (halign : ∀ c ∈ candidates, c.align = 0 ∨ ∃ k, c.align = 2 ^ k) (function : Nat) (s : State) :
    Steps.Decided
      ((∀ c ∈ candidates, fitsMemory c.type c.size s.program.pointerSize = true) ∧
        (candidates.map Candidate.name).Nodup ∧ ∀ c ∈ candidates, s.program.isFreeName c.name = true)
      (Moved function (candidates.map Candidate.name) s) PromotionError.IsShortage
      (Steps.runAll (promote function) candidates s) := by
  induction candidates generalizing s with
  | nil => exact .success (by simp) (.refl function rfl)
  | cons c rest ih =>
    obtain ⟨hc, hothers⟩ := List.forall_mem_cons.mp halign
    -- After the first move its name is not free any more.
    have hrest : ∀ t, Moved function [c.name] s t → Steps.Decided
        ((∀ c' ∈ rest, fitsMemory c'.type c'.size s.program.pointerSize = true) ∧
          (rest.map Candidate.name).Nodup ∧
          ∀ c' ∈ rest, s.program.isFreeName c'.name = true ∧ c'.name ≠ c.name)
        (Moved function ((c :: rest).map Candidate.name) s) PromotionError.IsShortage
        (Steps.runAll (promote function) rest t) := by
      intro t ht
      refine (ih hothers t).imp ?_ fun _ h => ht.trans h
      simp only [ht.pointerSize, ht.isFreeName_iff, List.mem_singleton]
    refine (Steps.Decided.runAll_cons (promote_decided hc function s) hrest).imp ?_ fun _ => id
    simp only [List.forall_mem_cons, List.map_cons, List.nodup_cons, List.mem_map, not_exists, not_and]
    constructor
    · rintro ⟨⟨hfits, hmore⟩, ⟨hnew, hnodup⟩, hfree, hall⟩
      exact ⟨⟨hfits, hfree⟩, hmore, hnodup, fun c' hc' => ⟨hall c' hc', hnew c' hc'⟩⟩
    · rintro ⟨⟨hfits, hfree⟩, hmore, hnodup, hall⟩
      exact ⟨⟨hfits, hmore⟩, ⟨fun c' hc' => (hall c' hc').2, hnodup⟩, hfree, fun c' hc' => (hall c' hc').1⟩

/-! ### Visits -/

/-- The objects that a visit is going to move, with their function. -/
def leaving (p : Program) (v : Bool × Nat) : List (Function × StackObject) :=
  (p.function? v.2).toList.flatMap fun f => (promotable v.1 f).map fun o => (f, o)

/-- The names wanted for these objects. -/
def wantedNames (p : Program) (v : Bool × Nat) : List String :=
  (leaving p v).map fun moving => moving.1.name ++ "." ++ moving.2.name

/-- Whether memory has room for the initial contents of these objects. -/
def HasRoom (p : Program) (v : Bool × Nat) : Prop :=
  ∀ moving ∈ leaving p v, ∀ type ∈ moving.2.type, fitsMemory type moving.2.size p.pointerSize = true

instance (p : Program) (v : Bool × Nat) : Decidable (HasRoom p v) :=
  decidable_of_iff
    (∀ moving ∈ leaving p v, moving.2.type.all (fun type => fitsMemory type moving.2.size p.pointerSize) = true)
    (forall₂_congr fun moving _ => by cases moving.2.type <;> simp)

/-- That the alignment of each stack object is not given or a power of two. -/
def ProperlyAligned (p : Program) : Prop :=
  ∀ f ∈ p.functions.elems, ∀ o ∈ f.frame.elems, o.align = 0 ∨ ∃ k, o.align = 2 ^ k

/-- The candidates of a visit stand for the objects that are leaving, and have the first names that are free. -/
theorem candidates_fates {v : Bool × Nat} (hfunction : s.program.function? v.2 = p.function? v.2)
    (htaken : s.program.taken.Perm taken) :
    List.Forall₂ (fun moving c => Candidate.Describes c moving.2 ∧
        c.name = firstFree taken (moving.1.name ++ "." ++ moving.2.name))
      (leaving p v) ((fates s.program v.2 v.1).filterMap Fate.candidate?) := by
  rw [leaving, fates, hfunction]
  cases hf : p.function? v.2 with
  | none => exact .nil
  | some f =>
    simp only [Option.toList_some, List.flatMap_singleton, promotable]
    cases hbody : f.body.isNone with
    | true => simp
    | false =>
      simp only [Bool.false_eq_true, if_false, List.forall₂_map_left_iff]
      refine (describes_candidates s.program f v.1 f.frame.elems).imp fun o c hc => ⟨hc.1, ?_⟩
      rw [hc.2, uniqueName_eq, firstFree_perm htaken]

theorem align_of_leaving (h : ProperlyAligned p) {v : Bool × Nat} {moving : Function × StackObject}
    (hmoving : moving ∈ leaving p v) : moving.2.align = 0 ∨ ∃ k, moving.2.align = 2 ^ k := by
  obtain ⟨f, hf, hobject⟩ := List.mem_flatMap.mp hmoving
  obtain ⟨o, ho, rfl⟩ := List.mem_map.mp hobject
  exact h f (Roster.mem_of_get? (Option.mem_toList.mp hf)) o (mem_frame_of_mem_promotable ho)

/-- A visit of a function that is still as it was moves its objects if there is room and the names are
acceptable. -/
theorem visit_decided {v : Bool × Nat} (halign : ProperlyAligned p)
    (hfunction : s.program.function? v.2 = p.function? v.2)
    (hptr : s.program.pointerSize = p.pointerSize) (htaken : s.program.taken.Perm taken) :
    Steps.Decided (HasRoom p v ∧ Acceptable ((wantedNames p v).map (firstFree taken)))
      (Moved v.2 ((wantedNames p v).map (firstFree taken)) s) PromotionError.IsShortage (visit v s) := by
  have hcandidates := candidates_fates hfunction htaken
  rw [visit, promoteFunction]
  generalize (fates s.program v.2 v.1).filterMap Fate.candidate? = candidates at hcandidates ⊢
  have hnames : (wantedNames p v).map (firstFree taken) = candidates.map Candidate.name := by
    rw [wantedNames, List.map_map]
    exact (Pairs.map_eq hcandidates fun _ _ hc => hc.2).symm
  have hproper : ∀ c ∈ candidates, c.align = 0 ∨ ∃ k, c.align = 2 ^ k := by
    intro c hc
    obtain ⟨moving, hmoving, hdescribes, -⟩ := Pairs.exists_of_mem_right hcandidates hc
    rw [hdescribes.align]
    exact align_of_leaving halign hmoving
  have hroom : HasRoom p v ↔ ∀ c ∈ candidates, fitsMemory c.type c.size s.program.pointerSize = true := by
    rw [hptr]
    constructor
    · intro hroom c hc
      obtain ⟨moving, hmoving, hdescribes, -⟩ := Pairs.exists_of_mem_right hcandidates hc
      rw [hdescribes.size]
      exact hroom moving hmoving c.type hdescribes.type
    · intro hroom moving hmoving type htype
      obtain ⟨c, hc, hdescribes, -⟩ := Pairs.exists_of_mem_left hcandidates hmoving
      rw [hdescribes.type, Option.mem_some_iff] at htype
      rw [← htype, ← hdescribes.size]
      exact hroom c hc
  have hfree : ∀ c ∈ candidates, s.program.isFreeName c.name = true ↔ isListName c.name = false := by
    intro c hc
    obtain ⟨moving, -, -, hname⟩ := Pairs.exists_of_mem_right hcandidates hc
    rw [Program.isFreeName_iff, htaken.mem_iff, hname]
    exact and_iff_right (firstFree_notMem taken _)
  rw [hnames]
  refine (runAll_promote_decided hproper v.2 _).imp (and_congr hroom (and_congr_right fun _ => ?_))
    fun t ht => ⟨ht.names, ht.pointerSize, ht.others⟩
  rw [List.forall_mem_map]
  exact forall₂_congr fun c hc => (hfree c hc).symm

/-- Functions that are visited once each are as they were when their turn comes. -/
theorem runAll_visit_decided {order : List (Bool × Nat)} (halign : ProperlyAligned p)
    (honce : (order.map Prod.snd).Nodup)
    (hfunctions : ∀ v ∈ order, s.program.function? v.2 = p.function? v.2)
    (hptr : s.program.pointerSize = p.pointerSize) (htaken : s.program.taken.Perm taken) :
    Steps.Decided ((∀ v ∈ order, HasRoom p v) ∧ NamesFit taken (order.map (wantedNames p)))
      (fun _ => True) PromotionError.IsShortage (Steps.runAll visit order s) := by
  induction order generalizing s taken with
  | nil => exact .success (by simp [NamesFit]) trivial
  | cons v rest ih =>
    obtain ⟨hvisit, hothers⟩ := List.forall_mem_cons.mp hfunctions
    obtain ⟨hnew, hnodup⟩ := List.nodup_cons.mp honce
    refine ((visit_decided halign hvisit hptr htaken).runAll_cons fun t ht => ih hnodup (fun w hw => ?_)
      (ht.pointerSize.trans hptr) (ht.names.trans (htaken.append_left _))).imp ?_ fun _ => id
    · have hne : w.2 ≠ v.2 := fun heq => hnew (heq ▸ List.mem_map_of_mem hw)
      exact (ht.others _ hne).trans (hothers w hw)
    · rw [List.forall_mem_cons, List.map_cons, NamesFit]
      exact and_and_and_comm

/-! ### Whole runs -/

/-- No function is visited twice, even if functions share their IDs. -/
theorem nodup_visits {g : CallGraph} (hbuild : CallGraph.build p = .ok g) : ((visits g).map Prod.snd).Nodup := by
  have hids : (visits g).map Prod.snd = g.search.components.flatten := by
    rw [← CallGraph.flatMap_components, visits, List.map_flatMap]
    simp
  rw [hids]
  exact (CallGraph.components_sound hbuild).2.1

/-- A function with two stack objects of these names, each a function pointer, and an object that has the name
wanted for one that is called `a`. -/
def pairProgram (first second : String) : Program :=
  let pointer (name : String) : StackObject := { name, type := some .functionPointer, size := 4, align := 4 }
  let empty := (Program.new 4).toOption.getD { pointerSize := 4 }
  withFunction (empty.addGlobal { name := "f.a", size := 4 }).1
    (handlingFunction "f" [pointer first, pointer second] [.ret])

theorem properlyAligned_pairProgram (first second : String) : ProperlyAligned (pairProgram first second) := by
  have hframes : (pairProgram first second).functions.elems.map (fun f => f.frame.elems.map StackObject.align)
      = [[4, 4]] := rfl
  intro f hf o ho
  have haligns := List.mem_singleton.mp (hframes ▸ List.mem_map_of_mem hf)
  have halign : o.align ∈ [4, 4] := haligns ▸ List.mem_map_of_mem ho
  exact .inr ⟨2, by simpa using halign⟩

theorem exists_resolveFunction_pairProgram (first second : String) :
    ∀ f ∈ (pairProgram first second).functions.elems, ∀ i ∈ f.instrs, ∀ symbol ∈ i.directCallee?,
      ∃ id, (pairProgram first second).resolveFunction symbol = .ok id := by
  have hcode : (pairProgram first second).functions.elems.map Function.instrs = [[.ret]] := rfl
  intro f hf i hi symbol hsymbol
  have hinstrs := List.mem_singleton.mp (hcode ▸ List.mem_map_of_mem hf)
  rw [hinstrs, List.mem_singleton] at hi
  subst hi
  cases hsymbol

end Promotion
end ThumbHardening
