import ThumbHardening.Proofs.Program

/-!
# Requests that are refused

A program refuses a request if a name is taken or a symbol is not known. All requests but one are checked
before anything is changed. The entries of an initializer are resolved one after the other, and the address
of a block becomes a value when its entry is reached, so these values stay if a later entry refers to a symbol
that is not known.
-/

namespace ThumbHardening

/-- What a program can be asked to take in. -/
inductive Request where
  | addFunction (f : Function)
  | addGlobal (g : GlobalObject)
  | addAlias (name : String) (target : Symbol)
  | setAliasTarget (id : Nat) (target : Symbol)
  | appendToUsed (symbol : Symbol)
  | appendToCompilerUsed (symbol : Symbol)

namespace Program

/-- The program after a change that is made as a whole or not at all. -/
def settle (p : Program) : Except ProgramError Program → Program × Option ProgramError
  | .ok q => (q, none)
  | .error e => (p, some e)

/-- The program after a request, and why it was refused, if it was. -/
def serve (p : Program) : Request → Program × Option ProgramError
  | .addFunction f => p.settle ((p.addFunction f).map Prod.fst)
  | .addGlobal g =>
    match p.addGlobal g with
    | (q, .ok _) => (q, none)
    | (q, .error e) => (q, some e)
  | .addAlias name target => p.settle ((p.addAlias name target).map Prod.fst)
  | .setAliasTarget id target => p.settle (p.setAliasTarget id target)
  | .appendToUsed symbol => p.settle (p.appendToUsed symbol)
  | .appendToCompilerUsed symbol => p.settle (p.appendToCompilerUsed symbol)

/-- Whether an entry of an initializer refers to nothing, or to a symbol that has a value. -/
def isKnown (p : Program) : Pointer → Bool
  | .null | .raw _ => true
  | .global id _ => (p.valueOf? (.global id)).isSome
  | .function id | .block id _ => (p.valueOf? (.function id)).isSome

/-- The value of the function that the block of an entry belongs to. -/
def blockOwner? (p : Program) : Pointer → Option Nat
  | .block function _ => p.valueOf? (.function function)
  | _ => none

/-- The values of the functions whose blocks have got addresses when the first entry is reached that is not
known. -/
def blockOwners (p : Program) (entries : List Pointer) : List Nat :=
  (entries.takeWhile p.isKnown).filterMap p.blockOwner?

/-- What a refused request has left behind in the graph of values, as the values of the functions used. -/
def strays (p : Program) : Request → List Nat
  | .addGlobal g =>
    if p.isFreeName g.name then p.blockOwners ((g.initializer.map Initializer.entries).getD []) else []
  | _ => []

variable {p q : Program} {e : ProgramError}

/-! ### Addresses of blocks -/

theorem foldl_addBlockAddress (owners : List Nat) (p : Program) :
    ∃ values : ValueGraph, owners.foldl addBlockAddress p = { p with values } ∧
      values.size = p.values.size + owners.length := by
  induction owners generalizing p with
  | nil => exact ⟨p.values, rfl, rfl⟩
  | cons owner rest ih =>
    obtain ⟨values, hvalues, hsize⟩ := ih (p.addBlockAddress owner)
    refine ⟨values, hvalues, ?_⟩
    rw [hsize, addBlockAddress, ValueGraph.size_add, List.length_cons]
    omega

/-- An entry that is known is resolved, and if it is the address of a block that becomes a value. -/
theorem resolveEntry_of_isKnown {entry : Pointer} (h : p.isKnown entry = true) :
    ∃ operand, p.resolveEntry entry
      = .ok ((p.blockOwner? entry).toList.foldl addBlockAddress p, operand) := by
  cases entry with
  | null | raw => exact ⟨none, rfl⟩
  | global id | function id | block id =>
    obtain ⟨value, hvalue⟩ := Option.isSome_iff_exists.mp h
    rw [resolveEntry, valueOf, hvalue]
    simp [blockOwner?, hvalue, Except.map]

theorem resolveEntry_of_not_isKnown {entry : Pointer} (h : p.isKnown entry = false) :
    ∃ e, p.resolveEntry entry = .error e := by
  cases entry with
  | null | raw => cases h
  | global id | function id | block id =>
    have hnone := Option.isNone_iff_eq_none.mp (Option.isSome_eq_false_iff.mp h)
    rw [resolveEntry, valueOf, hnone]
    exact ⟨_, rfl⟩

theorem blockOwners_cons {entry : Pointer} {rest : List Pointer} (h : p.isKnown entry = true) :
    p.blockOwners (entry :: rest) = (p.blockOwner? entry).toList ++ p.blockOwners rest := by
  rw [blockOwners, List.takeWhile_cons_of_pos h, List.filterMap_cons]
  cases p.blockOwner? entry <;> rfl

/-- Whether or not all entries are resolved, the blocks in front of the first one that is not known have got
addresses. -/
theorem resolveEntries_fst (p : Program) (entries : List Pointer) :
    (p.resolveEntries entries).1 = (p.blockOwners entries).foldl addBlockAddress p := by
  induction entries generalizing p with
  | nil => rfl
  | cons entry rest ih =>
    rw [resolveEntries]
    cases hknown : p.isKnown entry with
    | false =>
      obtain ⟨e, he⟩ := resolveEntry_of_not_isKnown hknown
      rw [he, blockOwners, List.takeWhile_cons_of_neg (by simp [hknown])]
      rfl
    | true =>
      obtain ⟨operand, hoperand⟩ := resolveEntry_of_isKnown hknown
      obtain ⟨values, hvalues, -⟩ := foldl_addBlockAddress (p.blockOwner? entry).toList p
      -- Values that are added make no entry known, for symbols keep their values.
      have hsame : ({ p with values } : Program).blockOwners rest = p.blockOwners rest := rfl
      rw [hoperand, blockOwners_cons hknown, List.foldl_append, hvalues, ← hsame]
      exact ih _

/-! ### Refusals -/

theorem settle_eq_some {outcome : Except ProgramError Program} (h : p.settle outcome = (q, some e)) :
    q = p := by
  cases outcome with
  | ok => cases h
  | error =>
    cases h
    rfl

theorem addGlobal_eq_error {g : GlobalObject} (h : p.addGlobal g = (q, .error e)) :
    q = (p.strays (.addGlobal g)).foldl addBlockAddress p := by
  rw [addGlobal] at h
  split at h
  · next hfree =>
    have hfst := resolveEntries_fst p ((g.initializer.map Initializer.entries).getD [])
    split at h
    · next hentries =>
      cases h
      rw [hentries] at hfst
      rw [strays, if_pos hfree]
      exact hfst
    · cases h
  · next hfree =>
    cases h
    rw [strays, if_neg hfree]
    rfl

/-- A request that is refused leaves addresses of blocks behind, each of them a new value that uses the value of
the function, and nothing else. These are the blocks in the initializer of an object whose name is free, in
front of the first entry that refers to an unknown symbol. So the program is as before exactly if there are
none, and always if the request is not for an object. -/
theorem serve_refused {r : Request} (h : p.serve r = (q, some e)) :
    q = (p.strays r).foldl addBlockAddress p ∧ q = { p with values := q.values } ∧
      q.values.size = p.values.size + (p.strays r).length ∧
      (q = p ↔ p.strays r = []) := by
  have htrace : q = (p.strays r).foldl addBlockAddress p := by
    cases r with
    | addGlobal g =>
      simp only [serve] at h
      split at h
      · cases h
      · next hadd =>
        cases h
        exact addGlobal_eq_error hadd
    | addFunction | addAlias | setAliasTarget | appendToUsed | appendToCompilerUsed =>
      exact settle_eq_some h
  obtain ⟨values, hvalues, hsize⟩ := foldl_addBlockAddress (p.strays r) p
  rw [← htrace] at hvalues
  have hgrown : q.values.size = p.values.size + (p.strays r).length := by rw [hvalues, hsize]
  refine ⟨htrace, by rw [hvalues], hgrown, ?_, ?_⟩
  · intro heq
    rw [heq] at hgrown
    apply List.eq_nil_of_length_eq_zero
    omega
  · intro hnone
    rw [htrace, hnone]
    rfl

/-- A program with one function, of one block. -/
def oneBlockProgram : Program :=
  let empty : Program := (Program.new 4).toOption.getD { pointerSize := 4 }
  let f : Function :=
    { name := "f", calleeSaved := some [],
      body := some { blocks := ({} : Roster Block).insert (.ofCode [.ret]), entry := 1 } }
  ((empty.addFunction f).toOption.map Prod.fst).getD empty

/-- A table of the address of that block, and of a function that there is not. -/
def danglingTable : GlobalObject :=
  { name := "table", size := 8, initializer := some (.pointers [.block 1 1, .function 99]) }

/-- The address of the block stays when the table is refused. -/
theorem serve_refused_danglingTable :
    oneBlockProgram.serve (.addGlobal danglingTable)
      = (oneBlockProgram.addBlockAddress 2, some (.unknownSymbol (.function 99))) := by
  have hrefused : (oneBlockProgram.serve (.addGlobal danglingTable)).2
      = some (.unknownSymbol (.function 99)) := by decide +kernel
  have hstrays : oneBlockProgram.strays (.addGlobal danglingTable) = [2] := by decide +kernel
  cases hserve : oneBlockProgram.serve (.addGlobal danglingTable) with
  | mk q failure =>
    rw [hserve] at hrefused
    obtain rfl : failure = some (.unknownSymbol (.function 99)) := hrefused
    obtain ⟨htrace, -⟩ := serve_refused hserve
    rw [htrace, hstrays]
    rfl

/-- Refused requests do leave traces. -/
theorem not_serve_refused_unchanged :
    ¬ ∀ (p q : Program) (r : Request) (e : ProgramError), p.serve r = (q, some e) → q = p := by
  intro hclaim
  have hrefused : (oneBlockProgram.serve (.addGlobal danglingTable)).2
      = some (.unknownSymbol (.function 99)) := by decide +kernel
  have hsame := hclaim oneBlockProgram _ (.addGlobal danglingTable) _ (Prod.ext rfl hrefused)
  have hsizes := congrArg (fun p => p.values.size) hsame
  revert hsizes
  decide +kernel

end Program
end ThumbHardening
