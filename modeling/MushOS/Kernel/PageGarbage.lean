import MushOS.Kernel.KernelSpace

/-! # pages.c: what an uninitialised entry holds

`create_page_entry` sets four members of a local and returns it with seven others as the
stack has left them. Two runs that install the same pages from the same state, and find
different values there, are compared: they go through the same states if and only if, at every
call, the two locals have the same values in these seven members (`installs_determined_iff`).
Whatever there is in the entries, `clone_directory` copies it.
-/

namespace MushOS

open ByteMemory Loop

/-! ## Model -/

/-- The arguments of `*get_page(address, true, dir) = create_page_entry(target, ..)`. -/
structure PageRequest where
  address : UDword
  target : UDword
  isKernel : Bool
  isWriteable : Bool

/-- The assignment; `garbage k` is what the local of the `k`-th call of `create_page_entry`
holds, if that call is made. -/
def installPage (garbage : ℕ → PagePointer) (dir : UDword) (n : ℕ) (r : PageRequest) (s : Paging) :
    Paging :=
  let (page, s) := getPage (garbage (2 * n)) r.address true dir s
  { s with
    mem := s.mem.write32 page
      (createPageEntry (garbage (2 * n + 1)) r.target r.isKernel r.isWriteable).encode }

/-- One assignment after another. -/
def installPages (garbage : ℕ → PagePointer) (dir : UDword) : ℕ → List PageRequest → Paging → Paging
  | _, [], s => s
  | n, r :: rs, s => installPages garbage dir (n + 1) rs (installPage garbage dir n r s)

/-- The states after every `get_page` and after every assignment. -/
def installStates (garbage : ℕ → PagePointer) (dir : UDword) :
    ℕ → List PageRequest → Paging → List Paging
  | _, [], _ => []
  | n, r :: rs, s =>
    (getPage (garbage (2 * n)) r.address true dir s).2 :: installPage garbage dir n r s ::
      installStates garbage dir (n + 1) rs (installPage garbage dir n r s)

/-! ## The members that are not set -/

/-- The seven members that `create_page_entry` does not set have the same values. -/
structure SameUnset (p q : PagePointer) : Prop where
  write : p.write = q.write
  cache : p.cache = q.cache
  accessed : p.accessed = q.accessed
  dirty : p.dirty = q.dirty
  zero : p.zero = q.zero
  global : p.global = q.global
  unused : p.unused = q.unused

/-- `get_page` calls `create_page_entry`: the address is in range and has no table. -/
def MakesTable (address dir : UDword) (s : Paging) : Prop :=
  ¬ address > userSpaceEnd ∧
    getContentsAsPage (s.mem.entry dir (address.toNat / pageSize / pagesInTable)) = 0

/-- Both runs go through the same states, and so does whatever is cloned at the end. -/
structure Determined (garbage garbage' : ℕ → PagePointer) (dir : UDword)
    (requests : List PageRequest) (s : Paging) : Prop where
  states : installStates garbage dir 0 requests s = installStates garbage' dir 0 requests s
  clones : ∀ src, cloneDirectory src (installPages garbage dir 0 requests s) =
    cloneDirectory src (installPages garbage' dir 0 requests s)

section Garbage
variable {p q : PagePointer} {garbage garbage' : ℕ → PagePointer} {address target dir : UDword}
  {isKernel isWriteable : Bool} {s : Paging} {r : PageRequest} {rs : List PageRequest} {n : ℕ}

theorem createPageEntry_eq_iff : createPageEntry p target isKernel isWriteable =
    createPageEntry q target isKernel isWriteable ↔ SameUnset p q := by
  constructor
  · intro heq
    unfold createPageEntry at heq
    rw [PagePointer.mk.injEq] at heq
    rcases heq with ⟨-, -, -, hwrite, hcache, haccessed, hdirty, hzero, hglobal, hunused, -⟩
    exact ⟨hwrite, hcache, haccessed, hdirty, hzero, hglobal, hunused⟩
  · rintro ⟨hwrite, hcache, haccessed, hdirty, hzero, hglobal, hunused⟩
    unfold createPageEntry
    rw [hwrite, hcache, haccessed, hdirty, hzero, hglobal, hunused]

theorem encode_injective : Function.Injective PagePointer.encode := by
  intro a b heq
  rw [← PagePointer.decode_encode a, heq, PagePointer.decode_encode]

/-- A word that is stored can be read back. -/
theorem write32_eq_iff {m : Mem} {a : UDword} :
    m.write32 a p.encode = m.write32 a q.encode ↔ p = q := by
  constructor
  · intro heq
    have hword := congrArg (fun m => m.read32 a) heq
    rw [Mem.read32_write32_self, Mem.read32_write32_self] at hword
    exact encode_injective hword
  · intro heq
    rw [heq]

/-- The garbage of `get_page` matters only if it makes a table. -/
theorem getPage_congr (hsame : MakesTable address dir s → SameUnset p q) :
    getPage p address true dir s = getPage q address true dir s := by
  unfold getPage
  by_cases hrange : address > userSpaceEnd
  · rw [if_pos hrange, if_pos hrange]
  · rw [if_neg hrange, if_neg hrange]
    by_cases hthere : getContentsAsPage
        (s.mem.entry dir (address.toNat / pageSize / pagesInTable)) = 0
    · simp only [if_neg (not_not.mpr hthere), if_true,
        createPageEntry_eq_iff.mpr (hsame ⟨hrange, hthere⟩)]
    · simp only [if_pos hthere]

/-- Then it is in the memory. -/
theorem sameUnset_of_getPage (hmakes : MakesTable address dir s)
    (heq : (getPage p address true dir s).2 = (getPage q address true dir s).2) :
    SameUnset p q := by
  unfold getPage at heq
  rw [if_neg hmakes.1, if_neg hmakes.1] at heq
  simp only [if_neg (not_not.mpr hmakes.2), if_true] at heq
  have hmem := congrArg Paging.mem heq
  exact createPageEntry_eq_iff.mp (write32_eq_iff.mp hmem)

/-- What the calls of one assignment find in their locals. -/
structure SameCalls (garbage garbage' : ℕ → PagePointer) (dir : UDword) (n : ℕ) (r : PageRequest)
    (s : Paging) : Prop where
  directory : MakesTable r.address dir s → SameUnset (garbage (2 * n)) (garbage' (2 * n))
  table : SameUnset (garbage (2 * n + 1)) (garbage' (2 * n + 1))

/-- One assignment, and the state in the middle of it. -/
theorem installPage_eq_iff :
    ((getPage (garbage (2 * n)) r.address true dir s).2 =
        (getPage (garbage' (2 * n)) r.address true dir s).2 ∧
      installPage garbage dir n r s = installPage garbage' dir n r s) ↔
      SameCalls garbage garbage' dir n r s := by
  constructor
  · rintro ⟨hmiddle, hend⟩
    have hdirectory := fun hmakes : MakesTable r.address dir s =>
        sameUnset_of_getPage hmakes hmiddle
    unfold installPage at hend
    rw [getPage_congr hdirectory, Paging.mk.injEq] at hend
    exact ⟨hdirectory, createPageEntry_eq_iff.mp (write32_eq_iff.mp hend.1)⟩
  · intro hcalls
    have hpage := getPage_congr hcalls.directory
    refine ⟨by rw [hpage], ?_⟩
    unfold installPage
    rw [hpage, createPageEntry_eq_iff.mpr hcalls.table]

theorem installPages_append (rs' : List PageRequest) : installPages garbage dir n (rs ++ rs') s =
    installPages garbage dir (n + rs.length) rs' (installPages garbage dir n rs s) := by
  induction rs generalizing n s with
  | nil => rfl
  | cons r rs ih =>
    rw [List.cons_append, installPages, installPages, ih, List.length_cons, Nat.add_right_comm,
      Nat.add_assoc]

/-- The runs are in the same states as long as the calls find the same. -/
theorem installStates_eq_iff :
    installStates garbage dir n rs s = installStates garbage' dir n rs s ↔
    ∀ pre r post, rs = pre ++ r :: post → SameCalls garbage garbage' dir (n + pre.length) r
      (installPages garbage dir n pre s) := by
  induction rs generalizing n s with
  | nil =>
    refine iff_of_true rfl fun pre r post heq => ?_
    exact absurd heq.symm (List.append_ne_nil_of_right_ne_nil _ (List.cons_ne_nil _ _))
  | cons first rs ih =>
    rw [installStates, installStates, List.cons.injEq, List.cons.injEq, ← and_assoc,
      installPage_eq_iff]
    constructor
    · rintro ⟨hcalls, hrest⟩ pre r post heq
      -- both runs come to the same state, from where the rest is compared
      rw [← (installPage_eq_iff.mpr hcalls).2, ih] at hrest
      cases pre with
      | nil =>
        cases heq
        exact hcalls
      | cons first' pre =>
        rcases List.cons.inj heq with ⟨rfl, htail⟩
        have hlater := hrest pre r post htail
        rw [List.length_cons, ← Nat.add_assoc, Nat.add_right_comm]
        exact hlater
    · intro hall
      have hcalls : SameCalls garbage garbage' dir n first s := hall [] first rs rfl
      refine ⟨hcalls, ?_⟩
      rw [← (installPage_eq_iff.mpr hcalls).2, ih]
      intro pre r post htail
      have hlater := hall (first :: pre) r post (by rw [htail]; rfl)
      rw [List.length_cons, ← Nat.add_assoc, Nat.add_right_comm] at hlater
      exact hlater

/-- Runs through the same states end in the same one. -/
theorem installPages_congr
    (heq : installStates garbage dir n rs s = installStates garbage' dir n rs s) :
    installPages garbage dir n rs s = installPages garbage' dir n rs s := by
  induction rs generalizing n s with
  | nil => rfl
  | cons r rs ih =>
    rw [installStates, installStates, List.cons.injEq, List.cons.injEq] at heq
    rcases heq with ⟨-, hend, hrest⟩
    rw [installPages, installPages, hend]
    rw [hend] at hrest
    exact ih hrest

/-- **Page entries** are determined, in every state two runs go through and in every later
clone, if and only if every call of `create_page_entry` that is made finds the same values in
the seven members it does not set. -/
theorem installs_determined_iff (garbage garbage' : ℕ → PagePointer) (dir : UDword)
    (requests : List PageRequest) (s : Paging) :
    Determined garbage garbage' dir requests s ↔
      ∀ pre r post, requests = pre ++ r :: post →
        SameCalls garbage garbage' dir pre.length r (installPages garbage dir 0 pre s) := by
  constructor
  · intro hdetermined pre r post heq
    have hcalls := installStates_eq_iff.mp hdetermined.states pre r post heq
    rw [Nat.zero_add] at hcalls
    exact hcalls
  · intro hall
    have hstates : installStates garbage dir 0 requests s =
        installStates garbage' dir 0 requests s := by
      refine installStates_eq_iff.mpr fun pre r post heq => ?_
      rw [Nat.zero_add]
      exact hall pre r post heq
    exact ⟨hstates, fun src => by rw [installPages_congr hstates]⟩

/-! ## The kernel's own pages -/

/-- What `initialise_paging` asks for in iteration `n`. -/
def kernelRequest (n : ℕ) : PageRequest :=
  let i := BitVec.ofNat 32 (n * pageSize)
  ⟨i, i, !inStack i, inStack i⟩

theorem loop_mapKernelPage : loop (mapKernelPage garbage dir) n s =
    installPages garbage dir 0 ((List.range n).map kernelRequest) s := by
  induction n with
  | zero => rfl
  | succ n ih =>
    rw [List.range_succ, List.map_append, installPages_append, List.length_map, List.length_range,
      Nat.zero_add, ← ih]
    rfl

/-- `initialise_paging` is such a run, on the directory it has allocated. -/
theorem initialisePaging_eq (m : Mem) : (initialisePaging garbage m).2 =
    installPages garbage (allocatePageFolder (freshPools m)).1 0
      ((List.range (userSpaceStart.toNat / pageSize)).map kernelRequest)
      (allocatePageFolder (freshPools m)).2 :=
  loop_mapKernelPage

end Garbage

/-- A directory at `0x100000` with one table, at `0x201000`. -/
def oneTable : Paging where
  mem := ⟨fun a => if a = 0x100001 then 0x10 else if a = 0x100002 then 0x20 else 0, []⟩
  pagingPool := ⟨fun _ => 0⟩
  userSpacePool := ⟨fun _ => 0⟩

/-- The two runs map page 3; in the second one the stack holds a set cache-disable bit. -/
theorem installs_cacheDisabled :
    (installPages (fun _ => PagePointer.decode 0) 0x100000 0 [⟨0x3000, 0x3000, true, false⟩]
        oneTable).mem.entry 0x201000 3 ≠
      (installPages (fun _ => PagePointer.decode 0x10) 0x100000 0 [⟨0x3000, 0x3000, true, false⟩]
        oneTable).mem.entry 0x201000 3 ∧
    ¬ Determined (fun _ => PagePointer.decode 0) (fun _ => PagePointer.decode 0x10) 0x100000
      [⟨0x3000, 0x3000, true, false⟩] oneTable := by
  have hentry : (installPages (fun _ => PagePointer.decode 0) 0x100000 0
        [⟨0x3000, 0x3000, true, false⟩] oneTable).mem.entry 0x201000 3 ≠
      (installPages (fun _ => PagePointer.decode 0x10) 0x100000 0 [⟨0x3000, 0x3000, true, false⟩]
        oneTable).mem.entry 0x201000 3 := by decide
  refine ⟨hentry, fun hdetermined => ?_⟩
  rw [installPages_congr hdetermined.states] at hentry
  exact hentry rfl

end MushOS
