import MushOS.Base.HeapUndo
import MushOS.Base.HeapFailure
import MushOS.Theory.Transition

/-! # occupation: blocks counted, not bytes

`heap.h` promises the percent of the heap that is allocated. `occupation` walks the
list and adds the sizes up, but returns the other accumulator, the number of blocks
it has met.

* `Accounts.occupation_eq`: in a well-formed heap the walk ends, and what it returns
  is the number of live blocks;
* `occupation_percent_iff`: this is the percent exactly when the blocks take one
  percent of the heap each, on average in a state, and one by one over a run.
-/

namespace MushOS

open ByteMemory Links WellFormed Transition

/-! ## Model -/

/-- The `while` loop of `occupation`: `sum` and `num` after it. -/
def occupationLoop (h : Heap) : ℕ → UDword → UDword → UDword → Except Fault (UDword × UDword)
  | 0, _, _, _ => .error .endless
  | fuel + 1, currentAddress, sum, num =>
    if currentAddress = 0 then return (sum, num)
    else do
      let currentBlock ← getHeader h currentAddress
      occupationLoop h fuel (h.member currentBlock .next)
        (sum + h.member currentBlock .size) (num + 1)

/-- A `precise` is a double, and holds every 32-bit count exactly. -/
def occupation (h : Heap) : Except Fault ℚ :=
  if h.firstAddress = 0 then return 0
  else do
    let (_, num) ← occupationLoop h chainFuel h.firstAddress 0 0
    return num.toNat

/-- The heap, and the blocks its clients hold with the sizes they asked for. -/
structure Account where
  heap : Heap
  live : List Block

inductive HeapCall where
  | ralloc (size : UDword)
  | unalloc (p : UDword)

/-- The bytes between `heap_start` and `heap_end`. -/
def Heap.extent (h : Heap) : ℕ := h.heapEnd.toNat - h.heapStart.toNat

namespace Account

/-- Any size may be asked for; what is freed is live. -/
def Enabled (s : Account) : HeapCall → Prop
  | .ralloc _ => True
  | .unalloc p => p ∈ addrs s.live

def perform (s : Account) : HeapCall → Except Fault Account
  | .ralloc size => do
    let (p, h) ← MushOS.ralloc size s.heap
    return ⟨h, if p = 0 then s.live else ⟨p, size⟩ :: s.live⟩
  | .unalloc p => do
    let h ← MushOS.unalloc p s.heap
    return ⟨h, remaining s.live [p]⟩

/-- The bytes of the live blocks. -/
def allocated (s : Account) : ℕ := (s.live.map fun b => b.size.toNat).sum

/-- The percent of allocated space. -/
def percent (s : Account) : ℚ := 100 * s.allocated / s.heap.extent

/-- The walk along the list ends, having met each live block once. -/
def Visits (s : Account) : Prop :=
  ∃ chain, walk (s.heap.field .next) 0 chainFuel s.heap.firstAddress = some chain ∧
    chain.Perm (addrs s.live) ∧ chain.Nodup

/-- `occupation` does what `heap.h` says of it. -/
def Reports (s : Account) : Prop := s.Visits ∧ occupation s.heap = .ok s.percent

/-- A request that fits the heap when it is empty. -/
def Fits (s : Account) : HeapCall → Prop
  | .ralloc size => size.toNat + 12 ≤ s.heap.extent
  | .unalloc _ => True

/-- A request that is granted is for one percent of the heap. -/
def OnePercent (s : Account) : HeapCall → Prop
  | .ralloc size => ∀ p h, MushOS.ralloc size s.heap = .ok (p, h) → p ≠ 0 →
      100 * size.toNat = s.heap.extent
  | .unalloc _ => True

end Account

/-- The runs of a heap set up by `initialize_heap(start, n)`. -/
def accountSystem (start n : UDword) : System Account HeapCall where
  Init s := ∃ h, s = ⟨initializeHeap start n h, []⟩
  Step s c s' := s.Enabled c ∧ s.perform c = .ok s'

/-! ## The loop -/

section Loop
variable {h : Heap} {fuel : ℕ} {a sum num : UDword} {chain : List UDword}

theorem length_lt_of_walk {next : UDword → UDword} {null : UDword}
    (hwalk : walk next null fuel a = some chain) : chain.length < fuel := by
  induction fuel generalizing a chain with
  | zero => cases hwalk
  | succ fuel ih =>
    rw [walk] at hwalk
    split at hwalk
    · cases hwalk
      simp
    · rcases Option.map_eq_some_iff.mp hwalk with ⟨rest, hrest, rfl⟩
      have := ih hrest
      simp only [List.length_cons]
      omega

theorem walk_null {next : UDword → UDword} (hwalk : walk next 0 fuel 0 = some chain) :
    chain = [] := by
  cases fuel with
  | zero => cases hwalk
  | succ fuel =>
    rw [walk, if_pos rfl] at hwalk
    exact (Option.some.inj hwalk).symm

/-- When the loop ends, `num` has been increased once for each node of the walk. -/
theorem occupationLoop_num (hwalk : walk (h.field .next) 0 fuel a = some chain)
    {r : UDword × UDword} (hloop : occupationLoop h fuel a sum num = .ok r) :
    r.2 = num + BitVec.ofNat 32 chain.length := by
  -- the loop counts the blocks of the chain, whatever it sums up
  induction fuel generalizing a sum num chain with
  | zero => cases hloop
  | succ fuel ih =>
    rw [walk] at hwalk
    rw [occupationLoop] at hloop
    by_cases h0 : a = 0
    · rw [if_pos h0] at hwalk hloop
      cases hwalk
      cases hloop
      simp
    · rw [if_neg h0] at hwalk hloop
      rcases Option.map_eq_some_iff.mp hwalk with ⟨rest, hrest, rfl⟩
      rcases ok_of_bind_ok hloop with ⟨block, hblock, hloop⟩
      have hheader : block = a - sizeofHeapBlockHeader := by
        unfold getHeader at hblock
        split at hblock
        · exact (Except.ok.inj hblock).symm
        · cases hblock
      rw [hheader] at hloop
      rw [ih hrest hloop, List.length_cons, BitVec.add_assoc, Nat.add_comm rest.length 1,
        BitVec.ofNat_add]
      rfl

/-- Over blocks of the heap the loop ends. -/
theorem occupationLoop_ok (hwalk : walk (h.field .next) 0 fuel a = some chain)
    (hin : ∀ p ∈ chain, isInHeap h p = true) :
    ∃ r, occupationLoop h fuel a sum num = .ok r := by
  induction fuel generalizing a sum num chain with
  | zero => cases hwalk
  | succ fuel ih =>
    rw [walk] at hwalk
    rw [occupationLoop]
    by_cases h0 : a = 0
    · rw [if_pos h0]
      exact ⟨_, rfl⟩
    · rw [if_neg h0] at hwalk ⊢
      rcases Option.map_eq_some_iff.mp hwalk with ⟨rest, hrest, rfl⟩
      rw [getHeader_ok (hin a (by simp)), ok_bind]
      exact ih hrest fun p hp => hin p (by simp [hp])

/-- What `occupation` returns is the number of nodes of the walk. -/
theorem occupation_of_walk {v : ℚ}
    (hwalk : walk (h.field .next) 0 chainFuel h.firstAddress = some chain)
    (hv : occupation h = .ok v) : v = chain.length := by
  unfold occupation at hv
  by_cases h0 : h.firstAddress = 0
  · rw [if_pos h0] at hv
    rw [h0] at hwalk
    rw [walk_null hwalk, ← Except.ok.inj hv]
    simp
  · rw [if_neg h0] at hv
    rcases ok_of_bind_ok hv with ⟨r, hloop, hret⟩
    have hnum := occupationLoop_num hwalk hloop
    have hlt : chain.length < 2 ^ 32 := length_lt_of_walk hwalk
    have htoNat : r.2.toNat = chain.length := by
      have hzero : (0 : UDword) + BitVec.ofNat 32 chain.length = BitVec.ofNat 32 chain.length :=
        BitVec.zero_add _
      rw [hnum, hzero, BitVec.toNat_ofNat, Nat.mod_eq_of_lt hlt]
    have hv' : v = (r.2.toNat : ℚ) := (Except.ok.inj hret).symm
    rw [hv', htoNat]

end Loop

/-! ## The invariant -/

/-- Of a count and a percentage. -/
theorem count_eq_percent_iff {count total extent : ℕ} (hextent : 0 < extent) :
    (count : ℚ) = 100 * total / extent ↔ 100 * total = count * extent := by
  have hne : (extent : ℚ) ≠ 0 := by exact_mod_cast hextent.ne'
  rw [eq_div_iff hne, ← Nat.cast_ofNat (n := 100), ← Nat.cast_mul, ← Nat.cast_mul,
    Nat.cast_inj, eq_comm]

/-- The heap is well formed and its blocks are the live ones. -/
structure Accounts (s : Account) (blocks : List Block) : Prop where
  wellFormed : WellFormed s.heap blocks
  held : blocks.Perm s.live
  handler : s.heap.handlers allocationExceptionId = some .library
  room : 12 < s.heap.extent

namespace Accounts
variable {s s' : Account} {blocks : List Block} {size p : UDword}

theorem length_eq (ha : Accounts s blocks) : (addrs blocks).length = s.live.length := by
  rw [addrs, List.length_map, ha.held.length_eq]

theorem visits (ha : Accounts s blocks) : s.Visits :=
  ⟨addrs blocks, ha.wellFormed.walk_eq, ha.held.map Block.addr, nodup_addrs ha.wellFormed.sorted⟩

/-- **The walk ends, and what is returned is the number of live blocks.** -/
theorem occupation_eq (ha : Accounts s blocks) :
    occupation s.heap = .ok (s.live.length : ℚ) := by
  have hw := ha.wellFormed
  have hok : ∃ v, occupation s.heap = .ok v := by
    unfold occupation
    split
    · exact ⟨_, rfl⟩
    · obtain ⟨r, hr⟩ : ∃ r, occupationLoop s.heap chainFuel s.heap.firstAddress 0 0 = .ok r :=
        occupationLoop_ok hw.walk_eq fun p hp => hw.isInHeap hp
      rw [hr, ok_bind]
      exact ⟨_, rfl⟩
  rcases hok with ⟨v, hv⟩
  rw [hv, occupation_of_walk hw.walk_eq hv, ha.length_eq]

theorem percent_iff (ha : Accounts s blocks) :
    occupation s.heap = .ok s.percent ↔ 100 * s.allocated = s.live.length * s.heap.extent := by
  have hroom := ha.room
  rw [ha.occupation_eq, Except.ok.injEq, Account.percent, count_eq_percent_iff (by omega)]

/-! ## One call -/

theorem init {start n : UDword} (hn : 24 < n.toNat) (hlt : start.toNat + n.toNat < 2 ^ 32)
    (h : Heap) : Accounts ⟨initializeHeap start n h, []⟩ [] := by
  rcases initializeHeap_spec (by omega) hlt h with ⟨hw, -, hstart, hend, hhandler⟩
  refine ⟨hw, List.Perm.refl [], hhandler, ?_⟩
  show 12 < (initializeHeap start n h).heapEnd.toNat - (initializeHeap start n h).heapStart.toNat
  omega

/-- Whatever its size, a request is refused or granted. -/
theorem outcome (ha : Accounts s blocks) (size : UDword) :
    ralloc size s.heap = .ok (0, s.heap.afterRaise) ∨
      ∃ p h', ralloc size s.heap = .ok (p, h') ∧ p ≠ 0 ∧ SameBounds s.heap h' := by
  have hw := ha.wellFormed
  have hroom := ha.room
  have hlt := s.heap.heapEnd.isLt
  have hstart := hw.heapStart
  unfold Heap.extent at hroom
  by_cases hne : blocks = []
  · subst hne
    right
    have hp : (s.heap.heapStart + sizeofHeapBlockHeader).toNat = s.heap.heapStart.toNat + 12 :=
      BitVec.toNat_add_of_lt (by unfold sizeofHeapBlockHeader; simp; omega)
    have hw' : WellFormed s.heap ([] ++ []) := hw
    refine ⟨_, _, ralloc_empty hw size, fun h0 => ?_, sameBounds_place hw' (by omega) size⟩
    rw [h0] at hp
    simp at hp
  by_cases hpass : ∃ g ∈ gaps s.heap blocks, g.Passes s.heap size
  · right
    rcases hpass with ⟨g, hg, hpass⟩
    rcases ralloc_found hw hne hg hpass with ⟨xs, ys, p, rfl, hp, -, -, heq⟩
    have hle := hw.gapStart_le.1
    refine ⟨p, _, heq, ?_, sameBounds_place hw (by omega) size⟩
    rintro rfl
    simp at hp
  · left
    push Not at hpass
    exact ralloc_of_refused ha.handler (failsCleanly_of_eq (ralloc_none hw hne hpass))

theorem refused (ha : Accounts s blocks) : Accounts ⟨s.heap.afterRaise, s.live⟩ blocks :=
  ⟨afterRaise_wellFormed ha.wellFormed, ha.held, ha.handler, ha.room⟩

theorem granted (ha : Accounts s blocks) {h' : Heap} (hfit : size.toNat + 12 ≤ s.heap.extent)
    (heq : ralloc size s.heap = .ok (p, h')) (hp : p ≠ 0) :
    ∃ blocks', Accounts ⟨h', ⟨p, size⟩ :: s.live⟩ blocks' ∧ SameBounds s.heap h' := by
  have hroom := ha.room
  have hlt := s.heap.heapEnd.isLt
  unfold Heap.extent at hfit hroom
  rcases ralloc_spec ha.wellFormed size (by omega) (fun _ => ⟨by omega, by omega⟩) with
    hfail | ⟨xs, ys, q, rfl, hralloc, hw', hedits⟩
  · have hnull := ralloc_of_refused ha.handler (failsCleanly_of_eq hfail)
    rw [hnull, Except.ok.injEq, Prod.mk.injEq] at heq
    exact absurd heq.1.symm hp
  · rw [hralloc, Except.ok.injEq, Prod.mk.injEq] at heq
    rcases heq with ⟨rfl, rfl⟩
    refine ⟨_, ⟨hw', ?_, ?_, ?_⟩, hedits.bounds⟩
    · exact List.perm_middle.trans (ha.held.cons _)
    · rw [hedits.handlers]
      exact ha.handler
    · show 12 < Heap.extent _
      rw [Heap.extent, hedits.bounds.heapStart, hedits.bounds.heapEnd]
      exact hroom

theorem freed (ha : Accounts s blocks) (hp : p ∈ addrs s.live) :
    ∃ h' blocks', unalloc p s.heap = .ok h' ∧ Accounts ⟨h', remaining s.live [p]⟩ blocks' ∧
      SameBounds s.heap h' := by
  have hmem : p ∈ addrs blocks := (ha.held.map Block.addr).mem_iff.mpr hp
  rcases List.mem_map.mp hmem with ⟨b, hb, rfl⟩
  rcases List.append_of_mem hb with ⟨xs, ys, rfl⟩
  rcases ha.wellFormed.unalloc with ⟨h', hfree, hw', hedits⟩
  have hnd := nodup_addrs ha.wellFormed.sorted
  rw [addrs_append, addrs_cons, List.nodup_middle, List.nodup_cons, ← addrs_append] at hnd
  have hrest : remaining (xs ++ b :: ys) [b.addr] = xs ++ ys := by
    rw [remaining_cons hnd.1]
    simp [remaining]
  refine ⟨h', xs ++ ys, hfree, ⟨hw', ?_, ?_, ?_⟩, hedits.bounds⟩
  · rw [← hrest]
    exact ha.held.filter _
  · rw [hedits.handlers]
    exact ha.handler
  · show 12 < Heap.extent _
    rw [Heap.extent, hedits.bounds.heapStart, hedits.bounds.heapEnd]
    exact ha.room

end Accounts

/-! ## Runs -/

section Runs
variable {start n : UDword} {s s' : Account} {blocks : List Block} {c : HeapCall}

/-- Every live block takes one percent of the heap. -/
def Account.EachOnePercent (s : Account) : Prop :=
  ∀ b ∈ s.live, 100 * b.size.toNat = s.heap.extent

theorem extent_congr {h h' : Heap} (hs : SameBounds h h') : h'.extent = h.extent := by
  rw [Heap.extent, Heap.extent, hs.heapStart, hs.heapEnd]

theorem perform_ralloc_eq {h' : Heap} {size p : UDword}
    (heq : ralloc size s.heap = .ok (p, h')) :
    s.perform (.ralloc size) = .ok ⟨h', if p = 0 then s.live else ⟨p, size⟩ :: s.live⟩ := by
  rw [Account.perform, heq]
  rfl

theorem allocated_of_each (heach : s.EachOnePercent) :
    100 * s.allocated = s.live.length * s.heap.extent := by
  have hsum : ∀ live : List Block, (∀ b ∈ live, 100 * b.size.toNat = s.heap.extent) →
      100 * (live.map fun b => b.size.toNat).sum = live.length * s.heap.extent := by
    intro live
    induction live with
    | nil => simp
    | cons b live ih =>
      intro hall
      rw [List.forall_mem_cons] at hall
      rw [List.map_cons, List.sum_cons, List.length_cons, Nat.mul_add, ih hall.2, hall.1,
        Nat.add_mul, Nat.one_mul, Nat.add_comm]
  exact hsum s.live heach

/-- A call whose request fits, or is for one percent when it is granted, keeps the
invariant. -/
theorem Accounts.step (ha : Accounts s blocks) (hc : s.Fits c ∨ s.OnePercent c)
    (hstep : (accountSystem start n).Step s c s') :
    ∃ blocks', Accounts s' blocks' ∧ SameBounds s.heap s'.heap ∧
      ∀ b ∈ s'.live, b ∈ s.live ∨ c = .ralloc b.size ∧ ∃ h', b.addr ≠ 0 ∧
        ralloc b.size s.heap = .ok (b.addr, h') := by
  rcases hstep with ⟨henabled, hperform⟩
  cases c with
  | unalloc p =>
    rcases ha.freed henabled with ⟨h', blocks', hfree, ha', hbounds⟩
    rw [Account.perform, hfree] at hperform
    cases hperform
    exact ⟨blocks', ha', hbounds, fun b hb => Or.inl (List.mem_of_mem_filter hb)⟩
  | ralloc size =>
    rcases ha.outcome size with heq | ⟨p, h', heq, hp, -⟩
    · rw [perform_ralloc_eq heq, if_pos rfl, Except.ok.injEq] at hperform
      subst hperform
      exact ⟨blocks, ha.refused, ⟨rfl, rfl, rfl⟩, fun b hb => Or.inl hb⟩
    · -- a request that wraps would be granted a block larger than the heap
      have hroom := ha.room
      have hfit : size.toNat + 12 ≤ s.heap.extent := by
        rcases hc with hfit | hone
        · exact hfit
        · have := hone p h' heq hp
          omega
      rcases ha.granted hfit heq hp with ⟨blocks', ha', hbounds⟩
      rw [perform_ralloc_eq heq, if_neg hp, Except.ok.injEq] at hperform
      subst hperform
      refine ⟨blocks', ha', hbounds, fun b hb => ?_⟩
      rcases List.mem_cons.mp hb with rfl | hb
      · exact Or.inr ⟨rfl, h', hp, heq⟩
      · exact Or.inl hb

theorem accounts_of_fits (hn : 24 < n.toNat) (hlt : start.toNat + n.toNat < 2 ^ 32)
    (hs : ((accountSystem start n).restrict Account.Fits).Reachable s) :
    ∃ blocks, Accounts s blocks := by
  refine hs.invariant (I := fun s => ∃ blocks, Accounts s blocks) ?_ ?_
  · rintro s ⟨h, rfl⟩
    exact ⟨[], Accounts.init hn hlt h⟩
  · rintro s c s' ⟨blocks, ha⟩ ⟨hfit, hstep⟩
    rcases ha.step (Or.inl hfit) hstep with ⟨blocks', ha', -⟩
    exact ⟨blocks', ha'⟩

/-- One percent at a time. -/
theorem Accounts.step_each (ha : Accounts s blocks) (heach : s.EachOnePercent)
    (hone : s.OnePercent c) (hstep : (accountSystem start n).Step s c s') :
    (∃ blocks', Accounts s' blocks') ∧ s'.EachOnePercent := by
  rcases ha.step (Or.inr hone) hstep with ⟨blocks', ha', hbounds, hlive⟩
  refine ⟨⟨blocks', ha'⟩, fun b hb => ?_⟩
  rw [extent_congr hbounds]
  rcases hlive b hb with hold | ⟨rfl, h', hp, heq⟩
  · exact heach b hold
  · exact hone _ h' heq hp

theorem accounts_of_onePercent (hn : 24 < n.toNat) (hlt : start.toNat + n.toNat < 2 ^ 32)
    (hs : ((accountSystem start n).restrict Account.OnePercent).Reachable s) :
    (∃ blocks, Accounts s blocks) ∧ s.EachOnePercent := by
  refine hs.invariant (I := fun s => (∃ blocks, Accounts s blocks) ∧ s.EachOnePercent) ?_ ?_
  · rintro s ⟨h, rfl⟩
    exact ⟨⟨[], Accounts.init hn hlt h⟩, fun b hb => by cases hb⟩
  · rintro s c s' ⟨⟨blocks, ha⟩, heach⟩ ⟨hone, hstep⟩
    exact ha.step_each heach hone hstep

theorem Accounts.reports_of_each (ha : Accounts s blocks) (heach : s.EachOnePercent) :
    s.Reports :=
  ⟨ha.visits, ha.percent_iff.mpr (allocated_of_each heach)⟩

/-- After a block of any other size, whatever has become of the list, the number of
blocks is not the percentage. -/
theorem onePercent_of_reports (ha : Accounts s blocks) (heach : s.EachOnePercent)
    (hstep : (accountSystem start n).Step s c s') (hreports : s'.Reports) : s.OnePercent c := by
  cases c with
  | unalloc p => trivial
  | ralloc size =>
    intro p h' heq hp
    rcases ha.outcome size with hnull | ⟨q, h₁, heq', -, hbounds⟩
    · rw [hnull, Except.ok.injEq, Prod.mk.injEq] at heq
      exact absurd heq.1.symm hp
    rw [heq, Except.ok.injEq, Prod.mk.injEq] at heq'
    rcases heq' with ⟨rfl, rfl⟩
    have hperform := hstep.2
    rw [perform_ralloc_eq heq, if_neg hp, Except.ok.injEq] at hperform
    subst hperform
    rcases hreports with ⟨⟨chain, hwalk, hperm, -⟩, hvalue⟩
    have hcount := occupation_of_walk hwalk hvalue
    have hlen : chain.length = s.live.length + 1 := by
      rw [hperm.length_eq, addrs, List.length_map, List.length_cons]
    have hroom := ha.room
    have hextent := extent_congr hbounds
    rw [hlen, Account.percent, eq_comm, count_eq_percent_iff (by rw [hextent]; omega), hextent,
      Account.allocated, List.map_cons, List.sum_cons, Nat.mul_add, Nat.add_mul, Nat.one_mul]
      at hcount
    have hall := allocated_of_each heach
    rw [Account.allocated] at hall
    dsimp only at hcount
    omega

/-- **When `occupation` reports the percent of allocated space.** In every state reached
by requests that fit the heap, each live block is visited once, and the value is right
exactly when the live blocks have one percent of the heap on average. In every run in
which each granted request is for one percent it is right throughout, and the first
other request that is granted makes it wrong. -/
theorem occupation_percent_iff (hn : 24 < n.toNat) (hlt : start.toNat + n.toNat < 2 ^ 32) :
    (∀ s, ((accountSystem start n).restrict Account.Fits).Reachable s → s.Visits ∧
      (occupation s.heap = .ok s.percent ↔
        100 * s.allocated = s.live.length * s.heap.extent)) ∧
    ∀ s, ((accountSystem start n).restrict Account.OnePercent).Reachable s → s.Reports ∧
      ∀ c s', (accountSystem start n).Step s c s' → (s'.Reports ↔ s.OnePercent c) := by
  constructor
  · intro s hs
    rcases accounts_of_fits hn hlt hs with ⟨blocks, ha⟩
    exact ⟨ha.visits, ha.percent_iff⟩
  · intro s hs
    rcases accounts_of_onePercent hn hlt hs with ⟨⟨blocks, ha⟩, heach⟩
    refine ⟨ha.reports_of_each heach, fun c s' hstep => ⟨?_, fun hone => ?_⟩⟩
    · exact onePercent_of_reports ha heach hstep
    · rcases ha.step_each heach hone hstep with ⟨⟨blocks', ha'⟩, heach'⟩
      exact ha'.reports_of_each heach'

end Runs

/-! ## A heap of a hundred and twelve bytes -/

def hundredHeap : Heap := initializeHeap 0x1000 112 noHeap

/-- It has room for a hundred, and one byte is one percent of them. -/
theorem occupation_percent_hundred :
    ∃ s, ((accountSystem 0x1000 112).restrict Account.OnePercent).Reachable s ∧
      s.live ≠ [] ∧ s.Reports := by
  have hw : WellFormed hundredHeap [] :=
    (initializeHeap_spec (by decide) (by decide) noHeap).1
  have hextent : hundredHeap.extent = 100 := by
    unfold Heap.extent
    decide +kernel
  have hp : hundredHeap.heapStart + sizeofHeapBlockHeader ≠ 0 := by decide +kernel
  have hperform := perform_ralloc_eq (s := ⟨hundredHeap, []⟩) (ralloc_empty hw 1)
  rw [if_neg hp] at hperform
  have hone : Account.OnePercent ⟨hundredHeap, []⟩ (.ralloc 1) := by
    intro p h _ _
    exact hextent.symm
  have hinit : ((accountSystem 0x1000 112).restrict Account.OnePercent).Init
      ⟨hundredHeap, []⟩ := ⟨noHeap, rfl⟩
  have hs := (System.Reachable.init hinit).step ⟨hone, trivial, hperform⟩
  have hreports := ((occupation_percent_iff (by decide) (by decide)).2 _ hs).1
  exact ⟨_, hs, List.cons_ne_nil _ _, hreports⟩

/-- A block of four bytes in the hundred-byte heap is reported as one percent. -/
theorem occupation_counts_blocks :
    ∃ s, (accountSystem 0x1000 100).Reachable s ∧ ¬ s.Reports := by
  have hinit : (accountSystem 0x1000 100).Init ⟨smallHeap, []⟩ := ⟨noHeap, rfl⟩
  have ha : Accounts ⟨smallHeap, []⟩ [] := Accounts.init (by decide) (by decide) noHeap
  have hextent : smallHeap.extent = 88 := by
    unfold Heap.extent
    decide +kernel
  have hp : smallHeap.heapStart + sizeofHeapBlockHeader ≠ 0 := by decide +kernel
  have heq := ralloc_empty smallHeap_wellFormed 4
  have hperform := perform_ralloc_eq (s := ⟨smallHeap, []⟩) heq
  have hstep : (accountSystem 0x1000 100).Step ⟨smallHeap, []⟩ (.ralloc 4) _ :=
    ⟨trivial, hperform⟩
  refine ⟨_, (System.Reachable.init hinit).step hstep, fun hreports => ?_⟩
  have hone := onePercent_of_reports ha (fun b hb => by cases hb) hstep hreports
  have hfour := hone _ _ heq hp
  rw [show (Account.mk smallHeap []).heap.extent = 88 from hextent] at hfour
  exact absurd hfour (by decide)

end MushOS
