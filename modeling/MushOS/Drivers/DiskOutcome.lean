import MushOS.Drivers.DiskRun

/-! # What `read_disk` asks for and what it reports

Two consequences of the runs. The drive is never asked for the sectors the bytes are in: the
count it gets is zero, and of its words the call takes those of the offset and of the length
only, so that a last sector is left half read (`not_takesSectors`, `dataReads_eq_iff`). And the
caller never gets a result: what it finds in `eax` is what it has left there
(`reportsOutcome_iff`).
-/

namespace MushOS

open ByteMemory WordStack DiskMachine

section Outcome
variable {m m' : DiskMachine} {c : DiskCall} {p : Processor} {drive : Drive} {fuel start : ℕ}

/-! ## The sectors -/

/-- The number of sectors that hold the bytes up to the last one requested. -/
def DiskCall.sectorCount (c : DiskCall) : ℕ := (c.length.toNat + c.offset.toNat + 511) / 512

/-- The call returns, after it has asked for the sectors and taken all of their words. -/
def TakesSectors (drive : Drive) (c : DiskCall) (m : DiskMachine) : Prop :=
  ∃ fuel m', readDisk drive fuel m = some m' ∧ m'.ports 0x1f2 = BitVec.ofNat 8 c.sectorCount ∧
    m'.dataReads = m.dataReads + 256 * c.sectorCount

theorem shiftRight_one (x : UDword) : (x >>> 1).toNat = x.toNat / 2 := by
  rw [BitVec.toNat_ushiftRight, Nat.shiftRight_eq_div_pow]

/-- Nothing is drained. -/
theorem wordsRead_eq (hlength : c.length.toNat % 2 = 0)
    (hfits : c.length.toNat + c.offset.toNat < 2 ^ 23) :
    wordsRead c = (c.length.toNat + c.offset.toNat) / 2 := by
  unfold wordsRead
  rw [remains_eq_zero hfits, shiftRight_one, shiftRight_one]
  show _ + 0 = _
  omega

/-- The words are all taken when the last sector is a full one. -/
theorem dataReads_eq_iff (hcompleted : Completed drive c p m m')
    (hlength : c.length.toNat % 2 = 0) (hoffset : c.offset.toNat % 2 = 0)
    (hfits : c.length.toNat + c.offset.toNat ≤ 255 * 512) :
    m'.dataReads = m.dataReads + 256 * c.sectorCount ↔
      512 ∣ c.length.toNat + c.offset.toNat := by
  rw [hcompleted.dataReads, wordsRead_eq hlength (by omega)]
  unfold DiskCall.sectorCount
  constructor
  · intro h
    omega
  · intro h
    omega

/-- But the drive is never asked for them. -/
theorem not_takesSectors (drive : Drive) (hp : m.processor = c.entry p)
    (hlength : 2 ≤ c.length.toNat) (hfits : c.length.toNat + c.offset.toNat ≤ 255 * 512) :
    ¬ TakesSectors drive c m := by
  rintro ⟨fuel, m', hrun, hcount, -⟩
  have hzero : m'.ports 0x1f2 = 0 := by
    rcases readDisk_cases hp hrun with ⟨-, h⟩ | ⟨-, h⟩
    · exact h.programmed.count
    · exact h.programmed.count
  rw [hzero] at hcount
  have hnat := congrArg BitVec.toNat hcount
  rw [BitVec.toNat_ofNat] at hnat
  unfold DiskCall.sectorCount at hnat
  have hmod : ((0 : UByte)).toNat = 0 := rfl
  omega

end Outcome

/-! A drive whose status never changes, and a call with known registers. -/

def steadyDrive (status : UByte) : Drive where
  status := fun _ => status
  error := 0x4
  stream := fun _ n => BitVec.ofNat 16 n

def quietProcessor (eax : UDword) : Processor where
  general := ⟨eax, 0, 0, 0, 0, 0, 0⟩
  ds := 0x10
  es := 0x10
  fs := 0x10
  gs := 0x10
  eip := 0x1000
  cs := 0x8
  eflags := 0x2
  stack := ⟨0x90000, [], fun _ => 0⟩

def twoBytes : DiskCall where
  ret := 0x2000
  address := 0x5
  slaveDrive := 0
  length := 2
  offset := 0
  buffer := 0x100000

def twoBytesCall (eax : UDword) : DiskMachine where
  processor := twoBytes.entry (quietProcessor eax)
  mem := ⟨fun _ => 0, []⟩
  ports := fun _ => 0
  statusReads := 0
  dataReads := 0

theorem not_takesSectors_two_bytes : 2 ≤ twoBytes.length.toNat ∧
    ¬ TakesSectors (steadyDrive 0x48) twoBytes (twoBytesCall 0) :=
  ⟨by decide, not_takesSectors (steadyDrive 0x48) (p := quietProcessor 0) rfl (by decide)
    (by decide)⟩

/-- One sector should be asked for, and 256 words taken. -/
theorem two_bytes_leave_words : ¬ TakesSectors (steadyDrive 0x48) twoBytes (twoBytesCall 0) := by
  rintro ⟨fuel, m', hrun, -, hwords⟩
  have hp : (twoBytesCall 0).processor = twoBytes.entry (quietProcessor 0) := rfl
  rcases readDisk_cases hp hrun with ⟨-, h⟩ | ⟨-, h⟩
  · rw [h.dataReads] at hwords
    revert hwords
    decide
  · rw [h.dataReads] at hwords
    revert hwords
    decide

/-! ## The result -/

section Result
variable {m m' : DiskMachine} {c : DiskCall} {p : Processor} {drive : Drive} {fuel start : ℕ}

/-- ERR or DF. -/
def Erring (status : UByte) : Prop := status &&& 0x1 ≠ 0 ∨ status &&& 0x20 ≠ 0

/-- DRQ without BSY. -/
def Delivering (status : UByte) : Prop := status &&& 0x80 = 0 ∧ status &&& 0x8 ≠ 0

/-- The drive comes to deliver, and shows no error until then. -/
def Clean (drive : Drive) (start : ℕ) : Prop :=
  ∃ j, Delivering (drive.status (start + j)) ∧ ∀ k ≤ j, ¬ Erring (drive.status (start + k))

/-- The drive shows an error, and does not deliver before that. -/
def Faulty (drive : Drive) (start : ℕ) : Prop :=
  ∃ j, Erring (drive.status (start + j)) ∧ ∀ k < j, ¬ Delivering (drive.status (start + k))

/-- What a caller expects of `read_disk`. -/
structure ReportsOutcome (drive : Drive) (c : DiskCall) (p : Processor) (m : DiskMachine) :
    Prop where
  success : Clean drive m.statusReads → ∃ fuel m', readDisk drive fuel m = some m' ∧ m'.ax = 0
  fault : Faulty drive m.statusReads →
    ∃ fuel m', readDisk drive fuel m = some m' ∧ m'.ax ≠ 0 ∧ m'.mem = m.mem
  registers : ∀ fuel m', readDisk drive fuel m = some m' →
    { m'.processor with general := { m'.general with eax := p.general.eax } } = c.exit p

theorem busyExit_none {status : UByte} (h : busyExit status = none) :
    status &&& 0x80 ≠ 0 ∧ ¬ Erring status := by
  unfold busyExit at h
  unfold Erring
  by_cases hbusy : status &&& 0x80 = 0
  · rw [if_pos hbusy] at h
    cases h
  · rw [if_neg hbusy] at h
    refine ⟨hbusy, ?_⟩
    rintro (herror | hfault)
    · rw [if_pos herror] at h
      cases h
    · by_cases herror : status &&& 0x1 ≠ 0
      · rw [if_pos herror] at h
        cases h
      · rw [if_neg herror, if_pos hfault] at h
        cases h

theorem busyExit_error {status : UByte} {e : BusyExit} (h : busyExit status = some e)
    (hne : e ≠ .ready) : status &&& 0x80 ≠ 0 ∧ Erring status := by
  unfold busyExit at h
  unfold Erring
  by_cases hbusy : status &&& 0x80 = 0
  · rw [if_pos hbusy] at h
    exact absurd (Option.some.inj h).symm hne
  · refine ⟨hbusy, ?_⟩
    rw [if_neg hbusy] at h
    by_cases herror : status &&& 0x1 ≠ 0
    · exact Or.inl herror
    · by_cases hfault : status &&& 0x20 ≠ 0
      · exact Or.inr hfault
      · rw [if_neg herror, if_neg hfault] at h
        cases h

/-- While BSY is set, an error is in time to stop the call. -/
theorem not_clean_of_busyFault (h : BusyFault drive start) : ¬ Clean drive start := by
  rcases h with ⟨i, e, ⟨hbefore, hat⟩, hne⟩
  rintro ⟨j, hdelivering, hclean⟩
  by_cases hji : j < i
  · exact (busyExit_none (hbefore j hji)).1 hdelivering.1
  · exact hclean i (by omega) (busyExit_error hat hne).2

/-- However the call ends, the registers are those before it. -/
theorem processor_readDisk (hp : m.processor = c.entry p) (hrun : readDisk drive fuel m = some m') :
    m'.processor = c.exit p := by
  rcases readDisk_cases hp hrun with ⟨-, h⟩ | ⟨-, h⟩
  · exact h.processor
  · exact h.processor

theorem ax_readDisk (hp : m.processor = c.entry p) (hrun : readDisk drive fuel m = some m') :
    m'.ax = p.general.eax.setWidth 16 := by
  unfold DiskMachine.ax DiskMachine.general
  rw [processor_readDisk hp hrun]
  rfl

/-- Nothing is stored when the length is less than a word. -/
theorem DiskMachine.Completed.mem_iff (h : Completed drive c p m m') :
    m'.mem = m.mem ↔ c.length.toNat < 2 := by
  have hwritten := h.stored.written
  have hnone := h.stored.none
  rw [shiftRight_one] at hwritten hnone
  constructor
  · intro hmem
    rw [hmem] at hwritten
    omega
  · intro hlength
    exact hnone (by omega)

/-- **The result of `read_disk`**: `eax` is never set, so the caller has to have put there what
the drive is going to show; a fault is noticed while BSY is set, and after that only waiting for
DRQ goes on, with the data stored in the end. -/
theorem reportsOutcome_iff (hp : m.processor = c.entry p) : ReportsOutcome drive c p m ↔
    (Clean drive m.statusReads → p.general.eax.setWidth 16 = (0 : UWord) ∧
      Served drive m.statusReads) ∧
    (Faulty drive m.statusReads → p.general.eax.setWidth 16 ≠ (0 : UWord) ∧
      (BusyFault drive m.statusReads ∨ Served drive m.statusReads ∧ c.length.toNat < 2)) := by
  constructor
  · -- the word that is returned is the one that was in ax, whatever the drive says
    intro h
    refine ⟨fun hclean => ?_, fun hfaulty => ?_⟩
    · rcases h.success hclean with ⟨fuel, m', hrun, hax⟩
      rw [ax_readDisk hp hrun] at hax
      rcases readDisk_cases hp hrun with ⟨hserved, -⟩ | ⟨hstopped, -⟩
      · exact ⟨hax, hserved⟩
      · exact absurd hclean (not_clean_of_busyFault hstopped)
    · rcases h.fault hfaulty with ⟨fuel, m', hrun, hax, hmem⟩
      rw [ax_readDisk hp hrun] at hax
      rcases readDisk_cases hp hrun with ⟨hserved, hcompleted⟩ | ⟨hstopped, -⟩
      · exact ⟨hax, Or.inr ⟨hserved, hcompleted.mem_iff.mp hmem⟩⟩
      · exact ⟨hax, Or.inl hstopped⟩
  · -- each history determines whether the polling ends, and where
    rintro ⟨hclean, hfaulty⟩
    refine ⟨fun h => ?_, fun h => ?_, fun fuel m' hrun => ?_⟩
    · rcases hclean h with ⟨hax, hserved⟩
      rcases readDisk_returns (Or.inl hserved) with ⟨fuel, hreturns⟩
      rcases hreturns fuel le_rfl m rfl with ⟨m', hrun⟩
      exact ⟨fuel, m', hrun, (ax_readDisk hp hrun).trans hax⟩
    · rcases hfaulty h with ⟨hax, hstopped | ⟨hserved, hlength⟩⟩
      · rcases readDisk_returns (Or.inr hstopped) with ⟨fuel, hreturns⟩
        rcases hreturns fuel le_rfl m rfl with ⟨m', hrun⟩
        refine ⟨fuel, m', hrun, by rw [ax_readDisk hp hrun]; exact hax, ?_⟩
        rcases readDisk_cases hp hrun with ⟨hserved, -⟩ | ⟨-, hfailed⟩
        · exact absurd hserved (not_served_of_busyFault hstopped)
        · exact hfailed.mem
      · rcases readDisk_returns (Or.inl hserved) with ⟨fuel, hreturns⟩
        rcases hreturns fuel le_rfl m rfl with ⟨m', hrun⟩
        refine ⟨fuel, m', hrun, by rw [ax_readDisk hp hrun]; exact hax, ?_⟩
        rcases readDisk_cases hp hrun with ⟨-, hcompleted⟩ | ⟨hstopped, -⟩
        · exact hcompleted.mem_iff.mpr hlength
        · exact absurd hserved (not_served_of_busyFault hstopped)
    · unfold DiskMachine.general
      rw [processor_readDisk hp hrun]
      rfl

end Result

/-- A status that never changes, without BSY and with DRQ. -/
theorem served_of_steady {drive : Drive} {status : UByte} (hsteady : ∀ n, drive.status n = status)
    (hbusy : status &&& 0x80 = 0) (hdata : status &&& 0x8 ≠ 0) (start : ℕ) :
    Served drive start := by
  refine ⟨0, 0, ⟨fun k hk => absurd hk (Nat.not_lt_zero k), ?_⟩,
    ⟨fun k hk => absurd hk (Nat.not_lt_zero k), ?_⟩⟩
  · rw [hsteady]
    exact if_pos hbusy
  · rw [hsteady]
    exact if_neg hdata

theorem not_erring_data_ready : ¬ Erring 0x48 := by
  rintro (herror | hfault)
  · exact herror rfl
  · exact hfault rfl

/-- With DRQ, without an error, and with zero in `eax`. -/
theorem reportsOutcome_two_bytes :
    ReportsOutcome (steadyDrive 0x48) twoBytes (quietProcessor 0) (twoBytesCall 0) := by
  refine (reportsOutcome_iff (m := twoBytesCall 0) rfl).mpr ⟨fun _ => ⟨rfl, ?_⟩, fun h => ?_⟩
  · exact served_of_steady (fun _ => rfl) (by decide) (by decide) 0
  · rcases h with ⟨j, herring, -⟩
    exact absurd herring not_erring_data_ready

/-- A reading that succeeds, with a result of one; one that fails while BSY is set, with a
result of zero; and an error without BSY, with data in the buffer all the same. -/
theorem outcomes_not_reported :
    ¬ ReportsOutcome (steadyDrive 0x48) twoBytes (quietProcessor 1) (twoBytesCall 1) ∧
    ¬ ReportsOutcome (steadyDrive 0x81) twoBytes (quietProcessor 0) (twoBytesCall 0) ∧
    ¬ ReportsOutcome (steadyDrive 0x49) twoBytes (quietProcessor 1) (twoBytesCall 1) := by
  have hp : ∀ eax, (twoBytesCall eax).processor = twoBytes.entry (quietProcessor eax) :=
    fun _ => rfl
  refine ⟨fun h => ?_, fun h => ?_, fun h => ?_⟩
  · have hclean : Clean (steadyDrive 0x48) 0 :=
      ⟨0, ⟨by decide, by decide⟩, fun _ _ => not_erring_data_ready⟩
    rcases h.success hclean with ⟨fuel, m', hrun, hax⟩
    rw [ax_readDisk (hp 1) hrun] at hax
    revert hax
    decide
  · have hfaulty : Faulty (steadyDrive 0x81) 0 :=
      ⟨0, Or.inl (by decide), fun k hk => absurd hk (Nat.not_lt_zero k)⟩
    rcases h.fault hfaulty with ⟨fuel, m', hrun, hax, -⟩
    rw [ax_readDisk (hp 0) hrun] at hax
    exact hax rfl
  · have hfaulty : Faulty (steadyDrive 0x49) 0 :=
      ⟨0, Or.inl (by decide), fun k hk => absurd hk (Nat.not_lt_zero k)⟩
    rcases h.fault hfaulty with ⟨fuel, m', hrun, -, hmem⟩
    rcases readDisk_cases (hp 1) hrun with ⟨-, hcompleted⟩ | ⟨hstopped, -⟩
    · exact absurd (hcompleted.mem_iff.mp hmem) (by decide)
    · refine not_served_of_busyFault hstopped ?_
      exact served_of_steady (fun _ => rfl) (by decide) (by decide) 0

end MushOS
