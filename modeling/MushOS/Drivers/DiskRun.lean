import MushOS.Drivers.Disk

/-! # Runs of `read_disk`

What each block of `read_disk` does to the machine, and from that every run: it polls until
the first status without BSY, or with an error while BSY is set, then until the first one with
DRQ, and only then takes its words from the data port (`readDisk_cases`). These runs are all
there are, and each of them ends (`readDisk_returns`).
-/

namespace MushOS

open ByteMemory WordStack

namespace DiskMachine

section Runs
variable {m m' m'' : DiskMachine} {c : DiskCall} {p : Processor} {drive : Drive} {n fuel : ℕ}

/-! ## Polling -/

/-- The status has been read `n` times, and nothing else has happened. -/
structure Polled (m : DiskMachine) (n : ℕ) (m' : DiskMachine) : Prop extends Keeps m m' where
  ebx : m'.general.ebx = m.general.ebx
  edx : m'.general.edx = m.general.edx
  mem : m'.mem = m.mem
  ports : m'.ports = m.ports
  statusReads : m'.statusReads = m.statusReads + n
  dataReads : m'.dataReads = m.dataReads

theorem Polled.dx (h : Polled m n m') : m'.dx = m.dx := by
  unfold DiskMachine.dx
  rw [h.edx]

theorem Polled.trans {k : ℕ} (h : Polled m n m') (h' : Polled m' k m'') : Polled m (n + k) m'' := by
  refine ⟨h.toKeeps.trans h'.toKeeps, h'.ebx.trans h.ebx, h'.edx.trans h.edx, h'.mem.trans h.mem,
    h'.ports.trans h.ports, ?_, h'.dataReads.trans h.dataReads⟩
  rw [h'.statusReads, h.statusReads, Nat.add_assoc]

/-- One read of the status. -/
theorem inAl_spec (drive : Drive) (hdx : m.dx = 0x1f7) :
    (m.inAl drive).al = drive.status m.statusReads ∧ Polled m 1 (m.inAl drive) := by
  have heq : m.inAl drive = { m.setAl (drive.status m.statusReads) with
      statusReads := m.statusReads + 1 } := if_pos hdx
  have hcomputes := computes_setAl m (drive.status m.statusReads)
  rw [heq]
  exact ⟨al_setAl m _, ⟨hcomputes.processor, hcomputes.ebp⟩, ebx_setAl m _, edx_setAl m _,
    hcomputes.mem, hcomputes.ports, rfl, hcomputes.dataReads⟩

/-- Read the status until it is one to leave at. -/
def poll {α : Type} (drive : Drive) (leaveAt : UByte → Option α) :
    ℕ → DiskMachine → Option (α × DiskMachine)
  | 0, _ => none
  | fuel + 1, m =>
    match leaveAt (m.inAl drive).al with
    | some a => some (a, m.inAl drive)
    | none => poll drive leaveAt fuel (m.inAl drive)

/-- The first of the next statuses to leave at is the one after `i` others. -/
def LeavesAfter {α : Type} (drive : Drive) (leaveAt : UByte → Option α) (start i : ℕ) (a : α) :
    Prop :=
  (∀ k < i, leaveAt (drive.status (start + k)) = none) ∧ leaveAt (drive.status (start + i)) = some a

theorem LeavesAfter.unique {α : Type} {leaveAt : UByte → Option α} {start i j : ℕ} {a b : α}
    (h : LeavesAfter drive leaveAt start i a) (h' : LeavesAfter drive leaveAt start j b) :
    i = j ∧ a = b := by
  have hij : i = j := by
    rcases Nat.lt_trichotomy i j with hlt | heq | hlt
    · have hnone := h'.1 i hlt
      rw [h.2] at hnone
      cases hnone
    · exact heq
    · have hnone := h.1 j hlt
      rw [h'.2] at hnone
      cases hnone
  subst hij
  exact ⟨rfl, Option.some.inj (h.2.symm.trans h'.2)⟩

/-- Polling ends at the first status to leave at, if there is enough fuel. -/
theorem poll_spec {α : Type} (leaveAt : UByte → Option α) (hdx : m.dx = 0x1f7) :
    (∀ i a, LeavesAfter drive leaveAt m.statusReads i a → i < fuel →
      ∃ m', poll drive leaveAt fuel m = some (a, m') ∧ Polled m (i + 1) m') ∧
    (∀ a m', poll drive leaveAt fuel m = some (a, m') →
      ∃ i, LeavesAfter drive leaveAt m.statusReads i a ∧ Polled m (i + 1) m') := by
  induction fuel generalizing m with
  | zero =>
    refine ⟨fun i a _ hi => absurd hi (Nat.not_lt_zero i), fun a m' hrun => ?_⟩
    cases hrun
  | succ fuel ih =>
    rcases inAl_spec drive hdx with ⟨hal, hpolled⟩
    have hdx' : (m.inAl drive).dx = 0x1f7 := by
      unfold DiskMachine.dx
      rw [hpolled.edx]
      exact hdx
    have hshift : ∀ k, (m.inAl drive).statusReads + k = m.statusReads + (k + 1) := by
      intro k
      rw [hpolled.statusReads]
      omega
    rcases ih hdx' with ⟨hruns, hleaves⟩
    rw [poll, hal]
    cases hfirst : leaveAt (drive.status m.statusReads) with
    | some b =>
      -- the first status leaves
      have hhere : LeavesAfter drive leaveAt m.statusReads 0 b :=
        ⟨fun k hk => absurd hk (Nat.not_lt_zero k), hfirst⟩
      constructor
      · intro i a h _
        rcases h.unique hhere with ⟨rfl, rfl⟩
        exact ⟨_, rfl, hpolled⟩
      · intro a m' hrun
        cases hrun
        exact ⟨0, hhere, hpolled⟩
    | none =>
      -- it does not: the rest of the run starts one read later
      constructor
      · intro i a h hi
        cases i with
        | zero =>
          have hsome := h.2
          rw [Nat.add_zero, hfirst] at hsome
          cases hsome
        | succ i =>
          have hlater : LeavesAfter drive leaveAt (m.inAl drive).statusReads i a := by
            refine ⟨fun k hk => ?_, ?_⟩
            · rw [hshift]
              exact h.1 (k + 1) (by omega)
            · rw [hshift]
              exact h.2
          rcases hruns i a hlater (by omega) with ⟨m', hrun, hpolled'⟩
          exact ⟨m', hrun, Nat.add_comm 1 (i + 1) ▸ hpolled.trans hpolled'⟩
      · intro a m' hrun
        rcases hleaves a m' hrun with ⟨i, hlater, hpolled'⟩
        refine ⟨i + 1, ⟨fun k hk => ?_, ?_⟩, Nat.add_comm 1 (i + 1) ▸ hpolled.trans hpolled'⟩
        · cases k with
          | zero => exact hfirst
          | succ k =>
            rw [← hshift]
            exact hlater.1 k (by omega)
        · rw [← hshift]
          exact hlater.2

/-- What `.busy` makes of a status. -/
def busyExit (status : UByte) : Option BusyExit :=
  if status &&& 0x80 = 0 then some .ready
  else if status &&& 0x1 ≠ 0 then some .generalError
  else if status &&& 0x20 ≠ 0 then some .driveFaultError
  else none

/-- What `.ready` makes of it. -/
def readyExit (status : UByte) : Option Unit := if status &&& 0x8 = 0 then none else some ()

theorem busy_eq_poll : busy drive fuel m = poll drive busyExit fuel m := by
  induction fuel generalizing m with
  | zero => rfl
  | succ fuel ih =>
    rw [busy, poll, busyExit, ih]
    by_cases hbusy : (m.inAl drive).al &&& 0x80 = 0
    · simp only [if_pos hbusy]
    · by_cases herror : (m.inAl drive).al &&& 0x1 ≠ 0
      · simp only [if_neg hbusy, if_pos herror]
      · by_cases hfault : (m.inAl drive).al &&& 0x20 ≠ 0
        · simp only [if_neg hbusy, if_neg herror, if_pos hfault]
        · simp only [if_neg hbusy, if_neg herror, if_neg hfault]

theorem ready_eq_poll : ready drive fuel m = (poll drive readyExit fuel m).map Prod.snd := by
  induction fuel generalizing m with
  | zero => rfl
  | succ fuel ih =>
    rw [ready, poll, readyExit, ih]
    by_cases hdata : (m.inAl drive).al &&& 0x8 = 0
    · simp only [if_pos hdata]
    · simp only [if_neg hdata]
      rfl

/-! ## Setting up -/

/-- What setting up leaves: the frame, the sectors in `ebx`, and the ports. -/
structure SetUp (m : DiskMachine) (m' : DiskMachine) : Prop where
  keeps : Keeps m m'
  ebx : m'.general.ebx = (m.arg 16 + m.arg 20) <<< 9
  dx : m'.dx = 0x1f7
  mem : m'.mem = m.mem
  statusReads : m'.statusReads = m.statusReads
  dataReads : m'.dataReads = m.dataReads
  count : m'.ports 0x1f2 = 0
  lba : m'.ports 0x1f3 = (m.arg 8).setWidth 8 ∧ m'.ports 0x1f4 = (m.arg 8 >>> 8).setWidth 8 ∧
    m'.ports 0x1f5 = (m.arg 8 >>> 16).setWidth 8 ∧
    m'.ports 0x1f6 = (m.arg 8 >>> 24).setWidth 8 ||| 0xe0
  command : m'.ports 0x1f7 = 0x20

/-- The shifted number of bytes never has a remainder. -/
theorem shiftLeft_and (x : UDword) : (x <<< 9) &&& 0x1ff = 0 := by
  ext i hi
  interval_cases i <;> simp

/-- Nor a lower byte. -/
theorem setWidth_shiftLeft (x : UDword) : (x <<< 9).setWidth 8 = (0 : UByte) := by
  ext i hi
  interval_cases i <;> simp

theorem sectors_eq (m : DiskMachine) : m.sectors = m.setEbx ((m.arg 16 + m.arg 20) <<< 9) := by
  unfold sectors
  simp only [(computes_setEbx m _).arg, ebx_setEbx, setEbx_setEbx, shiftLeft_and, if_true]

/-- A byte has been sent to a port. -/
structure Sent (m : DiskMachine) (port : UWord) (b : UByte) (m' : DiskMachine) : Prop
    extends Keeps m m' where
  ebx : m'.general.ebx = m.general.ebx
  dx : m'.dx = port
  mem : m'.mem = m.mem
  statusReads : m'.statusReads = m.statusReads
  dataReads : m'.dataReads = m.dataReads
  ports : m'.ports = Function.update m.ports port b

theorem keeps_outAl (m : DiskMachine) : Keeps m m.outAl := ⟨rfl, rfl⟩

/-- What `out dx, al` sends. -/
theorem sent_outAl {port : UWord} {b : UByte} (h : Computes m m')
    (hebx : m'.general.ebx = m.general.ebx) (hdx : m'.dx = port) (hal : m'.al = b) :
    Sent m port b m'.outAl := by
  refine ⟨h.toKeeps.trans (keeps_outAl m'), hebx, hdx, h.mem, h.statusReads, h.dataReads, ?_⟩
  show Function.update m'.ports m'.dx m'.al = _
  rw [h.ports, hdx, hal]

theorem sendDrive_spec (m : DiskMachine) :
    Sent m 0x1f6 ((m.arg 8 >>> 24).setWidth 8 ||| 0xe0) m.sendDrive := by
  have hedx := computes_setEdx m 0x1f6
  have h := ((hedx.trans (computes_setEax _ (m.arg 8))).trans
    (computes_setEax _ (m.arg 8 >>> 24))).trans
    (computes_setAl _ ((m.arg 8 >>> 24).setWidth 8 ||| 0xe0))
  unfold sendDrive
  dsimp only
  rw [hedx.arg, eax_setEax, al_setEax]
  refine sent_outAl h ?_ ?_ (al_setAl _ _)
  · rw [ebx_setAl, ebx_setEax, ebx_setEax, ebx_setEdx]
  · rw [dx_setAl, dx_setEax, dx_setEax, dx_setEdx]
    rfl

theorem sendCount_spec (m : DiskMachine) :
    Sent m 0x1f2 (m.general.ebx.setWidth 8) m.sendCount := by
  have h := (computes_setEdx m 0x1f2).trans (computes_setAl _ (m.general.ebx.setWidth 8))
  unfold sendCount
  dsimp only
  rw [ebx_setEdx]
  refine sent_outAl h ?_ ?_ (al_setAl _ _)
  · rw [ebx_setAl, ebx_setEdx]
  · rw [dx_setAl, dx_setEdx]
    rfl

theorem sendLba_spec (m : DiskMachine) (port : UDword) (shift : ℕ) :
    Sent m (port.setWidth 16) ((m.arg 8 >>> shift).setWidth 8) (m.sendLba port shift) := by
  have hedx := computes_setEdx m port
  have h := (hedx.trans (computes_setEax _ (m.arg 8))).trans
    (computes_setEax _ (m.arg 8 >>> shift))
  unfold sendLba
  dsimp only
  rw [hedx.arg, eax_setEax]
  refine sent_outAl h ?_ ?_ (al_setEax _ _)
  · rw [ebx_setEax, ebx_setEax, ebx_setEdx]
  · rw [dx_setEax, dx_setEax, dx_setEdx]

theorem sendCommand_spec (m : DiskMachine) : Sent m 0x1f7 0x20 m.sendCommand := by
  have h := (computes_setEdx m 0x1f7).trans (computes_setAl _ 0x20)
  refine sent_outAl h ?_ ?_ (al_setAl _ _)
  · rw [ebx_setAl, ebx_setEdx]
  · rw [dx_setAl, dx_setEdx]
    rfl

theorem setupReading_spec (m : DiskMachine) : SetUp m m.sectors.setupReading := by
  have h₀ := computes_setEbx m ((m.arg 16 + m.arg 20) <<< 9)
  have hebx := ebx_setEbx m ((m.arg 16 + m.arg 20) <<< 9)
  rw [sectors_eq]
  unfold setupReading
  dsimp only
  generalize m.setEbx ((m.arg 16 + m.arg 20) <<< 9) = m₀ at h₀ hebx ⊢
  have h₁ := sendDrive_spec m₀
  generalize m₀.sendDrive = m₁ at h₁ ⊢
  have h₂ := sendCount_spec m₁
  generalize m₁.sendCount = m₂ at h₂ ⊢
  have h₃ := sendLba_spec m₂ 0x1f3 0
  generalize m₂.sendLba 0x1f3 0 = m₃ at h₃ ⊢
  have h₄ := sendLba_spec m₃ 0x1f4 8
  generalize m₃.sendLba 0x1f4 8 = m₄ at h₄ ⊢
  have h₅ := sendLba_spec m₄ 0x1f5 16
  generalize m₄.sendLba 0x1f5 16 = m₅ at h₅ ⊢
  have h₆ := sendCommand_spec m₅
  generalize m₅.sendCommand = m₆ at h₆ ⊢
  -- the arguments are read again from the stack before each port is written
  have hk₁ := h₀.toKeeps.trans h₁.toKeeps
  have hk₂ := hk₁.trans h₂.toKeeps
  have hk₃ := hk₂.trans h₃.toKeeps
  have hk₄ := hk₃.trans h₄.toKeeps
  have hk₅ := hk₄.trans h₅.toKeeps
  have hports := h₆.ports
  rw [h₅.ports, h₄.ports, h₃.ports, h₂.ports, h₁.ports, h₀.arg, hk₂.arg, hk₃.arg, hk₄.arg,
    h₁.ebx, hebx, setWidth_shiftLeft] at hports
  refine ⟨hk₅.trans h₆.toKeeps, ?_, h₆.dx, ?_, ?_, ?_, ?_, ⟨?_, ?_, ?_, ?_⟩, ?_⟩
  · rw [h₆.ebx, h₅.ebx, h₄.ebx, h₃.ebx, h₂.ebx, h₁.ebx, hebx]
  · rw [h₆.mem, h₅.mem, h₄.mem, h₃.mem, h₂.mem, h₁.mem, h₀.mem]
  · rw [h₆.statusReads, h₅.statusReads, h₄.statusReads, h₃.statusReads, h₂.statusReads,
      h₁.statusReads, h₀.statusReads]
  · rw [h₆.dataReads, h₅.dataReads, h₄.dataReads, h₃.dataReads, h₂.dataReads, h₁.dataReads,
      h₀.dataReads]
  · rw [hports]
    simp [Function.update]
  · rw [hports]
    simp [Function.update]
  · rw [hports]
    simp [Function.update]
  · rw [hports]
    simp [Function.update]
  · rw [hports]
    simp [Function.update]
  · rw [hports]
    simp [Function.update]

/-! ## The data -/

/-- `n` words have been read from the data port. -/
structure Received (m : DiskMachine) (n : ℕ) (m' : DiskMachine) : Prop extends Keeps m m' where
  ebx : m'.general.ebx = m.general.ebx
  dx : m'.dx = 0x1f0
  ports : m'.ports = m.ports
  statusReads : m'.statusReads = m.statusReads
  dataReads : m'.dataReads = m.dataReads + n

theorem Received.trans {k : ℕ} (h : Received m n m') (h' : Received m' k m'') :
    Received m (n + k) m'' := by
  refine ⟨h.toKeeps.trans h'.toKeeps, h'.ebx.trans h.ebx, h'.dx, h'.ports.trans h.ports,
    h'.statusReads.trans h.statusReads, ?_⟩
  rw [h'.dataReads, h.dataReads, Nat.add_assoc]

theorem Computes.received (h : Computes m m') (hebx : m'.general.ebx = m.general.ebx)
    (hdx : m'.dx = 0x1f0) : Received m 0 m' :=
  ⟨h.toKeeps, hebx, hdx, h.ports, h.statusReads, h.dataReads⟩

theorem received_setEcx (hdx : m.dx = 0x1f0) (w : UDword) : Received m 0 (m.setEcx w) :=
  (computes_setEcx m w).received (ebx_setEcx m w) hdx

/-- `in ax, dx` at the data port. -/
theorem inAx_spec (drive : Drive) (hdx : m.dx = 0x1f0) :
    Received m 1 (m.inAx drive) ∧ (m.inAx drive).mem = m.mem := by
  have hword : m.inWord drive =
      (drive.stream m.ports m.dataReads, { m with dataReads := m.dataReads + 1 }) := if_pos hdx
  unfold inAx
  rw [hword]
  exact ⟨⟨⟨rfl, rfl⟩, rfl, hdx, rfl, rfl, rfl⟩, rfl⟩

theorem dumpLoop_spec (drive : Drive) (n : ℕ) (hdx : m.dx = 0x1f0) :
    Received m n (dumpLoop drive n m) ∧ (dumpLoop drive n m).mem = m.mem := by
  induction n generalizing m with
  | zero => exact ⟨⟨⟨rfl, rfl⟩, rfl, hdx, rfl, rfl, rfl⟩, rfl⟩
  | succ n ih =>
    rcases inAx_spec drive hdx with ⟨hin, hmem⟩
    have hecx := received_setEcx hin.dx ((m.inAx drive).general.ecx - 1)
    rcases ih hecx.dx with ⟨hrest, hmem'⟩
    rw [dumpLoop]
    refine ⟨?_, ?_⟩
    · rw [Nat.add_comm n 1]
      exact (hin.trans hecx).trans hrest
    · exact hmem'.trans hmem

/-- One `insw` at the data port. -/
theorem insw_spec (drive : Drive) (hdx : m.dx = 0x1f0) :
    Received m 1 (m.insw drive) ∧ (m.insw drive).general.edi = m.general.edi + 2 ∧
      (m.insw drive).mem =
        (m.mem.write8 m.general.edi ((drive.stream m.ports m.dataReads).extractLsb' 0 8)).write8
          (m.general.edi + 1) ((drive.stream m.ports m.dataReads).extractLsb' 8 8) := by
  have hword : m.inWord drive =
      (drive.stream m.ports m.dataReads, { m with dataReads := m.dataReads + 1 }) := if_pos hdx
  unfold insw
  rw [hword]
  exact ⟨⟨⟨rfl, rfl⟩, rfl, hdx, rfl, rfl, rfl⟩, rfl, rfl⟩

/-- Byte `i` of what the drive has on its data port, low bytes first. -/
def streamByte (words : ℕ → UWord) (i : ℕ) : UByte := (words (i / 2)).extractLsb' (8 * (i % 2)) 8

/-- A run of `insw`, and how often it writes. -/
theorem repInsw_spec (drive : Drive) (n : ℕ) (hdx : m.dx = 0x1f0) :
    Received m n (repInsw drive n m) ∧
      (repInsw drive n m).mem.written.length = m.mem.written.length + 2 * n := by
  induction n generalizing m with
  | zero => exact ⟨⟨⟨rfl, rfl⟩, rfl, hdx, rfl, rfl, rfl⟩, rfl⟩
  | succ n ih =>
    rcases insw_spec drive hdx with ⟨hin, -, hmem⟩
    have hecx := received_setEcx hin.dx ((m.insw drive).general.ecx - 1)
    rcases ih hecx.dx with ⟨hrest, hwritten⟩
    have hcomputes := computes_setEcx (m.insw drive) ((m.insw drive).general.ecx - 1)
    rw [repInsw]
    refine ⟨?_, ?_⟩
    · rw [Nat.add_comm n 1]
      exact (hin.trans hecx).trans hrest
    · rw [hwritten, hcomputes.mem, hmem]
      simp
      omega

/-- The bytes that have been written are those from `edi` on. -/
theorem writes_repInsw (drive : Drive) (n : ℕ) (hdx : m.dx = 0x1f0)
    (hw : m.general.edi.toNat + 2 * n ≤ 2 ^ 32) :
    Writes (span m.general.edi.toNat (2 * n)) m.mem (repInsw drive n m).mem := by
  induction n generalizing m with
  | zero => exact Writes.refl _ _
  | succ n ih =>
    rcases insw_spec drive hdx with ⟨hin, hedi, hmem⟩
    have hcomputes := computes_setEcx (m.insw drive) ((m.insw drive).general.ecx - 1)
    have hedi' : ((m.insw drive).setEcx ((m.insw drive).general.ecx - 1)).general.edi =
        m.general.edi + 2 := by
      rw [edi_setEcx, hedi]
    have hstep : Writes (span m.general.edi.toNat (2 * (n + 1))) m.mem (m.insw drive).mem := by
      rw [hmem]
      refine (writes_write8 _ _ ?_).trans (writes_write8 _ _ ?_)
      · rw [mem_span]
        omega
      · rw [mem_span]
        bv_omega
    rw [repInsw]
    rcases Nat.eq_zero_or_pos n with rfl | hn
    · exact hstep
    · have hnext : (m.general.edi + 2).toNat = m.general.edi.toNat + 2 :=
        toNat_add_ofNat (n := 2) (by omega)
      have hrest := ih (received_setEcx hin.dx _).dx (by rw [hedi', hnext]; omega)
      rw [hedi', hnext, hcomputes.mem] at hrest
      refine hstep.trans (hrest.mono fun a ha => ?_)
      rw [mem_span] at ha ⊢
      omega

/-- The two bytes of a word. -/
theorem insw_bytes (drive : Drive) (hdx : m.dx = 0x1f0) {i : ℕ} (hi : i < 2) :
    (m.insw drive).mem.bytes (m.general.edi + BitVec.ofNat 32 i) =
      streamByte (drive.stream m.ports) (2 * m.dataReads + i) := by
  have hword : (2 * m.dataReads + i) / 2 = m.dataReads := by omega
  have hhalf : (2 * m.dataReads + i) % 2 = i := by omega
  rw [(insw_spec drive hdx).2.2, streamByte, hword, hhalf]
  have hcases : i = 0 ∨ i = 1 := by omega
  rcases hcases with rfl | rfl
  · have hne : m.general.edi + BitVec.ofNat 32 0 ≠ m.general.edi + 1 := by bv_omega
    rw [Mem.write8_bytes_ne _ _ hne, BitVec.add_zero, Mem.write8_bytes_self]
  · exact Mem.write8_bytes_self _ _ _

/-- They are the bytes of the stream, in order. -/
theorem repInsw_bytes (drive : Drive) (n : ℕ) (hdx : m.dx = 0x1f0)
    (hw : m.general.edi.toNat + 2 * n ≤ 2 ^ 32) {i : ℕ} (hi : i < 2 * n) :
    (repInsw drive n m).mem.bytes (m.general.edi + BitVec.ofNat 32 i) =
      streamByte (drive.stream m.ports) (2 * m.dataReads + i) := by
  induction n generalizing m i with
  | zero => omega
  | succ n ih =>
    rcases insw_spec drive hdx with ⟨hin, hedi, -⟩
    have hecx := received_setEcx hin.dx ((m.insw drive).general.ecx - 1)
    have hcomputes := computes_setEcx (m.insw drive) ((m.insw drive).general.ecx - 1)
    have hedi' : ((m.insw drive).setEcx ((m.insw drive).general.ecx - 1)).general.edi =
        m.general.edi + 2 := by
      rw [edi_setEcx, hedi]
    have hnext : n = 0 ∨ (m.general.edi + 2).toNat = m.general.edi.toNat + 2 := by
      rcases Nat.eq_zero_or_pos n with hn | hn
      · exact Or.inl hn
      · exact Or.inr (toNat_add_ofNat (n := 2) (by omega))
    have hw' : (m.general.edi + 2).toNat + 2 * n ≤ 2 ^ 32 := by omega
    rw [repInsw]
    by_cases hfirst : i < 2
    · -- the rest of the run is further on
      have hrest := writes_repInsw drive n hecx.dx (by rw [hedi']; exact hw')
      rw [hedi'] at hrest
      have hat : (m.general.edi + BitVec.ofNat 32 i).toNat = m.general.edi.toNat + i :=
        toNat_add_ofNat (by omega)
      rw [hrest.frame _ (by rw [mem_span]; omega), hcomputes.mem]
      exact insw_bytes drive hdx hfirst
    · have haddress : m.general.edi + BitVec.ofNat 32 i =
          m.general.edi + 2 + BitVec.ofNat 32 (i - 2) := by
        rw [BitVec.add_assoc]
        congr 1
        apply BitVec.eq_of_toNat_eq
        have htwo : ((2 : UDword) + BitVec.ofNat 32 (i - 2)).toNat = 2 + (i - 2) :=
          toNat_add_ofNat (by simp; omega)
        rw [htwo, toNat_ofNat_of_lt (by omega)]
        omega
      have hrest := ih (i := i - 2) hecx.dx (by rw [hedi']; exact hw') (by omega)
      have hindex : 2 * (m.dataReads + 1 + 0) + (i - 2) = 2 * m.dataReads + i := by omega
      rw [hedi', hecx.ports, hin.ports, hecx.dataReads, hin.dataReads, hindex] at hrest
      rw [haddress]
      exact hrest

/-- `n` words of a stream have been stored from an address on. -/
structure Stored (words : ℕ → UWord) (first : ℕ) (start : UDword) (n : ℕ) (mem mem' : Mem) :
    Prop where
  none : n = 0 → mem' = mem
  written : mem'.written.length = mem.written.length + 2 * n
  writes : start.toNat + 2 * n ≤ 2 ^ 32 → Writes (span start.toNat (2 * n)) mem mem'
  bytes : start.toNat + 2 * n ≤ 2 ^ 32 → ∀ i < 2 * n,
    mem'.bytes (start + BitVec.ofNat 32 i) = streamByte words (2 * first + i)

theorem dumpOffset_spec (drive : Drive) (m : DiskMachine) :
    Received m (m.arg 20 >>> 1).toNat (dumpOffset drive m) ∧ (dumpOffset drive m).mem = m.mem := by
  have hdx := computes_setDx m 0x1f0
  have h := (hdx.trans (computes_setEcx _ (m.arg 20))).trans (computes_setEcx _ (m.arg 20 >>> 1))
  have hstart := h.received (by rw [ebx_setEcx, ebx_setEcx, ebx_setDx])
    (by rw [dx_setEcx, dx_setEcx, dx_setDx])
  unfold dumpOffset
  dsimp only
  rw [hdx.arg, ecx_setEcx, ecx_setEcx]
  generalize ((m.setDx 0x1f0).setEcx (m.arg 20)).setEcx (m.arg 20 >>> 1) = m₁ at *
  by_cases hzero : m.arg 20 >>> 1 = 0
  · rw [if_pos hzero, hzero]
    exact ⟨hstart, h.mem⟩
  · rw [if_neg hzero]
    rcases dumpLoop_spec drive (m.arg 20 >>> 1).toNat hstart.dx with ⟨hloop, hmem⟩
    refine ⟨?_, hmem.trans h.mem⟩
    have hall := hstart.trans hloop
    rw [Nat.zero_add] at hall
    exact hall

theorem writeData_spec (drive : Drive) (hdx : m.dx = 0x1f0) :
    Received m (m.arg 16 >>> 1).toNat (writeData drive m) ∧
      Stored (drive.stream m.ports) m.dataReads (m.arg 24) (m.arg 16 >>> 1).toNat m.mem
        (writeData drive m).mem := by
  have h := (computes_setEcx m (m.arg 16 >>> 1)).trans (computes_setEdi _ (m.arg 24))
  have hstart := h.received (by rw [ebx_setEdi, ebx_setEcx]) (by rw [dx_setEdi, dx_setEcx, hdx])
  have hedi := edi_setEdi (m.setEcx (m.arg 16 >>> 1)) (m.arg 24)
  unfold writeData
  simp only [ecx_setEcx, ecx_setEdi, arg_setEcx, setEcx_setEcx]
  generalize (m.setEcx (m.arg 16 >>> 1)).setEdi (m.arg 24) = m₁ at *
  generalize (m.arg 16 >>> 1).toNat = n
  rcases repInsw_spec drive n hstart.dx with ⟨hloop, hwritten⟩
  have hall := hstart.trans hloop
  rw [Nat.zero_add] at hall
  refine ⟨hall, fun hn => ?_, ?_, fun hw => ?_, fun hw i hi => ?_⟩
  · subst hn
    exact h.mem
  · rw [hwritten, h.mem]
  · have hwrites := writes_repInsw drive n hstart.dx (by rw [hedi]; exact hw)
    rw [hedi, h.mem] at hwrites
    exact hwrites
  · have hbytes := repInsw_bytes drive n hstart.dx (by rw [hedi]; exact hw) hi
    rw [hedi, h.ports, h.dataReads] at hbytes
    exact hbytes

/-- The words `.dump_remains` finds to be left. -/
def remains (ebx length offset : UDword) : UDword := ((ebx >>> 9) - length - offset) >>> 1

theorem dumpRemains_spec (drive : Drive) (hdx : m.dx = 0x1f0) :
    Received m (remains m.general.ebx (m.arg 16) (m.arg 20)).toNat (dumpRemains drive m) ∧
      (dumpRemains drive m).mem = m.mem := by
  have h := computes_setEcx m (remains m.general.ebx (m.arg 16) (m.arg 20))
  have hstart := h.received (ebx_setEcx m _) hdx
  unfold dumpRemains
  simp only [ecx_setEcx, arg_setEcx, setEcx_setEcx]
  rw [← remains]
  by_cases hzero : remains m.general.ebx (m.arg 16) (m.arg 20) = 0
  · rw [if_pos hzero]
    rw [hzero] at hstart h ⊢
    exact ⟨hstart, h.mem⟩
  · rw [if_neg hzero]
    generalize m.setEcx (remains m.general.ebx (m.arg 16) (m.arg 20)) = m₁ at *
    rcases dumpLoop_spec drive (remains m.general.ebx (m.arg 16) (m.arg 20)).toNat hstart.dx
      with ⟨hloop, hmem⟩
    generalize dumpLoop drive (remains m.general.ebx (m.arg 16) (m.arg 20)).toNat m₁ = m₂ at *
    have hax := (computes_setAx m₂ 0).received rfl hloop.dx
    have hall := (hstart.trans hloop).trans hax
    rw [Nat.zero_add] at hall
    exact ⟨hall, hmem.trans h.mem⟩

/-- With the sum that setting up has shifted, for what fits: nothing. -/
theorem remains_eq_zero {length offset : UDword} (h : length.toNat + offset.toNat < 2 ^ 23) :
    remains ((length + offset) <<< 9) length offset = 0 := by
  have hsum : ((length + offset) <<< 9) >>> 9 = length + offset := by
    apply BitVec.eq_of_toNat_eq
    rw [BitVec.toNat_ushiftRight, BitVec.toNat_shiftLeft, BitVec.toNat_add, Nat.shiftLeft_eq,
      Nat.shiftRight_eq_div_pow, Nat.mod_eq_of_lt (a := length.toNat + offset.toNat) (by omega)]
    omega
  unfold remains
  rw [hsum, BitVec.add_comm, BitVec.add_sub_cancel, BitVec.sub_self]
  rfl

/-! ## The whole of `read_disk` -/

/-- The words of the data port that the call takes. -/
def wordsRead (c : DiskCall) : ℕ :=
  (c.offset >>> 1).toNat + (c.length >>> 1).toNat +
    (remains ((c.length + c.offset) <<< 9) c.length c.offset).toNat

/-- What was sent to the drive before it was polled. -/
structure Programmed (c : DiskCall) (ports : UWord → UByte) : Prop where
  count : ports 0x1f2 = 0
  lba : ports 0x1f3 = c.address.setWidth 8 ∧ ports 0x1f4 = (c.address >>> 8).setWidth 8 ∧
    ports 0x1f5 = (c.address >>> 16).setWidth 8 ∧
    ports 0x1f6 = (c.address >>> 24).setWidth 8 ||| 0xe0
  command : ports 0x1f7 = 0x20

/-- The call has returned after its reading. -/
structure Completed (drive : Drive) (c : DiskCall) (p : Processor) (m m' : DiskMachine) : Prop where
  processor : m'.processor = c.exit p
  programmed : Programmed c m'.ports
  dataReads : m'.dataReads = m.dataReads + wordsRead c
  stored : Stored (drive.stream m'.ports) (m.dataReads + (c.offset >>> 1).toNat) c.buffer
    (c.length >>> 1).toNat m.mem m'.mem

/-- The call has returned after an error. -/
structure Failed (c : DiskCall) (p : Processor) (m m' : DiskMachine) : Prop where
  processor : m'.processor = c.exit p
  programmed : Programmed c m'.ports
  dataReads : m'.dataReads = m.dataReads
  mem : m'.mem = m.mem

/-- The arguments, as the function reads them. -/
theorem args_enter (hp : m.processor = c.entry p) : m.enter.arg 8 = c.address ∧
    m.enter.arg 16 = c.length ∧ m.enter.arg 20 = c.offset ∧ m.enter.arg 24 = c.buffer :=
  have hlength := c.length_arguments
  ⟨arg_enter (i := 0) hp (by omega), arg_enter (i := 2) hp (by omega),
    arg_enter (i := 3) hp (by omega), arg_enter (i := 4) hp (by omega)⟩

theorem SetUp.programmed (hp : m.processor = c.entry p) (h : SetUp m.enter m') :
    Programmed c m'.ports := by
  have hlba := h.lba
  rw [(args_enter hp).1] at hlba
  exact ⟨h.count, hlba, h.command⟩

/-- From `.ready` on. -/
theorem completed_of_setUp (hp : m.processor = c.entry p) {m₁ m₂ : DiskMachine}
    (hsetUp : SetUp m.enter m₁) (hpolled : Polled m₁ n m₂) :
    Completed drive c p m (dumpRemains drive (writeData drive (dumpOffset drive m₂))).leave := by
  rcases args_enter hp with ⟨-, hlength, hoffset, hbuffer⟩
  have hkeeps := hsetUp.keeps.trans hpolled.toKeeps
  have hprogrammed := hsetUp.programmed hp
  -- each of the three loops reads its words from where the one before has stopped
  rcases dumpOffset_spec drive m₂ with ⟨hskipped, hmem⟩
  have hkeeps' := hkeeps.trans hskipped.toKeeps
  have hebx := hskipped.ebx
  rw [hpolled.ebx, hsetUp.ebx, hlength, hoffset] at hebx
  rw [hkeeps.arg, hoffset] at hskipped
  generalize dumpOffset drive m₂ = m₃ at *
  rcases writeData_spec drive hskipped.dx with ⟨hread, hstored⟩
  have hkeeps'' := hkeeps'.trans hread.toKeeps
  rw [hkeeps'.arg, hkeeps'.arg, hlength, hbuffer] at hstored
  rw [hkeeps'.arg, hlength] at hread
  generalize writeData drive m₃ = m₄ at *
  rcases dumpRemains_spec drive hread.dx with ⟨hrest, hmem'⟩
  rw [hread.ebx, hebx, hkeeps''.arg, hkeeps''.arg, hlength, hoffset] at hrest
  generalize dumpRemains drive m₄ = m₅ at *
  rw [leave_spec hp (hkeeps''.trans hrest.toKeeps)]
  have hports : m₅.ports = m₁.ports := by
    rw [hrest.ports, hread.ports, hskipped.ports, hpolled.ports]
  refine ⟨rfl, ?_, ?_, ?_⟩
  · show Programmed c m₅.ports
    rw [hports]
    exact hprogrammed
  · show m₅.dataReads = _
    rw [hrest.dataReads, hread.dataReads, hskipped.dataReads, hpolled.dataReads, hsetUp.dataReads]
    unfold wordsRead
    show m.dataReads + _ + _ + _ = _
    omega
  · show Stored (drive.stream m₅.ports) _ _ _ _ m₅.mem
    rw [hmem', hrest.ports, hread.ports]
    rw [hmem, hpolled.mem, hsetUp.mem, hskipped.dataReads, hpolled.dataReads,
      hsetUp.dataReads] at hstored
    exact hstored

/-- From the labels of the errors on. -/
theorem failed_of_setUp (hp : m.processor = c.entry p) {m₁ m₂ : DiskMachine}
    (hsetUp : SetUp m.enter m₁) (hpolled : Polled m₁ n m₂) (hcomputes : Computes m₂ m') :
    Failed c p m m'.leave := by
  have hkeeps := (hsetUp.keeps.trans hpolled.toKeeps).trans hcomputes.toKeeps
  have hprogrammed := hsetUp.programmed hp
  rw [leave_spec hp hkeeps]
  refine ⟨rfl, ?_, ?_, ?_⟩
  · show Programmed c m'.ports
    rw [hcomputes.ports, hpolled.ports]
    exact hprogrammed
  · show m'.dataReads = _
    rw [hcomputes.dataReads, hpolled.dataReads, hsetUp.dataReads]
    rfl
  · show m'.mem = _
    rw [hcomputes.mem, hpolled.mem, hsetUp.mem]
    rfl

theorem computes_generalError (drive : Drive) (m : DiskMachine) :
    Computes m (generalError drive m) := by
  have h := computes_setDx m 0x1f1
  have hdx := dx_setDx m 0x1f1
  unfold generalError
  generalize m.setDx 0x1f1 = m₁ at *
  have hword : m₁.inWord drive = (drive.error, m₁) := by
    unfold inWord
    rw [if_neg (by rw [hdx]; decide), if_pos hdx]
  unfold inAx
  rw [hword]
  exact h.trans (computes_setAx m₁ drive.error)

/-- The drive lets the call read: at last a status without BSY, then one with DRQ. -/
def Served (drive : Drive) (start : ℕ) : Prop :=
  ∃ i j, LeavesAfter drive busyExit start i .ready ∧
    LeavesAfter drive readyExit (start + (i + 1)) j ()

/-- The drive shows an error before it shows a status without BSY. -/
def BusyFault (drive : Drive) (start : ℕ) : Prop :=
  ∃ i e, LeavesAfter drive busyExit start i e ∧ e ≠ .ready

/-- Not both. -/
theorem not_served_of_busyFault {start : ℕ} (h : BusyFault drive start) :
    ¬ Served drive start := by
  rcases h with ⟨i, e, hleaves, hne⟩
  rintro ⟨i', j, hready, -⟩
  exact hne (hleaves.unique hready).2

/-- **The runs that end**: they are those the drive serves and those it stops. -/
theorem readDisk_cases (hp : m.processor = c.entry p) (hrun : readDisk drive fuel m = some m') :
    (Served drive m.statusReads ∧ Completed drive c p m m') ∨
      (BusyFault drive m.statusReads ∧ Failed c p m m') := by
  have hsetUp := setupReading_spec m.enter
  unfold readDisk at hrun
  rw [busy_eq_poll] at hrun
  generalize m.enter.sectors.setupReading = m₁ at *
  have hstart : m₁.statusReads = m.statusReads := hsetUp.statusReads
  cases hbusy : poll drive busyExit fuel m₁ with
  | none =>
    rw [hbusy] at hrun
    cases hrun
  | some r =>
    rcases r with ⟨e, m₂⟩
    rcases (poll_spec busyExit hsetUp.dx).2 e m₂ hbusy with ⟨i, hleaves, hpolled⟩
    rw [hstart] at hleaves
    rw [hbusy] at hrun
    cases e with
    | ready =>
      -- `.ready` polls the same port again
      have hdx : m₂.dx = 0x1f7 := hpolled.dx.trans hsetUp.dx
      change (ready drive fuel m₂).bind _ = _ at hrun
      rw [ready_eq_poll] at hrun
      cases hready : poll drive readyExit fuel m₂ with
      | none =>
        rw [hready] at hrun
        cases hrun
      | some r =>
        rcases r with ⟨u, m₃⟩
        rcases (poll_spec readyExit hdx).2 u m₃ hready with ⟨j, hleaves', hpolled'⟩
        rw [hpolled.statusReads, hstart] at hleaves'
        rw [hready] at hrun
        have hm' := Option.some.inj hrun
        subst hm'
        exact Or.inl ⟨⟨i, j, hleaves, hleaves'⟩,
          completed_of_setUp hp hsetUp (hpolled.trans hpolled')⟩
    | generalError =>
      have hm' := Option.some.inj hrun
      subst hm'
      exact Or.inr ⟨⟨i, _, hleaves, by decide⟩,
        failed_of_setUp hp hsetUp hpolled (computes_generalError drive m₂)⟩
    | driveFaultError =>
      have hm' := Option.some.inj hrun
      subst hm'
      exact Or.inr ⟨⟨i, _, hleaves, by decide⟩,
        failed_of_setUp hp hsetUp hpolled (computes_setAx m₂ 0x10)⟩

/-- Both kinds do end. -/
theorem readDisk_returns {start : ℕ} (h : Served drive start ∨ BusyFault drive start) :
    ∃ enough, ∀ fuel, enough ≤ fuel → ∀ m : DiskMachine, m.statusReads = start →
      ∃ m', readDisk drive fuel m = some m' := by
  rcases h with ⟨i, j, hleaves, hleaves'⟩ | ⟨i, e, hleaves, hne⟩
  · -- the first loop leaves after `i` polls, the second after another `j`
    refine ⟨i + j + 1, fun fuel hfuel m hstart => ?_⟩
    have hsetUp := setupReading_spec m.enter
    have hreads : m.enter.sectors.setupReading.statusReads = start :=
      hsetUp.statusReads.trans hstart
    unfold readDisk
    generalize m.enter.sectors.setupReading = m₁ at *
    rw [← hreads] at hleaves
    rcases (poll_spec busyExit hsetUp.dx).1 i .ready hleaves (by omega : i < fuel)
      with ⟨m₂, hbusy, hpolled⟩
    have hdx : m₂.dx = 0x1f7 := hpolled.dx.trans hsetUp.dx
    rw [← hreads, ← hpolled.statusReads] at hleaves'
    rcases (poll_spec readyExit hdx).1 j () hleaves' (by omega : j < fuel) with ⟨m₃, hready, -⟩
    refine ⟨(dumpRemains drive (writeData drive (dumpOffset drive m₃))).leave, ?_⟩
    rw [busy_eq_poll, hbusy]
    show (ready drive fuel m₂).bind _ = _
    rw [ready_eq_poll, hready]
    rfl
  · -- the drive reports a fault, and there is no second loop
    refine ⟨i + 1, fun fuel hfuel m hstart => ?_⟩
    have hsetUp := setupReading_spec m.enter
    have hreads : m.enter.sectors.setupReading.statusReads = start :=
      hsetUp.statusReads.trans hstart
    unfold readDisk
    generalize m.enter.sectors.setupReading = m₁ at *
    rw [← hreads] at hleaves
    rcases (poll_spec busyExit hsetUp.dx).1 i e hleaves (by omega : i < fuel)
      with ⟨m₂, hbusy, -⟩
    rw [busy_eq_poll, hbusy]
    cases e with
    | ready => exact absurd rfl hne
    | generalError => exact ⟨_, rfl⟩
    | driveFaultError => exact ⟨_, rfl⟩

end Runs

end DiskMachine

end MushOS
