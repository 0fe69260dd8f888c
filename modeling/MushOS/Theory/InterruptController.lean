import Mathlib.Data.Finset.Basic
import Mathlib.Data.Fintype.Basic
import Mathlib.Tactic
import Mathlib.Tactic.DeriveFintype

/-! # Interrupt controllers

A controller has eight lines. A line that requests an interrupt waits until the processor
takes it; it is then in service until the processor ends it, and meanwhile keeps lines of its
own and of a lower priority waiting. Line 0 has the highest priority. Devices request by edges,
so a request while one is waiting is not another one.

A second controller may sit behind one of the lines of the first (`Pair`). Its lines then have
the priority of that line.

A controller whose lines are not in service is quiet. What matters for the code of a kernel:
a quiet pair offers the waiting line of the highest priority (`Pair.next_eq_some_iff`), and is
quiet again when the interrupts of one line have been ended at both of the controllers it goes
through (`Pair.serve_master`, `Pair.serve_slave`).
-/

namespace InterruptController

abbrev Byte := BitVec 8

/-! ## One controller -/

/-- What a write to the data port means. -/
inductive Phase where
  | ready
  | vector
  | wiring
  | mode
deriving DecidableEq, Repr

structure Controller where
  phase : Phase
  single : Bool
  needsMode : Bool
  /-- Lines are not in service after they have been taken. -/
  automatic : Bool
  offset : Byte
  /-- The lines other controllers are behind, or the line this one is behind. -/
  wiring : Byte
  mask : Byte
  requested : Finset (Fin 8)
  inService : Finset (Fin 8)

namespace Controller

/-- The end of the interrupt of the highest priority. -/
def endOfInterrupt (c : Controller) : Controller :=
  match Fin.find? (· ∈ c.inService) with
  | some k => { c with inService := c.inService.erase k }
  | none => c

/-- A write to the command port: the start of an initialisation, the end of an interrupt, or
something else, which changes nothing that is modelled. -/
def command (w : Byte) (c : Controller) : Controller :=
  if w.getLsbD 4 then
    { c with
      phase := .vector
      single := w.getLsbD 1
      needsMode := w.getLsbD 0
      automatic := false
      mask := 0
      requested := ∅
      inService := ∅ }
  else if w = 0x20 then c.endOfInterrupt
  else c

/-- A write to the data port. -/
def data (w : Byte) (c : Controller) : Controller :=
  match c.phase with
  | .ready => { c with mask := w }
  | .vector =>
    { c with
      offset := w &&& 0xf8
      phase := if !c.single then .wiring else if c.needsMode then .mode else .ready }
  | .wiring => { c with wiring := w, phase := if c.needsMode then .mode else .ready }
  | .mode => { c with automatic := w.getLsbD 1, phase := .ready }

/-- The line may interrupt now. -/
def Eligible (c : Controller) (k : Fin 8) : Prop :=
  k ∈ c.requested ∧ c.mask.getLsbD k = false ∧ ∀ j ∈ c.inService, k < j

instance (c : Controller) (k : Fin 8) : Decidable (c.Eligible k) :=
  inferInstanceAs (Decidable (_ ∧ _))

/-- The line the controller offers. -/
def next (c : Controller) : Option (Fin 8) := Fin.find? fun k => decide (c.Eligible k)

def request (k : Fin 8) (c : Controller) : Controller :=
  { c with requested := insert k c.requested }

/-- The processor takes line `k`. -/
def acknowledge (k : Fin 8) (c : Controller) : Controller :=
  { c with
    requested := c.requested.erase k
    inService := if c.automatic then c.inService else insert k c.inService }

/-- The vector of a line. -/
def vectorOf (c : Controller) (k : Fin 8) : Byte := c.offset + BitVec.ofNat 8 k

/-- Initialised, with nothing in service. -/
structure Quiet (c : Controller) : Prop where
  phase : c.phase = .ready
  automatic : c.automatic = false
  inService : c.inService = ∅

section
variable {c : Controller} {k : Fin 8}

theorem next_eq_some_iff : c.next = some k ↔ c.Eligible k ∧ ∀ j, c.Eligible j → k ≤ j := by
  unfold next
  rw [Fin.find?_eq_some_iff]
  constructor
  · rintro ⟨hk, hleast⟩
    refine ⟨of_decide_eq_true hk, fun j hj => ?_⟩
    by_contra hlt
    exact of_decide_eq_false (hleast j (not_le.mp hlt)) hj
  · rintro ⟨hk, hleast⟩
    refine ⟨decide_eq_true hk, fun j hlt => decide_eq_false fun hj => ?_⟩
    exact absurd hlt (not_lt.mpr (hleast j hj))

theorem isSome_next_iff : c.next.isSome ↔ ∃ k, c.Eligible k := by
  unfold next
  rw [Fin.isSome_find?_iff]
  simp

theorem Quiet.eligible_iff (hq : c.Quiet) :
    c.Eligible k ↔ k ∈ c.requested ∧ c.mask.getLsbD k = false := by
  unfold Eligible
  rw [hq.inService]
  simp

/-- Taking a line and ending its interrupt leaves a quiet controller without the request. -/
theorem Quiet.serve (hq : c.Quiet) (k : Fin 8) :
    (c.acknowledge k).endOfInterrupt = { c with requested := c.requested.erase k } := by
  have hservice : (c.acknowledge k).inService = {k} := by
    unfold acknowledge
    simp [hq.automatic, hq.inService]
  have hfind : Fin.find? (fun j => decide (j ∈ (c.acknowledge k).inService)) = some k := by
    rw [Fin.find?_eq_some_iff, hservice]
    refine ⟨by simp, fun j hj => ?_⟩
    simp [hj.ne]
  unfold endOfInterrupt
  rw [hfind]
  show { c.acknowledge k with inService := (c.acknowledge k).inService.erase k } = _
  rw [hservice, Finset.erase_singleton, ← hq.inService]
  rfl

end

end Controller

/-! ## Two controllers -/

structure Pair where
  master : Controller
  slave : Controller

/-- A line of one of the two. -/
inductive Line where
  | master (k : Fin 8)
  | slave (k : Fin 8)
deriving DecidableEq, Repr, Fintype

/-- The lines in the order of their priorities, with the slave behind line `wire`. -/
def Line.rank (wire : Fin 8) : Line → ℕ
  | .master k => 8 * k
  | .slave k => 8 * wire + k

namespace Pair

/-- The master, with the line the slave requests. -/
def wired (wire : Fin 8) (p : Pair) : Controller :=
  if p.slave.next.isSome then p.master.request wire else p.master

/-- Both have been told where the slave is. -/
def Connected (wire : Fin 8) (p : Pair) : Prop :=
  p.master.wiring.getLsbD wire = true ∧ p.slave.wiring = BitVec.ofNat 8 wire

instance (wire : Fin 8) (p : Pair) : Decidable (p.Connected wire) :=
  inferInstanceAs (Decidable (_ ∧ _))

/-- The line the pair offers. -/
def next (wire : Fin 8) (p : Pair) : Option Line :=
  (p.wired wire).next.bind fun k =>
    if k = wire ∧ p.Connected wire then p.slave.next.map Line.slave else some (Line.master k)

def request (p : Pair) : Line → Pair
  | .master k => { p with master := p.master.request k }
  | .slave k => { p with slave := p.slave.request k }

/-- The processor takes a line: the vector, and the pair. -/
def acknowledge (wire : Fin 8) (p : Pair) : Line → Byte × Pair
  | .master k => (p.master.vectorOf k, { p with master := p.master.acknowledge k })
  | .slave k => (p.slave.vectorOf k, ⟨p.master.acknowledge wire, p.slave.acknowledge k⟩)

/-- The line has requested. -/
def Pending (p : Pair) : Line → Prop
  | .master k => k ∈ p.master.requested
  | .slave k => k ∈ p.slave.requested

instance (p : Pair) (l : Line) : Decidable (p.Pending l) := by
  unfold Pending
  cases l <;> infer_instance

/-- The line is not masked, and neither is the one it goes through. -/
def Open (wire : Fin 8) (p : Pair) : Line → Prop
  | .master k => p.master.mask.getLsbD k = false
  | .slave k => p.slave.mask.getLsbD k = false ∧ p.master.mask.getLsbD wire = false

instance (wire : Fin 8) (p : Pair) (l : Line) : Decidable (p.Open wire l) := by
  unfold Open
  cases l <;> infer_instance

/-- The line has requested, and is not masked. -/
def Waiting (wire : Fin 8) (p : Pair) (l : Line) : Prop := p.Pending l ∧ p.Open wire l

instance (wire : Fin 8) (p : Pair) (l : Line) : Decidable (p.Waiting wire l) :=
  inferInstanceAs (Decidable (_ ∧ _))

/-- Initialised, with nothing in service, and no device on the line of the slave. -/
structure Quiet (wire : Fin 8) (p : Pair) : Prop where
  master : p.master.Quiet
  slave : p.slave.Quiet
  connected : p.Connected wire
  wire : wire ∉ p.master.requested

/-- The pair without a request. -/
def drop (p : Pair) : Line → Pair
  | .master k => { p with master := { p.master with requested := p.master.requested.erase k } }
  | .slave k => { p with slave := { p.slave with requested := p.slave.requested.erase k } }

section
variable {wire k : Fin 8} {p : Pair} {l : Line}

/-- What a line of the master needs. -/
theorem Quiet.eligible_master (hq : p.Quiet wire) (hne : k ≠ wire) :
    (p.wired wire).Eligible k ↔ p.Waiting wire (.master k) := by
  unfold wired Waiting
  by_cases hslave : p.slave.next.isSome
  · have hquiet : (p.master.request wire).Quiet := ⟨hq.master.phase, hq.master.automatic,
      hq.master.inService⟩
    rw [if_pos hslave, hquiet.eligible_iff]
    unfold Controller.request Pending Open
    simp [hne]
  · rw [if_neg hslave, hq.master.eligible_iff]
    rfl

/-- The line of the slave is requested when one of the slave's lines is. -/
theorem Quiet.eligible_wire (hq : p.Quiet wire) :
    (p.wired wire).Eligible wire ↔ ∃ j, p.Waiting wire (.slave j) := by
  have hquiet : (p.master.request wire).Quiet := ⟨hq.master.phase, hq.master.automatic,
    hq.master.inService⟩
  unfold wired
  by_cases hslave : p.slave.next.isSome
  · rw [if_pos hslave, hquiet.eligible_iff]
    rcases Controller.isSome_next_iff.mp hslave with ⟨j, hj⟩
    rw [hq.slave.eligible_iff] at hj
    constructor
    · rintro ⟨-, hmask⟩
      exact ⟨j, hj.1, hj.2, hmask⟩
    · rintro ⟨i, -, -, hmask⟩
      exact ⟨Finset.mem_insert_self _ _, hmask⟩
  · rw [if_neg hslave, hq.master.eligible_iff]
    constructor
    · rintro ⟨hmem, -⟩
      exact absurd hmem hq.wire
    · rintro ⟨j, hpending, hopen, -⟩
      refine absurd (Controller.isSome_next_iff.mpr ⟨j, ?_⟩) hslave
      exact hq.slave.eligible_iff.mpr ⟨hpending, hopen⟩

theorem Quiet.ne_wire (hq : p.Quiet wire) (hw : p.Waiting wire (.master k)) : k ≠ wire := by
  rintro rfl
  exact hq.wire hw.1

/-- A line of the master is offered when it is before the others. -/
theorem Quiet.next_master_iff (hq : p.Quiet wire) :
    p.next wire = some (.master k) ↔ (p.wired wire).next = some k ∧ k ≠ wire := by
  unfold next
  rw [Option.bind_eq_some_iff]
  constructor
  · rintro ⟨j, hj, hline⟩
    by_cases hwire : j = wire
    · rw [if_pos ⟨hwire, hq.connected⟩] at hline
      simp at hline
    · rw [if_neg fun h => hwire h.1, Option.some.injEq, Line.master.injEq] at hline
      subst hline
      exact ⟨hj, hwire⟩
  · rintro ⟨hk, hne⟩
    exact ⟨k, hk, if_neg fun h => hne h.1⟩

/-- A line of the slave is offered through the line of the slave. -/
theorem Quiet.next_slave_iff (hq : p.Quiet wire) :
    p.next wire = some (.slave k) ↔ (p.wired wire).next = some wire ∧ p.slave.next = some k := by
  unfold next
  rw [Option.bind_eq_some_iff]
  constructor
  · rintro ⟨j, hj, hline⟩
    by_cases hwire : j = wire
    · subst hwire
      rw [if_pos ⟨rfl, hq.connected⟩, Option.map_eq_some_iff] at hline
      rcases hline with ⟨i, hi, heq⟩
      rw [Line.slave.injEq] at heq
      subst heq
      exact ⟨hj, hi⟩
    · rw [if_neg fun h => hwire h.1] at hline
      simp at hline
  · rintro ⟨hwire, hk⟩
    refine ⟨wire, hwire, ?_⟩
    rw [if_pos ⟨rfl, hq.connected⟩, hk]
    rfl

/-- **A quiet pair offers the waiting line of the highest priority.** -/
theorem Quiet.next_eq_some_iff (hq : p.Quiet wire) :
    p.next wire = some l ↔
      p.Waiting wire l ∧ ∀ l', p.Waiting wire l' → l.rank wire ≤ l'.rank wire := by
  cases l with
  | master k =>
    rw [hq.next_master_iff, Controller.next_eq_some_iff]
    constructor
    · rintro ⟨⟨hk, hleast⟩, hne⟩
      refine ⟨(hq.eligible_master hne).mp hk, ?_⟩
      intro l' hl'
      cases l' with
      | master j =>
        have hle := hleast j ((hq.eligible_master (hq.ne_wire hl')).mpr hl')
        exact Nat.mul_le_mul_left 8 hle
      | slave j =>
        -- the line of the slave comes later, and so do those behind it
        have hle : (k : ℕ) ≤ wire := hleast wire (hq.eligible_wire.mpr ⟨j, hl'⟩)
        show 8 * (k : ℕ) ≤ 8 * wire + j
        omega
    · rintro ⟨hk, hleast⟩
      have hne := hq.ne_wire hk
      refine ⟨⟨(hq.eligible_master hne).mpr hk, ?_⟩, hne⟩
      intro j hj
      by_cases hwire : j = wire
      · subst hwire
        rcases hq.eligible_wire.mp hj with ⟨i, hi⟩
        have hle : 8 * (k : ℕ) ≤ 8 * j + i := hleast _ hi
        have hlt := i.isLt
        exact Fin.le_def.mpr (by omega)
      · have hle : 8 * (k : ℕ) ≤ 8 * j := hleast _ ((hq.eligible_master hwire).mp hj)
        exact Fin.le_def.mpr (by omega)
  | slave k =>
    rw [hq.next_slave_iff, Controller.next_eq_some_iff, Controller.next_eq_some_iff]
    constructor
    · rintro ⟨⟨hwire, hleast⟩, hk, hleast'⟩
      rcases hq.eligible_wire.mp hwire with ⟨i, -, -, hopen⟩
      have hk' := hq.slave.eligible_iff.mp hk
      refine ⟨⟨hk'.1, hk'.2, hopen⟩, ?_⟩
      intro l' hl'
      cases l' with
      | master j =>
        have hne := hq.ne_wire hl'
        have hle : (wire : ℕ) ≤ j := hleast j ((hq.eligible_master hne).mpr hl')
        have hne' : (j : ℕ) ≠ wire := fun heq => hne (Fin.ext heq)
        have hlt := k.isLt
        show 8 * (wire : ℕ) + k ≤ 8 * j
        omega
      | slave j =>
        have hle : (k : ℕ) ≤ j := hleast' j (hq.slave.eligible_iff.mpr ⟨hl'.1, hl'.2.1⟩)
        show 8 * (wire : ℕ) + k ≤ 8 * wire + j
        omega
    · rintro ⟨hk, hleast⟩
      refine ⟨⟨hq.eligible_wire.mpr ⟨k, hk⟩, ?_⟩, hq.slave.eligible_iff.mpr ⟨hk.1, hk.2.1⟩, ?_⟩
      · intro j hj
        by_cases hwire : j = wire
        · exact hwire.ge
        · have hle : 8 * (wire : ℕ) + k ≤ 8 * j := hleast _ ((hq.eligible_master hwire).mp hj)
          exact Fin.le_def.mpr (by omega)
      · intro j hj
        have hj' := hq.slave.eligible_iff.mp hj
        have hle : 8 * (wire : ℕ) + k ≤ 8 * wire + j := hleast (.slave j) ⟨hj'.1, hj'.2, hk.2.2⟩
        exact Fin.le_def.mpr (by omega)

/-- A line of the master has been served when it has been ended there. -/
theorem Quiet.serve_master (hq : p.Quiet wire) :
    { (p.acknowledge wire (.master k)).2 with
      master := (p.acknowledge wire (.master k)).2.master.endOfInterrupt } =
          p.drop (.master k) := by
  show Pair.mk (p.master.acknowledge k).endOfInterrupt p.slave = _
  rw [hq.master.serve]
  rfl

/-- A line of the slave has been served when it has been ended at both. -/
theorem Quiet.serve_slave (hq : p.Quiet wire) :
    Pair.mk (p.acknowledge wire (.slave k)).2.master.endOfInterrupt
      (p.acknowledge wire (.slave k)).2.slave.endOfInterrupt = p.drop (.slave k) := by
  show Pair.mk (p.master.acknowledge wire).endOfInterrupt (p.slave.acknowledge k).endOfInterrupt = _
  rw [hq.master.serve, hq.slave.serve, Finset.erase_eq_of_notMem hq.wire]
  rfl

theorem Quiet.drop (hq : p.Quiet wire) (l : Line) : (p.drop l).Quiet wire := by
  cases l with
  | master k =>
    exact ⟨⟨hq.master.phase, hq.master.automatic, hq.master.inService⟩, hq.slave, hq.connected,
      fun hmem => hq.wire (Finset.mem_of_mem_erase hmem)⟩
  | slave k =>
    exact ⟨hq.master, ⟨hq.slave.phase, hq.slave.automatic, hq.slave.inService⟩, hq.connected,
      hq.wire⟩

theorem Quiet.request (hq : p.Quiet wire) (hne : l ≠ .master wire) : (p.request l).Quiet wire := by
  cases l with
  | master k =>
    refine ⟨⟨hq.master.phase, hq.master.automatic, hq.master.inService⟩, hq.slave,
      hq.connected, ?_⟩
    intro hmem
    rcases Finset.mem_insert.mp hmem with rfl | hmem
    · exact hne rfl
    · exact hq.wire hmem
  | slave k =>
    exact ⟨hq.master, ⟨hq.slave.phase, hq.slave.automatic, hq.slave.inService⟩, hq.connected,
      hq.wire⟩

theorem pending_drop {l' : Line} : (p.drop l).Pending l' ↔ p.Pending l' ∧ l' ≠ l := by
  cases l <;> cases l' <;> simp [Pair.drop, Pending, and_comm]

theorem pending_request {l' : Line} : (p.request l).Pending l' ↔ p.Pending l' ∨ l' = l := by
  cases l <;> cases l' <;> simp [Pair.request, Pending, Controller.request, or_comm]

end

end Pair

end InterruptController
