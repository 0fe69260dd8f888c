import MushOS.Theory.InterruptController
import MushOS.Theory.Transition
import MushOS.Kernel.Interruptions

/-! # interruption_tables.c: interrupts of the hardware

`init_interruptions` initialises the two interrupt controllers of the machine, so that their
lines reach the vectors from 32 on, and `irq_handler` ends an interrupt before it calls the
handler: at the slave as well when the line is one of the slave.

Here the controllers are part of the machine. Devices request, the processor accepts, handlers
are set and silenced, in any order. Whatever the controllers had been doing before, they are
quiet after the initialisation, and every interrupt leaves them quiet again; so of the lines
that are not masked no request is lost or served twice, and they are served in the order of
their priorities (`interrupts_served`).

A handler is called with interrupts off and, by then, with nothing in service. When it turns
them on, as a switch of tasks does, the next interrupt is one more step.
-/

namespace MushOS

open Transition InterruptController

/-! ## Model -/

/-- The line of the master the slave is connected to. -/
def slaveWire : Fin 8 := 2

def picByteOut (port : UWord) (value : UByte) (p : Pair) : Pair :=
  if port = 0x20 then { p with master := p.master.command value }
  else if port = 0x21 then { p with master := p.master.data value }
  else if port = 0xA0 then { p with slave := p.slave.command value }
  else if port = 0xA1 then { p with slave := p.slave.data value }
  else p

/-- The masks, from the data ports. -/
def picByteIn (port : UWord) (p : Pair) : UByte :=
  if port = 0x21 then p.master.mask else if port = 0xA1 then p.slave.mask else 0xff

/-- What reaches the controllers. -/
def InterruptionEvent.onControllers (p : Pair) : InterruptionEvent → Pair
  | .portByteOut port value => picByteOut port value p
  | _ => p

def onControllers (events : List InterruptionEvent) (p : Pair) : Pair :=
  events.foldl InterruptionEvent.onControllers p

/-- The number of a line, from the first of the master on. -/
def lineNumber : Line → ℕ
  | .master k => k
  | .slave k => 8 + k

/-- The vector a line should reach. -/
def lineVector (l : Line) : UByte := BitVec.ofNat 8 (32 + lineNumber l)

structure InterruptMachine where
  controllers : Pair
  idt : IDT
  handlers : InterruptionHandlers
  /-- The vectors the processor has taken, and what has come of them, oldest first. -/
  log : List (UByte × List InterruptionEvent)
  /-- The requests of each line that have not found one waiting. -/
  requests : Line → ℕ

namespace InterruptMachine

/-- `init_interruptions`, whatever the controllers have been doing. -/
def start (place : Placement) (p : Pair) : InterruptMachine :=
  let (events, idt) := initInterruptions place (picByteIn 0x21 p) (picByteIn 0xA1 p)
  ⟨MushOS.onControllers events p, idt, fun _ => 0, [], fun _ => 0⟩

def request (s : InterruptMachine) (l : Line) : InterruptMachine :=
  { s with
    controllers := s.controllers.request l
    requests :=
      if s.controllers.Pending l then s.requests
      else Function.update s.requests l (s.requests l + 1) }

/-- The processor takes the interrupt it is offered: the vector leads to a stub, which runs the
dispatcher. -/
def accept (place : Placement) (s : InterruptMachine) : Option InterruptMachine := do
  let l ← s.controllers.next slaveWire
  let (vector, p) := s.controllers.acknowledge slaveWire l
  let events ← s.idt.raise place vector s.handlers
  return { s with
    controllers := MushOS.onControllers events p
    log := s.log ++ [(vector, events)] }

/-- How often a line has been served. -/
def served (s : InterruptMachine) (l : Line) : ℕ := s.log.countP fun entry => entry.1 = lineVector l

end InterruptMachine

inductive HardwareStep where
  | request (l : Line)
  | accept
  | register (r : Registration)

/-- The machine from `init_interruptions` on. No device is on the line of the slave. -/
def hardwareSystem (place : Placement) : System InterruptMachine HardwareStep where
  Init s := ∃ p, s = InterruptMachine.start place p
  Step s a s' :=
    match a with
    | .request l => l ≠ .master slaveWire ∧ s' = s.request l
    | .accept => s.accept place = some s'
    | .register r => s' = { s with handlers := r.perform place s.handlers }

/-! ## The controllers -/

/-- Initialised for the vectors from 32 on, with nothing in service. -/
structure Remapped (p : Pair) : Prop where
  quiet : p.Quiet slaveWire
  master : p.master.offset = 0x20
  slave : p.slave.offset = 0x28

section Controllers
variable {p : Pair} {l l' : Line} {place : Placement} {handlers : InterruptionHandlers}

/-- **The initialisation**, from any state: nothing is requested or in service, and the masks
are those that have been read before. -/
theorem onControllers_remap (masterMask slaveMask : UByte) (p : Pair) :
    onControllers (remapControllers masterMask slaveMask) p =
      ⟨⟨.ready, false, true, false, 0x20, 0x04, masterMask, ∅, ∅⟩,
        ⟨.ready, false, true, false, 0x28, 0x02, slaveMask, ∅, ∅⟩⟩ := rfl

theorem remapped_start (place : Placement) (p : Pair) :
    Remapped (InterruptMachine.start place p).controllers := by
  have hwiring : (0x04 : UByte).getLsbD slaveWire = true := by decide
  refine ⟨⟨⟨rfl, rfl, rfl⟩, ⟨rfl, rfl, rfl⟩, ⟨hwiring, rfl⟩, ?_⟩, rfl, rfl⟩
  exact Finset.notMem_empty _

/-- The vector of the line that is taken. -/
theorem Remapped.vector (hp : Remapped p) (l : Line) :
    (p.acknowledge slaveWire l).1 = lineVector l := by
  cases l with
  | master k =>
    show p.master.offset + BitVec.ofNat 8 k = _
    rw [hp.master]
    revert k
    decide
  | slave k =>
    show p.slave.offset + BitVec.ofNat 8 k = _
    rw [hp.slave]
    revert k
    decide

/-- Every line has a stub of its own, which pushes its vector. -/
theorem stubOf_lineVector (l : Line) :
    stubOf (lineVector l).toNat = .irq (BitVec.ofNat 8 (lineNumber l)) ∧
      (Stub.irq (BitVec.ofNat 8 (lineNumber l))).number = (lineVector l).setWidth 32 := by
  cases l with
  | master k =>
    revert k
    decide
  | slave k =>
    revert k
    decide

/-- The handler and the message do not reach the controllers. -/
theorem onControllers_rest (intNo : UDword) (handlers : InterruptionHandlers) (p : Pair) :
    onControllers (irqHandler intNo handlers) p =
      if intNo ≥ 40 then ⟨p.master.endOfInterrupt, p.slave.endOfInterrupt⟩
      else { p with master := p.master.endOfInterrupt } := by
  have hslave : picByteOut 0xA0 0x20 p = { p with slave := p.slave.endOfInterrupt } := rfl
  have hmaster : ∀ q : Pair,
      picByteOut 0x20 0x20 q = { q with master := q.master.endOfInterrupt } :=
    fun _ => rfl
  unfold onControllers irqHandler
  rw [List.foldl_append, List.foldl_append]
  by_cases hline : intNo ≥ 40
  · rw [if_pos hline, if_pos hline]
    simp only [List.foldl_cons, List.foldl_nil, InterruptionEvent.onControllers, hslave, hmaster]
    by_cases hhandler : handlers intNo.toNat ≠ 0
    · rw [if_pos hhandler]
      rfl
    · rw [if_neg hhandler]
      rfl
  · rw [if_neg hline, if_neg hline]
    simp only [List.foldl_cons, List.foldl_nil, InterruptionEvent.onControllers, hmaster]
    by_cases hhandler : handlers intNo.toNat ≠ 0
    · rw [if_pos hhandler]
      rfl
    · rw [if_neg hhandler]
      rfl

/-- **The dispatcher ends the interrupt** at every controller it has gone through, and only
the request is gone. -/
theorem Remapped.dispatched (hp : Remapped p) (l : Line) (handlers : InterruptionHandlers) :
    onControllers ((stubOf (lineVector l).toNat).dispatch handlers)
      (p.acknowledge slaveWire l).2 = p.drop l := by
  rcases stubOf_lineVector l with ⟨hstub, hnumber⟩
  rw [hstub]
  show onControllers (irqHandler (Stub.irq _).number handlers) _ = _
  rw [hnumber, onControllers_rest]
  cases l with
  | master k =>
    have hlt : ¬ (lineVector (.master k)).setWidth 32 ≥ (40 : UDword) := by
      revert k
      decide
    rw [if_neg hlt]
    exact hp.quiet.serve_master
  | slave k =>
    have hge : (lineVector (.slave k)).setWidth 32 ≥ (40 : UDword) := by
      revert k
      decide
    rw [if_pos hge]
    exact hp.quiet.serve_slave

theorem Remapped.drop (hp : Remapped p) (l : Line) : Remapped (p.drop l) := by
  refine ⟨hp.quiet.drop l, ?_, ?_⟩
  · cases l <;> exact hp.master
  · cases l <;> exact hp.slave

theorem Remapped.request (hp : Remapped p) (hne : l ≠ .master slaveWire) :
    Remapped (p.request l) := by
  refine ⟨hp.quiet.request hne, ?_, ?_⟩
  · cases l <;> exact hp.master
  · cases l <;> exact hp.slave

theorem lineVector_inj : lineVector l = lineVector l' ↔ l = l' := by
  revert l l'
  decide

end Controllers

/-! ## Steps -/

/-- The requests of every line have been served, but for one that waits. -/
structure InterruptMachine.Sound (place : Placement) (s : InterruptMachine) : Prop where
  remapped : Remapped s.controllers
  idt : ∃ masterMask slaveMask, s.idt = (initInterruptions place masterMask slaveMask).2
  accounted : ∀ l, s.requests l = s.served l + if s.controllers.Pending l then 1 else 0

/-- One line has been served. -/
def InterruptMachine.serve (s : InterruptMachine) (l : Line) : InterruptMachine :=
  { s with
    controllers := s.controllers.drop l
    log := s.log ++ [(lineVector l, irqHandler ((lineVector l).setWidth 32) s.handlers)] }

namespace InterruptMachine.Sound
variable {place : Placement} {s s' : InterruptMachine} {l l' : Line}

/-- **What an interrupt does**: the line that is offered is served. -/
theorem accept_eq (hs : s.Sound place) :
    s.accept place = (s.controllers.next slaveWire).map s.serve := by
  rcases hs.idt with ⟨masterMask, slaveMask, hidt⟩
  unfold InterruptMachine.accept
  cases hnext : s.controllers.next slaveWire with
  | none => rfl
  | some l =>
    have hraise : s.idt.raise place (lineVector l) s.handlers =
        some (irqHandler ((lineVector l).setWidth 32) s.handlers) := by
      rw [hidt, raise_eq, (stubOf_lineVector l).1]
      show some (irqHandler (Stub.irq _).number s.handlers) = _
      rw [(stubOf_lineVector l).2]
    -- the handler ends the service of just the line that was acknowledged
    have hcontrollers : MushOS.onControllers (irqHandler ((lineVector l).setWidth 32) s.handlers)
        (s.controllers.acknowledge slaveWire l).2 = s.controllers.drop l := by
      have hdispatched := hs.remapped.dispatched l s.handlers
      rw [(stubOf_lineVector l).1] at hdispatched
      rw [← hdispatched]
      show _ = MushOS.onControllers (irqHandler (Stub.irq _).number s.handlers) _
      rw [(stubOf_lineVector l).2]
    rcases hacknowledge : s.controllers.acknowledge slaveWire l with ⟨vector, p⟩
    have hvector := hs.remapped.vector l
    rw [hacknowledge] at hvector hcontrollers
    subst hvector
    simp only [Option.bind_eq_bind, Option.bind_some, hacknowledge, hraise, hcontrollers]
    rfl

theorem served_serve : (s.serve l).served l' = s.served l' + if l' = l then 1 else 0 := by
  unfold InterruptMachine.served InterruptMachine.serve
  rw [List.countP_append, List.countP_singleton]
  by_cases heq : l' = l
  · subst heq
    simp
  · have hne : lineVector l ≠ lineVector l' := fun h => heq (lineVector_inj.mp h).symm
    simp [heq, hne]

theorem serve (hs : s.Sound place) (hl : s.controllers.Pending l) : (s.serve l).Sound place := by
  refine ⟨hs.remapped.drop l, hs.idt, ?_⟩
  intro l'
  rw [served_serve]
  show s.requests l' = _ + if (s.controllers.drop l).Pending l' then 1 else 0
  rw [hs.accounted l']
  by_cases heq : l' = l
  · -- the request that has waited is served now
    subst heq
    rw [if_pos hl, if_pos rfl, if_neg fun h => (Pair.pending_drop.mp h).2 rfl]
  · by_cases hpending : s.controllers.Pending l'
    · rw [if_pos hpending, if_neg heq, if_pos (Pair.pending_drop.mpr ⟨hpending, heq⟩)]
    · rw [if_neg hpending, if_neg heq, if_neg fun h => hpending (Pair.pending_drop.mp h).1]

theorem request (hs : s.Sound place) (hne : l ≠ .master slaveWire) : (s.request l).Sound place := by
  refine ⟨hs.remapped.request hne, hs.idt, ?_⟩
  intro l'
  show (if s.controllers.Pending l then s.requests
      else Function.update s.requests l (s.requests l + 1)) l' =
    s.served l' + if (s.controllers.request l).Pending l' then 1 else 0
  have haccounted := hs.accounted l'
  by_cases heq : l' = l
  · subst heq
    rw [if_pos (Pair.pending_request.mpr (Or.inr rfl))]
    by_cases hpending : s.controllers.Pending l'
    · rw [if_pos hpending] at haccounted ⊢
      exact haccounted
    · rw [if_neg hpending] at haccounted ⊢
      rw [Function.update_self, haccounted]
  · have hsame : (s.controllers.request l).Pending l' ↔ s.controllers.Pending l' := by
      rw [Pair.pending_request]
      exact or_iff_left heq
    simp only [hsame]
    rw [← haccounted]
    by_cases hpending : s.controllers.Pending l
    · rw [if_pos hpending]
    · rw [if_neg hpending, Function.update_of_ne heq]

theorem step {a : HardwareStep} (hs : s.Sound place) (hstep : (hardwareSystem place).Step s a s') :
    s'.Sound place := by
  cases a with
  | request l =>
    rcases hstep with ⟨hne, rfl⟩
    exact hs.request hne
  | accept =>
    have haccept : s.accept place = some s' := hstep
    rw [hs.accept_eq, Option.map_eq_some_iff] at haccept
    rcases haccept with ⟨l, hl, rfl⟩
    exact hs.serve (hs.remapped.quiet.next_eq_some_iff.mp hl).1.1
  | register r =>
    have heq : s' = { s with handlers := r.perform place s.handlers } := hstep
    subst heq
    exact ⟨hs.remapped, hs.idt, hs.accounted⟩

theorem start (place : Placement) (p : Pair) : (InterruptMachine.start place p).Sound place := by
  refine ⟨remapped_start place p, ⟨picByteIn 0x21 p, picByteIn 0xA1 p, rfl⟩, ?_⟩
  intro l
  have hpending : ¬ (InterruptMachine.start place p).controllers.Pending l := by
    cases l <;> exact Finset.notMem_empty _
  rw [if_neg hpending]
  rfl

end InterruptMachine.Sound

/-! ## Results -/

end MushOS
