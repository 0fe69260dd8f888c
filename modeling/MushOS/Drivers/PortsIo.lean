import MushOS.Theory.Assembly
import MushOS.Drivers.Screen

/-! # ports_io.asm: bytes and words on the ports

The four procedures through which the drivers in C reach their devices. Two of them read and
two of them write, a byte or a word each. They are called the way C calls: the arguments are
above the return address, and the registers are as they were afterwards, but for the low bits
of `eax` after a read. `screen.c` takes them for `portByteIn` and `portByteOut` of its
controller, and with that controller behind the ports they are (`portByteIn_video`,
`portByteOut_video`).
-/

namespace MushOS

open ByteMemory Assembly

/-! ## Model -/

/-- `port_byte_in` and `port_word_in`. -/
def portInCode (width : Width) : List Instruction :=
  [.push .ebp, .mov .ebp .esp, .push .edx, .loadPart .half .edx .ebp 8, .input width, .pop .edx,
    .mov .esp .ebp, .pop .ebp, .ret]

/-- `port_byte_out` and `port_word_out`. -/
def portOutCode (width : Width) : List Instruction :=
  [.push .ebp, .mov .ebp .esp, .push .edx, .push .eax, .loadPart .half .edx .ebp 8,
    .loadPart width .eax .ebp 12, .output width, .pop .eax, .pop .edx,
    .mov .esp .ebp, .pop .ebp, .ret]

def portByteInCode : List Instruction := portInCode .byte
def portByteOutCode : List Instruction := portOutCode .byte
def portWordInCode : List Instruction := portInCode .half
def portWordOutCode : List Instruction := portOutCode .half

/-! ## Parts of a register -/

theorem setWidth_append_low {n k : ℕ} (x : BitVec n) (y : BitVec k) : (x ++ y).setWidth k = y := by
  rw [BitVec.setWidth_append, dif_pos (le_refl k), BitVec.setWidth_eq]

/-- `dx` is the port once the argument has been moved there. -/
theorem setWidth_replace_half (w port : UDword) :
    (Width.half.replace w (Width.half.low port)).setWidth 16 = port.setWidth 16 := by
  refine (setWidth_append_low (w.extractLsb' 16 16) _).trans ?_
  exact BitVec.setWidth_setWidth (by decide)

/-- What is replaced is what is read. -/
theorem low_replace (width : Width) (w v : UDword) :
    width.low (width.replace w (width.low v)) = width.low v := by
  cases width with
  | byte =>
    refine congrArg (BitVec.setWidth 32) ((setWidth_append_low (w.extractLsb' 8 24) _).trans ?_)
    exact BitVec.setWidth_setWidth (by decide)
  | half => exact congrArg (BitVec.setWidth 32) (setWidth_replace_half w v)

section Ports
variable {δ : Type} {P : Platform δ} {A : Area} {m : Mem} {ws : List UDword} {s : Machine δ}
  {returnTo port value : UDword}

/-! ## The procedures -/

/-- **A read**: the port is read once, and its value is in the low bits of `eax`. The other
registers and the stack of the caller are as they were. -/
theorem portIn_steps (width : Width) (h : A.Stacked P m (returnTo :: port :: ws) s)
    (hplace : s.place = .at 0) (hroom : ws.length + 4 ≤ A.size) :
    ∃ m₁, let t : Machine δ := { s with
        registers := { s.registers with
          eax := width.replace s.registers.eax (P.input width (port.setWidth 16) s.devices).1
          esp := s.registers.esp + 4 }
        memory := m₁
        devices := (P.input width (port.setWidth 16) s.devices).2
        place := .outside returnTo }
      Steps P (portInCode width) s t ∧ A.Stacked P m (port :: ws) t := by
  have hcode₀ : (portInCode width)[0]? = some (.push .ebp) := rfl
  have hcode₁ : (portInCode width)[1]? = some (.mov .ebp .esp) := rfl
  have hcode₂ : (portInCode width)[2]? = some (.push .edx) := rfl
  have hcode₃ : (portInCode width)[3]? = some (.loadPart .half .edx .ebp 8) := rfl
  have hcode₄ : (portInCode width)[4]? = some (.input width) := rfl
  have hcode₅ : (portInCode width)[5]? = some (.pop .edx) := rfl
  have hcode₆ : (portInCode width)[6]? = some (.mov .esp .ebp) := rfl
  have hcode₇ : (portInCode width)[7]? = some (.pop .ebp) := rfl
  have hcode₈ : (portInCode width)[8]? = some .ret := rfl
  let value := P.input width (port.setWidth 16) s.devices
  -- the frame, and the register that is used
  rcases h.step_push hplace hcode₀ (by simp; omega) with ⟨m₀, hstep₀, h₀⟩
  let s₁ : Machine δ := { s with
    registers := { s.registers with esp := s.registers.esp - 4, ebp := s.registers.esp - 4 }
    memory := m₀
    place := .at 2 }
  have h₁ : A.Stacked P m (s.registers.ebp :: returnTo :: port :: ws) s₁ := h₀.congr rfl rfl rfl
  rcases h₁.step_push rfl hcode₂ (by simp; omega) with ⟨m₂, hstep₂, h₂⟩
  -- the argument is the word above the return address
  have hargument : s.registers.esp - 4 + 8 = s.registers.esp - 4 - 4 + BitVec.ofNat 32 (4 * 3) := by
    show s.registers.esp - 4 + 8 = s.registers.esp - 4 - 4 + 12
    bv_omega
  have hstep₃ := h₂.step_loadPart rfl hcode₃ (by simp) hargument
  let s₃ : Machine δ := { s with
    registers := { s.registers with
      edx := Width.half.replace s.registers.edx (Width.half.low port)
      esp := s.registers.esp - 4 - 4
      ebp := s.registers.esp - 4 }
    memory := m₂
    place := .at 4 }
  let s₄ : Machine δ := { s₃ with
    registers := { s₃.registers with eax := width.replace s.registers.eax value.1 }
    devices := value.2
    place := .at 5 }
  have hstep₄ : s₃.step P (portInCode width) = some s₄ := by
    rw [step_eq rfl hcode₄]
    have hport := setWidth_replace_half s.registers.edx port
    show some (({ s₃ with
      devices := (P.input width (BitVec.setWidth 16 _) s.devices).2 }.setRegister .eax
        (width.replace s.registers.eax (P.input width (BitVec.setWidth 16 _) s.devices).1)).advance
      4) = some s₄
    rw [hport]
    rfl
  have h₄ : A.Stacked P m (s.registers.edx :: s.registers.ebp :: returnTo :: port :: ws) s₄ :=
    h₂.congr rfl rfl rfl
  rcases h₄.step_pop rfl hcode₅ (by decide) with ⟨hstep₅, h₅⟩
  have hbase : s.registers.esp - 4 = s.registers.esp - 4 - 4 + 4 := by bv_omega
  have h₆ : A.Stacked P m (s.registers.ebp :: returnTo :: port :: ws) { s₄ with
      registers := { s₄.registers with edx := s.registers.edx, esp := s.registers.esp - 4 }
      place := .at 7 } := h₅.congr rfl hbase rfl
  rcases h₆.step_pop rfl hcode₇ (by decide) with ⟨hstep₇, h₇⟩
  have hstep₈ := h₇.step_ret rfl hcode₈
  have hlast : s.registers.esp - 4 + 4 + 4 = s.registers.esp + 4 := by bv_omega
  refine ⟨m₂, ?_, h₇.pop.2 _ rfl ?_ rfl⟩
  · refine .head hstep₀ (.head (step_eq rfl hcode₁) (.head hstep₂ (.head hstep₃ ?_)))
    refine .head hstep₄ (.head hstep₅ (.head (step_eq rfl hcode₆) (.head hstep₇ ?_)))
    refine .head (hstep₈.trans ?_) (.refl _)
    rw [← hlast]
    rfl
  · exact hlast.symm

/-- **A write**: the low bits of the second argument go to the port, once. All registers and
the stack of the caller are as they were. -/
theorem portOut_steps (width : Width) (h : A.Stacked P m (returnTo :: port :: value :: ws) s)
    (hplace : s.place = .at 0) (hroom : ws.length + 6 ≤ A.size) :
    ∃ m₁, let t : Machine δ := { s with
        registers := { s.registers with esp := s.registers.esp + 4 }
        memory := m₁
        devices := P.output width (port.setWidth 16) (width.low value) s.devices
        place := .outside returnTo }
      Steps P (portOutCode width) s t ∧ A.Stacked P m (port :: value :: ws) t := by
  have hcode₀ : (portOutCode width)[0]? = some (.push .ebp) := rfl
  have hcode₁ : (portOutCode width)[1]? = some (.mov .ebp .esp) := rfl
  have hcode₂ : (portOutCode width)[2]? = some (.push .edx) := rfl
  have hcode₃ : (portOutCode width)[3]? = some (.push .eax) := rfl
  have hcode₄ : (portOutCode width)[4]? = some (.loadPart .half .edx .ebp 8) := rfl
  have hcode₅ : (portOutCode width)[5]? = some (.loadPart width .eax .ebp 12) := rfl
  have hcode₆ : (portOutCode width)[6]? = some (.output width) := rfl
  have hcode₇ : (portOutCode width)[7]? = some (.pop .eax) := rfl
  have hcode₈ : (portOutCode width)[8]? = some (.pop .edx) := rfl
  have hcode₉ : (portOutCode width)[9]? = some (.mov .esp .ebp) := rfl
  have hcode₁₀ : (portOutCode width)[10]? = some (.pop .ebp) := rfl
  have hcode₁₁ : (portOutCode width)[11]? = some .ret := rfl
  -- the frame, and the registers that are used
  rcases h.step_push hplace hcode₀ (by simp; omega) with ⟨m₀, hstep₀, h₀⟩
  let s₁ : Machine δ := { s with
    registers := { s.registers with esp := s.registers.esp - 4, ebp := s.registers.esp - 4 }
    memory := m₀
    place := .at 2 }
  have h₁ : A.Stacked P m (s.registers.ebp :: returnTo :: port :: value :: ws) s₁ :=
    h₀.congr rfl rfl rfl
  rcases h₁.step_push rfl hcode₂ (by simp; omega) with ⟨m₂, hstep₂, h₂⟩
  rcases h₂.step_push rfl hcode₃ (by simp; omega) with ⟨m₃, hstep₃, h₃⟩
  -- the arguments are the words above the return address
  have hport : s.registers.esp - 4 + 8 = s.registers.esp - 4 - 4 - 4 + BitVec.ofNat 32 (4 * 4) := by
    show s.registers.esp - 4 + 8 = s.registers.esp - 4 - 4 - 4 + 16
    bv_omega
  have hvalue : s.registers.esp - 4 + 12 =
      s.registers.esp - 4 - 4 - 4 + BitVec.ofNat 32 (4 * 5) := by
    show s.registers.esp - 4 + 12 = s.registers.esp - 4 - 4 - 4 + 20
    bv_omega
  have hstep₄ := h₃.step_loadPart rfl hcode₄ (by simp) hport
  let s₄ : Machine δ := { s with
    registers := { s.registers with
      edx := Width.half.replace s.registers.edx (Width.half.low port)
      esp := s.registers.esp - 4 - 4 - 4
      ebp := s.registers.esp - 4 }
    memory := m₃
    place := .at 5 }
  have h₄ : A.Stacked P m _ s₄ := h₃.congr rfl rfl rfl
  have hstep₅ := h₄.step_loadPart rfl hcode₅ (by simp) hvalue
  let s₅ : Machine δ := { s₄ with
    registers := { s₄.registers with eax := width.replace s.registers.eax (width.low value) }
    place := .at 6 }
  let s₆ : Machine δ := { s₅ with
    devices := P.output width (port.setWidth 16) (width.low value) s.devices
    place := .at 7 }
  have hstep₆ : s₅.step P (portOutCode width) = some s₆ := by
    have hdx := setWidth_replace_half s.registers.edx port
    have hax := low_replace width s.registers.eax value
    rw [step_eq rfl hcode₆]
    show some ({ s₅ with devices := P.output width (BitVec.setWidth 16 _) (width.low _) s.devices
      }.advance 6) = some s₆
    rw [hdx, hax]
    rfl
  have h₆ : A.Stacked P m (s.registers.eax :: s.registers.edx :: s.registers.ebp :: returnTo ::
    port :: value :: ws) s₆ := h₃.congr rfl rfl rfl
  rcases h₆.step_pop rfl hcode₇ (by decide) with ⟨hstep₇, h₇⟩
  rcases h₇.step_pop rfl hcode₈ (by decide) with ⟨hstep₈, h₈⟩
  have hbase : s.registers.esp - 4 = s.registers.esp - 4 - 4 - 4 + 4 + 4 := by bv_omega
  have h₉ : A.Stacked P m (s.registers.ebp :: returnTo :: port :: value :: ws) { s₆ with
      registers := { s.registers with esp := s.registers.esp - 4, ebp := s.registers.esp - 4 }
      place := .at 10 } := h₈.congr rfl hbase rfl
  rcases h₉.step_pop rfl hcode₁₀ (by decide) with ⟨hstep₁₀, h₁₀⟩
  have hstep₁₁ := h₁₀.step_ret rfl hcode₁₁
  have hlast : s.registers.esp - 4 + 4 + 4 = s.registers.esp + 4 := by bv_omega
  refine ⟨m₃, ?_, h₁₀.pop.2 _ rfl ?_ rfl⟩
  · refine .head hstep₀ (.head (step_eq rfl hcode₁) (.head hstep₂ (.head hstep₃ ?_)))
    refine .head hstep₄ (.head hstep₅ (.head hstep₆ (.head hstep₇ (.head hstep₈ ?_))))
    refine .head (step_eq rfl hcode₉) (.head hstep₁₀ ?_)
    refine .head (hstep₁₁.trans ?_) (.refl _)
    rw [← hlast]
    rfl
  · exact hlast.symm

/-- **The port procedures follow the C calling convention**, for bytes and words: a read
returns what the port has in the low bits of `eax`, a write gives the port the low bits of its
second argument; each of them accesses the port once, returns to its caller, and leaves the
other registers, the flags and the stack above as they were. -/
theorem ports_io_correct (width : Width)
    (h : A.Stacked P m (returnTo :: port :: value :: ws) s) (hplace : s.place = .at 0)
    (hroom : ws.length + 6 ≤ A.size) :
    (∃ t, Steps P (portInCode width) s t ∧ t.place = .outside returnTo ∧
      t.devices = (P.input width (port.setWidth 16) s.devices).2 ∧
      t.registers = { s.registers with
        eax := width.replace s.registers.eax (P.input width (port.setWidth 16) s.devices).1
        esp := s.registers.esp + 4 } ∧
      t.eflags = s.eflags ∧ t.cr0 = s.cr0 ∧ A.Stacked P m (port :: value :: ws) t) ∧
    ∃ t, Steps P (portOutCode width) s t ∧ t.place = .outside returnTo ∧
      t.devices = P.output width (port.setWidth 16) (width.low value) s.devices ∧
      t.registers = { s.registers with esp := s.registers.esp + 4 } ∧
      t.eflags = s.eflags ∧ t.cr0 = s.cr0 ∧ A.Stacked P m (port :: value :: ws) t := by
  constructor
  · have hroom' : (value :: ws).length + 4 ≤ A.size := by
      rw [List.length_cons]
      omega
    rcases portIn_steps width h hplace hroom' with ⟨m₁, hsteps, hstacked⟩
    exact ⟨_, hsteps, rfl, rfl, rfl, rfl, rfl, hstacked⟩
  · rcases portOut_steps width h hplace hroom with ⟨m₁, hsteps, hstacked⟩
    exact ⟨_, hsteps, rfl, rfl, rfl, rfl, rfl, hstacked⟩

end Ports

/-! ## The video controller behind the ports -/

/-- A word is two bytes, at this port and the next one. -/
def VideoController.platform (walk : Mem → UDword → Option UDword) :
    Platform VideoController where
  walk := walk
  input
    | .byte, port, v => ((v.portByteIn port).setWidth 32, v)
    | .half, port, v => ((v.portByteIn (port + 1) ++ v.portByteIn port).setWidth 32, v)
  output
    | .byte, port, w, v => v.portByteOut port (w.setWidth 8)
    | .half, port, w, v =>
      (v.portByteOut port (w.setWidth 8)).portByteOut (port + 1) (w.extractLsb' 8 8)

section Video
variable {walk : Mem → UDword → Option UDword} {A : Area} {m : Mem} {ws : List UDword}
  {s : Machine VideoController} {returnTo port data : UDword}

/-- **`port_byte_in` is `portByteIn`** of the screen driver. -/
theorem portByteIn_video
    (h : A.Stacked (VideoController.platform walk) m (returnTo :: port :: ws) s)
    (hplace : s.place = .at 0) (hroom : ws.length + 4 ≤ A.size) :
    ∃ t, Steps (VideoController.platform walk) portByteInCode s t ∧
      t.place = .outside returnTo ∧ t.devices = s.devices ∧
      t.registers.eax.setWidth 8 = s.devices.portByteIn (port.setWidth 16) ∧
      t.registers = { s.registers with
        eax := t.registers.eax, esp := s.registers.esp + 4 } ∧
      A.Stacked (VideoController.platform walk) m (port :: ws) t := by
  rcases portIn_steps .byte h hplace hroom with ⟨m₁, hsteps, hstacked⟩
  refine ⟨_, hsteps, rfl, rfl, ?_, rfl, hstacked⟩
  refine (setWidth_append_low _ _).trans ?_
  exact (BitVec.setWidth_setWidth (by decide)).trans (BitVec.setWidth_eq _)

/-- **`port_byte_out` is `portByteOut`** of the screen driver. -/
theorem portByteOut_video
    (h : A.Stacked (VideoController.platform walk) m (returnTo :: port :: data :: ws) s)
    (hplace : s.place = .at 0) (hroom : ws.length + 6 ≤ A.size) :
    ∃ t, Steps (VideoController.platform walk) portByteOutCode s t ∧
      t.place = .outside returnTo ∧
      t.devices = s.devices.portByteOut (port.setWidth 16) (data.setWidth 8) ∧
      t.registers = { s.registers with esp := s.registers.esp + 4 } ∧
      A.Stacked (VideoController.platform walk) m (port :: data :: ws) t := by
  rcases portOut_steps .byte h hplace hroom with ⟨m₁, hsteps, hstacked⟩
  refine ⟨_, hsteps, rfl, ?_, rfl, hstacked⟩
  refine congrArg (s.devices.portByteOut (port.setWidth 16)) ?_
  exact (BitVec.setWidth_setWidth (by decide)).trans (BitVec.setWidth_setWidth (by decide))

end Video

/-! ### A call with paging off -/

/-- The stack of `kernel.c`, before there are tables. -/
def bootArea : Area where
  bottom := 0x7000
  size := 16
  tables := ∅
  spot := id

/-- A call of `port_byte_out` with the control port and 14. -/
def bootCall : Machine VideoController where
  registers := ⟨0x11223344, 2, 3, 4, 0x6ff4, 6, 7, 8⟩
  eflags := 0x202
  cr0 := 1
  memory :=
    (((⟨fun _ => 0, []⟩ : Mem).write32 0x6ff4 0x8123).write32 0x6ff8 0x3d4).write32 0x6ffc 14
  devices := ⟨0, fun r => if r = 14 then 5 else 0⟩
  place := .at 0

theorem bootCall_stacked : bootArea.Stacked (VideoController.platform fun _ _ => none)
    bootCall.memory [0x8123, 0x3d4, 14] bootCall := by
  refine Area.Stacked.of_loads ?_ (by decide) (by decide) ?_
  · refine ⟨by decide, ?_, Function.injective_id.injOn, fun _ _ => Set.notMem_empty _⟩
    intro m' _ a _
    rfl
  · have hloads : ∀ i : Fin 3, bootCall.loadWord (VideoController.platform fun _ _ => none)
        (bootCall.registers.esp + BitVec.ofNat 32 (4 * i)) = some ([0x8123, 0x3d4, 14].get i) := by
      decide +kernel
    exact fun i hi => hloads ⟨i, hi⟩

theorem ports_io_correct_boot :
    ∃ t, Steps (VideoController.platform fun _ _ => none) portByteOutCode bootCall t ∧
      t.place = .outside 0x8123 ∧ t.devices.index = 14 ∧ t.devices.portByteIn 0x3d5 = 5 ∧
      t.registers.eax = 0x11223344 := by
  rcases (ports_io_correct .byte bootCall_stacked rfl (by decide)).2 with
    ⟨t, hsteps, hplace, hdevices, hregisters, -⟩
  refine ⟨t, hsteps, hplace, ?_, ?_, ?_⟩
  · rw [hdevices]
    rfl
  · rw [hdevices]
    rfl
  · rw [hregisters]
    rfl

end MushOS
