import MushOS.Base.FormatRoom
import MushOS.Kernel.ScreenCalls

/-! # stdio.h: messages on the screen

`print_formatted` formats its arguments, has the screen print the string by a system call, and
releases it. So a message goes through all of the kernel's library: the template, the heap the
string is built on, the frame and the array of the system call, the stub of the interrupt, the
handler, the cursor and the scroll of the screen.

The screen is part of the memory, and so is the heap. Here the video memory is not the heap's
to write (`Settled`): it lies outside of the heap, or in a block the caller has taken. Then
messages appear one after another, and of everything else that is settled no byte changes
(`messages_shown`).
-/

namespace MushOS

open ByteMemory WordStack Attempts Terminal Template Numeral

/-! ## Model -/

/-- `console_color`. -/
inductive ConsoleColor where
  | black
  | lowBlue
  | lowGreen
  | lowCyan
  | lowRed
  | lowMagenta
  | brown
  | lightGray
  | darkGray
  | highBlue
  | highGreen
  | highCyan
  | highRed
  | highMagenta
  | yellow
  | white
deriving DecidableEq, Repr

def ConsoleColor.value : ConsoleColor → UDword
  | .black => 0
  | .lowBlue => 1
  | .lowGreen => 2
  | .lowCyan => 3
  | .lowRed => 4
  | .lowMagenta => 5
  | .brown => 6
  | .lightGray => 7
  | .darkGray => 8
  | .highBlue => 9
  | .highGreen => 10
  | .highCyan => 11
  | .highRed => 12
  | .highMagenta => 13
  | .yellow => 14
  | .white => 15

/-- The color as the `byte` it is printed in. -/
def ConsoleColor.byte (c : ConsoleColor) : UByte := c.value.setWidth 8

/-- What is the same for all messages of an image. -/
structure MessageEnv where
  literals : Literals
  ops : PreciseOps (BitVec 64)

/-- Where a message is printed: the return address of `format`, and the system call. -/
structure MessageSite where
  formatReturn : UDword
  screen : ScreenSite

/-- The stack, as `format` is called. -/
def MessageEnv.formatEnv (env : MessageEnv) (site : MessageSite) (p : Processor) : FormatEnv where
  literals := env.literals
  ops := env.ops
  ebp := p.general.ebp
  stack := p.stack
  ret := site.formatReturn

/-- `print_formatted(font, back, temp, args...)`. -/
def printFormatted (env : MessageEnv) (site : MessageSite) (font back : ConsoleColor)
    (template : UDword) (args : List UDword) (v : VideoController) (p : Processor) :
    HeapM (VideoController × Processor) := do
  let formatted ← format ((env.formatEnv site p).call template args) template
  let (v, p) ← (site.screen.acting v).callSystem
    [setCharsCall, formatted, font.value, back.value, 0] p
  release formatted
  return (v, p)

/-- The macros `bad`, `warn`, `good`, `info` and `plain`. -/
inductive MessageKind where
  | bad
  | warn
  | good
  | info
  | plain
deriving DecidableEq, Repr

def MessageKind.font : MessageKind → ConsoleColor
  | .bad => .highRed
  | .warn => .yellow
  | .good => .highGreen
  | .info => .highBlue
  | .plain => .lightGray

structure Message where
  kind : MessageKind
  template : UDword
  args : List UDword
  site : MessageSite

/-- Messages, one after another. -/
def printMessages (env : MessageEnv) :
    List Message → VideoController → Processor → HeapM (VideoController × Processor)
  | [], v, p => return (v, p)
  | msg :: messages, v, p => do
    let (v, p) ← printFormatted env msg.site msg.kind.font .black msg.template msg.args v p
    printMessages env messages v p

/-! ## Specification -/

/-- No byte has changed that the heap may not write and the screen does not show. -/
structure KeepsUnseen (S : Finset Block) (h g : Heap) : Prop where
  bounds : SameBounds h g
  bytes : ∀ a ∈ Settled h S, a ∉ videoRange → g.mem.bytes a = h.mem.bytes a

/-- The heap has none of its own data on the screen. -/
def OffScreen (h : Heap) (S : Finset Block) : Prop :=
  (∀ a ∈ videoRange, a ∉ span h.header.toNat 12) ∧ ∀ b ∈ S, ∀ a ∈ videoRange, a ∉ b.header

/-- It holds whatever is on the screen and in the rest of the heap. -/
def Steady (S : Finset Block) (h : Heap) (P : Heap → Prop) : Prop := ∀ g, KeepsUnseen S h g → P g

/-- The message has its template and the arguments it asks for, and reads without backspaces
and tabs. -/
structure Message.Sound (env : MessageEnv) (S : Finset Block) (h : Heap) (text : List UByte)
    (msg : Message) : Prop where
  template : Steady S h fun g => Readable S g msg.template text
  args : Steady S h fun g => Supplies (Accepts S g) (formatPieces text) msg.args
  plain : Steady S h fun g => ∀ out,
    Fills (Renders env.ops g.mem) (formatPieces text) msg.args out →
      ∀ c ∈ out, c ≠ backspace ∧ c ≠ tab
  fits : 4 * (msg.args.length + 3) ≤ 2 ^ 32
  frame : msg.site.screen.frame.length + 5 < 2 ^ 28

/-- What the message reads, in a memory that differs in nothing that is kept. -/
def Message.Reads (env : MessageEnv) (S : Finset Block) (h : Heap) (msg : Message)
    (out : List UByte) : Prop :=
  ∃ text g, KeepsUnseen S h g ∧ Readable S g msg.template text ∧
    Fills (Renders env.ops g.mem) (formatPieces text) msg.args out

/-- The symbols of a text in the colors of the message. -/
def Message.symbols (msg : Message) (out : List UByte) : List (Symbol (UByte × UByte)) :=
  (styled msg.kind.font.byte ConsoleColor.black.byte out).map Styled.symbol

/-! ## Memory the heap and the screen share -/

section Sharing
variable {h g k : Heap} {S T : Finset Block} {m : Mem} {text : List UByte} {q size : UDword}
  {v : VideoController} {l : Layout (UByte × UByte)}

theorem KeepsUnseen.refl (S : Finset Block) (h : Heap) : KeepsUnseen S h h :=
  ⟨SameBounds.refl h, fun _ _ _ => rfl⟩

theorem KeepsUnseen.trans (hkeeps : KeepsUnseen S h g) (hkeeps' : KeepsUnseen S g k) :
    KeepsUnseen S h k := by
  refine ⟨hkeeps.bounds.trans hkeeps'.bounds, ?_⟩
  intro a ha hoff
  rw [hkeeps'.bytes a (by rw [hkeeps.bounds.settled]; exact ha) hoff, hkeeps.bytes a ha hoff]

theorem KeepsUnseen.mono (hkeeps : KeepsUnseen T h g) (hsub : S ⊆ T) : KeepsUnseen S h g :=
  ⟨hkeeps.bounds, fun a ha => hkeeps.bytes a (settled_mono hsub ha)⟩

theorem Preserves.keeps (hp : Preserves S h g) : KeepsUnseen S h g :=
  ⟨hp.bounds, fun a ha _ => hp.bytes a ha⟩

/-- What is not the heap's to write is none of its own data. -/
theorem offScreen_of_settled (hl : Live h S) (hvideo : videoRange ⊆ Settled h S) :
    OffScreen h S := by
  rcases hl with ⟨blocks, hw, rfl⟩
  have hnot : ∀ a ∈ videoRange, a ∉ metadata h.header blocks := fun a ha =>
    Live.metadata_not_settled hw (fun b hb => List.mem_toFinset.mp hb) (hvideo ha)
  constructor
  · intro a ha hmem
    exact hnot a ha (Or.inl hmem)
  · intro b hb a ha hmem
    exact hnot a ha (Or.inr ⟨b, List.mem_toFinset.mp hb, hmem⟩)

/-- Blocks that end below the screen have their headers there too. -/
theorem Headroom.offScreen {limit n : ℕ} (hr : Headroom limit n S h) (hlimit : limit ≤ 0xb8000)
    (hl : Live h S) : OffScreen h S := by
  have hstart := hr.start
  have hheader : h.heapStart.toNat = h.header.toNat + 12 := by
    rcases hl with ⟨blocks, hw, -⟩
    exact hw.heapStart
  constructor
  · intro a ha hmem
    rw [mem_span] at hmem
    rw [videoRange, mem_span] at ha
    omega
  · intro b hb a ha hmem
    have hstop := hr.below b hb
    unfold Block.stop at hstop
    unfold Block.header at hmem
    rw [mem_span] at hmem
    rw [videoRange, mem_span] at ha
    have hlow := (hl.bounds hb).2.2
    omega

theorem SameBounds.offScreen (hbounds : SameBounds h g) (hoff : OffScreen h S) : OffScreen g S := by
  unfold OffScreen
  rw [hbounds.header]
  exact hoff

/-- What is written to the video memory leaves the blocks of the heap. -/
theorem Live.of_video_writes (hl : Live h S) (hoff : OffScreen h S)
    (hm : Writes videoRange h.mem m) :
    Live { h with mem := m } S ∧ KeepsUnseen S h { h with mem := m } := by
  rcases hl with ⟨blocks, hw, rfl⟩
  have hmetadata : ∀ a ∈ metadata h.header blocks, m.bytes a = h.mem.bytes a := by
    rintro a (ha | ⟨b, hb, ha⟩)
    · exact hm.frame a fun hmem => hoff.1 a hmem ha
    · exact hm.frame a fun hmem => hoff.2 b (List.mem_toFinset.mpr hb) a hmem ha
  have hcongr : WellFormed { h with mem := m } blocks ∧ SameBounds h { h with mem := m } :=
    hw.congr rfl hmetadata
  rcases hcongr with ⟨hw', hbounds⟩
  exact ⟨⟨blocks, hw', rfl⟩, hbounds, fun a _ hoff => hm.frame a hoff⟩

/-- The rest of the memory is of no importance to the screen. -/
theorem shows_congr (hshows : Shows 25 80 blankCell (Screen.grid ⟨h.mem, v⟩) l)
    (hbytes : ∀ a ∈ videoRange, g.mem.bytes a = h.mem.bytes a) :
    Shows 25 80 blankCell (Screen.grid ⟨g.mem, v⟩) l := by
  refine hshows.congr ?_ rfl
  intro k hk
  refine cell_congr ?_
  intro r hr
  exact hbytes _ (videoAddress_mem (by omega))

theorem Preserves.shows (hp : Preserves S h g) (hvideo : videoRange ⊆ Settled h S)
    (hshows : Shows 25 80 blankCell (Screen.grid ⟨h.mem, v⟩) l) :
    Shows 25 80 blankCell (Screen.grid ⟨g.mem, v⟩) l :=
  shows_congr hshows fun a ha => hp.bytes a (hvideo ha)

theorem Chars.bytesAt (hc : Chars m q text) : MushOS.bytesAt m q text.length = text := by
  refine List.ext_getElem (by simp [MushOS.bytesAt]) ?_
  intro i hi hi'
  simp only [MushOS.bytesAt, List.getElem_map, List.getElem_range]
  rw [hc.bytes i hi'.le, List.getD_eq_getElem _ _ hi']

/-- A new string is not on the screen. -/
theorem AddsString.not_video {out : List UByte} (hadds : AddsString S h q g out)
    (hvideo : videoRange ⊆ Settled h S) {i : ℕ} (hi : i ≤ out.length) :
    q + BitVec.ofNat 32 i ∉ videoRange := by
  intro hmem
  have hfits := hadds.fits
  have hsize : (BitVec.ofNat 32 (out.length + 1)).toNat = out.length + 1 :=
    toNat_ofNat_of_lt hfits
  have hblock := Finset.mem_insert_self (⟨q, BitVec.ofNat 32 (out.length + 1)⟩ : Block) S
  have hpayload : q + BitVec.ofNat 32 i ∈ (Block.mk q (BitVec.ofNat 32 (out.length + 1))).payload :=
    hadds.live.mem_payload hblock (by rw [hsize]; omega)
  rcases hvideo hmem with hout | ⟨b, hb, hpayload'⟩
  · -- the block lies in the heap
    refine hout ?_
    have hbounds := hadds.live.bounds hblock
    rw [Block.payload, mem_span] at hpayload
    have hheader := hadds.preserves.bounds.header
    have hend := hadds.preserves.bounds.heapEnd
    rw [hheader, hend] at hbounds
    exact ⟨by omega, by omega⟩
  · have hne : (⟨q, BitVec.ofNat 32 (out.length + 1)⟩ : Block) ≠ b := by
      rintro rfl
      exact hadds.fresh _ hb rfl
    exact hadds.live.payload_disjoint hblock (Finset.mem_insert_of_mem hb) hne hpayload hpayload'

end Sharing

/-! ## Texts without backspaces and tabs -/

/-- Whatever its argument is, the piece reads without backspaces and tabs. -/
def PlainPiece : Piece UByte Specifier → Prop
  | .char c => c ≠ backspace ∧ c ≠ tab
  | .conversion v => v ≠ .float ∧ v ≠ .character ∧ v ≠ .text

instance : DecidablePred PlainPiece
  | .char c => inferInstanceAs (Decidable (c ≠ backspace ∧ c ≠ tab))
  | .conversion v => inferInstanceAs (Decidable (v ≠ .float ∧ v ≠ .character ∧ v ≠ .text))

section Plain
variable {c : UByte} {out : List UByte} {r n : ℕ} {sys : NumberSystem}

theorem plain_of_isDigit (hc : IsDigit c) : c ≠ backspace ∧ c ≠ tab := by
  constructor
  · rintro rfl
    exact absurd hc (by decide)
  · rintro rfl
    exact absurd hc (by decide)

theorem plain_numeral (hr : 1 < r) (hle : r ≤ 36) : ∀ c ∈ numeral r n, c ≠ backspace ∧ c ≠ tab :=
  fun _ hc => plain_of_isDigit (isDigit_of_mem hr hle hc)

theorem plain_numberText (hb : IsBase sys)
    (hthree : sys = decimal ∨ sys = hexadecimal ∨ sys = binary) (num : UDword) :
    ∀ c ∈ numberText num sys, c ≠ backspace ∧ c ≠ tab := by
  intro c hc
  unfold numberText at hc
  rw [List.mem_append, List.mem_append] at hc
  rcases hc with hsign | hbase | hdigits
  · unfold signText at hsign
    split at hsign
    · exact (by decide : ∀ c ∈ ascii "-", c ≠ backspace ∧ c ≠ tab) c hsign
    · cases hsign
  · have hall : ∀ c ∈ baseText sys, c ≠ backspace ∧ c ≠ tab := by
      rcases hthree with rfl | rfl | rfl <;> decide
    exact hall c hbase
  · unfold digitsText at hdigits
    split at hdigits
    · exact (by decide : ∀ c ∈ ascii "0", c ≠ backspace ∧ c ≠ tab) c hdigits
    · exact plain_numeral hb.one_lt hb.2 c hdigits

/-- **A text of plain pieces is plain**, whatever the arguments are. -/
theorem plain_of_fills {ops : PreciseOps (BitVec 64)} {m : Mem} {ps : List (Piece UByte Specifier)}
    {args : List UDword} (hfills : Fills (Renders ops m) ps args out)
    (hps : ∀ x ∈ ps, PlainPiece x) : ∀ c ∈ out, c ≠ backspace ∧ c ≠ tab := by
  induction hfills with
  | nil ws => exact fun c hc => absurd hc List.not_mem_nil
  | char d hrest ih =>
    intro c hc
    rcases List.mem_cons.mp hc with rfl | hc
    · exact hps _ List.mem_cons_self
    · exact ih (fun x hx => hps x (List.mem_cons_of_mem _ hx)) c hc
  | conversion hw hrest ih =>
    intro c hc
    have hkind := hps _ List.mem_cons_self
    rcases List.mem_append.mp hc with hc | hc
    · -- the argument, by its specifier
      cases hw with
      | logical w =>
        have hall : ∀ c ∈ booleanText (w.setWidth 8), c ≠ backspace ∧ c ≠ tab := by
          unfold booleanText
          split <;> decide
        exact hall c hc
      | pointer w =>
        unfold pointerText at hc
        split at hc
        · exact (by decide : ∀ c ∈ ascii ".null", c ≠ backspace ∧ c ≠ tab) c hc
        · rcases List.mem_append.mp hc with hc | hc
          · exact (by decide : ∀ c ∈ ascii ".", c ≠ backspace ∧ c ≠ tab) c hc
          · exact plain_numeral (by decide) (by decide) c hc
      | decimal w => exact plain_numberText isBase_decimal (Or.inl rfl) w c hc
      | hexadecimal w => exact plain_numberText isBase_hexadecimal (Or.inr (Or.inl rfl)) w c hc
      | binary w => exact plain_numberText isBase_binary (Or.inr (Or.inr rfl)) w c hc
      | float hf => exact absurd rfl hkind.1
      | character w => exact absurd rfl hkind.2.1
      | text hp => exact absurd rfl hkind.2.2
    · exact ih (fun x hx => hps x (List.mem_cons_of_mem _ hx)) c hc

end Plain

/-! ## One message -/

section Printing
variable {env : MessageEnv} {site : MessageSite} {h h₁ : Heap} {S : Finset Block}
  {v : VideoController} {p : Processor} {l : Layout (UByte × UByte)} {font back : ConsoleColor}
  {template q : UDword} {args : List UDword} {text out : List UByte} {msg : Message}

/-- A text in one pair of colors, printed wherever the cursor is. -/
theorem printed_request (font back : ConsoleColor) (hc : Chars h.mem q out)
    (hoff : ∀ i ≤ out.length, q + BitVec.ofNat 32 i ∉ videoRange) (hlt : out.length < intRange)
    (hplain : ∀ c ∈ out, c ≠ backspace ∧ c ≠ tab) (hcursor : (Screen.mk h.mem v).cursor < 2000) :
    ∃ ret s, screenRequest (argOf [setCharsCall, q, font.value, back.value, 0]) ⟨h.mem, v⟩ =
        some (ret, s) ∧ Writes videoRange h.mem s.mem ∧ s.cursor < 2000 ∧
      ∃ t, t = printText (styled font.byte back.byte out) ⟨h.mem, v⟩ ∧ s.mem = t.mem ∧
        s.cursor = t.cursor := by
  have hstays : StepsStay (styled font.byte back.byte out) ⟨h.mem, v⟩ := by
    intro pre x post heq
    have hx : x ∈ styled font.byte back.byte out := by
      rw [heq]
      exact List.mem_append_right pre List.mem_cons_self
    rcases List.mem_map.mp hx with ⟨c, hc, rfl⟩
    have hordinary : Styled.Ordinary ⟨c, font.byte, back.byte⟩ := hplain c hc
    exact hordinary.stays _
  have hprints : PrintCall.Prints h.mem (.string q font.byte back.byte 0)
      (styled font.byte back.byte out) := by
    rw [← hc.bytesAt]
    refine .terminated q font.byte back.byte (by unfold intRange at hlt; omega) hoff ?_ ?_
    · intro i hi
      rw [hc.bytes i hi.le, List.getD_eq_getElem _ _ hi]
      exact hc.nonzero _ (List.getElem_mem hi)
    · rw [hc.bytes _ le_rfl, List.getD_eq_default _ _ le_rfl]
  have hrun := run_eq hprints (fun _ _ => rfl) hcursor hstays
  rcases writes_printText hcursor hstays with ⟨hw, hin⟩
  obtain ⟨t, ht⟩ : ∃ t, t = printText (styled font.byte back.byte out) ⟨h.mem, v⟩ := ⟨_, rfl⟩
  rw [← ht] at hrun hw hin
  -- the cursor is asked for next
  refine ⟨(getCursorOffset t).1, (getCursorOffset t).2, ?_, hw, hin, t, ht, rfl, rfl⟩
  show (printStringColor q font.byte back.byte 0 ⟨h.mem, v⟩).map getCursorOffset = _
  rw [show printStringColor q font.byte back.byte 0 ⟨h.mem, v⟩ = some t from hrun]
  rfl

/-- The screen, after the text. -/
theorem printed_screen (font back : ConsoleColor) (hc : Chars h.mem q out)
    (hoff : ∀ i ≤ out.length, q + BitVec.ofNat 32 i ∉ videoRange) (hlt : out.length < intRange)
    (hplain : ∀ c ∈ out, c ≠ backspace ∧ c ≠ tab)
    (hshows : Shows 25 80 blankCell (Screen.grid ⟨h.mem, v⟩) l) :
    ∃ ret s, screenRequest (argOf [setCharsCall, q, font.value, back.value, 0]) ⟨h.mem, v⟩ =
        some (ret, s) ∧ Writes videoRange h.mem s.mem ∧
      Shows 25 80 blankCell s.grid
        (((styled font.byte back.byte out).map Styled.symbol).foldl (Layout.put 80) l) := by
  have hordinary : ∀ x ∈ styled font.byte back.byte out, x.Ordinary := by
    intro x hx
    rcases List.mem_map.mp hx with ⟨c, hc, rfl⟩
    exact hplain c hc
  have hcursor : (Screen.mk h.mem v).cursor < 2000 := by
    have hlt := Layout.cursor_lt (Nat.succ_pos 24) hshows.current
    rw [← hshows.cursor] at hlt
    exact hlt
  rcases printed_request font back hc hoff hlt hplain hcursor with
    ⟨ret, s, hrequest, hw, -, t, rfl, hmem, hsame⟩
  refine ⟨ret, s, hrequest, hw, (printText_shows hordinary hshows).congr ?_ hsame⟩
  intro k hk
  show cell s.mem k = cell _ k
  rw [hmem]

/-- **The string of a message is printed and released**: the screen does with it what is known
of `Z`, and of the rest that is settled nothing has changed. -/
theorem printString_spec {E : Set Fault} {R : Block → Prop} {Z : VideoController → Heap → Prop}
    (font back : ConsoleColor) (v : VideoController) (hadds : AddsString S h q h₁ out)
    (hframe : site.screen.frame.length + 5 < 2 ^ 28)
    (ha : Allocates E (insert ⟨q, BitVec.ofNat 32 (out.length + 1)⟩ S) h₁ 20 R)
    (hprint : ∀ g, Live g (insert ⟨q, BitVec.ofNat 32 (out.length + 1)⟩ S) →
      Preserves (insert ⟨q, BitVec.ofNat 32 (out.length + 1)⟩ S) h₁ g → ∃ ret s,
        screenRequest (argOf [setCharsCall, q, font.value, back.value, 0]) ⟨g.mem, v⟩ =
          some (ret, s) ∧ Writes videoRange g.mem s.mem ∧ OffScreen g
            (insert ⟨q, BitVec.ofNat 32 (out.length + 1)⟩ S) ∧ Z s.video { g with mem := s.mem })
    (hkept : ∀ v g g', SameBounds h g → Preserves S g g' → Z v g → Z v g') :
    Yields strict E (do
      let (v, p) ← (site.screen.acting v).callSystem
        [setCharsCall, q, font.value, back.value, 0] p
      release q
      return (v, p)) h₁ fun r h' => Live h' S ∧ KeepsUnseen S h h' ∧ Z r.1 h' ∧
        r.2.general = p.general ∧ r.2.stack = p.stack := by
  have hblock := Finset.mem_insert_self (⟨q, BitVec.ofNat 32 (out.length + 1)⟩ : Block) S
  have hsub := Finset.subset_insert (⟨q, BitVec.ofNat 32 (out.length + 1)⟩ : Block) S
  -- the handler prints from the string, and the string is still there when it is called
  have hhandler : ∀ g, Live g (insert ⟨q, BitVec.ofNat 32 (out.length + 1)⟩ S) →
      Preserves (insert ⟨q, BitVec.ofNat 32 (out.length + 1)⟩ S) h₁ g →
      HandlesFrame E (site.screen.acting v).handler [setCharsCall, q, font.value, back.value, 0] g
        fun v' _ g' => Live g' (insert ⟨q, BitVec.ofNat 32 (out.length + 1)⟩ S) ∧
          KeepsUnseen S h g' ∧ Z v' g' := by
    intro g hlg hpg
    rcases hprint g hlg hpg with ⟨ret, s, hrequest, hw, hoff, hZ⟩
    rcases hlg.of_video_writes hoff hw with ⟨hl', hkeeps⟩
    have hall : KeepsUnseen S h { g with mem := s.mem } :=
      (hadds.preserves.trans (hpg.mono hsub)).keeps.trans (hkeeps.mono hsub)
    intro t saved ebp regs above hebp habove hregs
    refine (handlesFrame_screen (List.cons_ne_nil _ _) ?_ hrequest t saved ebp regs above hebp
      habove hregs).mono ?_
    · show requestArity setCharsCall ≤ 5
      decide
    · rintro r g' ⟨args', hlength, hstack, hv, -, rfl⟩
      rw [hv]
      exact ⟨args', hlength, hstack, hl', hall, hZ⟩
  refine (ActingSite.callSystem_spec rfl hframe ha hhandler).bind ?_
  rintro ⟨v', p'⟩ h₂ ⟨⟨-, -, hl₂, hkeeps₂, hZ⟩, hgeneral, hstack, -⟩
  simp only at hgeneral hstack
  -- the string is given back, which the screen does not notice
  refine (hl₂.release hblock).bind ?_
  rintro - h₃ ⟨hl₃, hp₃⟩
  rw [Finset.erase_insert fun hq => hadds.fresh _ hq rfl] at hl₃
  have hp : Preserves S h₂ h₃ := hp₃.mono hsub
  exact Yields.pure ⟨hl₃, hkeeps₂.trans hp.keeps, hkept v' h₂ h₃ hkeeps₂.bounds hp hZ, hgeneral,
    hstack⟩

/-- The string of the message, as the handler finds it. -/
theorem AddsString.chars_kept {h₁ g : Heap} (hadds : AddsString S h q h₁ out)
    (hp : Preserves (insert ⟨q, BitVec.ofNat 32 (out.length + 1)⟩ S) h₁ g) : Chars g.mem q out := by
  have hsize : (BitVec.ofNat 32 (out.length + 1)).toNat = out.length + 1 :=
    toNat_ofNat_of_lt hadds.fits
  have hblock := Finset.mem_insert_self (⟨q, BitVec.ofNat 32 (out.length + 1)⟩ : Block) S
  refine hadds.string.congr fun i hi => hp.bytes _ (Or.inr ⟨_, hblock, ?_⟩)
  exact hadds.live.mem_payload hblock (by rw [hsize]; omega)

/-- **One message** is shown, and nothing else has happened. -/
theorem printFormatted_spec (hl : Live h S) (hvideo : videoRange ⊆ Settled h S)
    (hroom : FirstFits S h 1) (hliterals : env.literals.Placed S h)
    (htemplate : Readable S h template text)
    (hargs : Supplies (Accepts S h) (formatPieces text) args)
    (hfits : 4 * (args.length + 3) ≤ 2 ^ 32) (hframe : site.screen.frame.length + 5 < 2 ^ 28)
    (hplain : ∀ out, Fills (Renders env.ops h.mem) (formatPieces text) args out →
      ∀ c ∈ out, c ≠ backspace ∧ c ≠ tab)
    (hshows : Shows 25 80 blankCell (Screen.grid ⟨h.mem, v⟩) l) :
    Succeeds (printFormatted env site font back template args v p) h fun r h' => ∃ out,
      Fills (Renders env.ops h.mem) (formatPieces text) args out ∧ Live h' S ∧
        KeepsUnseen S h h' ∧
        Shows 25 80 blankCell (Screen.grid ⟨h'.mem, r.1⟩)
          (((styled font.byte back.byte out).map Styled.symbol).foldl (Layout.put 80) l) ∧
        r.2.general = p.general ∧ r.2.stack = p.stack := by
  have hcalled := called_call (env.formatEnv site p) template hfits
  refine (format_spec hl hroom hliterals htemplate hcalled hargs).bind ?_
  rintro q h₁ ⟨out, hfills, hlt, hh⟩
  have hadds := hh.addsString hlt
  have hempty := Finset.insert_ne_empty (⟨q, BitVec.ofNat 32 (out.length + 1)⟩ : Block) S
  have hvideo₁ : videoRange ⊆ Settled h₁ (insert ⟨q, BitVec.ofNat 32 (out.length + 1)⟩ S) := by
    rw [hadds.preserves.bounds.settled]
    exact hvideo.trans (settled_mono (Finset.subset_insert _ _))
  have hprinted := printString_spec (p := p) (R := fun _ => True) (Z := fun v' g =>
      Shows 25 80 blankCell (Screen.grid ⟨g.mem, v'⟩)
        (((styled font.byte back.byte out).map Styled.symbol).foldl (Layout.put 80) l))
    font back v hadds hframe (hadds.live.allocates (by decide) fun h0 => absurd h0 hempty) ?_ ?_
  · refine hprinted.mono ?_
    rintro r h' ⟨hl', hkeeps, hshown, hgeneral, hstack⟩
    exact ⟨out, hfills, hl', hkeeps, hshown, hgeneral, hstack⟩
  · -- the handler finds the string and the screen as they were
    intro g hlg hpg
    rcases printed_screen font back (hadds.chars_kept hpg) (fun i hi => hadds.not_video hvideo hi)
      hlt (hplain out hfills) (hpg.shows hvideo₁ (hadds.preserves.shows hvideo hshows))
      with ⟨ret, s, hrequest, hw, hshown⟩
    refine ⟨ret, s, hrequest, hw, offScreen_of_settled hlg ?_, hshown⟩
    rw [hpg.bounds.settled]
    exact hvideo₁
  · intro v' g g' hbounds hp hshown
    refine hp.shows ?_ hshown
    rw [hbounds.settled]
    exact hvideo

/-! ## Messages wherever the cursor is -/

/-- The string of a message can be printed without anything but the screen being overwritten. -/
structure ShowsAside (S : Finset Block) (h : Heap) (q : UDword) (h₁ : Heap) (out : List UByte) :
    Prop where
  adds : AddsString S h q h₁ out
  short : out.length < intRange
  plain : ∀ c ∈ out, c ≠ backspace ∧ c ≠ tab
  unseen : ∀ i ≤ out.length, q + BitVec.ofNat 32 i ∉ videoRange
  offScreen : OffScreen h₁ (insert ⟨q, BitVec.ofNat 32 (out.length + 1)⟩ S)

/-- What there is on the screen does not matter, and neither does what scrolls off it. -/
theorem printFormatted_of_format {E : Set Fault} {R : Block → Prop}
    (hframe : site.screen.frame.length + 5 < 2 ^ 28)
    (hcursor : (Screen.mk h.mem v).cursor < 2000)
    (hformat : Yields strict E (format ((env.formatEnv site p).call template args) template) h
      fun q h₁ => ∃ out, ShowsAside S h q h₁ out ∧
        Allocates E (insert ⟨q, BitVec.ofNat 32 (out.length + 1)⟩ S) h₁ 20 R) :
    Yields strict E (printFormatted env site font back template args v p) h fun r h' =>
      Live h' S ∧ KeepsUnseen S h h' ∧ (Screen.mk h'.mem r.1).cursor < 2000 := by
  refine hformat.bind ?_
  rintro q h₁ ⟨out, haside, ha⟩
  have hprinted := printString_spec (p := p) (Z := fun v' g => (Screen.mk g.mem v').cursor < 2000)
    font back v haside.adds hframe ha ?_ ?_
  · refine hprinted.mono ?_
    rintro r h' ⟨hl', hkeeps, hin, -, -⟩
    exact ⟨hl', hkeeps, hin⟩
  · intro g hlg hpg
    rcases printed_request font back (haside.adds.chars_kept hpg) haside.unseen
      haside.short haside.plain (show (Screen.mk g.mem v).cursor < 2000 from hcursor)
      with ⟨ret, s, hrequest, hw, hin, -⟩
    exact ⟨ret, s, hrequest, hw, hpg.bounds.offScreen haside.offScreen, hin⟩
  · -- the cursor is not in the memory
    intro v' g g' _ _ hin
    exact hin

/-- The heap has room for the message below the video memory, and then the message returns. -/
theorem printFormatted_of_headroom {limit : ℕ} (hlimit : limit ≤ 0xb8000) (hl : Live h S)
    (hroom : Headroom limit (32 + formatRoom text) S h) (hliterals : env.literals.Placed S h)
    (htemplate : Readable S h template text) (hwords : OnlyWords text)
    (hargs : Supplies (Accepts S h) (formatPieces text) args)
    (hfits : 4 * (args.length + 3) ≤ 2 ^ 32) (hframe : site.screen.frame.length + 5 < 2 ^ 28)
    (hplain : ∀ out, Fills (Renders env.ops h.mem) (formatPieces text) args out →
      ∀ c ∈ out, c ≠ backspace ∧ c ≠ tab)
    (hcursor : (Screen.mk h.mem v).cursor < 2000) :
    Yields strict ∅ (printFormatted env site font back template args v p) h fun r h' =>
      Live h' S ∧ KeepsUnseen S h h' ∧ (Screen.mk h'.mem r.1).cursor < 2000 := by
  have hcalled := called_call (env.formatEnv site p) template hfits
  refine printFormatted_of_format (R := fun b => b.stop + 0 ≤ limit) hframe hcursor ?_
  refine (format_returns hl hroom hliterals htemplate hwords hcalled hargs).mono ?_
  rintro q h₁ ⟨out, hfills, hlt, hw⟩
  have hadds := hw.holding.addsString hlt
  have hroom₁ := hw.room
  rw [union_blocksOf_singleton] at hroom₁
  refine ⟨out, ⟨hadds, hlt, hplain out hfills, ?_, hroom₁.offScreen hlimit hadds.live⟩,
    hroom₁.allocates hadds.live⟩
  -- the string ends below the screen
  intro i hi hmem
  have hsize : (BitVec.ofNat 32 (out.length + 1)).toNat = out.length + 1 :=
    toNat_ofNat_of_lt hadds.fits
  have hstop : q.toNat + (BitVec.ofNat 32 (out.length + 1)).toNat + 32 ≤ limit :=
    hroom₁.below _ (Finset.mem_insert_self _ _)
  rw [hsize] at hstop
  rw [videoRange, mem_span, toNat_add_ofNat (by omega)] at hmem
  omega

/-! ## Messages -/

/-- With room for the longest of them, all messages return. -/
theorem printMessages_of_headroom {limit : ℕ} (hlimit : limit ≤ 0xb8000)
    (messages : List Message) (texts : Message → List UByte) (hl : Live h S)
    (hroom : ∀ msg ∈ messages, Headroom limit (32 + formatRoom (texts msg)) S h)
    (hwords : ∀ msg ∈ messages, OnlyWords (texts msg))
    (hliterals : Steady S h (env.literals.Placed S))
    (hsound : ∀ msg ∈ messages, msg.Sound env S h (texts msg))
    (hcursor : (Screen.mk h.mem v).cursor < 2000) :
    Yields strict ∅ (printMessages env messages v p) h fun _ _ => True := by
  suffices hfrom : ∀ g v p, Live g S → KeepsUnseen S h g → (Screen.mk g.mem v).cursor < 2000 →
      Yields strict ∅ (printMessages env messages v p) g fun _ _ => True from
    hfrom h v p hl (KeepsUnseen.refl S h) hcursor
  clear hcursor hl
  induction messages with
  | nil =>
    intro g v p _ _ _
    exact Yields.pure trivial
  | cons msg messages ih =>
    intro g v p hlg hkeeps hcursor
    have hmsg := hsound msg List.mem_cons_self
    have hroom' := (hroom msg List.mem_cons_self).mono (le_refl _) (Finset.Subset.refl S)
      hkeeps.bounds
    refine (printFormatted_of_headroom hlimit hlg hroom' (hliterals g hkeeps)
      (hmsg.template g hkeeps) (hwords msg List.mem_cons_self) (hmsg.args g hkeeps) hmsg.fits
      hmsg.frame (hmsg.plain g hkeeps) hcursor).bind ?_
    rintro ⟨v', p'⟩ g' ⟨hl', hkeeps', hcursor'⟩
    -- the room is that of the first heap: the message has given back what it has taken
    exact ih (fun m hm => hroom m (List.mem_cons_of_mem msg hm))
      (fun m hm => hwords m (List.mem_cons_of_mem msg hm))
      (fun m hm => hsound m (List.mem_cons_of_mem msg hm)) g' v' p' hl' (hkeeps.trans hkeeps')
      hcursor'

/-- **Messages appear on the screen one after another**, each as its template reads with its
arguments. In the end the heap has the blocks it had, no byte has changed that is neither
shown nor the heap's to write, and registers and stack are those of the caller. -/
theorem messages_shown (messages : List Message) (texts : Message → List UByte) (hl : Live h S)
    (hvideo : videoRange ⊆ Settled h S) (hroom : FirstFits S h 1)
    (hliterals : Steady S h (env.literals.Placed S))
    (hsound : ∀ msg ∈ messages, msg.Sound env S h (texts msg))
    (hshows : Shows 25 80 blankCell (Screen.grid ⟨h.mem, v⟩) l) :
    Succeeds (printMessages env messages v p) h fun r h' => ∃ outs,
      List.Forall₂ (Message.Reads env S h) messages outs ∧
        Shows 25 80 blankCell (Screen.grid ⟨h'.mem, r.1⟩)
          ((List.zipWith Message.symbols messages outs).flatten.foldl (Layout.put 80) l) ∧
        Live h' S ∧ KeepsUnseen S h h' ∧ r.2.general = p.general ∧ r.2.stack = p.stack := by
  -- each message starts from the heap and the screen the one before has left
  suffices hfrom : ∀ g l v p, Live g S → KeepsUnseen S h g →
      Shows 25 80 blankCell (Screen.grid ⟨g.mem, v⟩) l →
      Succeeds (printMessages env messages v p) g fun r h' => ∃ outs,
        List.Forall₂ (Message.Reads env S h) messages outs ∧
          Shows 25 80 blankCell (Screen.grid ⟨h'.mem, r.1⟩)
            ((List.zipWith Message.symbols messages outs).flatten.foldl (Layout.put 80) l) ∧
          Live h' S ∧ KeepsUnseen S h h' ∧ r.2.general = p.general ∧ r.2.stack = p.stack from
    hfrom h l v p hl (KeepsUnseen.refl S h) hshows
  clear hshows hl
  induction messages with
  | nil =>
    intro g l v p hlg hkeeps hshows
    exact Yields.pure ⟨[], .nil, hshows, hlg, hkeeps, rfl, rfl⟩
  | cons msg messages ih =>
    intro g l v p hlg hkeeps hshows
    have hmsg := hsound msg List.mem_cons_self
    have hvideo' : videoRange ⊆ Settled g S := by
      rw [hkeeps.bounds.settled]
      exact hvideo
    have hroom' : FirstFits S g 1 := by
      intro hempty
      rw [hkeeps.bounds.heapStart, hkeeps.bounds.heapEnd]
      exact hroom hempty
    refine (printFormatted_spec hlg hvideo' hroom' (hliterals g hkeeps) (hmsg.template g hkeeps)
      (hmsg.args g hkeeps) hmsg.fits hmsg.frame (hmsg.plain g hkeeps) hshows).bind ?_
    rintro ⟨v', p'⟩ g' ⟨out, hfills, hl', hkeeps', hshows', hgeneral, hstack⟩
    simp only at hshows' hgeneral hstack
    refine (ih (fun m hm => hsound m (List.mem_cons_of_mem msg hm)) g' _ v' p' hl'
      (hkeeps.trans hkeeps') hshows').mono ?_
    rintro r h' ⟨outs, hreads, hshown, hlive, hall, hgeneral', hstack'⟩
    refine ⟨out :: outs, .cons ⟨_, g, hkeeps, hmsg.template g hkeeps, hfills⟩ hreads, ?_, hlive,
      hall, hgeneral'.trans hgeneral, hstack'.trans hstack⟩
    rw [List.zipWith_cons_cons, List.flatten_cons, List.foldl_append]
    exact hshown

end Printing

/-! ### Two messages -/

/-- A cleared screen, and the strings of `rodata` above a heap with room. -/
def clearedScreen : Screen := clearScreen ⟨wideHeap.mem, ⟨0, fun _ => 0⟩⟩

def screenHeap : Heap := { wideHeap with mem := clearedScreen.mem }

def messageEnv : MessageEnv where
  literals := rodataLiterals
  ops := noPrecise

/-- The only place messages are printed at. -/
def messageSite : MessageSite where
  formatReturn := 0x200
  screen := ⟨[], (0, 0, 0), ⟨0, 0, 0, 0, 0, 0, 0⟩, 0x8123, 0x8100⟩

/-- `%d%%`, for a number. -/
def percentMessage (kind : MessageKind) (w : UDword) : Message := ⟨kind, 0x2026, [w], messageSite⟩

theorem videoRange_settled : videoRange ⊆ Settled wideHeap ∅ := by
  intro a ha
  refine Or.inl fun hin => ?_
  have hend := wideHeap_above.1
  have hlt := hin.2
  rw [videoRange, mem_span] at ha
  omega

theorem screenHeap_spec : Live screenHeap ∅ ∧ KeepsUnseen ∅ wideHeap screenHeap :=
  wideHeap_live.of_video_writes (offScreen_of_settled wideHeap_live videoRange_settled)
    (writes_clearScreen ⟨wideHeap.mem, ⟨0, fun _ => 0⟩⟩)

/-- The strings are not on the screen. -/
theorem rodataAbove_steady : Steady ∅ screenHeap RodataAbove := by
  intro g hkeeps
  have hall := screenHeap_spec.2.trans hkeeps
  refine ⟨by rw [hall.bounds.heapEnd]; exact wideHeap_above.1, ?_⟩
  intro i hi
  have haddr : (0x2000 + BitVec.ofNat 32 i : UDword).toNat = 0x2000 + i :=
    toNat_add_ofNat (by show 0x2000 + i < 2 ^ 32; omega)
  rw [← wideHeap_above.2 i hi]
  refine hall.bytes _ (Or.inl fun hin => ?_) ?_
  · have hend := wideHeap_above.1
    have hlt := hin.2
    omega
  · rw [videoRange, mem_span, haddr]
    omega

theorem formatPieces_percent :
    formatPieces (ascii "%d%%") = [.conversion .decimal, .char percent, .char percent] := by
  decide

theorem percentMessage_sound (kind : MessageKind) (w : UDword) :
    (percentMessage kind w).Sound messageEnv ∅ screenHeap (ascii "%d%%") where
  template := fun g hg =>
    (rodataAbove_steady g hg).readable 38 (by decide) (by decide) (by decide)
  args := by
    intro g hg
    rw [formatPieces_percent]
    exact Supplies.conversion (Accepts.word w (by decide)) (Supplies.char _ (Supplies.char _
      (Supplies.nil [])))
  plain := by
    intro g hg out hfills
    exact plain_of_fills hfills (by decide)
  fits := show 4 * (1 + 3) ≤ 2 ^ 32 by decide
  frame := show 0 + 5 < 2 ^ 28 by decide

/-- A warning and an error. -/
theorem messages_shown_two : ∃ r h',
    (printMessages messageEnv [percentMessage .warn 95, percentMessage .bad (-5)]
      clearedScreen.video exampleProcessor).run screenHeap = .ok (r, h') ∧ ∃ outs,
    List.Forall₂ (Message.Reads messageEnv ∅ screenHeap)
        [percentMessage .warn 95, percentMessage .bad (-5)] outs ∧
      Shows 25 80 blankCell (Screen.grid ⟨h'.mem, r.1⟩)
        ((List.zipWith Message.symbols [percentMessage .warn 95, percentMessage .bad (-5)]
          outs).flatten.foldl (Layout.put 80) Layout.empty) ∧
      Live h' ∅ ∧ KeepsUnseen ∅ screenHeap h' ∧ r.2.general = exampleProcessor.general ∧
      r.2.stack = exampleProcessor.stack := by
  have hbounds := screenHeap_spec.2.bounds
  have hvideo : videoRange ⊆ Settled screenHeap ∅ := by
    rw [hbounds.settled]
    exact videoRange_settled
  have hroom : Headroom 8084 (32 + formatRoom (ascii "%d%%")) ∅ screenHeap := by
    refine Headroom.mono ?_ (le_refl _) (Finset.Subset.refl ∅) hbounds
    refine ⟨?_, by simp, wideHeap_bounds.2.ge⟩
    rw [wideHeap_bounds.1]
    decide
  have hfits : FirstFits ∅ screenHeap 1 := by
    intro _
    have hstart := hroom.start
    have hinside := hroom.inside
    omega
  have hliterals : Steady ∅ screenHeap (messageEnv.literals.Placed ∅) :=
    fun g hg => (rodataAbove_steady g hg).placed
  have hsound : ∀ msg ∈ [percentMessage .warn 95, percentMessage .bad (-5)],
      msg.Sound messageEnv ∅ screenHeap (ascii "%d%%") := by
    intro msg hmsg
    rw [List.mem_cons, List.mem_singleton] at hmsg
    rcases hmsg with rfl | rfl
    · exact percentMessage_sound .warn 95
    · exact percentMessage_sound .bad (-5)
  have hcursor : (Screen.mk screenHeap.mem clearedScreen.video).cursor < 2000 := by
    show (clearScreen _).cursor < 2000
    rw [cursor_clearScreen]
    decide
  have hreturns := printMessages_of_headroom (p := exampleProcessor) (by decide) _
    (fun _ => ascii "%d%%") screenHeap_spec.1 (fun _ _ => hroom) (fun _ _ => by decide) hliterals
    hsound hcursor
  have hshown := messages_shown (p := exampleProcessor) _ (fun _ => ascii "%d%%")
    screenHeap_spec.1 hvideo hfits hliterals hsound (clearScreen_shows _)
  rcases (hreturns.both hshown).returns with ⟨r, h', hrun, -, hfacts⟩
  exact ⟨r, h', hrun, hfacts⟩

end MushOS
