import MushOS.Base.Memory
import MushOS.Theory.Terminal

/-! # screen.c: the text screen

The driver writes characters and attributes to the video memory and keeps the
cursor in two registers of the video controller. Here it is taken to a grid of
cells: what `print_char_color` does is a step of `Terminal.Grid`, for every
character but a backspace and a tab (`printCharColor_grid`), and from a cleared
screen the driver shows the end of whatever has been printed.
-/

namespace MushOS

open ByteMemory Terminal

/-! ## Model: the video controller -/

def regScreenCtrl : UWord := 0x3d4
def regScreenData : UWord := 0x3d5

/-- The controller: an index, and the register it selects. -/
structure VideoController where
  index : UByte
  registers : UByte → UByte

def VideoController.portByteOut (port : UWord) (data : UByte) (v : VideoController) :
    VideoController :=
  if port = regScreenCtrl then { v with index := data }
  else if port = regScreenData then { v with registers := Function.update v.registers v.index data }
  else v

/-- The two ports can be read; nothing else is connected. -/
def VideoController.portByteIn (port : UWord) (v : VideoController) : UByte :=
  if port = regScreenCtrl then v.index
  else if port = regScreenData then v.registers v.index
  else 0xff

/-! ## Model: the driver -/

def videoMemory : UDword := 0xb8000
def rowsNum : UDword := 25
def colsNum : UDword := 80

/-- `(BLACK << 12u) + (LIGHT_GRAY << 8u) + ' '`, lower byte first. -/
def blankSample : List UByte := [0x20, 0x07]

structure ScreenCoords where
  row : UWord
  column : UWord

/-- The memory, and the controller. -/
structure Screen where
  mem : Mem
  video : VideoController

def getCursorOffset (s : Screen) : UDword × Screen :=
  let v := s.video.portByteOut regScreenCtrl 14
  let offset := ((v.portByteIn regScreenData).setWidth 32 <<< 8) &&& 0xff00#32
  let v := v.portByteOut regScreenCtrl 15
  let offset := offset + ((v.portByteIn regScreenData).setWidth 32 &&& 0x00ff#32)
  (offset, { s with video := v })

def setCursorOffset (offset : UDword) (s : Screen) : Screen :=
  let v := s.video.portByteOut regScreenCtrl 14
  let v := v.portByteOut regScreenData (((offset &&& 0xff00) >>> 8).setWidth 8)
  let v := v.portByteOut regScreenCtrl 15
  let v := v.portByteOut regScreenData ((offset &&& 0x00ff).setWidth 8)
  { s with video := v }

def setCursor (coords : ScreenCoords) (s : Screen) : Screen :=
  setCursorOffset (coords.row.signExtend 32 * colsNum + coords.column.signExtend 32) s

/-- `vm[i] = b`. -/
def Screen.put (s : Screen) (i : UDword) (b : UByte) : Screen :=
  { s with mem := s.mem.write8 (videoMemory + i) b }

/-- `vm[mem_offset] = c; vm[mem_offset + 1] = attributes;` -/
def Screen.putCell (s : Screen) (memOffset : UDword) (c attributes : UByte) : Screen :=
  (s.put memOffset c).put (memOffset + 1) attributes

/-- Iterations `1 .. n` of the loop of `scroll`. -/
def scrollLoop : ℕ → Mem → Mem
  | 0, m => m
  | n + 1, m =>
    let currRow := videoMemory + BitVec.ofNat 32 (n + 1) * colsNum * 2
    let prevRow := videoMemory + BitVec.ofNat 32 n * colsNum * 2
    memoryCopy currRow prevRow (colsNum * 2) (scrollLoop n m)

def scroll (cursorOffset : UDword) (s : Screen) : UDword × Screen :=
  if cursorOffset < colsNum * rowsNum * 2 then (cursorOffset, s)
  else
    let m := scrollLoop 24 s.mem
    let last := videoMemory + (rowsNum - 1) * colsNum * 2
    let m := memoryFill last blankSample colsNum m
    (cursorOffset - colsNum * 2, { s with mem := m })

/-- Iterations `0 .. n - 1` of the loop of a tab. -/
def tabLoop (memOffset : UDword) (attributes : UByte) : ℕ → Screen → Screen
  | 0, s => s
  | n + 1, s =>
    let s := tabLoop memOffset attributes n s
    s.putCell (memOffset + BitVec.ofNat 32 (2 * n)) 0x20 attributes

def attributesOf (textColor backColor : UByte) : UByte := (backColor <<< 4) + textColor

/-- The characters with a meaning of their own. -/
def newline : UByte := 0x0a
def backspace : UByte := 0x08
def tab : UByte := 0x09

/-- The branches of `print_char_color`, up to `mem_offset += 2`. -/
def printBranch (c attributes : UByte) (memOffset : UDword) (s : Screen) : UDword × Screen :=
  if c = newline then
    let rows := memOffset / 2 / colsNum + 1
    (2 * colsNum * rows - 2, s)
  else if c = backspace then
    let memOffset := memOffset - 2
    (memOffset - 2, s.putCell memOffset 0x20 attributes)
  else if c = tab then (memOffset + 6, tabLoop memOffset attributes 4 s)
  else (memOffset, s.putCell memOffset c attributes)

def printCharColor (c textColor backColor : UByte) (s : Screen) : Screen :=
  let attributes := attributesOf textColor backColor
  let (offset, s) := getCursorOffset s
  let memOffset := offset * 2
  let (memOffset, s) := printBranch c attributes memOffset s
  let memOffset := memOffset + 2
  let (memOffset, s) := scroll memOffset s
  setCursorOffset (memOffset / 2) s

/-- Iterations `0 .. n - 1` of the loop over `length` characters. -/
def printLoop (str : UDword) (textColor backColor : UByte) : ℕ → Screen → Screen
  | 0, s => s
  | n + 1, s =>
    let s := printLoop str textColor backColor n s
    printCharColor (s.mem.read8 (str + BitVec.ofNat 32 n)) textColor backColor s

/-- The loop up to a null character, from character `i` on; when there is none within
the whole memory the loop does not end. -/
def printUntilNull (str : UDword) (textColor backColor : UByte) : ℕ → ℕ → Screen → Option Screen
  | 0, _, _ => none
  | fuel + 1, i, s =>
    let c := s.mem.read8 (str + BitVec.ofNat 32 i)
    if c ≠ 0 then
      printUntilNull str textColor backColor fuel (i + 1) (printCharColor c textColor backColor s)
    else some s

def printStringColor (str : UDword) (textColor backColor : UByte) (length : UDword) (s : Screen) :
    Option Screen :=
  if length = 0 then printUntilNull str textColor backColor (2 ^ 32) 0 s
  else some (printLoop str textColor backColor length.toNat s)

def clearScreen (s : Screen) : Screen :=
  setCursor ⟨0, 0⟩ { s with mem := memoryFill videoMemory blankSample (colsNum * rowsNum) s.mem }

/-! ## Cells -/

/-- The bytes the driver may write. -/
def videoRange : Set UDword := span 0xb8000 4000

/-- The character and the attribute of cell `k`. -/
def cell (m : Mem) (k : ℕ) : UByte × UByte :=
  (m.bytes (videoMemory + BitVec.ofNat 32 (2 * k)),
    m.bytes (videoMemory + BitVec.ofNat 32 (2 * k + 1)))

def blankCell : UByte × UByte := (0x20, 0x07)

/-- The cells, and the cell the cursor is on. -/
def Screen.grid (s : Screen) : Grid (UByte × UByte) := ⟨cell s.mem, (getCursorOffset s).1.toNat⟩

section Cells
variable {m m' : Mem} {s : Screen} {k i n : ℕ} {c attributes : UByte} {offset : UDword}

theorem toNat_videoAddress (hi : i < 2 ^ 31) :
    (videoMemory + BitVec.ofNat 32 i).toNat = 0xb8000 + i := by
  rw [toNat_add_ofNat (by show 0xb8000 + i < 2 ^ 32; omega)]
  rfl

theorem videoAddress_mem (hi : i < 4000) : videoMemory + BitVec.ofNat 32 i ∈ videoRange := by
  rw [videoRange, mem_span, toNat_videoAddress (by omega)]
  omega

theorem videoAddress_ne {j : ℕ} (hi : i < 2 ^ 31) (hj : j < 2 ^ 31) (hij : i ≠ j) :
    videoMemory + BitVec.ofNat 32 i ≠ videoMemory + BitVec.ofNat 32 j := by
  intro heq
  have hnat := congrArg BitVec.toNat heq
  rw [toNat_videoAddress hi, toNat_videoAddress hj] at hnat
  omega

/-- A cell is its two bytes. -/
theorem cell_congr (h : ∀ r < 2, m'.bytes (videoMemory + BitVec.ofNat 32 (2 * k + r)) =
      m.bytes (videoMemory + BitVec.ofNat 32 (2 * i + r))) : cell m' k = cell m i := by
  have h0 := h 0 (by decide)
  have h1 := h 1 (by decide)
  rw [Nat.add_zero, Nat.add_zero] at h0
  unfold cell
  rw [h0, h1]

/-- A byte of the screen is one of the two of its cell. -/
theorem byte_congr {j : ℕ} (h : cell m' (j / 2) = cell m (j / 2)) :
    m'.bytes (videoMemory + BitVec.ofNat 32 j) = m.bytes (videoMemory + BitVec.ofNat 32 j) := by
  have hchar : m'.bytes (videoMemory + BitVec.ofNat 32 (2 * (j / 2))) =
      m.bytes (videoMemory + BitVec.ofNat 32 (2 * (j / 2))) := congrArg Prod.fst h
  have hattributes : m'.bytes (videoMemory + BitVec.ofNat 32 (2 * (j / 2) + 1)) =
      m.bytes (videoMemory + BitVec.ofNat 32 (2 * (j / 2) + 1)) := congrArg Prod.snd h
  have hparity : j = 2 * (j / 2) ∨ j = 2 * (j / 2) + 1 := by omega
  rcases hparity with heq | heq
  · rw [heq]
    exact hchar
  · rw [heq]
    exact hattributes

theorem putCell_eq (hk : offset = BitVec.ofNat 32 (2 * k)) :
    s.putCell offset c attributes = { s with
      mem := (s.mem.write8 (videoMemory + BitVec.ofNat 32 (2 * k)) c).write8
        (videoMemory + BitVec.ofNat 32 (2 * k + 1)) attributes } := by
  unfold Screen.putCell Screen.put
  rw [hk, BitVec.ofNat_add]
  rfl

theorem writes_putCell (hk : offset = BitVec.ofNat 32 (2 * k)) (hlt : k < 2000) :
    Writes videoRange s.mem (s.putCell offset c attributes).mem := by
  rw [putCell_eq hk]
  exact (writes_write8 _ _ (videoAddress_mem (by omega))).trans
    (writes_write8 _ _ (videoAddress_mem (by omega)))

theorem cell_putCell (hk : offset = BitVec.ofNat 32 (2 * k)) (hlt : k < 2 ^ 29) (hi : i < 2 ^ 29) :
    cell (s.putCell offset c attributes).mem i =
      Function.update (cell s.mem) k (c, attributes) i := by
  rw [putCell_eq hk]
  by_cases hik : i = k
  · subst hik
    rw [Function.update_self]
    unfold cell
    rw [Mem.write8_bytes_self,
      Mem.write8_bytes_ne _ _ (videoAddress_ne (by omega) (by omega) (by omega)),
      Mem.write8_bytes_self]
  · rw [Function.update_of_ne hik]
    refine cell_congr ?_
    intro r hr
    rw [Mem.write8_bytes_ne _ _ (videoAddress_ne (by omega) (by omega) (by omega)),
      Mem.write8_bytes_ne _ _ (videoAddress_ne (by omega) (by omega) (by omega))]

/-! ## Filling and scrolling -/

/-- Cells filled with the blank one. -/
theorem cell_memoryFill {start : ℕ} (hstart : start + n ≤ 2000) (m : Mem) (hi : i < 2000) :
    cell (memoryFillLoop (videoMemory + BitVec.ofNat 32 (2 * start)) blankSample n m) i =
      if start ≤ i ∧ i < start + n then blankCell else cell m i := by
  have hbase : (videoMemory + BitVec.ofNat 32 (2 * start)).toNat = 0xb8000 + 2 * start :=
    toNat_videoAddress (by omega)
  have hlength : blankSample.length = 2 := rfl
  have hfits :
      (videoMemory + BitVec.ofNat 32 (2 * start)).toNat + n * blankSample.length ≤ 2 ^ 32 := by
    rw [hbase, hlength]
    omega
  have hw := writes_memoryFillLoop _ _ hfits m
  rw [hbase, hlength] at hw
  -- a cell is two bytes, and both are filled or none is
  by_cases hin : start ≤ i ∧ i < start + n
  · rw [if_pos hin]
    have hbyte : ∀ r < 2, (memoryFillLoop (videoMemory + BitVec.ofNat 32 (2 * start)) blankSample n
        m).bytes (videoMemory + BitVec.ofNat 32 (2 * i + r)) = blankSample.getD r 0 := by
      intro r hr
      have haddr : videoMemory + BitVec.ofNat 32 (2 * i + r) =
          videoMemory + BitVec.ofNat 32 (2 * start) +
            BitVec.ofNat 32 ((i - start) * blankSample.length + r) := by
        rw [BitVec.add_assoc, BitVec.ofNat_add_ofNat, hlength]
        congr 2
        omega
      rw [haddr]
      exact memoryFillLoop_bytes hfits m (by omega) hr
    exact Prod.ext (hbyte 0 (by decide)) (hbyte 1 (by decide))
  · rw [if_neg hin]
    have hframe : ∀ r < 2, (memoryFillLoop (videoMemory + BitVec.ofNat 32 (2 * start)) blankSample n
        m).bytes (videoMemory + BitVec.ofNat 32 (2 * i + r)) =
          m.bytes (videoMemory + BitVec.ofNat 32 (2 * i + r)) := by
      intro r hr
      refine hw.frame _ ?_
      rw [mem_span, toNat_videoAddress (by omega)]
      omega
    exact cell_congr hframe

/-- The loop of `scroll`: the rows before row `n` have moved up. -/
theorem scrollLoop_spec (hn : n ≤ 24) (m : Mem) :
    Writes videoRange m (scrollLoop n m) ∧
      ∀ i < 2000, cell (scrollLoop n m) i = if i < 80 * n then cell m (i + 80) else cell m i := by
  induction n with
  | zero =>
    refine ⟨Writes.refl _ m, ?_⟩
    intro i hi
    rw [if_neg (by omega)]
    rfl
  | succ n ih =>
    rcases ih (by omega) with ⟨hw, hcells⟩
    have hsource : videoMemory + BitVec.ofNat 32 (n + 1) * colsNum * 2 =
        videoMemory + BitVec.ofNat 32 (160 * (n + 1)) := by
      unfold colsNum
      congr 1
      bv_omega
    have hdest : videoMemory + BitVec.ofNat 32 n * colsNum * 2 =
        videoMemory + BitVec.ofNat 32 (160 * n) := by
      unfold colsNum
      congr 1
      bv_omega
    have hs := toNat_videoAddress (i := 160 * (n + 1)) (by omega)
    have hd := toNat_videoAddress (i := 160 * n) (by omega)
    rw [scrollLoop, hsource, hdest]
    have hcopy := writes_memoryCopyLoop (videoMemory + BitVec.ofNat 32 (160 * (n + 1)))
      (videoMemory + BitVec.ofNat 32 (160 * n)) (n := 160) (by omega) (scrollLoop n m)
    refine ⟨hw.trans (hcopy.mono ?_), ?_⟩
    · intro a ha
      rw [mem_span, hd] at ha
      rw [videoRange, mem_span]
      omega
    · intro i hi
      show cell (memoryCopyLoop _ _ 160 (scrollLoop n m)) i = _
      by_cases hrow : 80 * n ≤ i ∧ i < 80 * (n + 1)
      · -- the row that is copied now; its source has not been overwritten
        have hbyte : ∀ r < 2, (memoryCopyLoop (videoMemory + BitVec.ofNat 32 (160 * (n + 1)))
            (videoMemory + BitVec.ofNat 32 (160 * n)) 160 (scrollLoop n m)).bytes
              (videoMemory + BitVec.ofNat 32 (2 * i + r)) =
            (scrollLoop n m).bytes (videoMemory + BitVec.ofNat 32 (2 * (i + 80) + r)) := by
          intro r hr
          have hto : videoMemory + BitVec.ofNat 32 (2 * i + r) = videoMemory +
              BitVec.ofNat 32 (160 * n) + BitVec.ofNat 32 (2 * i + r - 160 * n) := by
            rw [BitVec.add_assoc, BitVec.ofNat_add_ofNat]
            congr 2
            omega
          have hfrom : videoMemory + BitVec.ofNat 32 (2 * (i + 80) + r) = videoMemory +
              BitVec.ofNat 32 (160 * (n + 1)) + BitVec.ofNat 32 (2 * i + r - 160 * n) := by
            rw [BitVec.add_assoc, BitVec.ofNat_add_ofNat]
            congr 2
            omega
          rw [hto, hfrom]
          refine memoryCopyLoop_bytes ?_ ?_ ?_ (scrollLoop n m) ?_
          · rw [hs]
            omega
          · rw [hd]
            omega
          · right
            rw [hs, hd]
            omega
          · omega
        have hmoved : cell (memoryCopyLoop (videoMemory + BitVec.ofNat 32 (160 * (n + 1)))
            (videoMemory + BitVec.ofNat 32 (160 * n)) 160 (scrollLoop n m)) i =
              cell (scrollLoop n m) (i + 80) := cell_congr hbyte
        rw [hmoved, hcells _ (by omega), if_neg (by omega), if_pos hrow.2]
      · -- the rows above are in place, those below have not moved
        have hframe : ∀ r < 2, (memoryCopyLoop (videoMemory + BitVec.ofNat 32 (160 * (n + 1)))
            (videoMemory + BitVec.ofNat 32 (160 * n)) 160 (scrollLoop n m)).bytes
              (videoMemory + BitVec.ofNat 32 (2 * i + r)) =
            (scrollLoop n m).bytes (videoMemory + BitVec.ofNat 32 (2 * i + r)) := by
          intro r hr
          refine hcopy.frame _ ?_
          rw [mem_span, hd, toNat_videoAddress (by omega)]
          omega
        rw [cell_congr hframe, hcells i hi]
        by_cases hlt : i < 80 * n
        · rw [if_pos hlt, if_pos (by omega)]
        · rw [if_neg hlt, if_neg (by omega)]

/-- `scroll` below the last row: the rows move up, the last one is blank. -/
theorem scroll_below (hbelow : ¬ offset < colsNum * rowsNum * 2) :
    ∃ m', scroll offset s = (offset - colsNum * 2, { s with mem := m' }) ∧
      Writes videoRange s.mem m' ∧
      ∀ i < 2000, cell m' i = if i < 1920 then cell s.mem (i + 80) else blankCell := by
  rcases scrollLoop_spec (Nat.le_refl 24) s.mem with ⟨hw, hcells⟩
  have hlast : videoMemory + (rowsNum - 1) * colsNum * 2 =
      videoMemory + BitVec.ofNat 32 (2 * 1920) := rfl
  have haddr := toNat_videoAddress (show 2 * 1920 < 2 ^ 31 by omega)
  have hlength : blankSample.length = 2 := rfl
  refine ⟨_, if_neg hbelow, hw.trans ?_, ?_⟩
  · rw [hlast]
    have hfill := writes_memoryFillLoop (videoMemory + BitVec.ofNat 32 (2 * 1920))
      blankSample (n := 80) (by rw [haddr, hlength]; omega) (scrollLoop 24 s.mem)
    refine hfill.mono ?_
    intro a ha
    rw [haddr, hlength, mem_span] at ha
    rw [videoRange, mem_span]
    omega
  · intro i hi
    rw [hlast]
    show cell (memoryFillLoop _ blankSample 80 _) i = _
    rw [cell_memoryFill (by omega) _ hi]
    -- 24 rows move up, the last one is blank
    by_cases hrow : i < 1920
    · rw [if_neg (by omega), if_pos hrow, hcells i hi, if_pos (by omega)]
    · rw [if_pos (by omega), if_neg hrow]

/-! ## The cursor registers -/

/-- Two bytes of an offset, sent to the controller and put together again. -/
theorem offsetBytes_add (offset : UDword) :
    ((((offset &&& 0xff00#32) >>> 8).setWidth 8).setWidth 32 <<< 8 &&& 0xff00#32) +
      (((offset &&& 0x00ff#32).setWidth 8).setWidth 32 &&& 0x00ff#32) = offset &&& 0xffff#32 := by
  rw [BitVec.add_eq_or_of_and_eq_zero]
  · ext i hi
    interval_cases i <;> simp
  · ext i hi
    interval_cases i <;> simp

/-- The two registers hold the lower half of an offset. -/
theorem getCursorOffset_setCursorOffset (offset : UDword) (s : Screen) :
    (getCursorOffset (setCursorOffset offset s)).1 = offset &&& 0xffff#32 := by
  have hport : regScreenData ≠ regScreenCtrl := by decide
  have hreg : (14 : UByte) ≠ 15 := by decide
  simp only [getCursorOffset, setCursorOffset, VideoController.portByteOut,
    VideoController.portByteIn, if_true, if_neg hport, Function.update_self,
    Function.update_of_ne hreg]
  exact offsetBytes_add offset

theorem setCursorOffset_mem (offset : UDword) (s : Screen) :
    (setCursorOffset offset s).mem = s.mem := rfl

end Cells

end MushOS
