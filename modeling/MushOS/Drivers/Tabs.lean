import MushOS.Drivers.Printing

/-! # screen.c: a tab and four spaces

A tab writes its four cells and then lets the screen scroll, four spaces scroll as soon as
the last cell is written. As long as the four cells are on the screen, there is no
difference (`spaces_on`, `spaces_end`). A tab that begins in one of the last three cells writes
what is left of it behind the screen; spaces go on in the new last row. Everything else is
the same, so all that a tab and four spaces can differ in are these cells: `tab_spaces_iff`.
-/

namespace MushOS

open ByteMemory Terminal

/-! ## Model -/

/-- `n` times `print_char_color(' ')`. -/
def printSpaces (textColor backColor : UByte) : ℕ → Screen → Screen
  | 0, s => s
  | n + 1, s => printCharColor 0x20 textColor backColor (printSpaces textColor backColor n s)

/-- The whole memory and the cursor. -/
structure SameScreen (s s' : Screen) : Prop where
  bytes : s.mem.bytes = s'.mem.bytes
  cursor : s.cursor = s'.cursor

/-- What `scroll` does to the memory. -/
def scrolled (m : Mem) : Mem :=
  memoryFill (videoMemory + (rowsNum - 1) * colsNum * 2) blankSample colsNum (scrollLoop 24 m)

/-! ## Scrolling once -/

section Scroll
variable {m m' : Mem} {s : Screen} {next i n : ℕ}

/-- The memory and the cursor that `print_char_color` ends with. -/
theorem scroll_setCursorOffset (hnext : next < 2080) (s : Screen) :
    let r := scroll (BitVec.ofNat 32 (2 * next)) s
    (setCursorOffset (r.1 / 2) r.2).mem = (if next < 2000 then s.mem else scrolled s.mem) ∧
      (setCursorOffset (r.1 / 2) r.2).cursor = if next < 2000 then next else next - 80 := by
  intro r
  have hnat : (BitVec.ofNat 32 (2 * next)).toNat = 2 * next := toNat_ofNat_of_lt (by omega)
  have hsize : (colsNum * rowsNum * 2).toNat = 4000 := rfl
  -- only the lower 16 bits of the cursor reach the controller
  have hcursor : ∀ k < 2080, r.1 = BitVec.ofNat 32 (2 * k) →
      (setCursorOffset (r.1 / 2) r.2).cursor = k := by
    intro k hk hr
    unfold Screen.cursor
    rw [getCursorOffset_setCursorOffset, hr, BitVec.toNat_and, BitVec.toNat_udiv,
      toNat_ofNat_of_lt (by omega)]
    show 2 * k / 2 &&& 2 ^ 16 - 1 = k
    rw [Nat.and_two_pow_sub_one_eq_mod]
    omega
  by_cases hon : next < 2000
  · have hlt : BitVec.ofNat 32 (2 * next) < colsNum * rowsNum * 2 := by
      rw [BitVec.lt_def, hnat, hsize]
      omega
    have hr : r = (BitVec.ofNat 32 (2 * next), s) := if_pos hlt
    rw [if_pos hon, if_pos hon]
    refine ⟨?_, hcursor next hnext (congrArg Prod.fst hr)⟩
    rw [setCursorOffset_mem, hr]
  · -- behind the last cell the screen moves up by a row
    have hbelow : ¬ BitVec.ofNat 32 (2 * next) < colsNum * rowsNum * 2 := by
      rw [BitVec.lt_def, hnat, hsize]
      omega
    have hr : r = (BitVec.ofNat 32 (2 * next) - colsNum * 2, { s with mem := scrolled s.mem }) :=
      if_neg hbelow
    have hup : BitVec.ofNat 32 (2 * next) - colsNum * 2 = BitVec.ofNat 32 (2 * (next - 80)) := by
      show BitVec.ofNat 32 (2 * next) - 160#32 = _
      bv_omega
    rw [if_neg hon, if_neg hon]
    refine ⟨?_, hcursor (next - 80) (by omega) ((congrArg Prod.fst hr).trans hup)⟩
    rw [setCursorOffset_mem, hr]

/-- The rows have moved up; behind the screen nothing has changed. -/
theorem scrolled_spec (m : Mem) : Writes videoRange m (scrolled m) ∧
    ∀ i < 2000, cell (scrolled m) i = if i < 1920 then cell m (i + 80) else blankCell := by
  have hbelow : ¬ (4000 : UDword) < colsNum * rowsNum * 2 := by decide
  let s : Screen := ⟨m, ⟨0, fun _ => 0⟩⟩
  have hr : scroll 4000 s = (4000 - colsNum * 2, { s with mem := scrolled s.mem }) := if_neg hbelow
  have hspec := scroll_below (s := s) hbelow
  rw [hr] at hspec
  rcases hspec with ⟨m', hscroll, hw, hcells⟩
  cases hscroll
  exact ⟨hw, hcells⟩

/-- A cell behind the screen. -/
theorem cell_scrolled_behind (hi : 2000 ≤ i) (hlt : i < 2 ^ 29) :
    cell (scrolled m) i = cell m i := by
  refine cell_congr fun r hr => (scrolled_spec m).1.frame _ ?_
  rw [videoRange, mem_span, toNat_videoAddress (by omega)]
  omega

/-- Memories that agree outside of some cells are the same if those cells are. -/
theorem bytes_eq_iff (hn : n ≤ 2 ^ 29)
    (hout : ∀ a, a ∉ span 0xb8000 (2 * n) → m.bytes a = m'.bytes a) :
    m.bytes = m'.bytes ↔ ∀ i < n, cell m i = cell m' i := by
  constructor
  · intro heq i _
    unfold cell
    rw [heq]
  · intro hcells
    funext a
    by_cases hin : a ∈ span 0xb8000 (2 * n)
    · rw [mem_span] at hin
      have ha : a = videoMemory + BitVec.ofNat 32 (a.toNat - 0xb8000) := by
        apply BitVec.eq_of_toNat_eq
        rw [toNat_videoAddress (by omega)]
        omega
      rw [ha]
      exact byte_congr (hcells _ (by omega))
    · exact hout a hin

end Scroll

/-! ## The cells of a tab -/

section Tab
variable {s s' : Screen} {offset : UDword} {attributes textColor backColor : UByte} {k n i j : ℕ}

theorem cell_tabLoop (hlt : k + n ≤ 2 ^ 29) (hi : i < 2 ^ 29) :
    cell (tabLoop (BitVec.ofNat 32 (2 * k)) attributes n s).mem i =
      if k ≤ i ∧ i < k + n then (0x20, attributes) else cell s.mem i := by
  induction n with
  | zero =>
    rw [if_neg (by omega)]
    rfl
  | succ n ih =>
    have hoffset : BitVec.ofNat 32 (2 * k) + BitVec.ofNat 32 (2 * n) =
        BitVec.ofNat 32 (2 * (k + n)) := by
      rw [BitVec.ofNat_add_ofNat, Nat.mul_add]
    rw [tabLoop, cell_putCell hoffset (by omega) hi]
    by_cases hhere : i = k + n
    · rw [hhere, Function.update_self, if_pos (by omega)]
    · rw [Function.update_of_ne hhere, ih (by omega)]
      by_cases hin : k ≤ i ∧ i < k + n
      · rw [if_pos hin, if_pos (by omega)]
      · rw [if_neg hin, if_neg (by omega)]

/-- The bytes that are not in these cells. -/
theorem tabLoop_frame (hlt : k + n ≤ 2 ^ 29) {a : UDword}
    (ha : a ∉ span (0xb8000 + 2 * k) (2 * n)) :
    (tabLoop (BitVec.ofNat 32 (2 * k)) attributes n s).mem.bytes a = s.mem.bytes a := by
  induction n with
  | zero => rfl
  | succ n ih =>
    have hoffset : BitVec.ofNat 32 (2 * k) + BitVec.ofNat 32 (2 * n) =
        BitVec.ofNat 32 (2 * (k + n)) := by
      rw [BitVec.ofNat_add_ofNat, Nat.mul_add]
    have hne : ∀ j, j = 2 * (k + n) ∨ j = 2 * (k + n) + 1 →
          a ≠ videoMemory + BitVec.ofNat 32 j := by
      intro j hj heq
      rw [heq, mem_span, toNat_videoAddress (by omega)] at ha
      omega
    rw [tabLoop, putCell_eq hoffset]
    show (Mem.write8 (Mem.write8 _ _ _) _ _).bytes a = _
    rw [Mem.write8_bytes_ne _ _ (hne _ (Or.inr rfl)), Mem.write8_bytes_ne _ _ (hne _ (Or.inl rfl))]
    refine ih (by omega) ?_
    rw [mem_span] at ha ⊢
    omega

/-- A space. -/
theorem printSpace_spec (textColor backColor : UByte) (hcursor : s.cursor = k) (hk : k < 2000) :
    (printCharColor 0x20 textColor backColor s).mem =
        (if k + 1 < 2000 then
          (s.putCell (BitVec.ofNat 32 (2 * k)) 0x20 (attributesOf textColor backColor)).mem
        else scrolled
          (s.putCell (BitVec.ofNat 32 (2 * k)) 0x20 (attributesOf textColor backColor)).mem) ∧
      (printCharColor 0x20 textColor backColor s).cursor =
        if k + 1 < 2000 then k + 1 else k + 1 - 80 := by
  have hnext : BitVec.ofNat 32 (2 * k) + 2 = BitVec.ofNat 32 (2 * (k + 1)) := by bv_omega
  rw [printCharColor_eq, memOffset_eq, hcursor]
  show (setCursorOffset ((scroll (BitVec.ofNat 32 (2 * k) + 2) _).1 / 2)
    (scroll (BitVec.ofNat 32 (2 * k) + 2) _).2).mem = _ ∧
    (setCursorOffset ((scroll (BitVec.ofNat 32 (2 * k) + 2) _).1 / 2)
      (scroll (BitVec.ofNat 32 (2 * k) + 2) _).2).cursor = _
  rw [hnext]
  exact scroll_setCursorOffset (by omega) _

/-- A tab. -/
theorem printTab_spec (textColor backColor : UByte) (hcursor : s.cursor = k) (hk : k < 2000) :
    (printCharColor tab textColor backColor s).mem =
        (if k + 4 < 2000 then
          (tabLoop (BitVec.ofNat 32 (2 * k)) (attributesOf textColor backColor) 4 s).mem
        else scrolled
          (tabLoop (BitVec.ofNat 32 (2 * k)) (attributesOf textColor backColor) 4 s).mem) ∧
      (printCharColor tab textColor backColor s).cursor =
        if k + 4 < 2000 then k + 4 else k + 4 - 80 := by
  have hnext : BitVec.ofNat 32 (2 * k) + 6 + 2 = BitVec.ofNat 32 (2 * (k + 4)) := by bv_omega
  rw [printCharColor_eq, memOffset_eq, hcursor]
  show (setCursorOffset ((scroll (BitVec.ofNat 32 (2 * k) + 6 + 2) _).1 / 2)
    (scroll (BitVec.ofNat 32 (2 * k) + 6 + 2) _).2).mem = _ ∧
    (setCursorOffset ((scroll (BitVec.ofNat 32 (2 * k) + 6 + 2) _).1 / 2)
      (scroll (BitVec.ofNat 32 (2 * k) + 6 + 2) _).2).cursor = _
  rw [hnext]
  exact scroll_setCursorOffset (by omega) _

/-- One more cell of a tab. -/
theorem putCell_tabLoop (hmem : s'.mem = (tabLoop (BitVec.ofNat 32 (2 * k)) attributes n s).mem) :
    (s'.putCell (BitVec.ofNat 32 (2 * (k + n))) 0x20 attributes).mem =
      (tabLoop (BitVec.ofNat 32 (2 * k)) attributes (n + 1) s).mem := by
  rw [tabLoop, BitVec.ofNat_add_ofNat, ← Nat.mul_add]
  show Mem.write8 (Mem.write8 s'.mem _ _) _ _ = Mem.write8 (Mem.write8 _ _ _) _ _
  rw [hmem]

/-- Spaces that leave the cursor on the screen write their cells. -/
theorem spaces_on (textColor backColor : UByte) (hcursor : s.cursor = k) (hn : k + n < 2000) :
    (printSpaces textColor backColor n s).mem =
        (tabLoop (BitVec.ofNat 32 (2 * k)) (attributesOf textColor backColor) n s).mem ∧
      (printSpaces textColor backColor n s).cursor = k + n := by
  induction n with
  | zero => exact ⟨rfl, hcursor⟩
  | succ n ih =>
    rcases ih (by omega) with ⟨hmem, hbefore⟩
    have hspace := printSpace_spec textColor backColor hbefore (by omega)
    rw [if_pos (by omega), if_pos (by omega), putCell_tabLoop hmem] at hspace
    exact hspace

/-- The space in the last cell makes the screen scroll. -/
theorem spaces_end (textColor backColor : UByte) (hcursor : s.cursor = k)
    (hn : k + (n + 1) = 2000) :
    (printSpaces textColor backColor (n + 1) s).mem =
        scrolled (tabLoop (BitVec.ofNat 32 (2 * k)) (attributesOf textColor backColor)
          (n + 1) s).mem ∧
      (printSpaces textColor backColor (n + 1) s).cursor = 1920 := by
  rcases spaces_on textColor backColor hcursor (show k + n < 2000 by omega) with ⟨hmem, hbefore⟩
  have hspace := printSpace_spec textColor backColor hbefore (by omega)
  rw [if_neg (by omega), if_neg (by omega), putCell_tabLoop hmem] at hspace
  exact ⟨hspace.1, hspace.2.trans (by omega)⟩

theorem printSpaces_add : printSpaces textColor backColor (n + j) s =
    printSpaces textColor backColor j (printSpaces textColor backColor n s) := by
  induction j with
  | zero => rfl
  | succ j ih => rw [← Nat.add_assoc, printSpaces, ih, printSpaces]

/-- A tab that fits is four spaces. -/
theorem tab_fits (textColor backColor : UByte) (hk : s.cursor ≤ 1996) :
    SameScreen (printCharColor tab textColor backColor s)
      (printSpaces textColor backColor 4 s) := by
  have htab := printTab_spec textColor backColor rfl (show s.cursor < 2000 by omega)
  by_cases hroom : s.cursor + 4 < 2000
  · rcases spaces_on textColor backColor rfl hroom with ⟨hmem, hcursor⟩
    rw [if_pos hroom, if_pos hroom] at htab
    exact ⟨by rw [htab.1, hmem], by rw [htab.2, hcursor]⟩
  · -- the last cell of the tab is the last one of the screen
    have hlast : s.cursor + (3 + 1) = 2000 := by omega
    rcases spaces_end textColor backColor rfl hlast with ⟨hmem, hcursor⟩
    rw [if_neg hroom, if_neg hroom] at htab
    exact ⟨by rw [htab.1, hmem], by rw [htab.2, hcursor]; omega⟩

/-- Up to the last cell of the screen, a tab and spaces have written the same. -/
theorem cell_tabLoop_min (hk : k + n = 2000) (hi : i < 2000) (hj : n ≤ j) (hlt : j ≤ 4) :
    cell (tabLoop (BitVec.ofNat 32 (2 * k)) attributes j s).mem i =
      cell (tabLoop (BitVec.ofNat 32 (2 * k)) attributes n s).mem i := by
  rw [cell_tabLoop (by omega) (by omega), cell_tabLoop (by omega) (by omega)]
  by_cases hin : k ≤ i ∧ i < k + n
  · rw [if_pos hin, if_pos (by omega)]
  · rw [if_neg hin, if_neg (by omega)]

/-- The cells of a tab that does not fit. -/
theorem cell_tab_behind (hk : k + n = 2000) (hn : n < 4) (hi : i < 2003) :
    cell (scrolled (tabLoop (BitVec.ofNat 32 (2 * k)) attributes 4 s).mem) i =
      if i < 1920 then cell (tabLoop (BitVec.ofNat 32 (2 * k)) attributes n s).mem (i + 80)
      else if i < 2000 then blankCell
      else if i < k + 4 then (0x20, attributes) else cell s.mem i := by
  by_cases hscreen : i < 2000
  · rw [(scrolled_spec _).2 i hscreen]
    by_cases hrow : i < 1920
    · rw [if_pos hrow, if_pos hrow, cell_tabLoop_min hk (by omega) (by omega) le_rfl]
    · rw [if_neg hrow, if_neg hrow, if_pos hscreen]
  · have hrow : ¬ i < 1920 := by omega
    rw [cell_scrolled_behind (by omega) (by omega), cell_tabLoop (by omega) (by omega),
      if_neg hrow, if_neg hscreen]
    by_cases hin : i < k + 4
    · rw [if_pos (by omega), if_pos hin]
    · rw [if_neg (by omega), if_neg hin]

/-- The cells of spaces that go on in the new last row. -/
theorem cell_spaces_behind (hk : k + n = 2000) (hj : j < 80) (hi : i < 2003)
    (hmem : s'.mem = scrolled (tabLoop (BitVec.ofNat 32 (2 * k)) attributes n s).mem) :
    cell (tabLoop (BitVec.ofNat 32 (2 * 1920)) attributes j s').mem i =
      if i < 1920 then cell (tabLoop (BitVec.ofNat 32 (2 * k)) attributes n s).mem (i + 80)
      else if i < 1920 + j then (0x20, attributes)
      else if i < 2000 then blankCell else cell s.mem i := by
  rw [cell_tabLoop (by omega) (by omega), hmem]
  by_cases hscreen : i < 2000
  · rw [(scrolled_spec _).2 i hscreen]
    by_cases hrow : i < 1920
    · rw [if_neg (by omega), if_pos hrow, if_pos hrow]
    · rw [if_neg hrow, if_neg hrow]
      by_cases hin : i < 1920 + j
      · rw [if_pos (by omega), if_pos hin]
      · rw [if_neg (by omega), if_neg hin, if_pos hscreen]
  · rw [if_neg (by omega), if_neg (by omega), if_neg (by omega), if_neg hscreen,
      cell_scrolled_behind (by omega) (by omega), cell_tabLoop (by omega) (by omega),
      if_neg (by omega)]

/-- Nothing else is written. -/
theorem scrolled_tabLoop_frame (hk : k + n ≤ 2003) {a : UDword} (ha : a ∉ span 0xb8000 (2 * 2003)) :
    (scrolled (tabLoop (BitVec.ofNat 32 (2 * k)) attributes n s).mem).bytes a = s.mem.bytes a := by
  rw [mem_span] at ha
  rw [(scrolled_spec _).1.frame a, tabLoop_frame (by omega)]
  · rw [mem_span]
    omega
  · rw [videoRange, mem_span]
    omega

/-- A tab that does not fit, cell by cell. -/
theorem tab_behind_iff (textColor backColor : UByte) (hk : s.cursor < 2000)
    (hbehind : 1996 < s.cursor) :
    SameScreen (printCharColor tab textColor backColor s) (printSpaces textColor backColor 4 s) ↔
      attributesOf textColor backColor = 0x07 ∧
        ∀ i < s.cursor + 4, 2000 ≤ i → cell s.mem i = blankCell := by
  rcases Nat.exists_eq_add_of_lt hk with ⟨n, hn⟩
  rcases Nat.exists_eq_add_of_lt (show n + 1 < 4 by omega) with ⟨j, hj⟩
  have hend : s.cursor + (n + 1) = 2000 := by omega
  have hsum : n + 1 + (j + 1) = 4 := by omega
  -- the spaces up to the last cell, and those in the new last row
  rcases spaces_end textColor backColor rfl hend with ⟨hscrolled, hcursor⟩
  rcases spaces_on textColor backColor hcursor (show 1920 + (j + 1) < 2000 by omega) with
    ⟨hspaces, hspacesCursor⟩
  rw [← printSpaces_add, hsum] at hspaces hspacesCursor
  have htab := printTab_spec textColor backColor rfl hk
  rw [if_neg (by omega), if_neg (by omega)] at htab
  have hsameCursor : (printCharColor tab textColor backColor s).cursor =
      (printSpaces textColor backColor 4 s).cursor := by
    rw [htab.2, hspacesCursor]
    omega
  have hout : ∀ a, a ∉ span 0xb8000 (2 * 2003) →
      (printCharColor tab textColor backColor s).mem.bytes a =
        (printSpaces textColor backColor 4 s).mem.bytes a := by
    intro a ha
    have ha' := ha
    rw [mem_span] at ha'
    rw [htab.1, hspaces, scrolled_tabLoop_frame (by omega) ha, tabLoop_frame (by omega), hscrolled,
      scrolled_tabLoop_frame (by omega) ha]
    rw [mem_span]
    omega
  have hbytes := bytes_eq_iff (by omega) hout
  rw [htab.1, hspaces] at hbytes
  constructor
  · intro hsame
    have hequal := hsame.bytes
    rw [htab.1, hspaces] at hequal
    have hcells := hbytes.mp hequal
    have hattributes : attributesOf textColor backColor = 0x07 := by
      -- the first cell of the last row
      have hfirst := hcells 1920 (by omega)
      rw [cell_tab_behind hend (by omega) (by omega),
        cell_spaces_behind hend (by omega) (by omega) hscrolled, if_neg (by omega),
        if_pos (by omega), if_neg (by omega), if_pos (by omega)] at hfirst
      exact (congrArg Prod.snd hfirst).symm
    refine ⟨hattributes, fun i hi hbelow => ?_⟩
    have hcell := hcells i (by omega)
    rw [cell_tab_behind hend (by omega) (by omega),
      cell_spaces_behind hend (by omega) (by omega) hscrolled, if_neg (by omega),
      if_neg (by omega), if_pos hi, if_neg (by omega), if_neg (by omega), if_neg (by omega),
      hattributes] at hcell
    exact hcell.symm
  · rintro ⟨hattributes, hblank⟩
    refine ⟨?_, hsameCursor⟩
    rw [htab.1, hspaces]
    refine hbytes.mpr fun i hi => ?_
    have hpair : ((0x20, attributesOf textColor backColor) : UByte × UByte) = blankCell := by
      rw [hattributes]
      rfl
    rw [cell_tab_behind hend (by omega) hi, cell_spaces_behind hend (by omega) hi hscrolled, hpair]
    by_cases hrow : i < 1920
    · rw [if_pos hrow, if_pos hrow]
    · rw [if_neg hrow, if_neg hrow]
      by_cases hscreen : i < 2000
      · rw [if_pos hscreen, if_pos hscreen, ite_self]
      · have hnew : ¬ i < 1920 + (j + 1) := by omega
        rw [if_neg hscreen, if_neg hnew, if_neg hscreen]
        by_cases hin : i < s.cursor + 4
        · rw [if_pos hin, hblank i hin (by omega)]
        · rw [if_neg hin]

/-- **A tab is four spaces** if and only if it fits on the screen, or it prints blank cells
and what it would write behind the screen are blank cells already. -/
theorem tab_spaces_iff (s : Screen) (textColor backColor : UByte) (hk : s.cursor < 80 * 25) :
    SameScreen (printCharColor tab textColor backColor s) (printSpaces textColor backColor 4 s) ↔
      s.cursor ≤ 1996 ∨ (attributesOf textColor backColor = 0x07 ∧
        ∀ i < s.cursor + 4, 2000 ≤ i → cell s.mem i = blankCell) := by
  by_cases hfits : s.cursor ≤ 1996
  · exact iff_of_true (tab_fits textColor backColor hfits) (Or.inl hfits)
  · rw [tab_behind_iff textColor backColor (by omega) (by omega)]
    exact ⟨Or.inr, fun h => h.resolve_left hfits⟩

end Tab

/-- A cleared screen, the cursor on its last cell. -/
def lastCell : Screen := setCursorOffset 1999 (clearScreen greeting)

theorem cursor_lastCell : lastCell.cursor = 1999 := by
  unfold Screen.cursor lastCell
  rw [getCursorOffset_setCursorOffset]
  rfl

/-- A tab on a cleared screen. -/
theorem tab_spaces_cleared : SameScreen (printCharColor tab 7 0 (clearScreen greeting))
    (printSpaces 7 0 4 (clearScreen greeting)) := by
  have hcursor : (clearScreen greeting).cursor = 0 := cursor_clearScreen greeting
  exact (tab_spaces_iff (clearScreen greeting) 7 0 (by omega)).mpr (Or.inl (by omega))

/-- A white tab in the last cell. -/
theorem tab_lastCell_differs : lastCell.cursor < 80 * 25 ∧
    ¬ SameScreen (printCharColor tab 15 0 lastCell) (printSpaces 15 0 4 lastCell) := by
  have hcursor := cursor_lastCell
  refine ⟨by omega, fun hsame => ?_⟩
  rcases (tab_behind_iff 15 0 (by omega) (by omega)).mp hsame with ⟨hattributes, -⟩
  exact absurd hattributes (by decide)

end MushOS
