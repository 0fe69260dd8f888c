import MushOS.Drivers.Printing

/-! # screen.c: rows and columns

`set_cursor` takes row `r` and column `k` to cell `80 * r + k`, which is where a character
is printed. `get_cursor` returns the column plus one as the row and the row as the column
(`getCursor_setCursor`), and `get_char` reads the byte `r * k` of the video memory, which is
the character of that cell at the origin only (`getChar_printCharColor_iff`).
-/

namespace MushOS

open ByteMemory Terminal

/-! ## Model -/

def getCursor (s : Screen) : ScreenCoords × Screen :=
  let (offset, s) := getCursorOffset s
  (⟨(offset % colsNum + 1).setWidth 16, (offset / colsNum).setWidth 16⟩, s)

def getChar (coords : ScreenCoords) (s : Screen) : UByte :=
  s.mem.read8 (videoMemory + coords.row.signExtend 32 * coords.column.signExtend 32)

/-! ## Coordinates of a cell -/

structure ScreenCoords.InRange (coords : ScreenCoords) : Prop where
  row : coords.row.toNat < 25
  column : coords.column.toNat < 80

/-- The cell at these coordinates. -/
def ScreenCoords.cell (coords : ScreenCoords) : ℕ := coords.row.toNat * 80 + coords.column.toNat

/-- What is expected of a printable character at these coordinates, where it does not
make the screen scroll. -/
structure ConsistentAt (coords : ScreenCoords) (c textColor backColor : UByte) (s : Screen) :
    Prop where
  cursor : (getCursor (setCursor coords s)).1 = coords
  printed : coords.cell + 1 < 2000 →
    getChar coords (printCharColor c textColor backColor (setCursor coords s)) = c
  others : coords.cell + 1 < 2000 → ∀ other : ScreenCoords, other.InRange → other ≠ coords →
    getChar other (printCharColor c textColor backColor (setCursor coords s)) = getChar other s

def Printable (c : UByte) : Prop := 0x20 ≤ c.toNat ∧ c.toNat < 0x7f

section Coordinates
variable {coords : ScreenCoords} {c textColor backColor : UByte} {s : Screen}

/-- A coordinate in range is not negative. -/
theorem signExtend_eq {x : UWord} (hx : x.toNat < 2 ^ 15) :
    x.signExtend 32 = BitVec.ofNat 32 x.toNat := by
  have hmsb : x.msb = false := by
    rw [BitVec.msb_eq_false_iff_two_mul_lt]
    omega
  rw [BitVec.signExtend_eq_setWidth_of_msb_false hmsb]
  apply BitVec.eq_of_toNat_eq
  rw [BitVec.toNat_setWidth, BitVec.toNat_ofNat]

theorem ScreenCoords.InRange.cell_lt (hin : coords.InRange) : coords.cell < 2000 := by
  have hrow := hin.row
  have hcolumn := hin.column
  unfold ScreenCoords.cell
  omega

theorem getCursorOffset_setCursor (hin : coords.InRange) :
    (getCursorOffset (setCursor coords s)).1 = BitVec.ofNat 32 coords.cell := by
  have hrow := hin.row
  have hcolumn := hin.column
  have hlt := hin.cell_lt
  have hoffset : coords.row.signExtend 32 * colsNum + coords.column.signExtend 32 =
      BitVec.ofNat 32 coords.cell := by
    rw [signExtend_eq (by omega), signExtend_eq (by omega)]
    unfold ScreenCoords.cell colsNum
    rw [BitVec.ofNat_add, BitVec.ofNat_mul]
    rfl
  unfold setCursor
  rw [getCursorOffset_setCursorOffset, hoffset]
  apply BitVec.eq_of_toNat_eq
  rw [BitVec.toNat_and, toNat_ofNat_of_lt (by omega)]
  show coords.cell &&& 2 ^ 16 - 1 = _
  rw [Nat.and_two_pow_sub_one_eq_mod]
  omega

theorem cursor_setCursor (hin : coords.InRange) : (setCursor coords s).cursor = coords.cell := by
  have hlt := hin.cell_lt
  unfold Screen.cursor
  rw [getCursorOffset_setCursor hin, toNat_ofNat_of_lt (by omega)]

/-- `get_cursor` returns the column, counted from 1, and then the row. -/
theorem getCursor_setCursor (hin : coords.InRange) :
    (getCursor (setCursor coords s)).1 = ⟨coords.column + 1, coords.row⟩ := by
  have hrow := hin.row
  have hcolumn := hin.column
  have hlt := hin.cell_lt
  show (⟨((getCursorOffset (setCursor coords s)).1 % colsNum + 1).setWidth 16,
    ((getCursorOffset (setCursor coords s)).1 / colsNum).setWidth 16⟩ : ScreenCoords) = _
  rw [getCursorOffset_setCursor hin]
  have hmod : BitVec.ofNat 32 coords.cell % colsNum = BitVec.ofNat 32 coords.column.toNat := by
    apply BitVec.eq_of_toNat_eq
    rw [BitVec.toNat_umod, toNat_ofNat_of_lt (by omega), toNat_ofNat_of_lt (by omega)]
    show coords.cell % 80 = _
    unfold ScreenCoords.cell
    omega
  have hdiv : BitVec.ofNat 32 coords.cell / colsNum = BitVec.ofNat 32 coords.row.toNat := by
    apply BitVec.eq_of_toNat_eq
    rw [BitVec.toNat_udiv, toNat_ofNat_of_lt (by omega), toNat_ofNat_of_lt (by omega)]
    show coords.cell / 80 = _
    unfold ScreenCoords.cell
    omega
  rw [hmod, hdiv]
  congr 1
  · bv_omega
  · bv_omega

theorem getChar_eq (hin : coords.InRange) : getChar coords s =
    s.mem.bytes (videoMemory + BitVec.ofNat 32 (coords.row.toNat * coords.column.toNat)) := by
  have hrow := hin.row
  have hcolumn := hin.column
  unfold getChar Mem.read8
  rw [signExtend_eq (by omega), signExtend_eq (by omega), BitVec.ofNat_mul]

/-- `get_char` sees a character that is printed at its coordinates at the origin only. -/
theorem getChar_printCharColor_iff (hin : coords.InRange) (hroom : coords.cell + 1 < 2000)
    (hc : Printable c) :
    getChar coords (printCharColor c textColor backColor (setCursor coords s)) = c ↔
      coords.cell = 0 ∨ getChar coords s = c := by
  have hrow := hin.row
  have hcolumn := hin.column
  have hcursor : (setCursor coords s).cursor = coords.cell := cursor_setCursor hin
  have hbackspace : c ≠ backspace := by
    rintro rfl
    exact absurd hc.1 (by decide)
  have htab : c ≠ tab := by
    rintro rfl
    exact absurd hc.1 (by decide)
  have hnewline : c ≠ newline := by
    rintro rfl
    exact absurd hc.1 (by decide)
  have hordinary : Styled.Ordinary ⟨c, textColor, backColor⟩ := ⟨hbackspace, htab⟩
  rcases printCharColor_grid hordinary (show (setCursor coords s).cursor < 2000 by omega) with
    ⟨-, hcells⟩
  have hsymbol : Styled.symbol ⟨c, textColor, backColor⟩ =
      .cell (c, attributesOf textColor backColor) := if_neg hnewline
  have hput : (setCursor coords s).grid.put 25 80 blankCell
      (.cell (c, attributesOf textColor backColor)) =
        ⟨Function.update (MushOS.cell s.mem) (setCursor coords s).cursor
          (c, attributesOf textColor backColor), (setCursor coords s).cursor + 1⟩ :=
    if_pos (show (setCursor coords s).cursor + 1 < 25 * 80 by omega)
  have hprinted : ∀ i < 2000, MushOS.cell
      (printCharColor c textColor backColor (setCursor coords s)).mem i =
        Function.update (MushOS.cell s.mem) coords.cell
            (c, attributesOf textColor backColor) i := by
    intro i hi
    rw [hcells i hi, hsymbol, hput, hcursor]
  rw [getChar_eq hin, getChar_eq hin]
  by_cases hzero : coords.cell = 0
  · have hbyte : coords.row.toNat * coords.column.toNat = 2 * coords.cell := by
      have hrow0 : coords.row.toNat = 0 := by
        unfold ScreenCoords.cell at hzero
        omega
      rw [hrow0, hzero, Nat.zero_mul]
    refine iff_of_true ?_ (Or.inl hzero)
    have hfirst := congrArg Prod.fst (hprinted coords.cell (by omega))
    rw [Function.update_self] at hfirst
    rw [hbyte]
    exact hfirst
  · -- the byte read is before the cell that is printed
    have hle : coords.row.toNat * coords.column.toNat ≤ coords.row.toNat * 79 :=
      Nat.mul_le_mul_left _ (by omega)
    have hbefore : coords.row.toNat * coords.column.toNat / 2 < coords.cell := by
      unfold ScreenCoords.cell at hzero ⊢
      omega
    have hkept := hprinted (coords.row.toNat * coords.column.toNat / 2) (by omega)
    rw [Function.update_of_ne (by omega)] at hkept
    rw [byte_congr hkept]
    exact ⟨Or.inr, fun h => h.resolve_left hzero⟩

/-- **Coordinates** in range never survive `set_cursor` and `get_cursor`. -/
theorem coordinates_never_consistent (s : Screen) (coords : ScreenCoords)
    (c textColor backColor : UByte) (hin : coords.InRange) :
    ¬ ConsistentAt coords c textColor backColor s := by
  intro hcons
  have hcursor := hcons.cursor
  rw [getCursor_setCursor hin] at hcursor
  -- row = column + 1 and column = row
  have hrow : coords.column + 1 = coords.row := congrArg ScreenCoords.row hcursor
  have hcolumn : coords.row = coords.column := congrArg ScreenCoords.column hcursor
  bv_omega

end Coordinates

/-- Row 1, column 1 of the screen of `greeting`. -/
theorem coordinates_one_one : ¬ ConsistentAt ⟨1, 1⟩ 0x61 7 0 (clearScreen greeting) :=
  coordinates_never_consistent (clearScreen greeting) ⟨1, 1⟩ 0x61 7 0 ⟨by decide, by decide⟩

/-- There the cursor comes back at row 2. -/
theorem getCursor_one_one : ScreenCoords.InRange ⟨1, 1⟩ ∧ Printable 0x61 ∧
    ¬ ConsistentAt ⟨1, 1⟩ 0x61 7 0 (clearScreen greeting) := by
  have hin : ScreenCoords.InRange ⟨1, 1⟩ := ⟨by decide, by decide⟩
  refine ⟨hin, ⟨by decide, by decide⟩, fun hcons => ?_⟩
  have hcursor := hcons.cursor
  rw [getCursor_setCursor hin] at hcursor
  exact absurd (congrArg ScreenCoords.row hcursor) (by decide)

end MushOS
