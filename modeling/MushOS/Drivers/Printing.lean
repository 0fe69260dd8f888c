import MushOS.Drivers.Screen

/-! # screen.c: printing from a cleared screen

One character is a step of the cursor, on the screen exactly when the cursor is not
at the first cell for a backspace and not within the last three ones for a tab
(`Stays`). As long as it is, ordinary characters and newlines are steps of
`Terminal.Grid`, so that the screen shows the end of whatever has been printed.
-/

namespace MushOS

open ByteMemory Terminal

/-! ## Model: printing, call by call -/

/-- A character and its colors. -/
structure Styled where
  character : UByte
  textColor : UByte
  backColor : UByte

/-- The characters are printed one after another. -/
def printText (text : List Styled) (s : Screen) : Screen :=
  text.foldl (fun s x => printCharColor x.character x.textColor x.backColor s) s

inductive PrintCall where
  | char (c textColor backColor : UByte)
  | string (str : UDword) (textColor backColor : UByte) (length : UDword)

def PrintCall.run : PrintCall → Screen → Option Screen
  | .char c textColor backColor, s => some (printCharColor c textColor backColor s)
  | .string str textColor backColor length, s => printStringColor str textColor backColor length s

def runCalls : List PrintCall → Screen → Option Screen
  | [], s => some s
  | call :: calls, s => (call.run s).bind (runCalls calls)

/-- Characters in one pair of colors. -/
def styled (textColor backColor : UByte) (chars : List UByte) : List Styled :=
  chars.map fun c => ⟨c, textColor, backColor⟩

/-- The bytes at an address. -/
def bytesAt (m : Mem) (str : UDword) (n : ℕ) : List UByte :=
  (List.range n).map fun i => m.bytes (str + BitVec.ofNat 32 i)

/-- What a call is to print: a character, so many bytes, or the bytes before a null
character; none of them is in the video memory. -/
inductive PrintCall.Prints (m : Mem) : PrintCall → List Styled → Prop where
  | char (c textColor backColor : UByte) :
      Prints m (.char c textColor backColor) [⟨c, textColor, backColor⟩]
  | counted (str : UDword) (textColor backColor : UByte) {length : UDword} (hlength : length ≠ 0)
      (hapart : ∀ i < length.toNat, str + BitVec.ofNat 32 i ∉ videoRange) :
      Prints m (.string str textColor backColor length)
        (styled textColor backColor (bytesAt m str length.toNat))
  | terminated (str : UDword) (textColor backColor : UByte) {n : ℕ} (hn : n < 2 ^ 32)
      (hapart : ∀ i ≤ n, str + BitVec.ofNat 32 i ∉ videoRange)
      (hchars : ∀ i < n, m.bytes (str + BitVec.ofNat 32 i) ≠ 0)
      (hnull : m.bytes (str + BitVec.ofNat 32 n) = 0) :
      Prints m (.string str textColor backColor 0)
        (styled textColor backColor (bytesAt m str n))

/-- What calls are to print, one after another. -/
inductive PrintsAll (m : Mem) : List PrintCall → List Styled → Prop where
  | nil : PrintsAll m [] []
  | cons {call : PrintCall} {calls : List PrintCall} {chars text : List Styled}
      (hcall : call.Prints m chars) (hcalls : PrintsAll m calls text) :
      PrintsAll m (call :: calls) (chars ++ text)

theorem PrintsAll.append {m : Mem} {calls calls' : List PrintCall} {text text' : List Styled}
    (h : PrintsAll m calls text) (h' : PrintsAll m calls' text') :
    PrintsAll m (calls ++ calls') (text ++ text') := by
  induction h with
  | nil => exact h'
  | cons hcall _ ih =>
    rw [List.cons_append, List.append_assoc]
    exact .cons hcall ih

/-! ## One character -/

/-- The cell the cursor is on. -/
def Screen.cursor (s : Screen) : ℕ := (getCursorOffset s).1.toNat

/-- The character at this cursor leaves neither end of the screen. -/
structure Stays (c : UByte) (cursor : ℕ) : Prop where
  onBackspace : c = backspace → 0 < cursor
  onTab : c = tab → cursor ≤ 1996

/-- The cursor on the grid after a character, before the scroll. -/
def nextCursor (c : UByte) (cursor : ℕ) : ℕ :=
  if c = newline then (cursor / 80 + 1) * 80
  else if c = backspace then cursor - 1
  else if c = tab then cursor + 4
  else cursor + 1

section Character
variable {c attributes textColor backColor : UByte} {s s' : Screen} {k next : ℕ} {offset : UDword}

theorem Stays.nextCursor_le (hstays : Stays c k) (hk : k < 2000) : nextCursor c k ≤ 2000 := by
  unfold nextCursor
  by_cases hnewline : c = newline
  · rw [if_pos hnewline]
    omega
  · rw [if_neg hnewline]
    by_cases hbackspace : c = backspace
    · rw [if_pos hbackspace]
      omega
    · rw [if_neg hbackspace]
      by_cases htab : c = tab
      · have := hstays.onTab htab
        rw [if_pos htab]
        omega
      · rw [if_neg htab]
        omega

/-- The loop of a tab writes the cells from the cursor on. -/
theorem writes_tabLoop (attributes : UByte) {n : ℕ} (hoffset : offset = BitVec.ofNat 32 (2 * k))
    (hn : k + n ≤ 2000) (s : Screen) : (tabLoop offset attributes n s).video = s.video ∧
      Writes videoRange s.mem (tabLoop offset attributes n s).mem := by
  induction n with
  | zero => exact ⟨rfl, Writes.refl _ s.mem⟩
  | succ n ih =>
    rcases ih (by omega) with ⟨hvideo, hw⟩
    have hcell : offset + BitVec.ofNat 32 (2 * n) = BitVec.ofNat 32 (2 * (k + n)) := by
      rw [hoffset, BitVec.ofNat_add_ofNat]
      congr 1
      omega
    exact ⟨hvideo, hw.trans (writes_putCell hcell (by omega))⟩

/-- The branches of `print_char_color`: the cursor moves, the writes stay in the
video memory. -/
theorem printBranch_spec (attributes : UByte) (hoffset : offset = BitVec.ofNat 32 (2 * k))
    (hk : k < 2000) (hstays : Stays c k) (s : Screen) :
    (printBranch c attributes offset s).1 + 2 = BitVec.ofNat 32 (2 * nextCursor c k) ∧
      (printBranch c attributes offset s).2.video = s.video ∧
      Writes videoRange s.mem (printBranch c attributes offset s).2.mem := by
  unfold printBranch nextCursor
  by_cases hnewline : c = newline
  · rw [if_pos hnewline, if_pos hnewline]
    refine ⟨?_, rfl, Writes.refl _ s.mem⟩
    show 160#32 * (offset / 2#32 / 80#32 + 1#32) - 2#32 + 2#32 = _
    -- `offset / 2 / 80` is the row, and the branch goes to the start of the next
    have hrow : offset / 2#32 / 80#32 = BitVec.ofNat 32 (k / 80) := by
      apply BitVec.eq_of_toNat_eq
      rw [hoffset, BitVec.toNat_udiv, BitVec.toNat_udiv, toNat_ofNat_of_lt (n := 2 * k) (by omega),
        toNat_ofNat_of_lt (n := k / 80) (by omega)]
      show 2 * k / 2 / 80 = _
      omega
    rw [BitVec.sub_add_cancel, hrow]
    bv_omega
  · rw [if_neg hnewline, if_neg hnewline]
    by_cases hbackspace : c = backspace
    · -- the cell before the cursor is blanked, and the cursor ends there
      have hpos := hstays.onBackspace hbackspace
      have hprevious : offset - 2 = BitVec.ofNat 32 (2 * (k - 1)) := by
        rw [hoffset]
        bv_omega
      rw [if_pos hbackspace, if_pos hbackspace]
      refine ⟨?_, rfl, writes_putCell hprevious (by omega)⟩
      show offset - 2 - 2 + 2 = _
      rw [BitVec.sub_add_cancel, hprevious]
    · rw [if_neg hbackspace, if_neg hbackspace]
      by_cases htab : c = tab
      · have hle := hstays.onTab htab
        rcases writes_tabLoop attributes hoffset
          (show k + 4 ≤ 2000 by omega) s with ⟨hvideo, hw⟩
        rw [if_pos htab, if_pos htab]
        refine ⟨?_, hvideo, hw⟩
        show offset + 6 + 2 = _
        rw [hoffset]
        bv_omega
      · rw [if_neg htab, if_neg htab]
        refine ⟨?_, rfl, writes_putCell hoffset hk⟩
        show offset + 2 = _
        rw [hoffset]
        bv_omega

/-- `scroll` is the scroll of the grid. -/
theorem scroll_spec (hoffset : offset = BitVec.ofNat 32 (2 * next)) (hnext : next < 2080)
    (s : Screen) :
    ∃ m', scroll offset s =
        (BitVec.ofNat 32 (2 * (Grid.scrollIfBelow 25 80 blankCell ⟨cell s.mem, next⟩).cursor),
          { s with mem := m' }) ∧
      Writes videoRange s.mem m' ∧
      ∀ i < 2000, cell m' i =
        (Grid.scrollIfBelow 25 80 blankCell ⟨cell s.mem, next⟩).cells i := by
  have hsize : (colsNum * rowsNum * 2).toNat = 4000 := rfl
  have hnat : offset.toNat = 2 * next := by
    rw [hoffset, toNat_ofNat_of_lt (by omega)]
  unfold Grid.scrollIfBelow
  by_cases hlt : next < 25 * 80
  · -- on the screen, `scroll` does nothing
    have hon : offset < colsNum * rowsNum * 2 := by
      rw [BitVec.lt_def, hnat, hsize]
      omega
    rw [if_pos hlt]
    refine ⟨s.mem, ?_, Writes.refl _ s.mem, fun i _ => rfl⟩
    rw [scroll, if_pos hon, hoffset]
  · have hbelow : ¬ offset < colsNum * rowsNum * 2 := by
      rw [BitVec.lt_def, hnat, hsize]
      omega
    rcases scroll_below (s := s) hbelow with ⟨m', hscroll, hw, hcells⟩
    rw [if_neg hlt]
    refine ⟨m', ?_, hw, ?_⟩
    · have hup : offset - colsNum * 2 = BitVec.ofNat 32 (2 * (next - 80)) := by
        rw [hoffset]
        show BitVec.ofNat 32 (2 * next) - 160#32 = _
        bv_omega
      rw [hscroll, hup]
      rfl
    · intro i hi
      rw [hcells i hi]
      rfl

/-- The part of `print_char_color` after the branches. -/
theorem printCharColor_eq (c textColor backColor : UByte) (s : Screen) :
    printCharColor c textColor backColor s =
      let r := printBranch c (attributesOf textColor backColor) ((getCursorOffset s).1 * 2)
        (getCursorOffset s).2
      setCursorOffset ((scroll (r.1 + 2) r.2).1 / 2) (scroll (r.1 + 2) r.2).2 := rfl

/-- The offset in the video memory of the cell the cursor is on. -/
theorem memOffset_eq (s : Screen) :
    (getCursorOffset s).1 * 2 = BitVec.ofNat 32 (2 * s.cursor) := by
  unfold Screen.cursor
  bv_omega

/-- **One character** that stays: the cells are those the branch has left, scrolled where
the cursor has gone below them. -/
theorem printCharColor_spec (textColor backColor : UByte) (hk : s.cursor < 2000)
    (hstays : Stays c s.cursor) :
    let branch := (printBranch c (attributesOf textColor backColor)
      (BitVec.ofNat 32 (2 * s.cursor)) (getCursorOffset s).2).2
    let g := Grid.scrollIfBelow 25 80 blankCell ⟨cell branch.mem, nextCursor c s.cursor⟩
    Writes videoRange s.mem (printCharColor c textColor backColor s).mem ∧
      (printCharColor c textColor backColor s).cursor = g.cursor ∧ g.cursor < 2000 ∧
      ∀ i < 2000, cell (printCharColor c textColor backColor s).mem i = g.cells i := by
  intro branch g
  have hle := hstays.nextCursor_le hk
  rcases printBranch_spec (attributesOf textColor backColor)
    rfl hk hstays (getCursorOffset s).2 with ⟨hnext, -, hbranch⟩
  rcases scroll_spec hnext (by omega) branch with ⟨m', hscroll, hw, hcells⟩
  have hlt : g.cursor < 2000 := by
    show (Grid.scrollIfBelow 25 80 blankCell _).cursor < 2000
    unfold Grid.scrollIfBelow
    by_cases hon : nextCursor c s.cursor < 25 * 80
    · rw [if_pos hon]
      exact hon
    · rw [if_neg hon]
      show nextCursor c s.cursor - 80 < 2000
      omega
  have hresult : printCharColor c textColor backColor s =
      setCursorOffset (BitVec.ofNat 32 (2 * g.cursor) / 2) { branch with mem := m' } := by
    rw [printCharColor_eq, memOffset_eq]
    show setCursorOffset ((scroll _ branch).1 / 2) (scroll _ branch).2 = _
    rw [hscroll]
  -- the cursor register holds 16 bits, enough for every cell
  have hoffset : ((BitVec.ofNat 32 (2 * g.cursor) / 2) &&& 0xffff#32).toNat = g.cursor := by
    rw [BitVec.toNat_and, BitVec.toNat_udiv, toNat_ofNat_of_lt (n := 2 * g.cursor) (by omega)]
    show 2 * g.cursor / 2 &&& 2 ^ 16 - 1 = _
    rw [Nat.and_two_pow_sub_one_eq_mod]
    omega
  refine ⟨?_, ?_, hlt, ?_⟩
  · rw [hresult]
    exact hbranch.trans hw
  · rw [hresult]
    unfold Screen.cursor
    rw [getCursorOffset_setCursorOffset]
    exact hoffset
  · intro i hi
    rw [hresult]
    exact hcells i hi

/-- Everything written from here on lands in the video memory, and the cursor is on the
screen. -/
def OnScreen (s : Screen) : Prop := (∀ a ∈ s.mem.written, a ∈ videoRange) ∧ s.cursor < 80 * 25

theorem OnScreen.printCharColor (hon : OnScreen s) (hstays : Stays c s.cursor) :
    OnScreen (printCharColor c textColor backColor s) := by
  rcases printCharColor_spec textColor backColor hon.2 hstays with ⟨hw, hcursor, hlt, -⟩
  refine ⟨?_, hcursor ▸ hlt⟩
  intro a ha
  rcases hw.inside a ha with hold | hnew
  · exact hon.1 a hold
  · exact hnew

/-- What a branch has written stays written. -/
theorem written_printCharColor {a : UDword}
    (ha : a ∈ (printBranch c (attributesOf textColor backColor) ((getCursorOffset s).1 * 2)
      (getCursorOffset s).2).2.mem.written) :
    a ∈ (printCharColor c textColor backColor s).mem.written := by
  rw [printCharColor_eq]
  show a ∈ (scroll _ _).2.mem.written
  by_cases hbelow : (printBranch c (attributesOf textColor backColor)
      ((getCursorOffset s).1 * 2) (getCursorOffset s).2).1 + 2 < colsNum * rowsNum * 2
  · rw [scroll, if_pos hbelow]
    exact ha
  · obtain ⟨m', hscroll, hw, -⟩ := scroll_below (s := (printBranch c
      (attributesOf textColor backColor)
        ((getCursorOffset s).1 * 2) (getCursorOffset s).2).2) hbelow
    rw [hscroll]
    exact hw.kept a ha

theorem mem_written_putCell (s : Screen) (offset : UDword) (c attributes : UByte) :
    videoMemory + offset ∈ (s.putCell offset c attributes).mem.written :=
  List.mem_cons_of_mem _ List.mem_cons_self

/-- A character that does not stay writes outside the video memory. -/
theorem not_onScreen_of_not_stays (textColor backColor : UByte) (hk : s.cursor < 2000)
    (hleaves : ¬ Stays c s.cursor) :
    ¬ OnScreen (printCharColor c textColor backColor s) := by
  have hcases : (c = backspace ∧ s.cursor = 0) ∨ (c = tab ∧ 1996 < s.cursor) := by
    by_contra hneither
    push Not at hneither
    refine hleaves ⟨?_, ?_⟩
    · intro hbackspace
      exact Nat.pos_of_ne_zero (hneither.1 hbackspace)
    · intro htab
      exact hneither.2 htab
  have hoffset := memOffset_eq s
  intro hon
  rcases hcases with ⟨rfl, hzero⟩ | ⟨rfl, hend⟩
  · -- before the first cell
    have hmem : videoMemory + (BitVec.ofNat 32 (2 * s.cursor) - 2) ∈
        (printCharColor backspace textColor backColor s).mem.written := by
      refine written_printCharColor ?_
      rw [hoffset]
      exact mem_written_putCell _ _ _ _
    have hin := hon.1 _ hmem
    rw [hzero] at hin
    exact absurd hin.1 (by decide)
  · -- behind the last one
    have hmem : videoMemory + (BitVec.ofNat 32 (2 * s.cursor) + BitVec.ofNat 32 (2 * 3)) ∈
        (printCharColor tab textColor backColor s).mem.written := by
      refine written_printCharColor ?_
      rw [hoffset]
      exact mem_written_putCell _ _ _ _
    have hin := hon.1 _ hmem
    rw [BitVec.ofNat_add_ofNat, videoRange, mem_span, toNat_videoAddress (by omega)] at hin
    omega

/-- **One character** stays on the screen exactly when the cursor leaves it the room. -/
theorem onScreen_printCharColor_iff (hon : OnScreen s) :
    OnScreen (printCharColor c textColor backColor s) ↔ Stays c s.cursor := by
  constructor
  · intro hon'
    by_contra hleaves
    exact not_onScreen_of_not_stays _ _ hon.2 hleaves hon'
  · exact hon.printCharColor

/-- What a character other than a backspace and a tab is on a terminal. -/
def Styled.symbol (x : Styled) : Symbol (UByte × UByte) :=
  if x.character = newline then .newline
  else .cell (x.character, attributesOf x.textColor x.backColor)

/-- The characters that only write at the cursor or end the row. -/
def Styled.Ordinary (x : Styled) : Prop := x.character ≠ backspace ∧ x.character ≠ tab

theorem Styled.Ordinary.stays {x : Styled} (hx : x.Ordinary) (k : ℕ) : Stays x.character k := by
  refine ⟨?_, ?_⟩
  · intro hbackspace
    exact absurd hbackspace hx.1
  · intro htab
    exact absurd htab hx.2

/-- An ordinary character is a step of the grid. -/
theorem printCharColor_grid {x : Styled} (hx : x.Ordinary) (hk : s.cursor < 2000) :
    let s' := printCharColor x.character x.textColor x.backColor s
    let g := s.grid.put 25 80 blankCell x.symbol
    s'.cursor = g.cursor ∧ ∀ i < 2000, cell s'.mem i = g.cells i := by
  intro s' g
  rcases printCharColor_spec x.textColor
    x.backColor hk (hx.stays s.cursor) with ⟨-, hcursor, -, hcells⟩
  unfold nextCursor printBranch at hcursor hcells
  -- a line break only moves the cursor
  by_cases hnewline : x.character = newline
  · have hsymbol : x.symbol = .newline := if_pos hnewline
    rw [if_pos hnewline, if_pos hnewline] at hcursor hcells
    have hg : g = s.grid.put 25 80 blankCell .newline := by rw [← hsymbol]
    rw [hg]
    exact ⟨hcursor, hcells⟩
  · have hsymbol : x.symbol = .cell (x.character, attributesOf x.textColor x.backColor) :=
      if_neg hnewline
    rw [if_neg hnewline, if_neg hnewline, if_neg hx.1, if_neg hx.1, if_neg hx.2, if_neg hx.2]
      at hcursor hcells
    have hg : g = s.grid.put 25 80 blankCell (.cell (x.character,
      attributesOf x.textColor x.backColor)) := by rw [← hsymbol]
    -- any other character goes into the cell at the cursor
    have hwritten : ∀ i < 25 * 80, cell ((getCursorOffset s).2.putCell
        (BitVec.ofNat 32 (2 * s.cursor)) x.character (attributesOf x.textColor x.backColor)).mem i =
          Function.update (cell s.mem) s.cursor
            (x.character, attributesOf x.textColor x.backColor) i := by
      intro i hi
      exact cell_putCell rfl (by omega) (by omega)
    have hscrolled := @Grid.scrollIfBelow_congr _ 25 80 ⟨_, s.cursor + 1⟩ ⟨_, s.cursor + 1⟩
      blankCell hwritten rfl
    rcases hscrolled with ⟨hnext, hsame⟩
    rw [hg]
    refine ⟨hcursor.trans hnext, ?_⟩
    intro i hi
    rw [hcells i hi]
    exact hsame i hi

end Character

/-! ## Any text -/

section Text
variable {text : List Styled} {x : Styled} {s : Screen} {m : Mem} {l : Layout (UByte × UByte)}

/-- Every character, where the cursor is when it is printed, stays on the screen. -/
def StepsStay (text : List Styled) (s : Screen) : Prop :=
  ∀ pre x post, text = pre ++ x :: post → Stays x.character (printText pre s).cursor

theorem stepsStay_cons : StepsStay (x :: text) s ↔
    Stays x.character s.cursor ∧
      StepsStay text (printCharColor x.character x.textColor x.backColor s) := by
  constructor
  · intro h
    refine ⟨h [] x text rfl, ?_⟩
    intro pre y post heq
    exact h (x :: pre) y post (congrArg (x :: ·) heq)
  · rintro ⟨hfirst, hrest⟩ pre y post heq
    cases pre with
    | nil =>
      rcases List.cons.inj heq with ⟨rfl, -⟩
      exact hfirst
    | cons z pre =>
      rcases List.cons.inj heq with ⟨rfl, htail⟩
      exact hrest pre y post htail

theorem printText_append (text text' : List Styled) (s : Screen) :
    printText (text ++ text') s = printText text' (printText text s) := List.foldl_append

theorem StepsStay.of_append {text' : List Styled} (h : StepsStay (text ++ text') s) :
    StepsStay text s ∧ StepsStay text' (printText text s) := by
  constructor
  · intro pre x post heq
    refine h pre x (post ++ text') ?_
    rw [heq, List.append_assoc, List.cons_append]
  · intro pre x post heq
    rw [← printText_append]
    refine h (text ++ pre) x post ?_
    rw [heq, List.append_assoc]

/-- **Any text** stays on the screen, at each character, exactly when each step does. -/
theorem onScreen_printText_iff (hon : OnScreen s) :
    (∀ pre, pre <+: text → OnScreen (printText pre s)) ↔ StepsStay text s := by
  induction text generalizing s with
  | nil =>
    constructor
    · intro _ pre x post heq
      exact absurd (congrArg List.length heq) (by simp)
    · intro _ pre hpre
      rw [List.prefix_nil.mp hpre]
      exact hon
  | cons x text ih =>
    -- a prefix of the text is empty or begins with `x`
    have hsplit : (∀ pre, pre <+: x :: text → OnScreen (printText pre s)) ↔
        OnScreen (printCharColor x.character x.textColor x.backColor s) ∧
          ∀ pre, pre <+: text →
            OnScreen (printText pre (printCharColor x.character x.textColor x.backColor s)) := by
      constructor
      · intro h
        have hrest : ∀ pre, pre <+: text →
            OnScreen (printText pre (printCharColor x.character x.textColor x.backColor s)) := by
          intro pre hpre
          exact h (x :: pre) ((List.prefix_cons_inj x).mpr hpre)
        exact ⟨hrest [] List.nil_prefix, hrest⟩
      · rintro ⟨-, hrest⟩ pre hpre
        cases pre with
        | nil => exact hon
        | cons y pre =>
          rcases List.cons_prefix_cons.mp hpre with ⟨rfl, htail⟩
          exact hrest pre htail
    rw [hsplit, stepsStay_cons, onScreen_printCharColor_iff hon]
    refine and_congr_right ?_
    intro hstays
    exact ih (hon.printCharColor hstays)

/-- Where the cursor is after a character, and after the scroll. -/
def cursorAfter (c : UByte) (cursor : ℕ) : ℕ :=
  if nextCursor c cursor < 25 * 80 then nextCursor c cursor else nextCursor c cursor - 80

/-- The characters, printed from this cursor on, stay on the screen. -/
def StaysFrom : List UByte → ℕ → Prop
  | [], _ => True
  | c :: chars, cursor => Stays c cursor ∧ StaysFrom chars (cursorAfter c cursor)

theorem stays_iff {c : UByte} {k : ℕ} :
    Stays c k ↔ (c = backspace → 0 < k) ∧ (c = tab → k ≤ 1996) :=
  ⟨fun h => ⟨h.onBackspace, h.onTab⟩, fun h => ⟨h.1, h.2⟩⟩

instance (c : UByte) (k : ℕ) : Decidable (Stays c k) := decidable_of_iff _ stays_iff.symm

instance decidableStaysFrom : ∀ chars k, Decidable (StaysFrom chars k)
  | [], _ => isTrue trivial
  | c :: chars, k =>
    @instDecidableAnd _ _ inferInstance (decidableStaysFrom chars (cursorAfter c k))

/-- Whether a text stays on the screen depends on its characters and the cursor alone. -/
theorem stepsStay_iff (hk : s.cursor < 2000) :
    StepsStay text s ↔ StaysFrom (text.map Styled.character) s.cursor := by
  induction text generalizing s with
  | nil =>
    refine ⟨fun _ => trivial, ?_⟩
    intro _ pre x post heq
    exact absurd (congrArg List.length heq) (by simp)
  | cons x text ih =>
    rw [stepsStay_cons, List.map_cons, StaysFrom]
    refine and_congr_right ?_
    intro hstays
    rcases printCharColor_spec x.textColor x.backColor hk hstays with ⟨-, hcursor, hlt, -⟩
    have hafter : (printCharColor x.character x.textColor x.backColor s).cursor =
        cursorAfter x.character s.cursor := by
      rw [hcursor]
      unfold Grid.scrollIfBelow cursorAfter
      split <;> rfl
    rw [ih (hcursor ▸ hlt), hafter]

/-- Only the video memory changes. -/
theorem writes_printText (hk : s.cursor < 2000) (hstays : StepsStay text s) :
    Writes videoRange s.mem (printText text s).mem ∧ (printText text s).cursor < 2000 := by
  induction text generalizing s with
  | nil => exact ⟨Writes.refl _ s.mem, hk⟩
  | cons x text ih =>
    rcases stepsStay_cons.mp hstays with ⟨hfirst, hrest⟩
    rcases printCharColor_spec x.textColor x.backColor hk hfirst with ⟨hw, hcursor, hlt, -⟩
    rcases ih (hcursor ▸ hlt) hrest with ⟨hw', hlt'⟩
    exact ⟨hw.trans hw', hlt'⟩

/-- **Any ordinary text** is shown. -/
theorem printText_shows (hordinary : ∀ x ∈ text, x.Ordinary)
    (hshows : Shows 25 80 blankCell s.grid l) :
    Shows 25 80 blankCell (printText text s).grid
      ((text.map Styled.symbol).foldl (Layout.put 80) l) := by
  induction text generalizing s l with
  | nil => exact hshows
  | cons x text ih =>
    have hx := hordinary x List.mem_cons_self
    have hk : s.cursor < 2000 := by
      have hlt := Layout.cursor_lt (Nat.succ_pos 24) hshows.current
      rw [← hshows.cursor] at hlt
      exact hlt
    rcases printCharColor_grid hx hk with ⟨hcursor, hcells⟩
    refine ih (fun y hy => hordinary y (List.mem_cons_of_mem x hy)) ?_
    exact (hshows.put (by decide) x.symbol).congr hcells hcursor

end Text

/-! ## Calls -/

section Calls
variable {text chars : List Styled} {s : Screen} {m : Mem} {calls : List PrintCall}
  {call : PrintCall} {str : UDword} {textColor backColor : UByte} {n : ℕ}

/-- The two memories differ in the video memory only. -/
def SameBytes (m m' : Mem) : Prop := ∀ a, a ∉ videoRange → m'.bytes a = m.bytes a

theorem SameBytes.writes {m' m'' : Mem} (hsame : SameBytes m m') (hw : Writes videoRange m' m'') :
    SameBytes m m'' := by
  intro a ha
  rw [hw.frame a ha, hsame a ha]

theorem SameBytes.printText (hsame : SameBytes m s.mem) (hk : s.cursor < 2000)
    (hstays : StepsStay text s) : SameBytes m (printText text s).mem :=
  hsame.writes (writes_printText hk hstays).1

theorem bytesAt_succ (m : Mem) (str : UDword) (n : ℕ) :
    bytesAt m str (n + 1) = bytesAt m str n ++ [m.bytes (str + BitVec.ofNat 32 n)] := by
  unfold bytesAt
  rw [List.range_succ, List.map_append]
  rfl

theorem bytesAt_cons (m : Mem) (str : UDword) (n : ℕ) :
    bytesAt m str (n + 1) = m.bytes str :: bytesAt m (str + 1) n := by
  unfold bytesAt
  rw [List.range_succ_eq_map, List.map_cons, List.map_map]
  congr 1
  · exact congrArg m.bytes (BitVec.add_zero str)
  · refine List.map_congr_left ?_
    intro i _
    show m.bytes (str + BitVec.ofNat 32 (i + 1)) = _
    rw [BitVec.add_assoc, Nat.add_comm i 1]
    congr 2
    exact BitVec.ofNat_add 1 i

/-- The loop over `length` characters. -/
theorem printLoop_eq (hsame : SameBytes m s.mem) (hk : s.cursor < 2000)
    (hapart : ∀ i < n, str + BitVec.ofNat 32 i ∉ videoRange)
    (hstays : StepsStay (styled textColor backColor (bytesAt m str n)) s) :
    printLoop str textColor backColor n s =
      printText (styled textColor backColor (bytesAt m str n)) s := by
  induction n with
  | zero => rfl
  | succ n ih =>
    rw [bytesAt_succ, styled, List.map_append] at hstays ⊢
    have hbefore := hstays.of_append.1
    have hloop := ih (fun i hi => hapart i (by omega)) hbefore
    have hbyte := hsame.printText hk hbefore _ (hapart n (by omega))
    rw [printText_append, printLoop, hloop]
    show printCharColor (Mem.bytes _ _) textColor backColor _ = _
    rw [← hbyte]
    rfl

/-- The loop up to a null character. -/
theorem printUntilNull_eq (fuel i : ℕ) (hsame : SameBytes m s.mem) (hk : s.cursor < 2000)
    (hfuel : n < fuel) (hapart : ∀ j ≤ n, str + BitVec.ofNat 32 (i + j) ∉ videoRange)
    (hchars : ∀ j < n, m.bytes (str + BitVec.ofNat 32 (i + j)) ≠ 0)
    (hnull : m.bytes (str + BitVec.ofNat 32 (i + n)) = 0)
    (hstays : StepsStay
      (styled textColor backColor (bytesAt m (str + BitVec.ofNat 32 i) n)) s) :
    printUntilNull str textColor backColor fuel i s = some
      (printText (styled textColor backColor (bytesAt m (str + BitVec.ofNat 32 i) n)) s) := by
  -- the string is not on the screen, so printing leaves its rest as it is
  induction n generalizing fuel i s with
  | zero =>
    obtain ⟨fuel, rfl⟩ : ∃ f, fuel = f + 1 := ⟨fuel - 1, by omega⟩
    have hread : s.mem.read8 (str + BitVec.ofNat 32 i) = 0 :=
      (hsame _ (hapart 0 (by omega))).trans hnull
    rw [printUntilNull, hread]
    rfl
  | succ n ih =>
    obtain ⟨fuel, rfl⟩ : ∃ f, fuel = f + 1 := ⟨fuel - 1, by omega⟩
    have hread : s.mem.read8 (str + BitVec.ofNat 32 i) = m.bytes (str + BitVec.ofNat 32 i) :=
      hsame _ (hapart 0 (by omega))
    have hne : m.bytes (str + BitVec.ofNat 32 i) ≠ 0 := hchars 0 (by omega)
    have hnext : str + BitVec.ofNat 32 i + 1 = str + BitVec.ofNat 32 (i + 1) := by
      rw [BitVec.add_assoc, BitVec.ofNat_add]
      rfl
    rw [bytesAt_cons, hnext, styled, List.map_cons] at hstays ⊢
    rcases stepsStay_cons.mp hstays with ⟨hfirst, hrest⟩
    rcases printCharColor_spec textColor backColor hk hfirst with ⟨hw, hcursor, hlt, -⟩
    have hloop := ih fuel (i + 1) (hsame.writes hw) (hcursor ▸ hlt) (by omega)
      (fun j hj => by rw [Nat.add_right_comm]; exact hapart (j + 1) (by omega))
      (fun j hj => by rw [Nat.add_right_comm]; exact hchars (j + 1) (by omega))
      (by rw [Nat.add_right_comm]; exact hnull) hrest
    rw [printUntilNull, hread, if_pos hne]
    exact hloop

/-- A call prints its characters. -/
theorem run_eq (hprints : call.Prints m chars) (hsame : SameBytes m s.mem) (hk : s.cursor < 2000)
    (hstays : StepsStay chars s) : call.run s = some (printText chars s) := by
  cases hprints with
  | char c textColor backColor => rfl
  | counted str textColor backColor hlength hapart =>
    show printStringColor _ _ _ _ _ = _
    rw [printStringColor, if_neg hlength, printLoop_eq hsame hk hapart hstays]
  | terminated str textColor backColor hn hapart hchars hnull =>
    have hzero : str + BitVec.ofNat 32 0 = str := BitVec.add_zero str
    show printStringColor _ _ _ _ _ = _
    rw [printStringColor, if_pos rfl]
    have hloop := printUntilNull_eq (2 ^ 32) 0 hsame hk hn
      (fun j hj => by rw [Nat.zero_add]; exact hapart j hj)
      (fun j hj => by rw [Nat.zero_add]; exact hchars j hj) (by rw [Nat.zero_add]; exact hnull)
      (by rw [hzero]; exact hstays)
    rw [hzero] at hloop
    exact hloop

/-- **Calls print their characters**, one after another. -/
theorem runCalls_eq (hprints : PrintsAll m calls text) (hsame : SameBytes m s.mem)
    (hk : s.cursor < 2000) (hstays : StepsStay text s) :
    runCalls calls s = some (printText text s) := by
  induction hprints generalizing s with
  | nil => rfl
  | cons hcall hcalls ih =>
    rcases hstays.of_append with ⟨hfirst, hrest⟩
    have hlt := (writes_printText hk hfirst).2
    rw [runCalls, run_eq hcall hsame hk hfirst, Option.bind_some,
      ih (hsame.printText hk hfirst) hlt hrest, printText_append]

end Calls

/-! ## From a cleared screen -/

/-- The same screen with an empty list of writes. -/
def Screen.watch (s : Screen) : Screen := { s with mem := s.mem.watch }

theorem cursor_clearScreen (s : Screen) : (clearScreen s).cursor = 0 := by
  show (getCursorOffset (setCursorOffset _ _)).1.toNat = 0
  rw [getCursorOffset_setCursorOffset]
  rfl

theorem cell_clearScreen (s : Screen) {k : ℕ} (hk : k < 2000) :
    cell (clearScreen s).mem k = blankCell := by
  have hstart : videoMemory = videoMemory + BitVec.ofNat 32 (2 * 0) := rfl
  show cell (memoryFillLoop videoMemory blankSample 2000 s.mem) k = blankCell
  rw [hstart, cell_memoryFill (by omega) s.mem hk, if_pos (by omega)]

theorem writes_clearScreen (s : Screen) : Writes videoRange s.mem (clearScreen s).mem := by
  have haddr : videoMemory.toNat = 0xb8000 := rfl
  have hlength : blankSample.length = 2 := rfl
  have hw := writes_memoryFillLoop videoMemory blankSample (n := 2000)
    (by rw [haddr, hlength]; omega) s.mem
  rw [haddr, hlength] at hw
  exact hw

/-- A cleared screen shows an empty text. -/
theorem clearScreen_shows (s : Screen) :
    Shows 25 80 blankCell (clearScreen s).grid Layout.empty := by
  refine (shows_empty (by decide)).congr ?_ (cursor_clearScreen s)
  intro k hk
  exact cell_clearScreen s hk

theorem onScreen_clearScreen (s : Screen) : OnScreen (clearScreen s).watch := by
  refine ⟨?_, ?_⟩
  · intro a ha
    exact absurd ha List.not_mem_nil
  · show (clearScreen s).cursor < 80 * 25
    rw [cursor_clearScreen]
    decide

/-- **The driver is a text terminal**: whatever calls print from a cleared screen, backspaces
and tabs apart, the video memory is the last 25 rows of the layout of the text, and the cursor
is where the next character goes. -/
theorem screen_shows_layout (s : Screen) {calls : List PrintCall} {text : List Styled}
    (hprints : PrintsAll (clearScreen s).mem calls text)
    (hordinary : ∀ x ∈ text, x.character ≠ backspace ∧ x.character ≠ tab) :
    ∃ s', runCalls calls (clearScreen s) = some s' ∧
      (∀ k < 25 * 80, cell s'.mem k =
        (layout 80 (text.map Styled.symbol)).window 25 80 blankCell k) ∧
      s'.cursor = (layout 80 (text.map Styled.symbol)).cursor 25 80 := by
  have hk : (clearScreen s).cursor < 2000 := by
    rw [cursor_clearScreen]
    decide
  have hstays : StepsStay text (clearScreen s) := by
    intro pre x post heq
    have hx : x ∈ text := by
      rw [heq]
      exact List.mem_append_right pre List.mem_cons_self
    exact Styled.Ordinary.stays (hordinary x hx) _
  have hshows := printText_shows hordinary (clearScreen_shows s)
  refine ⟨_, runCalls_eq hprints (fun _ _ => rfl) hk hstays, hshows.cells, hshows.cursor⟩

/-- A machine with a two-letter string in its memory. -/
def greeting : Screen where
  mem := ⟨fun a => if a = 0x1000 then 0x4f else if a = 0x1001 then 0x53 else 0, []⟩
  video := ⟨0, fun _ => 0⟩

theorem bytes_clearScreen_greeting {a : UDword} (ha : a.toNat < 0xb8000) :
    (clearScreen greeting).mem.bytes a = greeting.mem.bytes a := by
  refine (writes_clearScreen greeting).frame a ?_
  rw [videoRange, mem_span]
  omega

theorem prints_greeting : PrintsAll (clearScreen greeting).mem
    [.char newline 7 0, .string 0x1000 10 1 0] [⟨newline, 7, 0⟩, ⟨0x4f, 10, 1⟩, ⟨0x53, 10, 1⟩] := by
  have hbytes : bytesAt (clearScreen greeting).mem 0x1000 2 = [0x4f, 0x53] := by
    unfold bytesAt
    rw [show List.range 2 = [0, 1] from rfl, List.map_cons, List.map_cons, List.map_nil,
      bytes_clearScreen_greeting (by decide), bytes_clearScreen_greeting (by decide)]
    rfl
  have hstring : PrintCall.Prints (clearScreen greeting).mem (.string 0x1000 10 1 0)
      (styled 10 1 (bytesAt (clearScreen greeting).mem 0x1000 2)) := by
    refine .terminated 0x1000 10 1 (by decide) ?_ ?_ ?_
    · intro i hi
      rw [videoRange, mem_span, toNat_add_ofNat] <;> simp <;> omega
    · intro i hi
      have hcases : i = 0 ∨ i = 1 := by omega
      rcases hcases with rfl | rfl
      · rw [bytes_clearScreen_greeting (by decide)]
        decide
      · rw [bytes_clearScreen_greeting (by decide)]
        decide
    · rw [bytes_clearScreen_greeting (by decide)]
      rfl
  rw [hbytes] at hstring
  exact .cons (.char newline 7 0) (.cons hstring .nil)

theorem screen_shows_greeting : ∃ s', runCalls [.char newline 7 0, .string 0x1000 10 1 0]
      (clearScreen greeting) = some s' ∧
    (∀ k < 25 * 80, cell s'.mem k = (layout 80 [.newline, .cell (0x4f, 0x1a),
      .cell (0x53, 0x1a)]).window 25 80 blankCell k) ∧ s'.cursor = 82 := by
  refine screen_shows_layout greeting prints_greeting ?_
  decide

/-- **Printing stays on the screen exactly as long as every backspace has a cell before the
cursor and every tab four cells from it on**; then calls print their characters. -/
theorem printing_on_screen_iff (s : Screen) {calls : List PrintCall} {text : List Styled}
    (hprints : PrintsAll (clearScreen s).mem calls text) :
    ((∀ pre, pre <+: text → OnScreen (printText pre (clearScreen s).watch)) ↔
      StepsStay text (clearScreen s).watch) ∧
    (StepsStay text (clearScreen s).watch →
      runCalls calls (clearScreen s).watch = some (printText text (clearScreen s).watch)) := by
  have hon := onScreen_clearScreen s
  refine ⟨onScreen_printText_iff hon, ?_⟩
  intro hstays
  exact runCalls_eq hprints (fun a _ => congrFun (Mem.watch_bytes _) a) hon.2 hstays

/-- A tab and a backspace after the two letters. -/
theorem greeting_on_screen :
    (∀ pre, pre <+: [⟨newline, 7, 0⟩, ⟨0x4f, 10, 1⟩, ⟨0x53, 10, 1⟩,
        ⟨tab, 7, 0⟩, ⟨backspace, 7, 0⟩] →
        OnScreen (printText pre (clearScreen greeting).watch)) ∧
      runCalls [.char newline 7 0, .string 0x1000 10 1 0, .char tab 7 0, .char backspace 7 0]
          (clearScreen greeting).watch =
        some (printText
          [⟨newline, 7, 0⟩, ⟨0x4f, 10, 1⟩, ⟨0x53, 10, 1⟩, ⟨tab, 7, 0⟩, ⟨backspace, 7, 0⟩]
          (clearScreen greeting).watch) := by
  have hprints : PrintsAll (clearScreen greeting).mem _ _ :=
    prints_greeting.append (.cons (.char tab 7 0) (.cons (.char backspace 7 0) .nil))
  have hstays : StepsStay
      [⟨newline, 7, 0⟩, ⟨0x4f, 10, 1⟩, ⟨0x53, 10, 1⟩, ⟨tab, 7, 0⟩, ⟨backspace, 7, 0⟩]
      (clearScreen greeting).watch := by
    have hcursor : (clearScreen greeting).watch.cursor = 0 := cursor_clearScreen greeting
    rw [stepsStay_iff (by rw [hcursor]; decide), hcursor]
    decide
  have hprinting := printing_on_screen_iff greeting hprints
  exact ⟨hprinting.1.mpr hstays, hprinting.2 hstays⟩

/-- A backspace on a cleared screen writes before the video memory. -/
theorem backspace_leaves_screen : ¬ ∀ (s : Screen) (text pre : List Styled), pre <+: text →
    OnScreen (printText pre (clearScreen s).watch) := by
  intro hclaim
  have hcursor : (clearScreen greeting).watch.cursor = 0 := cursor_clearScreen greeting
  have hleaves : ¬ Stays backspace (clearScreen greeting).watch.cursor := by
    intro hstays
    have := hstays.onBackspace rfl
    omega
  refine not_onScreen_of_not_stays 7 0 (by omega) hleaves ?_
  exact hclaim greeting [⟨backspace, 7, 0⟩] [⟨backspace, 7, 0⟩] (List.prefix_refl _)

end MushOS
