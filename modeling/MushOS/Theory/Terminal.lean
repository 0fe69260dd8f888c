import Mathlib.Data.List.Basic
import Mathlib.Tactic

/-! # Text terminals

What a text terminal shows: text laid out in rows, a row ending at a newline or
when its last column has been filled, and of these rows the last ones, as many as
the terminal has. The layout keeps all of them (`Layout`), a terminal keeps a grid
of cells and a cursor (`Grid`): it writes at the cursor, and where a new row would
be below the last one it moves every row up by one. `Shows.put`: the grid shows
the end of the layout, whatever the text.
-/

namespace Terminal

inductive Symbol (α : Type*) where
  | newline
  | cell (a : α)

variable {α : Type*}

/-! ## Layouts -/

/-- The rows that have ended, and the row that is being written. -/
structure Layout (α : Type*) where
  ended : List (List α)
  current : List α

namespace Layout

def empty : Layout α := ⟨[], []⟩

def lineBreak (l : Layout α) : Layout α := ⟨l.ended ++ [l.current], []⟩

def write (l : Layout α) (a : α) : Layout α := { l with current := l.current ++ [a] }

/-- A row ends at a newline, and right after its last column. -/
def put (cols : ℕ) (l : Layout α) : Symbol α → Layout α
  | .newline => l.lineBreak
  | .cell a => if l.current.length + 1 = cols then (l.write a).lineBreak else l.write a

def rows (l : Layout α) : List (List α) := l.ended ++ [l.current]

/-- The rows above the last `height` ones. -/
def hidden (height : ℕ) (l : Layout α) : ℕ := l.rows.length - height

/-- Cell `k` of the last `height` rows, counted row by row. -/
def window (height cols : ℕ) (blank : α) (l : Layout α) (k : ℕ) : α :=
  ((l.rows[l.hidden height + k / cols]?).bind fun row => row[k % cols]?).getD blank

/-- The cell of the window the next character goes to. -/
def cursor (height cols : ℕ) (l : Layout α) : ℕ :=
  (l.ended.length - l.hidden height) * cols + l.current.length

end Layout

/-- The layout of a text. -/
def layout (cols : ℕ) (text : List (Symbol α)) : Layout α := text.foldl (Layout.put cols) .empty

/-! ## Grids -/

/-- Cells, counted row by row, and the cell the cursor is on. -/
structure Grid (α : Type*) where
  cells : ℕ → α
  cursor : ℕ

namespace Grid

/-- Every row moves up by one. -/
def scroll (height cols : ℕ) (blank : α) (g : Grid α) : Grid α where
  cells k := if k < (height - 1) * cols then g.cells (k + cols) else blank
  cursor := g.cursor - cols

def scrollIfBelow (height cols : ℕ) (blank : α) (g : Grid α) : Grid α :=
  if g.cursor < height * cols then g else g.scroll height cols blank

def put (height cols : ℕ) (blank : α) (g : Grid α) : Symbol α → Grid α
  | .newline => { g with cursor := (g.cursor / cols + 1) * cols }.scrollIfBelow height cols blank
  | .cell a => Grid.scrollIfBelow height cols blank
      ⟨Function.update g.cells g.cursor a, g.cursor + 1⟩

end Grid

/-! ## What a grid shows -/

/-- The grid has the end of the layout in its cells, and the cursor where it belongs. -/
structure Shows (height cols : ℕ) (blank : α) (g : Grid α) (l : Layout α) : Prop where
  cells : ∀ k < height * cols, g.cells k = l.window height cols blank k
  cursor : g.cursor = l.cursor height cols
  current : l.current.length < cols

section
variable {height cols : ℕ} {blank a : α} {l : Layout α} {g g' : Grid α} {k : ℕ}

/-- A scroll brings no cell from outside of the terminal. -/
theorem Grid.scrollIfBelow_congr (blank : α) (hcells : ∀ k < height * cols, g'.cells k = g.cells k)
    (hcursor : g'.cursor = g.cursor) :
    (g'.scrollIfBelow height cols blank).cursor = (g.scrollIfBelow height cols blank).cursor ∧
      ∀ k < height * cols, (g'.scrollIfBelow height cols blank).cells k =
        (g.scrollIfBelow height cols blank).cells k := by
  unfold Grid.scrollIfBelow
  rw [hcursor]
  by_cases hon : g.cursor < height * cols
  · rw [if_pos hon, if_pos hon]
    exact ⟨hcursor, hcells⟩
  · rw [if_neg hon, if_neg hon]
    refine ⟨congrArg (· - cols) hcursor, ?_⟩
    intro k hk
    show (if k < (height - 1) * cols then g'.cells (k + cols) else blank) =
      if k < (height - 1) * cols then g.cells (k + cols) else blank
    by_cases hlast : k < (height - 1) * cols
    · have hnext : k + cols < height * cols := by
        rw [Nat.sub_mul, Nat.one_mul] at hlast
        omega
      rw [if_pos hlast, if_pos hlast, hcells _ hnext]
    · rw [if_neg hlast, if_neg hlast]

/-- What a grid shows is in its cells on the terminal. -/
theorem Shows.congr (h : Shows height cols blank g l)
    (hcells : ∀ k < height * cols, g'.cells k = g.cells k) (hcursor : g'.cursor = g.cursor) :
    Shows height cols blank g' l := by
  refine ⟨?_, hcursor.trans h.cursor, h.current⟩
  intro k hk
  rw [hcells k hk, h.cells k hk]

theorem Layout.cursor_lt (hheight : 0 < height) (hcurrent : l.current.length < cols) :
    l.cursor height cols < height * cols := by
  have hrows : l.ended.length - l.hidden height + 1 ≤ height := by
    unfold hidden rows
    rw [List.length_append, List.length_singleton]
    omega
  have hle := Nat.mul_le_mul_right cols hrows
  unfold cursor
  rw [Nat.add_mul, Nat.one_mul] at hle
  omega

theorem Layout.hidden_le (hheight : 0 < height) (l : Layout α) :
    l.hidden height ≤ l.ended.length := by
  unfold hidden rows
  rw [List.length_append, List.length_singleton]
  omega

/-- Where the cursor is, row by row. -/
theorem Layout.eq_cursor_iff (hcurrent : l.current.length < cols) :
    k = l.cursor height cols ↔
      k / cols = l.ended.length - l.hidden height ∧ k % cols = l.current.length := by
  unfold cursor
  constructor
  · rintro rfl
    constructor
    · rw [Nat.mul_comm, Nat.mul_add_div (by omega), Nat.div_eq_of_lt hcurrent, Nat.add_zero]
    · rw [Nat.mul_comm, Nat.mul_add_mod, Nat.mod_eq_of_lt hcurrent]
  · rintro ⟨hdiv, hmod⟩
    rw [← hdiv, ← hmod, Nat.mul_comm, Nat.div_add_mod]

/-- Writing a cell of the current row. -/
theorem Layout.window_write (hheight : 0 < height) (hcurrent : l.current.length < cols) (k : ℕ) :
    (l.write a).window height cols blank k =
      if k = l.cursor height cols then a else l.window height cols blank k := by
  have hhidden : (l.write a).hidden height = l.hidden height := by
    simp [hidden, rows, write]
  have hle := l.hidden_le hheight
  unfold window
  rw [hhidden]
  unfold rows write
  by_cases hrow : l.hidden height + k / cols = l.ended.length
  · -- a cell of the current row
    rw [hrow]
    simp only [List.getElem?_concat_length, Option.bind_some]
    have hiff : k = l.cursor height cols ↔ k % cols = l.current.length := by
      rw [eq_cursor_iff hcurrent]
      exact and_iff_right (by omega)
    by_cases hk : k = l.cursor height cols
    · rw [if_pos hk, hiff.mp hk, List.getElem?_concat_length]
      rfl
    · rw [if_neg hk]
      rw [hiff] at hk
      by_cases hlt : k % cols < l.current.length
      · rw [List.getElem?_append_left hlt]
      · rw [List.getElem?_eq_none (by simp; omega), List.getElem?_eq_none (by omega)]
  · have hk : k ≠ l.cursor height cols := by
      rw [Ne, eq_cursor_iff hcurrent]
      omega
    rw [if_neg hk]
    by_cases hlt : l.hidden height + k / cols < l.ended.length
    · rw [List.getElem?_append_left hlt, List.getElem?_append_left hlt]
    · rw [List.getElem?_eq_none (by simp; omega), List.getElem?_eq_none (by simp; omega)]

/-- A new row, while there is place below. -/
theorem Layout.window_lineBreak (hroom : l.rows.length < height) (k : ℕ) :
    l.lineBreak.window height cols blank k = l.window height cols blank k := by
  have hhidden : l.hidden height = 0 := by
    unfold hidden
    omega
  have hhidden' : l.lineBreak.hidden height = 0 := by
    unfold hidden rows lineBreak at *
    simp only [List.length_append, List.length_singleton] at hroom ⊢
    omega
  unfold window
  rw [hhidden, hhidden', show l.lineBreak.rows = l.rows ++ [[]] from rfl, Nat.zero_add]
  by_cases hlt : k / cols < l.rows.length
  · rw [List.getElem?_append_left hlt]
  · rw [List.getElem?_append_right (by omega), List.getElem?_eq_none (l := l.rows) (by omega)]
    cases k / cols - l.rows.length <;> simp

/-- A new row, when there is none. -/
theorem Layout.window_lineBreak_scroll (hfull : height ≤ l.rows.length) (hcols : 0 < cols)
    (hk : k < height * cols) :
    l.lineBreak.window height cols blank k =
      if k < (height - 1) * cols then l.window height cols blank (k + cols) else blank := by
  have hdiv : k / cols < height := Nat.div_lt_of_lt_mul (by rw [Nat.mul_comm]; exact hk)
  have hhidden : l.lineBreak.hidden height = l.hidden height + 1 := by
    unfold hidden
    rw [show l.lineBreak.rows = l.rows ++ [[]] from rfl, List.length_append, List.length_singleton]
    omega
  have hsum : l.hidden height + height = l.rows.length := by
    unfold hidden
    omega
  unfold window
  rw [hhidden, show l.lineBreak.rows = l.rows ++ [[]] from rfl]
  by_cases hlast : k < (height - 1) * cols
  · have hdiv' : k / cols < height - 1 :=
      Nat.div_lt_of_lt_mul (by rw [Nat.mul_comm]; exact hlast)
    have hrow : l.hidden height + 1 + k / cols = l.hidden height + (k / cols + 1) := by
      rw [Nat.add_assoc, Nat.add_comm 1]
    have hlt : l.hidden height + (k / cols + 1) < l.rows.length := by
      rw [← hsum]
      exact Nat.add_lt_add_left (Nat.add_lt_of_lt_sub hdiv') _
    rw [if_pos hlast, Nat.add_div_right k hcols, Nat.add_mod_right, hrow,
      List.getElem?_append_left hlt]
  · have hdiv' : height - 1 ≤ k / cols := (Nat.le_div_iff_mul_le hcols).mpr (by omega)
    rw [if_neg hlast, show l.hidden height + 1 + k / cols = l.rows.length by omega,
      List.getElem?_concat_length]
    rfl

/-- Ending the row that is being written, with the cursor behind it. -/
theorem Shows.lineBreak (hheight : 0 < height) (hcols : 0 < cols)
    (hcells : ∀ k < height * cols, g.cells k = l.window height cols blank k)
    (hcursor : g.cursor = (l.ended.length - l.hidden height + 1) * cols) :
    Shows height cols blank (g.scrollIfBelow height cols blank) l.lineBreak := by
  have hle := l.hidden_le hheight
  have hlength : l.rows.length = l.ended.length + 1 := by simp [Layout.rows]
  have hended : l.lineBreak.ended.length = l.ended.length + 1 := by simp [Layout.lineBreak]
  have hrows : l.lineBreak.rows.length = l.rows.length + 1 := by
    simp [Layout.rows, Layout.lineBreak]
  by_cases hroom : l.rows.length < height
  · -- there is a row left below
    have hlt : g.cursor < height * cols := by
      rw [hcursor]
      exact Nat.mul_lt_mul_of_pos_right (by omega) hcols
    unfold Grid.scrollIfBelow
    rw [if_pos hlt]
    refine ⟨?_, ?_, hcols⟩
    · intro k hk
      rw [hcells k hk, Layout.window_lineBreak hroom]
    · rw [hcursor]
      unfold Layout.cursor Layout.hidden
      rw [hended, hrows]
      simp only [Layout.lineBreak, List.length_nil, Nat.add_zero]
      congr 1
      omega
  · -- the first row scrolls out of the window
    have hge : ¬ g.cursor < height * cols := by
      rw [hcursor, Nat.not_lt]
      refine Nat.mul_le_mul_right cols ?_
      unfold Layout.hidden
      omega
    unfold Grid.scrollIfBelow
    rw [if_neg hge]
    refine ⟨?_, ?_, hcols⟩
    · intro k hk
      rw [Layout.window_lineBreak_scroll (by omega) hcols hk]
      show (if k < (height - 1) * cols then g.cells (k + cols) else blank) = _
      by_cases hlast : k < (height - 1) * cols
      · have hnext : k + cols < height * cols := by
          have hmul : (height - 1) * cols + cols = height * cols := by
            rw [← Nat.succ_mul, Nat.succ_eq_add_one, Nat.sub_add_cancel hheight]
          omega
        rw [if_pos hlast, if_pos hlast, hcells _ hnext]
      · rw [if_neg hlast, if_neg hlast]
    · show g.cursor - cols = _
      rw [hcursor, Nat.add_mul, Nat.one_mul, Nat.add_sub_cancel]
      unfold Layout.cursor Layout.hidden
      rw [hended, hrows]
      simp only [Layout.lineBreak, List.length_nil, Nat.add_zero]
      congr 1
      omega

/-- **One character**: the grid shows the layout again. -/
theorem Shows.put (h : Shows height cols blank g l) (hheight : 0 < height) (symbol : Symbol α) :
    Shows height cols blank (g.put height cols blank symbol) (l.put cols symbol) := by
  have hcols : 0 < cols := by
    have := h.current
    omega
  cases symbol with
  | newline =>
    refine Shows.lineBreak hheight hcols h.cells ?_
    have hdiv := ((Layout.eq_cursor_iff h.current).mp h.cursor).1
    show (g.cursor / cols + 1) * cols = _
    rw [hdiv]
  | cell a =>
    have hwrite : ∀ k < height * cols, Function.update g.cells g.cursor a k =
        (l.write a).window height cols blank k := by
      intro k hk
      rw [Layout.window_write hheight h.current, ← h.cursor]
      by_cases heq : k = g.cursor
      · rw [heq, Function.update_self, if_pos rfl]
      · rw [Function.update_of_ne heq, if_neg heq, h.cells k hk]
    have hhidden : (l.write a).hidden height = l.hidden height := by
      simp [Layout.hidden, Layout.rows, Layout.write]
    have hcursor : g.cursor + 1 =
        (l.ended.length - l.hidden height) * cols + (l.current.length + 1) := by
      rw [h.cursor]
      rfl
    have hput : l.put cols (.cell a) =
        if l.current.length + 1 = cols then (l.write a).lineBreak else l.write a := rfl
    have hgrid : g.put height cols blank (.cell a) = Grid.scrollIfBelow height cols blank
        ⟨Function.update g.cells g.cursor a, g.cursor + 1⟩ := rfl
    rw [hput, hgrid]
    by_cases hfull : l.current.length + 1 = cols
    · -- the last column: the row ends
      rw [if_pos hfull]
      refine Shows.lineBreak hheight hcols hwrite ?_
      show g.cursor + 1 = _
      rw [hcursor, hfull, hhidden, Nat.add_mul, Nat.one_mul]
      rfl
    · rw [if_neg hfull]
      have hlt := h.current
      have hcurrent : (l.write a).current.length < cols := by
        simp only [Layout.write, List.length_append, List.length_singleton]
        omega
      have hcursor' : g.cursor + 1 = (l.write a).cursor height cols := by
        rw [hcursor]
        unfold Layout.cursor
        rw [hhidden]
        simp [Layout.write]
      have hbelow := Layout.cursor_lt hheight hcurrent
      rw [← hcursor'] at hbelow
      unfold Grid.scrollIfBelow
      rw [if_pos hbelow]
      exact ⟨hwrite, hcursor', hcurrent⟩

/-- A blank grid shows the empty layout. -/
theorem shows_empty (hcols : 0 < cols) :
    Shows height cols blank ⟨fun _ => blank, 0⟩ Layout.empty := by
  refine ⟨?_, ?_, hcols⟩
  · intro k hk
    unfold Layout.window Layout.rows Layout.empty
    cases Layout.hidden height ⟨[], ([] : List α)⟩ + k / cols <;> simp
  · simp [Layout.cursor, Layout.empty]

end

end Terminal
