import Mathlib.Tactic

/-! # Templates with conversions

A template is a text in which a mark followed by a letter stands for something to be
filled in. `pieces` takes it apart: literal characters and conversions; a mark that is
followed by no letter is a literal character, and what follows it is looked at again.

Conversions are filled in order, each with words of its own from a list of words:
`Supplies` says that the words are there and acceptable, `Fills` what the template then
reads.
-/

namespace Template

inductive Piece (C V : Type) where
  | char (c : C)
  | conversion (v : V)
deriving DecidableEq, Repr

variable {C V W : Type}

/-- The pieces of a template. -/
def pieces [DecidableEq C] (mark : C) (letter : C → Option V) : List C → List (Piece C V)
  | [] => []
  | [c] => [.char c]
  | c :: d :: rest =>
    if c = mark then
      match letter d with
      | some v => .conversion v :: pieces mark letter rest
      | none => .char c :: pieces mark letter (d :: rest)
    else .char c :: pieces mark letter (d :: rest)

/-- There are words for every conversion, and each accepts its own. -/
inductive Supplies (Accepts : V → List W → Prop) : List (Piece C V) → List W → Prop where
  | nil (ws : List W) : Supplies Accepts [] ws
  | char {ps : List (Piece C V)} {ws : List W} (c : C) (h : Supplies Accepts ps ws) :
      Supplies Accepts (.char c :: ps) ws
  | conversion {v : V} {w : List W} {ps : List (Piece C V)} {ws : List W} (hw : Accepts v w)
      (h : Supplies Accepts ps ws) : Supplies Accepts (.conversion v :: ps) (w ++ ws)

/-- What the pieces read, one after another. -/
inductive Fills (Renders : V → List W → List C → Prop) :
    List (Piece C V) → List W → List C → Prop where
  | nil (ws : List W) : Fills Renders [] ws []
  | char {ps : List (Piece C V)} {ws : List W} {out : List C} (c : C)
      (h : Fills Renders ps ws out) :
      Fills Renders (.char c :: ps) ws (c :: out)
  | conversion {v : V} {w : List W} {text : List C} {ps : List (Piece C V)} {ws : List W}
      {out : List C} (hw : Renders v w text) (h : Fills Renders ps ws out) :
      Fills Renders (.conversion v :: ps) (w ++ ws) (text ++ out)

section
variable [DecidableEq C] {mark c d : C} {letter : C → Option V} {v : V} {rest : List C}

theorem pieces_char (hc : c ≠ mark) :
    pieces mark letter (c :: rest) = .char c :: pieces mark letter rest := by
  cases rest with
  | nil => rfl
  | cons d rest =>
    rw [pieces, if_neg hc]

theorem pieces_conversion (hd : letter d = some v) :
    pieces mark letter (mark :: d :: rest) = .conversion v :: pieces mark letter rest := by
  rw [pieces, if_pos rfl, hd]

/-- A mark without a letter stays. -/
theorem pieces_mark (hrest : rest.head?.bind letter = none) :
    pieces mark letter (mark :: rest) = .char mark :: pieces mark letter rest := by
  cases rest with
  | nil => rfl
  | cons d rest =>
    have hd : letter d = none := hrest
    rw [pieces, if_pos rfl, hd]

end

section
variable {Renders : V → List W → List C → Prop} {ps : List (Piece C V)} {ws : List W}
  {out cs : List C} {v : V}

theorem Supplies.chars {Accepts : V → List W → Prop} (cs : List C) (h : Supplies Accepts ps ws) :
    Supplies Accepts (cs.map .char ++ ps) ws := by
  induction cs with
  | nil => exact h
  | cons c cs ih => exact Supplies.char c ih

/-- Characters read as they are. -/
theorem Fills.chars (h : Fills Renders (cs.map .char ++ ps) ws out) :
    ∃ rest, out = cs ++ rest ∧ Fills Renders ps ws rest := by
  induction cs generalizing out with
  | nil => exact ⟨out, rfl, h⟩
  | cons c cs ih =>
    cases h with
    | char c h =>
      rcases ih h with ⟨rest, rfl, hrest⟩
      exact ⟨rest, rfl, hrest⟩

/-- A conversion reads its own words. -/
theorem Fills.split (h : Fills Renders (.conversion v :: ps) ws out) :
    ∃ w ws' text rest, ws = w ++ ws' ∧ out = text ++ rest ∧ Renders v w text ∧
      Fills Renders ps ws' rest := by
  cases h with
  | conversion hw h => exact ⟨_, _, _, _, rfl, rfl, hw, h⟩

end

end Template
