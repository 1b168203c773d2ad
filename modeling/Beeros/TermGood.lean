import Beeros.Grid
import Beeros.Term

/-! What every state of a terminal keeps: a grid of the terminal's size, positions inside it, and colour
numbers that `color-256` takes. -/

namespace Beeros.Term

open Beerlang

/-! ### Colours -/

theorem rgb_nonneg (r g b : Int) : 0 ≤ rgb r g b := by
  unfold rgb
  omega

theorem color256_ok {n : Int} (hn : 0 ≤ n) : ∃ v, color256 n = .ok v ∧ 0 ≤ v := by
  unfold color256
  by_cases h16 : n < 16
  · rw [if_pos h16]
    obtain ⟨m, rfl⟩ := Int.eq_ofNat_of_zero_le hn
    have hm : m < palette.length := by
      show m < 16
      omega
    refine ⟨_, nth_ok 0 hm, ?_⟩
    rw [List.getD_eq_getElem?_getD, List.getElem?_eq_getElem hm]
    exact (by decide : ∀ v ∈ palette, 0 ≤ v) _ (List.getElem_mem hm)
  · rw [if_neg h16]
    split_ifs with h232
    · exact ⟨_, rfl, rgb_nonneg _ _ _⟩
    · exact ⟨_, rfl, rgb_nonneg _ _ _⟩

/-- The colour that `resolveColor` gives. -/
def colorOf (c : Int) (bold : Bool) : Int := (resolveColor c bold).toOption.getD 0

theorem resolveColor_ok {c : Int} (hc : 0 ≤ c) (bold : Bool) :
    resolveColor c bold = .ok (colorOf c bold) ∧ 0 ≤ colorOf c bold := by
  obtain ⟨v, hv, h0⟩ : ∃ v, resolveColor c bold = .ok v ∧ 0 ≤ v := by
    unfold resolveColor
    by_cases hrgb : c ≥ rgbFlag
    · rw [if_pos hrgb]
      exact ⟨_, rfl, by omega⟩
    · rw [if_neg hrgb]
      apply color256_ok
      split_ifs <;> omega
  unfold colorOf
  rw [hv]
  exact ⟨rfl, h0⟩

namespace State

/-- `[fg bg]` of the pen. -/
def pen (st : State) : Int × Int :=
  if st.inverse then (colorOf st.bg false, colorOf st.fg st.bold)
  else (colorOf st.fg st.bold, colorOf st.bg false)

def blankCell (st : State) : Cell := ⟨' ', colorOf st.defaultFg false, st.pen.2⟩

/-- Colour numbers that `color-256` takes. -/
structure Colored (st : State) : Prop where
  fg : 0 ≤ st.fg
  bg : 0 ≤ st.bg
  defaultFg : 0 ≤ st.defaultFg
  defaultBg : 0 ≤ st.defaultBg

theorem Colored.pen {st : State} (h : st.Colored) :
    st.penColors = .ok st.pen ∧ 0 ≤ st.pen.1 ∧ 0 ≤ st.pen.2 := by
  obtain ⟨hf, hf₀⟩ := resolveColor_ok h.fg st.bold
  obtain ⟨hb, hb₀⟩ := resolveColor_ok h.bg false
  unfold penColors State.pen
  rw [hf, ok_bind, hb, ok_bind]
  split_ifs
  · exact ⟨rfl, hb₀, hf₀⟩
  · exact ⟨rfl, hf₀, hb₀⟩

theorem Colored.blank {st : State} (h : st.Colored) :
    st.blank = .ok st.blankCell ∧ 0 ≤ st.blankCell.fg ∧ 0 ≤ st.blankCell.bg := by
  obtain ⟨hd, hd₀⟩ := resolveColor_ok h.defaultFg false
  unfold State.blank blankCell
  rw [h.pen.1, ok_bind]
  show (resolveColor st.defaultFg false >>= _) = _ ∧ _
  rw [hd]
  exact ⟨rfl, hd₀, h.pen.2.2⟩

theorem Colored.blankRow {st : State} (h : st.Colored) :
    st.blankRow = .ok (.replicate st.cols st.blankCell) := by
  unfold State.blankRow
  rw [h.blank.1]
  rfl

/-! ### Positions -/

/-- A column and a row of the terminal. -/
def Within (st : State) (p : Nat × Nat) : Prop := p.1 < st.cols ∧ p.2 < st.rows

/-- The grid has the terminal's size; the cursor and the saved position are in it. -/
structure Fits (st : State) : Prop where
  shape : Grid.Shape st.rows st.cols st.cells
  cursor : st.Within (st.cx, st.cy)
  saved : ∀ p, st.saved = some p → st.Within p

structure Good (st : State) : Prop extends Fits st, Colored st where
  drawn : ∀ p, st.drawnCursor = some p → st.Within p
  cell : ∀ row col c, Grid.cell? st.cells row col = some c → 0 ≤ c.fg ∧ 0 ≤ c.bg

/-- Where a terminal is drawn and how. -/
structure SameScreen (st st' : State) : Prop where
  x : st'.x = st.x
  y : st'.y = st.y
  cols : st'.cols = st.cols
  rows : st'.rows = st.rows
  font : st'.font = st.font
  scale : st'.scale = st.scale
  surf : st'.surf = st.surf

theorem SameScreen.refl (st : State) : SameScreen st st := ⟨rfl, rfl, rfl, rfl, rfl, rfl, rfl⟩

theorem SameScreen.trans {st st' st'' : State} (h : SameScreen st st') (h' : SameScreen st' st'') :
    SameScreen st st'' :=
  ⟨h'.x.trans h.x, h'.y.trans h.y, h'.cols.trans h.cols, h'.rows.trans h.rows, h'.font.trans h.font,
    h'.scale.trans h.scale, h'.surf.trans h.surf⟩

end State

section Good

open State

variable {st : State} {p : Nat → Nat → Bool} {c : Cell} {n : Nat}

theorem State.Good.cellAt (h : st.Good) {col row : Nat} (hp : st.Within (col, row)) :
    ∃ cell, st.cellAt col row = .ok cell ∧ Grid.cell? st.cells row col = some cell := by
  have hrow : row < st.cells.length := by
    rw [h.shape.length]
    exact hp.2
  have hcol : col < (st.cells.getD row []).length := by
    rw [h.shape.getD hp.2]
    exact hp.1
  refine ⟨_, ?_, h.shape.cell?_lt hp.2 hp.1 st.blankCell⟩
  unfold State.cellAt
  rw [nth_ok [] hrow, ok_bind, nth_ok st.blankCell hcol]

theorem State.Good.withCells (h : st.Good) {cells : List (List Cell)} (hs : Grid.Shape st.rows st.cols cells)
    (hc : ∀ row col c, Grid.cell? cells row col = some c → 0 ≤ c.fg ∧ 0 ≤ c.bg) :
    ({ st with cells := cells } : State).Good :=
  { shape := hs, cursor := h.cursor, saved := h.saved, fg := h.fg, bg := h.bg, defaultFg := h.defaultFg
    defaultBg := h.defaultBg, drawn := h.drawn, cell := hc }

theorem State.Good.painted (h : st.Good) (p : Nat → Nat → Bool) (hc : 0 ≤ c.fg ∧ 0 ≤ c.bg) :
    ({ st with cells := Grid.paint p c st.cells } : State).Good := by
  refine h.withCells (h.shape.paint p c) fun row col c' hc' => ?_
  rw [Grid.cell?_paint] at hc'
  obtain ⟨x, hx, he⟩ := Option.map_eq_some_iff.mp hc'
  split_ifs at he
  · rw [← he]
    exact hc
  · rw [← he]
    exact h.cell row col x hx

/-- Rows that come from the grid or are blank. -/
theorem State.Good.withRows (h : st.Good) {cells : List (List Cell)} (hs : Grid.Shape st.rows st.cols cells)
    (hc : 0 ≤ c.fg ∧ 0 ≤ c.bg) (hrow : ∀ r ∈ cells, r ∈ st.cells ∨ r = .replicate st.cols c) :
    ({ st with cells := cells } : State).Good := by
  refine h.withCells hs fun row col c' hc' => ?_
  unfold Grid.cell? at hc'
  obtain ⟨r, hr, hcol⟩ := Option.bind_eq_some_iff.mp hc'
  rcases hrow r (List.mem_of_getElem? hr) with hmem | hblank
  · obtain ⟨i, hi, he⟩ := List.getElem_of_mem hmem
    refine h.cell i col c' ?_
    unfold Grid.cell?
    rw [List.getElem?_eq_getElem hi, he]
    exact hcol
  · rw [hblank] at hcol
    rw [List.eq_of_mem_replicate (List.mem_of_getElem? hcol)]
    exact hc

theorem State.Good.shiftedUp (h : st.Good) (hn : n ≤ st.rows) (hc : 0 ≤ c.fg ∧ 0 ≤ c.bg) :
    ({ st with cells := Grid.shiftUp n (.replicate st.cols c) st.cells } : State).Good := by
  refine h.withRows (h.shape.shiftUp hn) hc fun r hr => ?_
  rcases List.mem_append.mp hr with hr | hr
  · exact .inl (List.mem_of_mem_drop hr)
  · exact .inr (List.eq_of_mem_replicate hr)

theorem State.Good.shiftedDown (h : st.Good) (hn : n ≤ st.rows) (hc : 0 ≤ c.fg ∧ 0 ≤ c.bg) :
    ({ st with cells := Grid.shiftDown n (.replicate st.cols c) st.cells } : State).Good := by
  refine h.withRows (h.shape.shiftDown hn) hc fun r hr => ?_
  rcases List.mem_append.mp hr with hr | hr
  · exact .inr (List.eq_of_mem_replicate hr)
  · exact .inl (List.mem_of_mem_take hr)

end Good

end Beeros.Term
