import Mathlib.Data.List.Basic

/-! Grids: lists of rows of one length. -/

namespace Grid

variable {α β : Type} {rows cols row col start stop n : Nat} {g g' : List (List α)} {p q : Nat → Nat → Bool} {a : α}

/-- `rows` rows of `cols` cells. -/
structure Shape (rows cols : Nat) (g : List (List α)) : Prop where
  length : g.length = rows
  width : ∀ r ∈ g, r.length = cols

def cell? (g : List (List α)) (row col : Nat) : Option α := g[row]?.bind (·[col]?)

/-- The cells of `p` become `a`. -/
def paint (p : Nat → Nat → Bool) (a : α) (g : List (List α)) : List (List α) :=
  g.mapIdx fun row r => r.mapIdx fun col x => if p row col then a else x

/-- The rows move up by `n`; copies of `r` come in below. -/
def shiftUp (n : Nat) (r : List α) (g : List (List α)) : List (List α) := g.drop n ++ .replicate n r

/-- The rows move down by `n`; copies of `r` come in above. -/
def shiftDown (n : Nat) (r : List α) (g : List (List α)) : List (List α) := .replicate n r ++ g.take (g.length - n)

/-! ### Shapes -/

theorem shape_replicate : Shape rows cols (List.replicate rows (List.replicate cols a)) :=
  ⟨List.length_replicate, fun r hr => by rw [List.eq_of_mem_replicate hr, List.length_replicate]⟩

theorem Shape.getElem (h : Shape rows cols g) (hr : row < g.length) : g[row].length = cols :=
  h.width _ (List.getElem_mem hr)

theorem Shape.getD (h : Shape rows cols g) (hr : row < rows) : (g.getD row []).length = cols := by
  have hrow : row < g.length := by
    rw [h.length]
    exact hr
  rw [List.getD_eq_getElem?_getD, List.getElem?_eq_getElem hrow]
  exact h.getElem hrow

theorem Shape.cell?_lt (h : Shape rows cols g) (hr : row < rows) (hc : col < cols) (d : α) :
    cell? g row col = some ((g.getD row []).getD col d) := by
  have hrow : row < g.length := by
    rw [h.length]
    exact hr
  have hcol : col < g[row].length := by
    rw [h.getElem hrow]
    exact hc
  unfold cell?
  rw [List.getD_eq_getElem?_getD, List.getD_eq_getElem?_getD, List.getElem?_eq_getElem hrow]
  show g[row][col]? = some (g[row][col]?.getD d)
  rw [List.getElem?_eq_getElem hcol]
  rfl

theorem Shape.cell?_eq_none (h : Shape rows cols g) (ho : rows ≤ row ∨ cols ≤ col) : cell? g row col = none := by
  unfold cell?
  by_cases hr : row < g.length
  · rw [List.getElem?_eq_getElem hr]
    apply List.getElem?_eq_none
    rw [h.getElem hr]
    have := h.length
    omega
  · rw [List.getElem?_eq_none (by omega)]
    rfl

theorem Shape.of_cell? (h : Shape rows cols g) (ha : cell? g row col = some a) : row < rows ∧ col < cols := by
  by_contra hno
  rw [h.cell?_eq_none (by omega)] at ha
  cases ha

/-- Grids of one shape that agree cell by cell are equal. -/
theorem Shape.ext (h : Shape rows cols g) (h' : Shape rows cols g')
    (heq : ∀ row col, row < rows → col < cols → cell? g row col = cell? g' row col) : g = g' := by
  apply List.ext_getElem (h.length.trans h'.length.symm)
  intro row hr hr'
  apply List.ext_getElem ((h.getElem hr).trans (h'.getElem hr').symm)
  intro col hc hc'
  have hcell := heq row col (by rw [← h.length]; exact hr) (by rw [← h.getElem hr]; exact hc)
  unfold cell? at hcell
  rw [List.getElem?_eq_getElem hr, List.getElem?_eq_getElem hr'] at hcell
  change g[row][col]? = g'[row][col]? at hcell
  rw [List.getElem?_eq_getElem hc, List.getElem?_eq_getElem hc'] at hcell
  exact Option.some.inj hcell

/-! ### Painting -/

theorem cell?_paint : cell? (paint p a g) row col = (cell? g row col).map fun x => if p row col then a else x := by
  unfold cell? paint
  rw [List.getElem?_mapIdx]
  cases g[row]? with
  | none => rfl
  | some r => exact List.getElem?_mapIdx

theorem Shape.paint (h : Shape rows cols g) (p : Nat → Nat → Bool) (a : α) : Shape rows cols (paint p a g) := by
  refine ⟨List.length_mapIdx.trans h.length, fun r hr => ?_⟩
  obtain ⟨i, hi, rfl⟩ := List.mem_mapIdx.mp hr
  exact List.length_mapIdx.trans (h.getElem hi)

theorem paint_paint : paint p a (paint q a g) = paint (fun row col => p row col || q row col) a g := by
  unfold paint
  rw [List.mapIdx_mapIdx]
  congr 1
  funext row r
  show (r.mapIdx _).mapIdx _ = _
  rw [List.mapIdx_mapIdx]
  congr 1
  funext col x
  show (if p row col then a else if q row col then a else x) = if p row col || q row col then a else x
  cases p row col
  · rfl
  · rfl

theorem paint_congr (h : Shape rows cols g) (hpq : ∀ row col, row < rows → col < cols → p row col = q row col) :
    paint p a g = paint q a g := by
  apply Shape.ext (h.paint p a) (h.paint q a)
  intro row col hr hc
  rw [cell?_paint, cell?_paint, hpq row col hr hc]

theorem paint_none (hp : ∀ row col, p row col = false) : paint p a g = g := by
  unfold paint
  apply List.ext_getElem List.length_mapIdx
  intro row _ hr
  rw [List.getElem_mapIdx]
  apply List.ext_getElem List.length_mapIdx
  intro col _ hc
  rw [List.getElem_mapIdx, hp]
  rfl

/-- A row whose columns from `start` to `stop` are replaced. -/
theorem set_blank (h : Shape rows cols g) (hr : row < rows) (hs : start ≤ stop) (hstop : stop ≤ cols) :
    g.set row ((g.getD row []).take start ++ .replicate (stop - start) a ++ (g.getD row []).drop stop) =
      paint (fun r c => r = row ∧ start ≤ c ∧ c < stop) a g := by
  have hrow : row < g.length := by
    rw [h.length]
    exact hr
  have hg : g.getD row [] = g[row] := by
    rw [List.getD_eq_getElem?_getD, List.getElem?_eq_getElem hrow]
    rfl
  have hlen := h.getElem hrow
  rw [hg]
  unfold paint
  apply List.ext_getElem
  · rw [List.length_set, List.length_mapIdx]
  intro i hi hi'
  rw [List.getElem_mapIdx, List.getElem_set]
  split_ifs with hir
  · subst hir
    apply List.ext_getElem
    · rw [List.length_mapIdx, List.length_append, List.length_append, List.length_take, List.length_replicate,
        List.length_drop]
      omega
    intro j hj hj'
    rw [List.length_mapIdx, hlen] at hj'
    rw [List.getElem_mapIdx]
    simp only [List.getElem_append, List.length_append, List.length_take, List.length_replicate, List.getElem_take,
      List.getElem_replicate, List.getElem_drop, true_and, decide_eq_true_eq]
    split_ifs with h₁ h₂ h₃ h₃ h₃
    · omega
    · rfl
    · rfl
    · omega
    · omega
    · congr 1
      omega
  · apply List.ext_getElem List.length_mapIdx.symm
    intro j hj hj'
    rw [List.getElem_mapIdx, if_neg]
    rw [decide_eq_true_eq]
    exact fun hp => hir hp.1.symm

theorem set_cell (h : Shape rows cols g) (hr : row < rows) (hc : col < cols) :
    g.set row ((g.getD row []).set col a) = paint (fun r c => r = row ∧ c = col) a g := by
  have hlen : (g.getD row []).length = cols := h.getD hr
  have hset : (g.getD row []).set col a =
      (g.getD row []).take col ++ .replicate (col + 1 - col) a ++ (g.getD row []).drop (col + 1) := by
    rw [List.set_eq_take_append_cons_drop, if_pos (by omega), Nat.add_sub_cancel_left, List.append_assoc]
    rfl
  rw [hset, set_blank h hr (by omega) (by omega)]
  apply paint_congr h
  intro r c _ _
  apply decide_eq_decide.mpr
  omega

/-! ### Scrolling -/

theorem Shape.shiftUp (h : Shape rows cols g) (hn : n ≤ rows) : Shape rows cols (shiftUp n (.replicate cols a) g) := by
  constructor
  · unfold Grid.shiftUp
    rw [List.length_append, List.length_drop, List.length_replicate, h.length]
    omega
  · intro r hr
    rcases List.mem_append.mp hr with hr | hr
    · exact h.width r (List.mem_of_mem_drop hr)
    · rw [List.eq_of_mem_replicate hr, List.length_replicate]

theorem cell?_shiftUp (h : Shape rows cols g) (hr : row < rows - n) (r : List α) :
    cell? (shiftUp n r g) row col = cell? g (n + row) col := by
  unfold cell? shiftUp
  have hlt : row < (g.drop n).length := by
    rw [List.length_drop, h.length]
    exact hr
  rw [List.getElem?_append_left hlt, List.getElem?_drop]

theorem Shape.shiftDown (h : Shape rows cols g) (hn : n ≤ rows) :
    Shape rows cols (shiftDown n (.replicate cols a) g) := by
  constructor
  · unfold Grid.shiftDown
    rw [List.length_append, List.length_take, List.length_replicate, h.length]
    omega
  · intro r hr
    rcases List.mem_append.mp hr with hr | hr
    · rw [List.eq_of_mem_replicate hr, List.length_replicate]
    · exact h.width r (List.mem_of_mem_take hr)

theorem cell?_shiftDown (h : Shape rows cols g) (hr : row < rows - n) (r : List α) :
    cell? (shiftDown n r g) (n + row) col = cell? g row col := by
  unfold cell? shiftDown
  rw [List.getElem?_append_right (by rw [List.length_replicate]; omega), List.length_replicate,
    Nat.add_sub_cancel_left, List.getElem?_take_of_lt (by rw [h.length]; exact hr)]

theorem cell?_replicate (hr : row < rows) (hc : col < cols) :
    cell? (List.replicate rows (List.replicate cols a)) row col = some a := by
  unfold cell?
  rw [List.getElem?_replicate, if_pos hr]
  show (List.replicate cols a)[col]? = _
  rw [List.getElem?_replicate, if_pos hc]

theorem cell?_shiftUp_below (h : Shape rows cols g) (hn : n ≤ rows) (hr : rows - n ≤ row) (hrow : row < rows)
    (hc : col < cols) : cell? (shiftUp n (.replicate cols a) g) row col = some a := by
  have hlen : (g.drop n).length = rows - n := by
    rw [List.length_drop, h.length]
  show ((g.drop n ++ .replicate n _)[row]?).bind _ = _
  rw [List.getElem?_append_right (by rw [hlen]; exact hr), hlen]
  exact cell?_replicate (by omega) hc

theorem cell?_shiftDown_above (hr : row < n) (hc : col < cols) :
    cell? (shiftDown n (.replicate cols a) g) row col = some a := by
  show ((.replicate n _ ++ g.take _)[row]?).bind _ = _
  rw [List.getElem?_append_left (by rw [List.length_replicate]; exact hr)]
  exact cell?_replicate hr hc

/-- Painting cells that have the colour already changes nothing. -/
theorem paint_self (h : Shape rows cols g)
    (hp : ∀ row col, row < rows → col < cols → p row col = true → cell? g row col = some a) : paint p a g = g := by
  apply Shape.ext (h.paint p a) h
  intro row col hr hc
  rw [cell?_paint]
  cases hpc : p row col with
  | true =>
      rw [hp row col hr hc hpc]
      rfl
  | false => exact Option.map_id'

end Grid
