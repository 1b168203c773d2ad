import Beeros.GfxBlits

/-! `gfx_copy_rect_on` of `kernel/gfx.c`: rows are moved in an order that leaves those still to be copied alone, so
that the rectangle is copied at once; the corners are sums of `uint32_t`. -/

namespace Beeros.Gfx

open CInt Loop

variable {g : State} {k : Canvas} {id : Int} {tw th : Nat}

/-! ### Moving rows -/

/-- One row, over pixels that may have changed already. -/
theorem moveRow_overwrite (sx sy dx dy : Int) (w : Nat) (old : Pos → Option Color) :
    moveRow id sx sy dx dy w (k.overwrite id old) = k.overwrite id fun p =>
      if p.2 = dy ∧ dx ≤ p.1 ∧ p.1 < dx + w then some ((k.overwrite id old).get id (p.1 - dx + sx, sy))
      else old p := by
  have hpaints : Paints k id (fun p => (k.overwrite id old).get id (p.1 - dx + sx, sy))
      (fun p => ∃ i, 0 ≤ i ∧ i < (w : Int) ∧ p = (dx + i, dy))
      (forRange 0 w fun i => Canvas.put id (dx + i, dy)
        (((List.range w).map fun (i : Nat) => (k.overwrite id old).get id (sx + i, sy)).getD i.toNat 0)) := by
    refine .loop fun i hi hi' => ?_
    have hcolor : ((List.range w).map fun (i : Nat) => (k.overwrite id old).get id (sx + i, sy)).getD i.toNat 0 =
        (k.overwrite id old).get id (dx + i - dx + sx, sy) := by
      have hlt : i.toNat < w := by omega
      have hat : sx + (i.toNat : Int) = dx + i - dx + sx := by omega
      rw [List.getD_eq_getElem?_getD, List.getElem?_map, List.getElem?_range hlt]
      show (k.overwrite id old).get id (sx + (i.toNat : Int), sy) = _
      rw [hat]
    rw [hcolor]
    exact paints_put (dx + i, dy)
  obtain ⟨new, heq, hhit, hkept⟩ := hpaints old
  refine heq.trans (congrArg (fun pic => k.overwrite id pic) (funext fun p => ?_))
  split_ifs with hp
  · exact hhit p ⟨p.1 - dx, by omega, by omega, Prod.ext (by dsimp only; omega) hp.1⟩
  · refine hkept p ?_
    rintro ⟨i, hi, hi', rfl⟩
    exact hp ⟨rfl, by dsimp only; omega, by dsimp only; omega⟩

/-- The rows of `gfx_copy_rect_on`. -/
def copyRows (id sx sy dx dy : Int) (w h : Nat) (k : Canvas) : Canvas :=
  forRange 0 h (fun i k => let r := if dy > sy then h - 1 - i else i
    moveRow id sx (sy + r) dx (dy + r) w k) k

/-- The rectangle at `(sx, sy)` put at `(dx, dy)`. -/
def moved (k : Canvas) (id sx sy dx dy : Int) (w h : Nat) (p : Pos) : Option Color :=
  if Rect.Mem ⟨dx, dy, w, h⟩ p then some (k.get id (p.1 - dx + sx, p.2 - dy + sy)) else none

theorem copyRows_eq (ht : k.target id ≠ none) (sx sy dx dy : Int) (w h : Nat) :
    copyRows id sx sy dx dy w h k = k.overwrite id (moved k id sx sy dx dy w h) := by
  -- the rows that are done after `i` rounds
  have hrounds := forRange_index (P := fun (i : Int) (k' : Canvas) => k' = k.overwrite id fun p =>
      if (dx ≤ p.1 ∧ p.1 < dx + w) ∧
          (if dy > sy then dy + h - i ≤ p.2 ∧ p.2 < dy + h else dy ≤ p.2 ∧ p.2 < dy + i) then
        some (k.get id (p.1 - dx + sx, p.2 - dy + sy)) else none)
    (a := 0) (b := h) (s := k) (f := fun i k => let r := if dy > sy then h - 1 - i else i
      moveRow id sx (sy + r) dx (dy + r) w k) (by omega) ?_ ?_
  · unfold copyRows
    rw [hrounds]
    congr 1
    funext p
    unfold moved Rect.Mem
    dsimp only
    refine if_congr ?_ rfl rfl
    split_ifs <;> omega
  · have hnone : (fun p : Pos => if (dx ≤ p.1 ∧ p.1 < dx + w) ∧
          (if dy > sy then dy + h - 0 ≤ p.2 ∧ p.2 < dy + h else dy ≤ p.2 ∧ p.2 < dy + 0) then
        some (k.get id (p.1 - dx + sx, p.2 - dy + sy)) else none) = fun _ => none := by
      funext p
      refine if_neg ?_
      split_ifs <;> omega
    rw [hnone, overwrite_none]
  · rintro i hi hi' _ rfl
    dsimp only
    rw [moveRow_overwrite]
    congr 1
    funext p
    rw [get_overwrite ht]
    -- the row that is read is not one that is done
    have hfresh : ¬ ((dx ≤ p.1 - dx + sx ∧ p.1 - dx + sx < dx + w) ∧
        (if dy > sy then dy + h - i ≤ sy + (if dy > sy then (h : Int) - 1 - i else i) ∧
            sy + (if dy > sy then (h : Int) - 1 - i else i) < dy + h
          else dy ≤ sy + (if dy > sy then (h : Int) - 1 - i else i) ∧
            sy + (if dy > sy then (h : Int) - 1 - i else i) < dy + i)) := by
      split_ifs <;> omega
    dsimp only
    rw [if_neg hfresh, Option.getD_none]
    by_cases hrow : p.2 = dy + (if dy > sy then (h : Int) - 1 - i else i) ∧ dx ≤ p.1 ∧ p.1 < dx + w
    · have hsrc : p.2 - dy + sy = sy + (if dy > sy then (h : Int) - 1 - i else i) := by omega
      rw [if_pos hrow, ← hsrc]
      refine (if_pos ⟨hrow.2, ?_⟩).symm
      split_ifs at hrow ⊢ <;> omega
    · rw [if_neg hrow]
      refine if_congr ?_ rfl rfl
      split_ifs at hrow ⊢ <;> omega

/-! ### The cursor on the way -/

/-- Nothing changes when the cursor is already away. -/
theorem below_below : State.below { g with canvas := g.below } = g.below := by
  by_cases hs : g.curShown = true
  · have hfb : (State.below { g with canvas := g.below }).fb = g.below.fb := by
      funext p
      by_cases hp : onScreen g.below p ∧ InCursor g.curX g.curY p
      · obtain ⟨cell, hcell, rfl⟩ := (mem_shownCells_iff { g with canvas := g.below } p).mpr hp
        have hcell' : cell ∈ g.shownCells cells := by
          unfold State.shownCells at hcell ⊢
          unfold State.cellPos at hcell
          rw [below_eq] at hcell
          exact hcell
        rw [below_saved (g := { g with canvas := g.below }) hs hcell]
        exact (below_saved hs hcell').symm
      · exact below_fb (g := { g with canvas := g.below }) fun h => hp h.2
    rw [below_eq, hfb]
  · rw [Bool.not_eq_true] at hs
    exact below_hidden (g := { g with canvas := g.below }) hs

/-- Drawing from one rectangle to another with the cursor out of the way of both. -/
theorem painted_twice {s d : Rect} {draw : Canvas → Canvas} (pic : Canvas → Pos → Option Color)
    (hdraw : ∀ fb, draw { g.canvas with fb := fb } =
      Canvas.overwrite id (pic { g.canvas with fb := fb }) { g.canvas with fb := fb })
    (hread : ∀ k k' : Canvas, (∀ p, s.Mem p → k.get id p = k'.get id p) → pic k = pic k')
    (hin : id = 0 → ∀ k p, ¬ d.Mem p → pic k p = none) :
    Painted id (pic g.below) g (cursorShowAgain ((hideOn id s g).1 || (hideOn id d (hideOn id s g).2).1)
      { (hideOn id d (hideOn id s g).2).2 with canvas := draw (hideOn id d (hideOn id s g).2).2.canvas }) := by
  have hself : draw g.canvas = g.canvas.overwrite id (pic g.canvas) := hdraw g.canvas.fb
  have hbelow : draw g.below = g.below.overwrite id (pic g.below) := by
    rw [below_eq]
    exact hdraw g.below.fb
  -- the cursor was in the way of one of them
  have haway (hid : id = 0) (hs : g.curShown = true) :
      Painted id (pic g.below) g (cursorShowAgain true { g with canvas := draw g.below }) := by
    subst hid
    rw [hbelow]
    exact painted_away hs
  rcases hideOn_cases g id s with ⟨heq, hms⟩ | ⟨heq, hid, hs⟩
  · rw [heq]
    rcases hideOn_cases g id d with ⟨heq', hmd⟩ | ⟨heq', hid, hs⟩
    · have hpic : pic g.below = pic g.canvas := by
        refine hread _ _ fun p hp => ?_
        by_cases hid : id = 0
        · subst hid
          exact below_fb fun h => not_inCursor_of_mem h.1 (hms rfl) hp h.2.2
        · exact get_below_of_ne hid
      rw [heq']
      refine ⟨?_, rfl, rfl, rfl⟩
      show State.below { g with canvas := draw g.canvas } = _
      rw [hself, hpic]
      exact below_free fun hid hs p hp => hin hid _ p fun hmem => not_inCursor_of_mem hs (hmd hid) hmem hp
    · rw [heq']
      exact haway hid hs
  · rw [heq]
    rcases hideOn_cases { g with canvas := g.below } id d with ⟨heq', -⟩ | ⟨heq', -, -⟩
    · rw [heq']
      exact haway hid hs
    · rw [heq', below_below]
      exact haway hid hs

theorem painted_copyRows {g' : State} (ht : g.canvas.target id ≠ none) (sx sy dx dy : Int) (w h : Nat)
    (heq : g' = cursorShowAgain ((hideOn id ⟨sx, sy, w, h⟩ g).1 ||
        (hideOn id ⟨dx, dy, w, h⟩ (hideOn id ⟨sx, sy, w, h⟩ g).2).1)
      { (hideOn id ⟨dx, dy, w, h⟩ (hideOn id ⟨sx, sy, w, h⟩ g).2).2 with
        canvas := copyRows id sx sy dx dy w h
          (hideOn id ⟨dx, dy, w, h⟩ (hideOn id ⟨sx, sy, w, h⟩ g).2).2.canvas }) :
    Painted id (moved g.below id sx sy dx dy w h) g g' := by
  rw [heq]
  refine painted_twice (fun k => moved k id sx sy dx dy w h) ?_ ?_ ?_
  · intro fb
    exact copyRows_eq (k := { g.canvas with fb := fb }) ht sx sy dx dy w h
  · intro k k' hread
    funext p
    unfold moved
    by_cases hp : Rect.Mem ⟨dx, dy, w, h⟩ p
    · rw [if_pos hp, if_pos hp, hread]
      unfold Rect.Mem at hp ⊢
      dsimp only at hp ⊢
      omega
    · rw [if_neg hp, if_neg hp]
  · intro _ k p hp
    exact if_neg hp

/-! ### On the machine -/

/-- Pixel `(dx + i, dy + j)` gets pixel `(sx + i, sy + j)`, for `i` below `w` and `j` below `h`, where both are
inside. -/
def copied (k : Canvas) (id : Int) (sx sy w h dx dy : Nat) (tw th : Nat) (p : Pos) : Option Color :=
  let i := p.1 - dx
  let j := p.2 - dy
  if (0 ≤ i ∧ i < w ∧ 0 ≤ j ∧ j < h) ∧ Inside tw th (sx + i, sy + j) ∧ Inside tw th p then
    some (k.get id (sx + i, sy + j))
  else none

/-- A corner outside the surface. -/
def CornerOutside (sx sy dx dy tw th : Nat) : Prop := sx ≥ tw ∨ sy ≥ th ∨ dx ≥ tw ∨ dy ≥ th

instance (sx sy dx dy tw th : Nat) : Decidable (CornerOutside sx sy dx dy tw th) :=
  inferInstanceAs (Decidable (_ ∨ _))

/-- On every surface of the size, `gfx_copy_rect_on` does nothing if a corner is outside, and otherwise copies at
once; it stays inside the array. -/
def CopyExact (sx sy w h dx dy tw th : Nat) : Prop :=
  ∀ (g : State) (id : Int), InRam g.canvas → g.canvas.target id = some (tw, th) →
    ∃ g', Flat.gfxCopyRectOn id sx sy w h dx dy g = some g' ∧
      (CornerOutside sx sy dx dy tw th → g' = g) ∧
        (¬ CornerOutside sx sy dx dy tw th → Painted id (copied g.below id sx sy w h dx dy tw th) g g')

theorem mapM_eq_some {α β : Type} {f : α → Option β} {v : α → β} {l : List α} (h : ∀ a ∈ l, f a = some (v a)) :
    l.mapM f = some (l.map v) := by
  induction l with
  | nil => rfl
  | cons a l ih =>
      rw [List.mapM_cons, h a List.mem_cons_self, ih fun a ha => h a (List.mem_cons_of_mem _ ha)]
      rfl

theorem mapM_eq_none {α β : Type} {f : α → Option β} {l : List α} {a : α} (ha : a ∈ l) (h : f a = none) :
    l.mapM f = none := by
  induction l with
  | nil => cases ha
  | cons b l ih =>
      rw [List.mapM_cons]
      rcases List.mem_cons.mp ha with rfl | ha
      · rw [h]
        rfl
      · rw [ih ha]
        cases f b <;> rfl

namespace Flat

theorem uint32_row (hs : Sized tw th) {y : Int} (hy : 0 ≤ y) (hy' : y ≤ th) :
    (uint32 ((uint32 y : Nat) * tw) : Int) = y * tw := by
  have hlt := hs.lt
  have hle : y * tw ≤ th * tw := Int.mul_le_mul_of_nonneg_right hy' (by omega)
  have hnonneg : 0 ≤ y * tw := Int.mul_nonneg hy (by omega)
  have hbound : ((tw * th : Nat) : Int) < 2 ^ 27 := by
    exact_mod_cast hlt.2.2
  rw [Int.natCast_mul, Int.mul_comm] at hbound
  rw [uint32_of_lt hy (by omega)]
  exact uint32_of_lt hnonneg (by omega)

/-- A row inside the surface. -/
theorem moveRow_eq {sx sy dx dy w : Nat} (hsx : sx + w ≤ tw) (hsy : sy < th) (hdx : dx + w ≤ tw)
    (hdy : dy < th) :
    moveRow id tw th ((dy : Int) * tw + dx) ((sy : Int) * tw + sx) w k =
      some (Gfx.moveRow id sx sy dx dy w k) := by
  unfold moveRow Gfx.moveRow
  rw [mapM_eq_some (v := fun i : Nat => k.get id ((sx : Int) + i, (sy : Int)))]
  · refine forRangeM_eq_some (fun i hi hi' k => ?_) k
    unfold store
    rw [Int.add_assoc, cell_row (by omega) (by omega) (by omega) (by omega)]
    rfl
  · intro i hi
    rw [List.mem_range] at hi
    unfold load
    rw [Int.add_assoc, cell_row (by omega) (by omega) (by omega) (by omega)]
    rfl

/-- A row longer than the surface. -/
theorem moveRow_escapes {src : Int} {n : Nat} (hsrc : 0 ≤ src) (hn : tw * th < n) (dst : Int) (k : Canvas) :
    moveRow id tw th dst src n k = none := by
  have hout : load k id tw th (src + (tw * th : Nat)) = none := by
    have hcell : cell tw th (src + (tw * th : Nat)) = none := by
      refine if_neg fun hin => ?_
      have hin₂ := hin.2
      push_cast at hin₂
      omega
    unfold load
    rw [hcell]
    rfl
  unfold moveRow
  rw [mapM_eq_none (List.mem_range.mpr hn) hout]
  rfl

/-- A row below the surface. -/
theorem moveRow_below {dst : Int} {n : Nat} (hdst : (tw * th : Nat) ≤ dst) (hn : 0 < n) (src : Int) (k : Canvas) :
    moveRow id tw th dst src n k = none := by
  have hcell : cell tw th (dst + 0) = none := by
    refine if_neg fun hin => ?_
    have hin₂ := hin.2
    push_cast at hdst
    omega
  unfold moveRow
  cases List.mapM (fun i : Nat => load k id tw th (src + i)) (List.range n) with
  | none => rfl
  | some row =>
      refine forRangeM_eq_none (Int.le_refl 0) (by omega) (fun k => ?_) k
      unfold store
      rw [hcell]
      rfl

/-- The sizes after clipping. -/
def clipped (corner size bound : Nat) : Nat :=
  if uint32 (corner + size) > bound then uint32 (bound - corner) else size

/-- The rows of `gfx_copy_rect_on`. -/
def copyRow (id : Int) (tw th sx sy dx dy w h : Nat) (i : Int) (k : Canvas) : Option Canvas :=
  let r := if dy > sy then uint32 (uint32 (h - 1) - i) else uint32 i
  moveRow id tw th (uint32 (uint32 (dy + r) * tw) + dx) (uint32 (uint32 (sy + r) * tw) + sx) (uint32 (w * 4) / 4) k

section Rows

variable {sx sy w h dx dy : Nat}

theorem copyRectOn_eq_rows (ht : g.canvas.target id = some (tw, th)) (hs : Sized tw th)
    (hin : ¬ CornerOutside sx sy dx dy tw th) (hw : w < 2 ^ 32) (hh : h < 2 ^ 32) :
    gfxCopyRectOn id sx sy w h dx dy g =
      let w := clipped (max sx dx) w tw
      let h := clipped (max sy dy) h th
      let s : Rect := ⟨sx, sy, w, h⟩
      let d : Rect := ⟨dx, dy, w, h⟩
      let (hid, g) := ((Gfx.hideOn id s g).1 || (Gfx.hideOn id d (Gfx.hideOn id s g).2).1,
        (Gfx.hideOn id d (Gfx.hideOn id s g).2).2)
      (forRangeM 0 h (copyRow id tw th sx sy dx dy w h) g.canvas).map fun k =>
        cursorShowAgain hid { g with canvas := k } := by
  have hlt := hs.lt
  unfold CornerOutside at hin
  unfold gfxCopyRectOn
  rw [ht]
  dsimp only
  rw [if_neg hin]
  have hcw : clipped (max sx dx) w tw < 2 ^ 32 := by
    unfold clipped
    split_ifs
    · exact uint32_lt _
    · exact hw
  have hch : clipped (max sy dy) h th < 2 ^ 32 := by
    unfold clipped
    split_ifs
    · exact uint32_lt _
    · exact hh
  change (let (hid₁, g) := hideOn id ⟨sx, sy, clipped (max sx dx) w tw, clipped (max sy dy) h th⟩ g
    let (hid₂, g) := hideOn id ⟨dx, dy, clipped (max sx dx) w tw, clipped (max sy dy) h th⟩ g
    (forRangeM 0 (clipped (max sy dy) h th) (copyRow id tw th sx sy dx dy (clipped (max sx dx) w tw)
      (clipped (max sy dy) h th)) g.canvas).map fun k => cursorShowAgain (hid₁ || hid₂) { g with canvas := k }) = _
  rw [hideOn_eq ⟨by dsimp only; omega, by dsimp only; omega⟩ ⟨by dsimp only; omega, by dsimp only; omega⟩]
  dsimp only
  rw [hideOn_eq ⟨by dsimp only; omega, by dsimp only; omega⟩ ⟨by dsimp only; omega, by dsimp only; omega⟩]

theorem clipped_of_fits {m n t : Nat} (hm : m < t) (ht : t < 2 ^ 32) (hfits : m + n < 2 ^ 32) :
    clipped m n t = if m + n > t then t - m else n := by
  have hsum := uint32_of_lt (n := (m : Int) + n) (by omega) (by omega)
  have hsub := uint32_of_lt (n := (t : Int) - m) (by omega) (by omega)
  unfold clipped
  split_ifs <;> omega

/-- A corner sum that wraps around is small, and nothing is cut off. -/
theorem clipped_of_wraps {m n t : Nat} (hm : m < t) (ht : t < 2 ^ 27) (hn : n < 2 ^ 32)
    (hwraps : 2 ^ 32 ≤ m + n) : clipped m n t = n := by
  unfold clipped uint32
  rw [if_neg (by omega)]

theorem clipped_pos {m n t : Nat} (hm : m < t) (ht : t < 2 ^ 32) (hn : 0 < n) : 0 < clipped m n t := by
  have hsub := uint32_of_lt (n := (t : Int) - m) (by omega) (by omega)
  unfold clipped
  split_ifs <;> omega

theorem clipped_zero {m t : Nat} (hm : m < t) (ht : t < 2 ^ 32) : clipped m 0 t = 0 := by
  have hsum := uint32_of_lt (n := (m : Int) + (0 : Nat)) (by omega) (by omega)
  unfold clipped
  rw [if_neg (by omega)]

/-- The row that round `i` moves. -/
theorem row_of_round {h : Nat} (dy sy : Nat) (hh : h < 2 ^ 32) {i : Int} (hi : 0 ≤ i) (hi' : i < h) :
    ((if dy > sy then uint32 (uint32 (h - 1) - i) else uint32 i : Nat) : Int) =
      if (dy : Int) > sy then (h : Int) - 1 - i else i := by
  have hlast := uint32_of_lt (n := (h : Int) - 1) (by omega) (by omega)
  by_cases hup : dy > sy
  · rw [if_pos hup, if_pos (by omega), hlast]
    exact uint32_of_lt (by omega) (by omega)
  · rw [if_neg hup, if_neg (by omega)]
    exact uint32_of_lt hi (by omega)

theorem copyRow_eq (hs : Sized tw th) (hsx : sx + w ≤ tw) (hsy : sy + h ≤ th) (hdx : dx + w ≤ tw)
    (hdy : dy + h ≤ th) {i : Int} (hi : 0 ≤ i) (hi' : i < h) :
    copyRow id tw th sx sy dx dy w h i k =
      some (let r := if (dy : Int) > sy then (h : Int) - 1 - i else i
        Gfx.moveRow id sx (sy + r) dx (dy + r) w k) := by
  have hlt := hs.lt
  have hr := row_of_round dy sy (h := h) (by omega) hi hi'
  unfold copyRow
  generalize (if dy > sy then uint32 (uint32 (h - 1) - i) else uint32 i) = r at hr ⊢
  have hrh : r < h := by
    split_ifs at hr <;> omega
  have hn : uint32 ((w : Int) * 4) / 4 = w := by
    have hbytes := uint32_of_lt (n := (w : Int) * 4) (by omega) (by omega)
    omega
  dsimp only
  rw [uint32_row hs (by omega) (by omega), uint32_row hs (by omega) (by omega), hn, ← hr]
  exact moveRow_eq hsx (by omega) hdx (by omega)

theorem copyRow_empty {i : Int} : copyRow id tw th sx sy dx dy 0 h i k = some k := rfl

/-- With `w` pixels a row, of which too few are cut off. -/
theorem copyRow_wide (hs : Sized tw th) (hw : w < 2 ^ 32) (hwide : 2 ^ 32 ≤ tw + w) {i : Int} :
    copyRow id tw th sx sy dx dy w h i k = none := by
  have hlt := hs.lt
  refine moveRow_escapes (by omega) ?_ _ k
  unfold uint32
  omega

/-- The row below the surface is reached when too few rows are cut off. -/
theorem copyRows_tall (hs : Sized tw th) (hdy : dy < th) (hw : 0 < w) (hw' : w ≤ tw) (hh : h < 2 ^ 32)
    (htall : 2 ^ 32 ≤ th + h) : forRangeM 0 h (copyRow id tw th sx sy dx dy w h) k = none := by
  have hlt := hs.lt
  have hround (i : Int) (hi : 0 ≤ i) (hi' : i < h)
      (hrow : (if (dy : Int) > sy then (h : Int) - 1 - i else i) = th - dy) (k : Canvas) :
      copyRow id tw th sx sy dx dy w h i k = none := by
    have hr := row_of_round dy sy hh hi hi'
    unfold copyRow
    generalize (if dy > sy then uint32 (uint32 (h - 1) - i) else uint32 i) = r at hr ⊢
    dsimp only
    rw [uint32_row (y := (dy : Int) + r) hs (by omega) (by omega)]
    refine moveRow_below ?_ ?_ _ k
    · have hlast : (dy : Int) + r = th := by omega
      rw [hlast]
      push_cast
      rw [Int.mul_comm]
      omega
    · unfold uint32
      omega
  by_cases hup : dy > sy
  · refine forRangeM_eq_none (i := (h : Int) - 1 - (th - dy)) (by omega) (by omega)
      (hround _ (by omega) (by omega) ?_) k
    rw [if_pos (by omega)]
    omega
  · refine forRangeM_eq_none (i := (th : Int) - dy) (by omega) (by omega) (hround _ (by omega) (by omega) ?_) k
    rw [if_neg (by omega)]

end Rows

end Flat

section Runs

variable {sx sy w h dx dy : Nat}

theorem painted_fits (hg : InRam g.canvas) (ht : g.canvas.target id = some (tw, th))
    (hin : ¬ CornerOutside sx sy dx dy tw th) (hw : max sx dx + w < 2 ^ 32) (hh : max sy dy + h < 2 ^ 32) :
    ∃ g', Flat.gfxCopyRectOn id sx sy w h dx dy g = some g' ∧
      Painted id (copied g.below id sx sy w h dx dy tw th) g g' := by
  have hs := hg.target ht
  have hlt := hs.lt
  rw [Flat.copyRectOn_eq_rows ht hs hin (by omega) (by omega)]
  unfold CornerOutside at hin
  rw [Flat.clipped_of_fits (by omega) (by omega) hw, Flat.clipped_of_fits (by omega) (by omega) hh]
  dsimp only
  -- the sizes after clipping
  obtain ⟨w', hw'⟩ : ∃ w', w' = if max sx dx + w > tw then tw - max sx dx else w := ⟨_, rfl⟩
  obtain ⟨h', hh'⟩ : ∃ h', h' = if max sy dy + h > th then th - max sy dy else h := ⟨_, rfl⟩
  rw [← hw', ← hh']
  have hwle : max sx dx + w' ≤ tw := by
    split_ifs at hw' <;> omega
  have hhle : max sy dy + h' ≤ th := by
    split_ifs at hh' <;> omega
  rw [forRangeM_eq_some fun i hi hi' k =>
    Flat.copyRow_eq (k := k) hs (by omega) (by omega) (by omega) (by omega) hi hi', Option.map_some]
  refine ⟨_, rfl, ?_⟩
  have hpainted := painted_copyRows (g := g) (by rw [ht]; exact nofun) sx sy dx dy w' h' rfl
  refine hpainted.congr fun p => ?_
  unfold moved copied Rect.Mem Inside
  dsimp only
  have hx : p.1 - (dx : Int) + sx = sx + (p.1 - dx) := by omega
  have hy : p.2 - (dy : Int) + sy = sy + (p.2 - dy) := by omega
  rw [hx, hy]
  refine if_congr ?_ rfl rfl
  split_ifs at hw' hh' <;> omega

/-- Without rows, or with empty ones, nothing is done. -/
theorem painted_empty (hg : InRam g.canvas) (ht : g.canvas.target id = some (tw, th))
    (hin : ¬ CornerOutside sx sy dx dy tw th) (hw : w < 2 ^ 32) (hh : h < 2 ^ 32) (hempty : w = 0 ∨ h = 0) :
    ∃ g', Flat.gfxCopyRectOn id sx sy w h dx dy g = some g' ∧
      Painted id (copied g.below id sx sy w h dx dy tw th) g g' := by
  have hs := hg.target ht
  have hlt := hs.lt
  rw [Flat.copyRectOn_eq_rows ht hs hin hw hh]
  unfold CornerOutside at hin
  dsimp only
  have hnone (k : Canvas) : forRangeM 0 (Flat.clipped (max sy dy) h th)
      (Flat.copyRow id tw th sx sy dx dy (Flat.clipped (max sx dx) w tw) (Flat.clipped (max sy dy) h th)) k =
        some k := by
    rcases hempty with rfl | rfl
    · rw [Flat.clipped_zero (by omega) (by omega)]
      rw [forRangeM_eq_some fun i _ _ k => Flat.copyRow_empty (k := k) (i := i)]
      exact congrArg some (forRange_induct (P := fun k' => k' = k) rfl fun _ _ _ _ h => h)
    · rw [Flat.clipped_zero (m := max sy dy) (by omega) (by omega)]
      rfl
  rw [hnone]
  refine ⟨_, rfl, ?_⟩
  have hpainted := @painted_twice g id ⟨sx, sy, Flat.clipped (max sx dx) w tw, Flat.clipped (max sy dy) h th⟩
    ⟨dx, dy, Flat.clipped (max sx dx) w tw, Flat.clipped (max sy dy) h th⟩ (fun k => k) (fun _ _ => none)
    (fun _ => overwrite_none.symm) (fun _ _ _ => rfl) fun _ _ _ _ => rfl
  refine hpainted.congr fun p => (if_neg fun hp => ?_).symm
  omega

theorem escapes (ht : g.canvas.target id = some (tw, th)) (hs : Sized tw th)
    (hin : ¬ CornerOutside sx sy dx dy tw th) (hw : w < 2 ^ 32) (hh : h < 2 ^ 32) (hw' : 0 < w) (hh' : 0 < h)
    (hwraps : 2 ^ 32 ≤ max sx dx + w ∨ 2 ^ 32 ≤ max sy dy + h) :
    Flat.gfxCopyRectOn id sx sy w h dx dy g = none := by
  have hlt := hs.lt
  rw [Flat.copyRectOn_eq_rows ht hs hin hw hh]
  unfold CornerOutside at hin
  dsimp only
  have hrows (k : Canvas) : forRangeM 0 (Flat.clipped (max sy dy) h th)
      (Flat.copyRow id tw th sx sy dx dy (Flat.clipped (max sx dx) w tw) (Flat.clipped (max sy dy) h th)) k =
        none := by
    have hpos := Flat.clipped_pos (m := max sy dy) (t := th) (by omega) (by omega) hh'
    by_cases hx : 2 ^ 32 ≤ max sx dx + w
    · rw [Flat.clipped_of_wraps (m := max sx dx) (by omega) (by omega) hw hx]
      exact forRangeM_eq_none (Int.le_refl 0) (by omega) (fun k => Flat.copyRow_wide hs hw (by omega)) k
    · rw [Flat.clipped_of_wraps (m := max sy dy) (by omega) (by omega) hh (by omega),
        Flat.clipped_of_fits (m := max sx dx) (by omega) (by omega) (by omega)]
      refine Flat.copyRows_tall hs (by omega) ?_ ?_ hh (by omega)
      · split_ifs <;> omega
      · split_ifs <;> omega
  rw [hrows]
  rfl

/-- It is exact unless a corner is inside and a corner plus the size wraps around. -/
theorem copyExact_iff (hs : Sized tw th) (hw : w < 2 ^ 32) (hh : h < 2 ^ 32) :
    CopyExact sx sy w h dx dy tw th ↔ CornerOutside sx sy dx dy tw th ∨ w = 0 ∨ h = 0 ∨
      max sx dx + w < 2 ^ 32 ∧ max sy dy + h < 2 ^ 32 := by
  constructor
  · intro hexact
    by_contra hbad
    obtain ⟨hin, hbad⟩ := not_or.mp hbad
    have hnone : Flat.gfxCopyRectOn 0 sx sy w h dx dy (plainScreen 0 tw th) = none :=
      escapes rfl hs hin hw hh (by omega) (by omega) (by omega)
    obtain ⟨g', heq, -⟩ := hexact _ 0 (inRam_plainScreen hs 0) rfl
    rw [hnone] at heq
    cases heq
  · intro hgood g id hg ht
    by_cases hin : CornerOutside sx sy dx dy tw th
    · refine ⟨g, ?_, fun _ => rfl, fun h => absurd hin h⟩
      unfold Flat.gfxCopyRectOn
      rw [ht]
      exact if_pos hin
    · have hpainted : ∃ g', Flat.gfxCopyRectOn id sx sy w h dx dy g = some g' ∧
          Painted id (copied g.below id sx sy w h dx dy tw th) g g' := by
        rcases hgood with hout | hempty | hempty | ⟨hx, hy⟩
        · exact absurd hout hin
        · exact painted_empty hg ht hin hw hh (Or.inl hempty)
        · exact painted_empty hg ht hin hw hh (Or.inr hempty)
        · exact painted_fits hg ht hin hx hy
      obtain ⟨g', heq, hg'⟩ := hpainted
      exact ⟨g', heq, fun h => absurd h hin, fun _ => hg'⟩

end Runs

/-- The upper row of four pixels over the lower one. -/
theorem copyExact_down : CopyExact 0 0 2 1 0 1 2 2 :=
  (copyExact_iff ⟨by decide, by decide⟩ (by decide) (by decide)).mpr
    (Or.inr (Or.inr (Or.inr ⟨by decide, by decide⟩)))

/-- To the left, with a width that should reach the edge. -/
theorem not_copyExact_wide : ¬ CopyExact 1 0 (2 ^ 32 - 1) 1 0 0 2 2 := by
  intro h
  have hs : Sized 2 2 := ⟨by decide, by decide⟩
  obtain ⟨g', heq, -⟩ := h (plainScreen 0 2 2) 0 (inRam_plainScreen hs 0) rfl
  rw [escapes rfl hs (by decide) (by decide) (by decide) (by decide) (by decide) (Or.inl (by decide))] at heq
  cases heq

end Beeros.Gfx
