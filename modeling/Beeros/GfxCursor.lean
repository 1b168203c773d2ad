import Beeros.Gfx
import Mathlib.Data.List.Nodup
import Mathlib.Data.List.Range

/-! The cursor of `kernel/gfx.c` and drawing: a run of drawing operations with cursor calls between them
against the same run without. As long as no operation copies pixels from under the arrow, the two draw
the same picture. -/

namespace Beeros.Gfx

open Loop

/-! ### The two loops of the cursor -/

/-- The pixels of a cursor at `(x, y)`. -/
def InCursor (x y : Int) (p : Pos) : Prop := x ≤ p.1 ∧ p.1 < x + curW ∧ y ≤ p.2 ∧ p.2 < y + curH

instance (x y : Int) (p : Pos) : Decidable (InCursor x y p) := inferInstanceAs (Decidable (_ ∧ _))

/-- The picture with the arrow over it. -/
def overlay (k : Canvas) (x y : Int) (p : Pos) : Color :=
  if onScreen k p ∧ InCursor x y p then paint (art (p.2 - y) (p.1 - x)) (k.fb p) else k.fb p

theorem nodup_cells : cells.Nodup := by
  unfold cells
  rw [List.nodup_flatMap]
  refine ⟨?_, ?_⟩
  · intro r _
    refine List.Nodup.map ?_ List.nodup_range
    intro c c' h
    exact Int.natCast_inj.mp (Prod.mk.inj h).2
  · refine List.Pairwise.imp ?_ List.nodup_range
    intro r r' hne cell h h'
    obtain ⟨c, -, rfl⟩ := List.mem_map.mp h
    obtain ⟨c', -, heq⟩ := List.mem_map.mp h'
    exact hne (Int.natCast_inj.mp (Prod.mk.inj heq).1).symm

theorem mem_cells {cell : Int × Int} :
    cell ∈ cells ↔ 0 ≤ cell.1 ∧ cell.1 < curH ∧ 0 ≤ cell.2 ∧ cell.2 < curW := by
  unfold cells
  simp only [List.mem_flatMap, List.mem_map, List.mem_range]
  constructor
  · rintro ⟨r, hr, c, hc, rfl⟩
    unfold curH curW at *
    simp only
    omega
  · rintro ⟨hr, hr', hc, hc'⟩
    refine ⟨cell.1.toNat, by omega, cell.2.toNat, by omega, ?_⟩
    rw [Int.toNat_of_nonneg hr, Int.toNat_of_nonneg hc]

theorem cellPos_injective (g : State) : Function.Injective g.cellPos := by
  intro a b h
  obtain ⟨hx, hy⟩ := Prod.mk.injEq .. ▸ h
  exact Prod.ext (by omega) (by omega)

/-- The cells of the cursor that are on the screen. -/
def State.shownCells (g : State) (l : List (Int × Int)) : List (Int × Int) :=
  l.filter fun cell => onScreen g.canvas (g.cellPos cell)

theorem pairwise_shownCells (g : State) {l : List (Int × Int)} (h : l.Nodup) :
    (g.shownCells l).Pairwise fun a b => g.cellPos a ≠ g.cellPos b :=
  (h.filter _).imp fun hne heq => hne (cellPos_injective g heq)

theorem shownCells_cons (g : State) (cell : Int × Int) (l : List (Int × Int)) :
    g.shownCells (cell :: l) =
      if onScreen g.canvas (g.cellPos cell) then cell :: g.shownCells l else g.shownCells l := by
  unfold State.shownCells
  rw [List.filter_cons]
  simp only [decide_eq_true_eq]

/-- A pixel on the screen and under the cursor has a cell, any other has none. -/
theorem mem_shownCells_iff (g : State) (p : Pos) :
    (∃ cell ∈ g.shownCells cells, g.cellPos cell = p) ↔ onScreen g.canvas p ∧ InCursor g.curX g.curY p := by
  unfold State.shownCells
  constructor
  · rintro ⟨cell, hcell, rfl⟩
    rw [List.mem_filter, mem_cells] at hcell
    obtain ⟨⟨hr, hr', hc, hc'⟩, hon⟩ := hcell
    refine ⟨of_decide_eq_true hon, ?_⟩
    unfold InCursor State.cellPos
    simp only
    omega
  · rintro ⟨hon, hx, hx', hy, hy'⟩
    have hpos : g.cellPos (p.2 - g.curY, p.1 - g.curX) = p := by
      unfold State.cellPos
      exact Prod.ext (by simp only; omega) (by simp only; omega)
    refine ⟨_, ?_, hpos⟩
    rw [List.mem_filter, mem_cells, hpos]
    exact ⟨by simp only; omega, decide_eq_true hon⟩

theorem cursorRestore_fold (l : List (Int × Int)) (g : State) :
    l.foldl (fun g cell =>
      if onScreen g.canvas (g.cellPos cell) then
        { g with canvas := g.canvas.put 0 (g.cellPos cell) (g.curSaved cell) }
      else g) g =
      { g with canvas := { g.canvas with
        fb := scatter g.cellPos (fun cell _ => g.curSaved cell) (g.shownCells l) g.canvas.fb } } := by
  induction l generalizing g with
  | nil => rfl
  | cons cell l ih =>
      rw [List.foldl_cons, shownCells_cons]
      by_cases hon : onScreen g.canvas (g.cellPos cell)
      · rw [if_pos hon, if_pos hon, ih]
        rfl
      · rw [if_neg hon, if_neg hon, ih]

/-- What the draw loop leaves after the cells of `l`. -/
structure Drawn (l : List (Int × Int)) (g g' : State) : Prop where
  canvas : g'.canvas = { g.canvas with
    fb := scatter g.cellPos (fun cell => paint (art cell.1 cell.2)) (g.shownCells l) g.canvas.fb }
  curX : g'.curX = g.curX
  curY : g'.curY = g.curY
  curShown : g'.curShown = g.curShown
  saved : ∀ cell ∈ g.shownCells l, g'.curSaved cell = g.canvas.fb (g.cellPos cell)
  kept : ∀ cell, cell ∉ l → g'.curSaved cell = g.curSaved cell

theorem cursorDraw_fold {l : List (Int × Int)} (hl : l.Nodup) (g : State) :
    Drawn l g (l.foldl (fun g cell =>
      if onScreen g.canvas (g.cellPos cell) then
        { g with
          curSaved := Function.update g.curSaved cell (g.canvas.fb (g.cellPos cell))
          canvas := g.canvas.put 0 (g.cellPos cell)
            (paint (art cell.1 cell.2) (g.canvas.fb (g.cellPos cell))) }
      else g) g) := by
  induction l generalizing g with
  | nil => exact ⟨rfl, rfl, rfl, rfl, nofun, fun _ _ => rfl⟩
  | cons cell l ih =>
      rw [List.nodup_cons] at hl
      rw [List.foldl_cons]
      by_cases hon : onScreen g.canvas (g.cellPos cell)
      · rw [if_pos hon]
        have hrest := ih hl.2 { g with
          curSaved := Function.update g.curSaved cell (g.canvas.fb (g.cellPos cell))
          canvas := g.canvas.put 0 (g.cellPos cell)
            (paint (art cell.1 cell.2) (g.canvas.fb (g.cellPos cell))) }
        refine ⟨?_, hrest.curX, hrest.curY, hrest.curShown, ?_, ?_⟩
        · rw [hrest.canvas, shownCells_cons, if_pos hon]
          rfl
        · rw [shownCells_cons, if_pos hon]
          intro c hc
          rcases List.mem_cons.mp hc with rfl | hmem
          · rw [hrest.kept c hl.1]
            exact Function.update_self ..
          · have hne : c ≠ cell := by
              rintro rfl
              exact hl.1 (List.mem_of_mem_filter hmem)
            rw [hrest.saved c hmem]
            exact Function.update_of_ne (fun heq => hne (cellPos_injective g heq)) ..
        · intro c hc
          rw [List.mem_cons, not_or] at hc
          rw [hrest.kept c hc.2]
          exact Function.update_of_ne hc.1 ..
      · rw [if_neg hon]
        have hrest := ih hl.2 g
        have hcells : g.shownCells (cell :: l) = g.shownCells l := by rw [shownCells_cons, if_neg hon]
        refine ⟨?_, hrest.curX, hrest.curY, hrest.curShown, ?_, ?_⟩
        · rw [hcells]
          exact hrest.canvas
        · rw [hcells]
          exact hrest.saved
        · intro c hc
          exact hrest.kept c fun hmem => hc (List.mem_cons_of_mem cell hmem)

/-- The cursor is drawn over the picture `k` and has saved what is under it. -/
structure Over (g : State) (k : Canvas) : Prop where
  canvas : g.canvas = { k with fb := g.canvas.fb }
  outside : ∀ p, ¬ (onScreen k p ∧ InCursor g.curX g.curY p) → g.canvas.fb p = k.fb p
  saved : ∀ cell ∈ g.shownCells cells, g.curSaved cell = k.fb (g.cellPos cell)

/-- Restoring gives the picture back. -/
theorem Over.cursorRestore {g : State} {k : Canvas} (h : Over g k) :
    cursorRestore g = { g with canvas := k } := by
  have hfold := cursorRestore_fold cells g
  have hfb : scatter g.cellPos (fun cell _ => g.curSaved cell) (g.shownCells cells) g.canvas.fb = k.fb := by
    funext p
    have hscreen : onScreen g.canvas p ↔ onScreen k p := by rw [h.canvas]; exact Iff.rfl
    by_cases hp : onScreen k p ∧ InCursor g.curX g.curY p
    · obtain ⟨cell, hcell, rfl⟩ := (mem_shownCells_iff g p).mpr ⟨hscreen.mpr hp.1, hp.2⟩
      rw [scatter_of_mem (pairwise_shownCells g nodup_cells) hcell]
      exact h.saved cell hcell
    · rw [scatter_of_ne, h.outside p hp]
      intro cell hcell heq
      obtain ⟨hon, hin⟩ := (mem_shownCells_iff g p).mp ⟨cell, hcell, heq⟩
      exact hp ⟨hscreen.mp hon, hin⟩
  rw [hfb] at hfold
  have hcanvas : { g.canvas with fb := k.fb } = k := by rw [h.canvas]
  rw [hcanvas] at hfold
  exact hfold

/-- Drawing puts the arrow over the picture and saves what it covers. -/
theorem cursorDraw_spec (g : State) :
    (cursorDraw g).canvas = { g.canvas with fb := overlay g.canvas g.curX g.curY } ∧
      Over (cursorDraw g) g.canvas ∧ (cursorDraw g).curX = g.curX ∧ (cursorDraw g).curY = g.curY ∧
      (cursorDraw g).curShown = g.curShown := by
  have hdrawn : Drawn cells g (cursorDraw g) := cursorDraw_fold nodup_cells g
  have hfb : scatter g.cellPos (fun cell => paint (art cell.1 cell.2)) (g.shownCells cells) g.canvas.fb =
      overlay g.canvas g.curX g.curY := by
    funext p
    unfold overlay
    by_cases hp : onScreen g.canvas p ∧ InCursor g.curX g.curY p
    · rw [if_pos hp]
      obtain ⟨cell, hcell, rfl⟩ := (mem_shownCells_iff g p).mpr hp
      rw [scatter_of_mem (pairwise_shownCells g nodup_cells) hcell]
      congr 2 <;> unfold State.cellPos <;> simp only <;> omega
    · rw [if_neg hp, scatter_of_ne]
      intro cell hcell heq
      exact hp ((mem_shownCells_iff g p).mp ⟨cell, hcell, heq⟩)
  have hcanvas := hdrawn.canvas
  rw [hfb] at hcanvas
  refine ⟨hcanvas, ⟨?_, ?_, ?_⟩, hdrawn.curX, hdrawn.curY, hdrawn.curShown⟩
  · rw [hcanvas]
  · intro p hp
    rw [hdrawn.curX, hdrawn.curY] at hp
    rw [hcanvas]
    exact if_neg hp
  · have hcells : (cursorDraw g).shownCells cells = g.shownCells cells := by
      unfold State.shownCells State.cellPos
      rw [hdrawn.curX, hdrawn.curY, hcanvas]
      rfl
    have hpos : (cursorDraw g).cellPos = g.cellPos := by
      unfold State.cellPos
      rw [hdrawn.curX, hdrawn.curY]
    rw [hcells, hpos]
    exact hdrawn.saved

/-! ### Drawing that keeps out of a part of the screen -/

/-- The two differ at most in the framebuffer, and there only inside `C`. -/
structure Agree (C : Pos → Prop) (k k' : Canvas) : Prop where
  canvas : k = { k' with fb := k.fb }
  fb : ∀ p, ¬ C p → k.fb p = k'.fb p

/-- Neither reads nor writes the framebuffer inside `C`. -/
structure Local (C : Pos → Prop) (f : Canvas → Canvas) : Prop where
  agree : ∀ k k', Agree C k k' → Agree C (f k) (f k')
  frame : ∀ k p, C p → (f k).fb p = k.fb p
  size : ∀ k, (f k).w = k.w ∧ (f k).h = k.h

section Local

variable {C : Pos → Prop} {α : Type}

theorem local_id : Local C fun k => k := ⟨fun _ _ h => h, fun _ _ _ => rfl, fun _ => ⟨rfl, rfl⟩⟩

theorem Local.loop {a b : Int} {f : Int → Canvas → Canvas} (h : ∀ i, a ≤ i → i < b → Local C (f i)) :
    Local C (forRange a b f) := by
  refine ⟨?_, ?_, ?_⟩
  · intro k k' hk
    exact forRange_rel hk fun i ha hb k k' hk => (h i ha hb).agree k k' hk
  · intro k p hp
    refine forRange_induct (P := fun k' : Canvas => k'.fb p = k.fb p) rfl ?_
    intro i ha hb k' hk'
    rw [(h i ha hb).frame k' p hp, hk']
  · intro k
    refine forRange_induct (P := fun k' : Canvas => k'.w = k.w ∧ k'.h = k.h) ⟨rfl, rfl⟩ ?_
    intro i ha hb k' hk'
    rwa [((h i ha hb).size k').1, ((h i ha hb).size k').2]

theorem Local.cond {c : Prop} [Decidable c] {f f' : Canvas → Canvas} (h : c → Local C f)
    (h' : ¬ c → Local C f') : Local C fun k => if c then f k else f' k := by
  by_cases hc : c
  · simpa only [if_pos hc] using h hc
  · simpa only [if_neg hc] using h' hc

/-- A read that the part inside `C` has no influence on. -/
theorem Local.read {e : Canvas → α} {f : α → Canvas → Canvas} (he : ∀ k k', Agree C k k' → e k = e k')
    (h : ∀ a, Local C (f a)) : Local C fun k => f (e k) k := by
  refine ⟨?_, fun k p hp => (h (e k)).frame k p hp, fun k => (h (e k)).size k⟩
  intro k k' hk
  rw [he k k' hk]
  exact (h (e k')).agree k k' hk

theorem local_put {id : Int} {p : Pos} (h : id = 0 → ¬ C p) (c : Color) : Local C (Canvas.put id p c) := by
  unfold Canvas.put
  by_cases hid : id = 0
  · simp only [if_pos hid]
    refine ⟨?_, ?_, fun _ => ⟨rfl, rfl⟩⟩
    · intro k k' hk
      refine ⟨?_, ?_⟩
      · rw [hk.canvas]
      · intro q hq
        show Function.update k.fb p c q = Function.update k'.fb p c q
        by_cases hqp : q = p
        · rw [hqp, Function.update_self, Function.update_self]
        · rw [Function.update_of_ne hqp, Function.update_of_ne hqp]
          exact hk.fb q hq
    · intro k q hq
      refine Function.update_of_ne ?_ ..
      rintro rfl
      exact h hid hq
  · simp only [if_neg hid]
    refine ⟨?_, fun _ _ _ => rfl, fun _ => ⟨rfl, rfl⟩⟩
    intro k k' hk
    refine ⟨?_, hk.fb⟩
    rw [hk.canvas]

/-- Something that the framebuffer has no part in. -/
theorem local_of_fb {f : Canvas → Canvas} (hfb : ∀ k fb, f { k with fb := fb } = { f k with fb := fb })
    (hsize : ∀ k, (f k).w = k.w ∧ (f k).h = k.h) : Local C f := by
  have hsame : ∀ k, (f k).fb = k.fb := by
    intro k
    have hself := hfb k k.fb
    rw [hself]
  refine ⟨?_, ?_, hsize⟩
  · intro k k' hk
    refine ⟨?_, ?_⟩
    · rw [hsame k]
      conv_lhs => rw [hk.canvas, hfb]
    · intro p hp
      rw [hsame, hsame]
      exact hk.fb p hp
  · intro k p _
    rw [hsame]

theorem Agree.get {k k' : Canvas} (hk : Agree C k k') {id : Int} {p : Pos} (h : id = 0 → ¬ C p) :
    k.get id p = k'.get id p := by
  unfold Canvas.get
  by_cases hid : id = 0
  · rw [if_pos hid, if_pos hid]
    exact hk.fb p (h hid)
  · rw [if_neg hid, if_neg hid, hk.canvas]

theorem Agree.owner {k k' : Canvas} (hk : Agree C k k') : k.owner = k'.owner := by rw [hk.canvas]

end Local

/-! ### With the cursor and without -/

/-- `g'` is `g` without the cursor. -/
structure Sim (g g' : State) : Prop where
  noCursor : g'.curShown = false
  hidden : g.curShown = false → g.canvas = g'.canvas
  shown : g.curShown = true → g.canvas = { g'.canvas with fb := overlay g'.canvas g.curX g.curY } ∧
    Over g g'.canvas

theorem Sim.rest {g g' : State} (h : Sim g g') : g.canvas = { g'.canvas with fb := g.canvas.fb } := by
  cases hs : g.curShown with
  | false => rw [h.hidden hs]
  | true => rw [(h.shown hs).1]

/-- The cursor is put back over the new picture. -/
theorem sim_showAgain {g g' : State} (hno : g'.curShown = false) (hshown : g.curShown = true)
    (hcanvas : g.canvas = g'.canvas) : Sim (cursorShowAgain true g) g' := by
  have hagain : cursorShowAgain true g = cursorDraw g := if_pos rfl
  rw [hagain]
  obtain ⟨hdrawn, hover, hx, hy, hs⟩ := cursorDraw_spec g
  refine ⟨hno, ?_, ?_⟩
  · intro hhid
    rw [hs, hshown] at hhid
    cases hhid
  · intro _
    rw [hdrawn, hx, hy, ← hcanvas]
    exact ⟨rfl, hover⟩

/-- Drawing beside the cursor leaves it standing. -/
theorem Sim.beside {g g' : State} (h : Sim g g') {draw : Canvas → Canvas}
    (hlocal : g.curShown = true → Local (InCursor g.curX g.curY) draw) :
    Sim { g with canvas := draw g.canvas } { g' with canvas := draw g'.canvas } := by
  refine ⟨h.noCursor, ?_, ?_⟩
  · intro hs
    show draw g.canvas = draw g'.canvas
    rw [h.hidden hs]
  · intro hs
    obtain ⟨hcanvas, hover⟩ := h.shown hs
    have hloc := hlocal hs
    have hagree : Agree (InCursor g.curX g.curY) g.canvas g'.canvas :=
      ⟨h.rest, fun p hp => hover.outside p fun hin => hp hin.2⟩
    have hafter := hloc.agree _ _ hagree
    have hscreen : ∀ p, onScreen (draw g'.canvas) p ↔ onScreen g'.canvas p := by
      intro p
      unfold onScreen
      rw [(hloc.size g'.canvas).1, (hloc.size g'.canvas).2]
    refine ⟨?_, hafter.canvas, ?_, ?_⟩
    · have hfb : (draw g.canvas).fb = overlay (draw g'.canvas) g.curX g.curY := by
        funext p
        unfold overlay
        simp only [hscreen]
        by_cases hp : InCursor g.curX g.curY p
        · rw [hloc.frame _ p hp, hloc.frame _ p hp, hcanvas]
          rfl
        · rw [if_neg fun hin => hp hin.2]
          exact hafter.fb p hp
      rw [← hfb]
      exact hafter.canvas
    · intro p hp
      rw [hscreen] at hp
      by_cases hin : InCursor g.curX g.curY p
      · show (draw g.canvas).fb p = (draw g'.canvas).fb p
        rw [hloc.frame _ p hin, hloc.frame _ p hin]
        exact hover.outside p hp
      · exact hafter.fb p hin
    · intro cell hcell
      have hcell' : cell ∈ g.shownCells cells := by
        obtain ⟨hmem, hon⟩ := List.mem_filter.mp hcell
        have hon' : onScreen (draw g.canvas) (g.cellPos cell) := of_decide_eq_true hon
        unfold onScreen at hon'
        rw [(hloc.size g.canvas).1, (hloc.size g.canvas).2] at hon'
        exact List.mem_filter.mpr ⟨hmem, decide_eq_true hon'⟩
      have hin := ((mem_shownCells_iff g (g.cellPos cell)).mp ⟨cell, hcell', rfl⟩).2
      show g.curSaved cell = (draw g'.canvas).fb (g.cellPos cell)
      rw [hloc.frame _ _ hin]
      exact hover.saved cell hcell'

theorem hideOn_noCursor {g : State} (h : g.curShown = false) (id : Int) (r : Rect) :
    hideOn id r g = (false, g) := by
  unfold hideOn cursorHideFor State.meets
  rw [h, Bool.false_and, if_neg Bool.false_ne_true, ite_self]

/-- The cursor is not in the way, or it has made way for the picture under it. -/
theorem Sim.hideOn {g g' : State} (h : Sim g g') (id : Int) (r : Rect) :
    (hideOn id r g = (false, g) ∧ (id = 0 → g.meets r = false)) ∨
      (hideOn id r g = (true, { g with canvas := g'.canvas }) ∧ g.curShown = true) := by
  unfold Gfx.hideOn cursorHideFor
  by_cases hid : id = 0
  · rw [if_pos hid]
    cases hm : g.meets r with
    | false => exact Or.inl ⟨rfl, fun _ => rfl⟩
    | true =>
        have hshown : g.curShown = true := by
          unfold State.meets at hm
          rw [Bool.and_eq_true] at hm
          exact hm.1
        rw [if_pos rfl, (h.shown hshown).2.cursorRestore]
        exact Or.inr ⟨rfl, hshown⟩
  · rw [if_neg hid]
    exact Or.inl ⟨rfl, fun h0 => absurd h0 hid⟩

/-- Making way a second time changes nothing. -/
theorem Over.hideOn_again {g : State} {k : Canvas} (h : Over g k) (id : Int) (r : Rect) :
    ∃ hid, hideOn id r { g with canvas := k } = (hid, { g with canvas := k }) := by
  have hagain : Over { g with canvas := k } k := by
    refine ⟨rfl, fun _ _ => rfl, ?_⟩
    intro cell hcell
    apply h.saved cell
    obtain ⟨hmem, hon⟩ := List.mem_filter.mp hcell
    have hon' : onScreen g.canvas (g.cellPos cell) := by
      rw [h.canvas]
      exact of_decide_eq_true hon
    exact List.mem_filter.mpr ⟨hmem, decide_eq_true hon'⟩
  unfold hideOn cursorHideFor
  split_ifs
  · exact ⟨true, by rw [hagain.cursorRestore]⟩
  · exact ⟨false, rfl⟩
  · exact ⟨false, rfl⟩

/-- The whole of an operation on surface `id`: the cursor is hidden, or the drawing keeps beside it. -/
theorem Sim.draw {g g' : State} (h : Sim g g') {id : Int} {r : Rect} {draw : Canvas → Canvas}
    (hlocal : g.curShown = true → (id = 0 → g.meets r = false) → Local (InCursor g.curX g.curY) draw) :
    Sim (drawOn id r draw g) (drawOn id r draw g') := by
  unfold drawOn
  rw [hideOn_noCursor h.noCursor]
  rcases h.hideOn id r with ⟨heq, hmeets⟩ | ⟨heq, hshown⟩
  · rw [heq]
    exact h.beside fun hs => hlocal hs hmeets
  · rw [heq]
    exact sim_showAgain h.noCursor hshown rfl

/-! ### The operations -/

inductive Op
  | setPixel (x y : Nat) (color : Color)
  | fillRectOn (id : Int) (r : Rect) (color : Color)
  | blitBitsOn (id x y : Int) (bits : Nat → UInt8) (w h stride scale : Nat) (fg : Color) (bg : Int)
  | copyRectOn (id : Int) (sx sy w h dx dy : Nat)
  | present (id sx sy w h dx dy : Int)
  | fillOwned (id : Int) (r : Rect) (color : Color)
  | blitPixelsOn (id x y : Int) (px : Int → UInt8) (w h stride key : Int)
  | blitSurface (src sx sy w h dst dx dy scale : Int)
  | own (id : Int) (r : Rect)
  | surfaceNew (granted : Bool) (w h : Nat)
  | surfaceFree (id : Int)
  | cursor (x y : Int) (shown : Bool)

def Op.step : Op → State → State
  | .setPixel x y color => gfxSetPixel x y color
  | .fillRectOn id r color => gfxFillRectOn id r color
  | .blitBitsOn id x y bits w h stride scale fg bg => gfxBlitBitsOn id x y bits w h stride scale fg bg
  | .copyRectOn id sx sy w h dx dy => gfxCopyRectOn id sx sy w h dx dy
  | .present id sx sy w h dx dy => gfxPresent id sx sy w h dx dy
  | .fillOwned id r color => gfxFillOwned id r color
  | .blitPixelsOn id x y px w h stride key => gfxBlitPixelsOn id x y px w h stride key
  | .blitSurface src sx sy w h dst dx dy scale => gfxBlitSurface src sx sy w h dst dx dy scale
  | .own id r => gfxOwn id r
  | .surfaceNew granted w h => fun g => (gfxSurfaceNew granted w h g).2
  | .surfaceFree id => gfxSurfaceFree id
  | .cursor x y shown => gfxCursor x y shown

def Op.isCursor : Op → Bool
  | .cursor .. => true
  | _ => false

def run (g : State) (ops : List Op) : State := ops.foldl (fun g op => op.step g) g

/-- No copy from the screen, to another surface, of a part that the cursor is on. -/
def CursorClear (g : State) : Op → Prop
  | .blitSurface src sx sy w h dst _ _ scale =>
      src = 0 → dst ≠ 0 → g.canvas.target dst ≠ none → 1 ≤ scale →
        ∀ s, clip ⟨sx, sy, w, h⟩ g.canvas.w g.canvas.h = some s → g.meets s = false
  | _ => True

/-- Every operation of the run meets `P` in the state before it. -/
def Along (P : State → Op → Prop) : State → List Op → Prop
  | _, [] => True
  | g, op :: ops => P g op ∧ Along P (op.step g) ops

/-- `g` shows what `g'` shows, with the arrow over it. -/
structure Invisible (g g' : State) : Prop where
  surfaces : g.canvas.surfaces = g'.canvas.surfaces
  owner : g.canvas.owner = g'.canvas.owner
  hidden : g.curShown = false → g.canvas.fb = g'.canvas.fb
  shown : g.curShown = true → g.canvas.fb = overlay g'.canvas g.curX g.curY

def Rect.Mem (r : Rect) (p : Pos) : Prop := r.x ≤ p.1 ∧ p.1 < r.x + r.w ∧ r.y ≤ p.2 ∧ p.2 < r.y + r.h

instance (r : Rect) (p : Pos) : Decidable (r.Mem p) := inferInstanceAs (Decidable (_ ∧ _))

theorem not_inCursor_of_mem {g : State} {r : Rect} (hshown : g.curShown = true) (h : g.meets r = false)
    {p : Pos} (hp : r.Mem p) : ¬ InCursor g.curX g.curY p := by
  unfold State.meets at h
  rw [hshown, Bool.true_and] at h
  simp only [Bool.not_eq_false', Bool.or_eq_true, decide_eq_true_eq] at h
  unfold Rect.Mem at hp
  unfold InCursor
  omega

section Operations

variable {g g' : State}

/-- Drawing on `id` that stays inside `r` and reads no pixel of the screen. -/
theorem Sim.inside (h : Sim g g') {id : Int} {r : Rect} {draw : Canvas → Canvas}
    (hdraw : ∀ C, (id = 0 → ∀ p, r.Mem p → ¬ C p) → Local C draw) :
    Sim (drawOn id r draw g) (drawOn id r draw g') := by
  apply h.draw
  intro hshown hmeets
  apply hdraw
  intro hid p hp
  exact not_inCursor_of_mem hshown (hmeets hid) hp

theorem Sim.target (h : Sim g g') (id : Int) : g.canvas.target id = g'.canvas.target id := by
  rw [h.rest]
  rfl

theorem Sim.owner (h : Sim g g') : g.canvas.owner = g'.canvas.owner := by rw [h.rest]

theorem Sim.width (h : Sim g g') : g.canvas.w = g'.canvas.w := by rw [h.rest]

theorem Sim.height (h : Sim g g') : g.canvas.h = g'.canvas.h := by rw [h.rest]

theorem Sim.fillRectOn (h : Sim g g') (id : Int) (r : Rect) (color : Color) :
    Sim (gfxFillRectOn id r color g) (gfxFillRectOn id r color g') := by
  unfold gfxFillRectOn
  rw [h.target]
  split
  · exact h
  · split
    · exact h
    · apply h.inside
      intro C hC
      refine Local.loop fun row hlo hhi => Local.loop fun col hlo' hhi' => local_put ?_ color
      intro hid
      apply hC hid
      exact ⟨by simp only; omega, by simp only; omega, hlo, hhi⟩

theorem Sim.setPixel (h : Sim g g') (x y : Nat) (color : Color) :
    Sim (gfxSetPixel x y color g) (gfxSetPixel x y color g') := by
  unfold gfxSetPixel
  rw [h.width, h.height]
  split
  · exact h
  · apply h.inside
    intro C hC
    apply local_put
    intro _
    apply hC rfl
    exact ⟨Int.le_refl _, by simp only; omega, Int.le_refl _, by simp only; omega⟩

/-- A square of `scale` pixels in a block of them. -/
theorem scaled_bounds {c n scale w : Int} (hc : 0 ≤ c) (hcw : c < w) (hn : 0 ≤ n) (hns : n < scale) :
    0 ≤ c * scale + n ∧ c * scale + n < w * scale := by
  have hscale : 0 ≤ scale := by omega
  have hlo := Int.mul_nonneg hc hscale
  have hhi : (c + 1) * scale ≤ w * scale := Int.mul_le_mul_of_nonneg_right hcw hscale
  rw [Int.add_mul, Int.one_mul] at hhi
  omega

theorem Sim.blitBitsOn (h : Sim g g') (id x y : Int) (bits : Nat → UInt8) (w h' stride scale : Nat)
    (fg : Color) (bg : Int) : Sim (gfxBlitBitsOn id x y bits w h' stride scale fg bg g)
      (gfxBlitBitsOn id x y bits w h' stride scale fg bg g') := by
  unfold gfxBlitBitsOn
  rw [h.target]
  split
  · exact h
  · split
    · exact h
    · apply h.inside
      intro C hC
      refine Local.loop fun r hr hr' => Local.loop fun sy hsy hsy' => Local.cond (fun _ => local_id) fun _ => ?_
      refine Local.loop fun c hc hc' => Local.cond (fun _ => local_id) fun _ => ?_
      refine Local.loop fun sx hsx hsx' => Local.cond (fun _ => local_put ?_ _) fun _ => local_id
      intro hid
      apply hC hid
      have hx := scaled_bounds hc hc' hsx hsx'
      have hy := scaled_bounds hr hr' hsy hsy'
      exact ⟨by simp only; omega, by simp only; omega, by simp only; omega, by simp only; omega⟩

theorem local_moveRow {C : Pos → Prop} {id sx sy dx dy : Int} {w : Nat}
    (hsrc : id = 0 → ∀ i, 0 ≤ i → i < (w : Int) → ¬ C (sx + i, sy))
    (hdst : id = 0 → ∀ i, 0 ≤ i → i < (w : Int) → ¬ C (dx + i, dy)) :
    Local C (moveRow id sx sy dx dy w) := by
  unfold moveRow
  refine Local.read (f := fun (row : List Color) => forRange 0 w fun i =>
    Canvas.put id (dx + i, dy) (row.getD i.toNat 0)) ?_ ?_
  · intro k k' hk
    apply List.map_congr_left
    intro i hi
    apply hk.get
    intro hid
    exact hsrc hid i (Int.natCast_nonneg i) (Int.ofNat_lt.mpr (List.mem_range.mp hi))
  · intro row
    exact Local.loop fun i hlo hhi => local_put (fun hid => hdst hid i hlo hhi) _

theorem Sim.copyRectOn (h : Sim g g') (id : Int) (sx sy w h' dx dy : Nat) :
    Sim (gfxCopyRectOn id sx sy w h' dx dy g) (gfxCopyRectOn id sx sy w h' dx dy g') := by
  unfold gfxCopyRectOn
  rw [h.target]
  split
  · exact h
  · split
    · exact h
    · rename_i tw th _ _
      simp only
      generalize (if max sx dx + w > tw then tw - max sx dx else w) = w
      generalize (if max sy dy + h' > th then th - max sy dy else h') = h'
      rw [hideOn_noCursor h.noCursor, hideOn_noCursor h.noCursor]
      rcases h.hideOn id ⟨sx, sy, w, h'⟩ with ⟨hsrc, hsrc'⟩ | ⟨hsrc, hshown⟩
      · rw [hsrc]
        rcases h.hideOn id ⟨dx, dy, w, h'⟩ with ⟨hdst, hdst'⟩ | ⟨hdst, hshown⟩
        · rw [hdst]
          apply h.beside
          intro hs
          refine Local.loop fun i hi hi' => ?_
          have hrow : 0 ≤ (if dy > sy then (h' : Int) - 1 - i else i) ∧
              (if dy > sy then (h' : Int) - 1 - i else i) < h' := by
            split_ifs <;> omega
          refine local_moveRow ?_ ?_
          · intro hid c hc hc'
            apply not_inCursor_of_mem hs (hsrc' hid)
            exact ⟨by simp only; omega, by simp only; omega, by simp only; omega, by simp only; omega⟩
          · intro hid c hc hc'
            apply not_inCursor_of_mem hs (hdst' hid)
            exact ⟨by simp only; omega, by simp only; omega, by simp only; omega, by simp only; omega⟩
        · rw [hdst]
          exact sim_showAgain h.noCursor hshown rfl
      · rw [hsrc]
        obtain ⟨hid, hdst⟩ := (h.shown hshown).2.hideOn_again id ⟨dx, dy, w, h'⟩
        simp only [hdst, Bool.true_or]
        exact sim_showAgain h.noCursor hshown rfl

theorem Sim.present (h : Sim g g') (id sx sy w h' dx dy : Int) :
    Sim (gfxPresent id sx sy w h' dx dy g) (gfxPresent id sx sy w h' dx dy g') := by
  unfold gfxPresent
  rw [h.target, h.owner, h.width, h.height]
  split
  · split
    · exact h
    · split
      · exact h
      · simp only
        split
        · exact h
        · rename_i hid _ s _ _ d _
          apply h.inside
          intro C hC
          refine Local.loop fun r hr hr' => Local.loop fun c hc hc' => ?_
          refine Local.read (f := fun own k => if own = some id then
            k.put 0 (d.x + c, d.y + r) (k.get id _) else k) ?_ ?_
          · intro k k' hk
            rw [hk.owner]
          · intro own
            refine Local.cond (fun _ => ?_) fun _ => local_id
            refine Local.read (f := fun v => Canvas.put 0 (d.x + c, d.y + r) v) ?_ ?_
            · intro k k' hk
              exact hk.get fun h0 => absurd h0 hid
            · intro v
              apply local_put
              intro _
              apply hC rfl
              exact ⟨by simp only; omega, by simp only; omega, by simp only; omega, by simp only; omega⟩
  · exact h

theorem Sim.fillOwned (h : Sim g g') (id : Int) (r : Rect) (color : Color) :
    Sim (gfxFillOwned id r color g) (gfxFillOwned id r color g') := by
  unfold gfxFillOwned
  rw [h.owner, h.width, h.height]
  split
  · exact h
  · split
    · exact h
    · apply h.inside
      intro C hC
      refine Local.loop fun row hrow hrow' => Local.loop fun c hc hc' => ?_
      refine Local.read (f := fun own k => if own = some id then k.put 0 (c, row) color else k) ?_ ?_
      · intro k k' hk
        rw [hk.owner]
      · intro own
        refine Local.cond (fun _ => local_put ?_ color) fun _ => local_id
        intro _
        apply hC rfl
        exact ⟨hc, hc', hrow, hrow'⟩

theorem Sim.blitPixelsOn (h : Sim g g') (id x y : Int) (px : Int → UInt8) (w h' stride key : Int) :
    Sim (gfxBlitPixelsOn id x y px w h' stride key g) (gfxBlitPixelsOn id x y px w h' stride key g') := by
  unfold gfxBlitPixelsOn
  rw [h.target]
  split
  · exact h
  · split
    · exact h
    · apply h.inside
      intro C hC
      refine Local.loop fun row hrow hrow' => Local.loop fun c hc hc' => ?_
      refine Local.cond (fun _ => local_put ?_ _) fun _ => local_id
      intro hid
      apply hC hid
      exact ⟨by simp only; omega, by simp only; omega, by simp only; omega, by simp only; omega⟩

theorem Sim.blitSurface (h : Sim g g') {src sx sy w h' dst dx dy scale : Int}
    (hclear : CursorClear g (.blitSurface src sx sy w h' dst dx dy scale)) :
    Sim (gfxBlitSurface src sx sy w h' dst dx dy scale g) (gfxBlitSurface src sx sy w h' dst dx dy scale g') := by
  unfold gfxBlitSurface
  rw [h.target, h.target]
  split
  · rename_i sw sh dw dh htsrc htdst
    split
    · exact h
    · rename_i hargs
      rw [not_or, Int.not_lt] at hargs
      split
      · exact h
      · rename_i s hclip
        apply h.draw
        intro hshown hmeets
        -- a source on the screen is beside the cursor, and so is a destination there
        have hsrc : src = 0 → ∀ p, s.Mem p → ¬ InCursor g.curX g.curY p := by
          intro hsrc p hp
          have hdst : dst ≠ 0 := fun hdst => hargs.1 (hsrc.trans hdst.symm)
          have htarget : g.canvas.target dst ≠ none := by
            rw [h.target, htdst]
            exact Option.some_ne_none _
          refine not_inCursor_of_mem hshown (hclear hsrc hdst htarget hargs.2 s ?_) hp
          rw [hsrc] at htsrc
          cases htsrc
          rw [h.width, h.height]
          exact hclip
        have hdst : dst = 0 → ∀ c n r m, 0 ≤ c → c < s.w → 0 ≤ n → n < scale → 0 ≤ r → r < s.h → 0 ≤ m →
            m < scale → ¬ InCursor g.curX g.curY (dx + c * scale + n, dy + r * scale + m) := by
          intro hdst c n r m hc hc' hn hn' hr hr' hm hm'
          apply not_inCursor_of_mem hshown (hmeets hdst)
          have hx := scaled_bounds hc hc' hn hn'
          have hy := scaled_bounds hr hr' hm hm'
          exact ⟨by simp only; omega, by simp only; omega, by simp only; omega, by simp only; omega⟩
        refine Local.loop fun r hr hr' => Local.loop fun m hm hm' => Local.cond (fun _ => local_id) fun _ => ?_
        refine Local.cond (fun hone => ?_) fun _ => ?_
        · refine Local.loop fun c hc hc' => ?_
          have hlo : 0 ≤ c := by
            split_ifs at hc <;> omega
          have hhi : c < s.w := by
            split_ifs at hc' <;> omega
          refine Local.read (f := fun v => Canvas.put dst (dx + c, dy + r * scale + m) v) ?_ ?_
          · intro k k' hk
            apply hk.get
            intro h0
            exact hsrc h0 _ ⟨by simp only; omega, by simp only; omega, by simp only; omega, by simp only; omega⟩
          · intro v
            apply local_put
            intro h0
            have hpix := hdst h0 c 0 r m hlo hhi (Int.le_refl 0) (by omega) hr hr' hm hm'
            rwa [hone, Int.mul_one, Int.add_zero, ← hone] at hpix
        · refine Local.loop fun c hc hc' => ?_
          refine Local.read (f := fun v => forRange 0 scale fun n k =>
            if dx + c * scale + n ≥ 0 ∧ dx + c * scale + n < dw then
              k.put dst (dx + c * scale + n, dy + r * scale + m) v else k) ?_ ?_
          · intro k k' hk
            apply hk.get
            intro h0
            exact hsrc h0 _ ⟨by simp only; omega, by simp only; omega, by simp only; omega, by simp only; omega⟩
          · intro v
            refine Local.loop fun n hn hn' => Local.cond (fun _ => local_put ?_ v) fun _ => local_id
            intro h0
            exact hdst h0 c n r m hc hc' hn hn' hr hr' hm hm'
  · exact h

theorem Sim.own (h : Sim g g') (id : Int) (r : Rect) : Sim (gfxOwn id r g) (gfxOwn id r g') := by
  apply h.beside
  intro _
  apply local_of_fb
  · rintro ⟨_, w, h', _, owner⟩ fb
    unfold Canvas.own
    cases owner with
    | none => rfl
    | some own =>
        simp only
        split_ifs
        · rfl
        · cases clip r w h' <;> rfl
  · intro k
    unfold Canvas.own
    split
    · exact ⟨rfl, rfl⟩
    · split_ifs
      · exact ⟨rfl, rfl⟩
      · split <;> exact ⟨rfl, rfl⟩

theorem Sim.surfaceNew (h : Sim g g') (granted : Bool) (w h' : Nat) :
    Sim (gfxSurfaceNew granted w h' g).2 (gfxSurfaceNew granted w h' g').2 := by
  have hlocal : ∀ C, Local C fun k => (k.surfaceNew granted w h').2 := by
    intro C
    apply local_of_fb
    · intro k fb
      unfold Canvas.surfaceNew
      simp only
      split_ifs
      · rfl
      · cases (List.range gfxSurfaces.toNat).find? fun (i : Nat) => 1 ≤ i && (k.surfaces i).isNone <;> rfl
      · cases (List.range gfxSurfaces.toNat).find? fun (i : Nat) => 1 ≤ i && (k.surfaces i).isNone <;> rfl
    · intro k
      unfold Canvas.surfaceNew
      split_ifs
      · exact ⟨rfl, rfl⟩
      · split <;> exact ⟨rfl, rfl⟩
      · split <;> exact ⟨rfl, rfl⟩
  exact h.beside fun _ => hlocal _

theorem Sim.surfaceFree (h : Sim g g') (id : Int) : Sim (gfxSurfaceFree id g) (gfxSurfaceFree id g') := by
  apply h.beside
  intro _
  apply local_of_fb
  · intro k fb
    unfold Canvas.surfaceFree
    simp only
    split_ifs <;> rfl
  · intro k
    unfold Canvas.surfaceFree
    split_ifs <;> exact ⟨rfl, rfl⟩

theorem Sim.cursor (h : Sim g g') (x y : Int) (shown : Bool) : Sim (gfxCursor x y shown g) g' := by
  have hrestored : (if g.curShown then cursorRestore g else g) = { g with canvas := g'.canvas } := by
    by_cases hs : g.curShown = true
    · rw [if_pos hs, (h.shown hs).2.cursorRestore]
    · rw [if_neg hs, ← h.hidden (Bool.eq_false_iff.mpr hs)]
  unfold gfxCursor
  rw [hrestored]
  cases shown with
  | false =>
      refine ⟨h.noCursor, fun _ => rfl, ?_⟩
      intro hs
      cases hs
  | true => exact sim_showAgain h.noCursor rfl rfl

theorem Sim.step (h : Sim g g') {op : Op} (hclear : CursorClear g op) :
    Sim (op.step g) (if op.isCursor then g' else op.step g') := by
  cases op with
  | setPixel x y color => exact h.setPixel x y color
  | fillRectOn id r color => exact h.fillRectOn id r color
  | blitBitsOn id x y bits w h' stride scale fg bg => exact h.blitBitsOn id x y bits w h' stride scale fg bg
  | copyRectOn id sx sy w h' dx dy => exact h.copyRectOn id sx sy w h' dx dy
  | present id sx sy w h' dx dy => exact h.present id sx sy w h' dx dy
  | fillOwned id r color => exact h.fillOwned id r color
  | blitPixelsOn id x y px w h' stride key => exact h.blitPixelsOn id x y px w h' stride key
  | blitSurface src sx sy w h' dst dx dy scale => exact h.blitSurface hclear
  | own id r => exact h.own id r
  | surfaceNew granted w h' => exact h.surfaceNew granted w h'
  | surfaceFree id => exact h.surfaceFree id
  | cursor x y shown => exact h.cursor x y shown

end Operations

/-! ### Whole runs -/

theorem Sim.run {g g' : State} (h : Sim g g') {ops : List Op} (hops : Along CursorClear g ops) :
    Sim (run g ops) (run g' (ops.filter fun op => !op.isCursor)) := by
  induction ops generalizing g g' with
  | nil => exact h
  | cons op ops ih =>
      have hrest := ih (h.step hops.1) hops.2
      rw [List.filter_cons]
      cases hc : op.isCursor with
      | true =>
          rw [hc, if_pos rfl] at hrest
          exact hrest
      | false =>
          rw [hc, if_neg Bool.false_ne_true] at hrest
          exact hrest

theorem Sim.invisible {g g' : State} (h : Sim g g') : Invisible g g' := by
  refine ⟨?_, h.owner, ?_, ?_⟩
  · rw [h.rest]
  · intro hs
    rw [h.hidden hs]
  · intro hs
    rw [(h.shown hs).1]

/-- While nothing is copied to a surface from under the cursor, cursor calls leave no trace: the
surfaces, the owner map and the picture under the arrow are those of the run without them. -/
theorem cursor_invisible {g : State} (hg : g.curShown = false) (ops : List Op)
    (hops : Along CursorClear g ops) : Invisible (run g ops) (run g (ops.filter fun op => !op.isCursor)) := by
  have hstart : Sim g g := by
    refine ⟨hg, fun _ => rfl, ?_⟩
    intro hs
    rw [hg] at hs
    cases hs
  exact (hstart.run hops).invisible

/-- A screen of one pixel after `gfx_init`. -/
def onePixel : State := ⟨⟨fun _ => 0, 1, 1, fun _ => none, some fun _ => 0⟩, 0, 0, false, fun _ => 0⟩

theorem cursor_invisible_set_pixel :
    Invisible (run onePixel [.cursor (-3) 0 true, .setPixel 0 0 0x123456, .cursor 0 0 true])
      (run onePixel [.setPixel 0 0 0x123456]) :=
  cursor_invisible (g := onePixel) rfl [.cursor (-3) 0 true, .setPixel 0 0 0x123456, .cursor 0 0 true]
    ⟨trivial, trivial, trivial, trivial⟩

/-- A copy of the screen to a surface takes the arrow with it. -/
theorem not_invisible_copied_arrow :
    ¬ Invisible
      (run onePixel [.setPixel 0 0 0x123456, .surfaceNew true 1 1, .cursor 0 0 true,
        .blitSurface 0 0 0 1 1 1 0 0 1])
      (run onePixel [.setPixel 0 0 0x123456, .surfaceNew true 1 1, .blitSurface 0 0 0 1 1 1 0 0 1]) := by
  intro h
  have hpixel := congrArg (fun s => (s 1).map fun t => t.px (0, 0)) h.surfaces
  revert hpixel
  decide +kernel

end Beeros.Gfx
