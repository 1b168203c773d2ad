import Beeros.GfxDraw
import Beeros.TermGood

/-! The drawing operations of a terminal: none of them throws, and the pixels they draw are those of the
cells they change. What holds of the pixels is said of a terminal that lies inside its surface. -/

namespace Beeros.Term

open Beerlang Gfx

namespace State

/-- The pixels of `cols` columns and `rows` rows from `(col, row)` on. -/
def region (st : State) (col row cols rows : Nat) : Rect :=
  ⟨st.x + col * st.cw, st.y + row * st.ch, cols * st.cw, rows * st.ch⟩

/-- The terminal's rectangle. -/
def rect (st : State) : Rect := st.region 0 0 st.cols st.rows

/-- The bytes of the glyph of `c`. -/
def bits (st : State) (c : Char) (i : Nat) : UInt8 := st.font.bytes (st.font.offset (st.font.glyph c.toNat) + i)

/-- The colour that a cell at `(col, row)` gives to a pixel. -/
def cellColor (st : State) (col row : Nat) (cell : Cell) (inverse : Bool) : Pos → Color :=
  bitmapColor (st.x + col * st.cw) (st.y + row * st.ch) (st.bits cell.char) st.font.stride st.scale
    (.ofInt (if inverse then cell.bg else cell.fg)) (.ofInt (if inverse then cell.fg else cell.bg))

def ShowsCell (st : State) (g : Gfx.State) (col row : Nat) (cell : Cell) (inverse : Bool) : Prop :=
  ∀ p, (st.region col row 1 1).Mem p → g.canvas.get st.surf p = st.cellColor col row cell inverse p

/-- The pixels show the cells in `q`. -/
def ShowsOn (st : State) (q : Nat → Nat → Prop) (g : Gfx.State) : Prop :=
  ∀ row col cell, q row col → Grid.cell? st.cells row col = some cell → st.ShowsCell g col row cell false

/-- The pixels show every cell, the one under the drawn cursor with its colours exchanged. -/
def Shows (st : State) (g : Gfx.State) : Prop :=
  ∀ row col cell, Grid.cell? st.cells row col = some cell →
    st.ShowsCell g col row cell (st.drawnCursor = some (col, row))

/-- The terminal lies inside its surface, the mouse cursor is not over it, and a space has no set bits. -/
structure Placed (st : State) (g : Gfx.State) : Prop where
  free : Free g st.surf st.rect
  space : ∀ r c, r < st.font.height → c < st.font.width → bitAt (st.bits ' ') st.font.stride r c = false

/-- Only pixels of the terminal were drawn. -/
structure Kept (st : State) (g g' : Gfx.State) : Prop where
  beside : Beside st.surf g.canvas g'.canvas
  outside : ∀ p, ¬ st.rect.Mem p → g'.canvas.get st.surf p = g.canvas.get st.surf p
  meets : ∀ r, g'.meets r = g.meets r

theorem Kept.refl (st : State) (g : Gfx.State) : Kept st g g := ⟨.refl _ _, fun _ _ => rfl, fun _ => rfl⟩

theorem SameScreen.region {st st' : State} (h : SameScreen st st') : st'.region = st.region := by
  unfold State.region cw ch
  rw [h.x, h.y, h.font, h.scale]

theorem SameScreen.rect {st st' : State} (h : SameScreen st st') : st'.rect = st.rect := by
  unfold State.rect
  rw [h.region, h.cols, h.rows]

theorem SameScreen.cellColor {st st' : State} (h : SameScreen st st') : st'.cellColor = st.cellColor := by
  unfold State.cellColor bits cw ch
  rw [h.x, h.y, h.font, h.scale]

theorem SameScreen.showsCell {st st' : State} (h : SameScreen st st') : st'.ShowsCell = st.ShowsCell := by
  unfold ShowsCell
  rw [h.region, h.cellColor, h.surf]

theorem SameScreen.showsOn {st st' : State} (h : SameScreen st st') (hc : st'.cells = st.cells) :
    st'.ShowsOn = st.ShowsOn := by
  unfold ShowsOn
  rw [hc, h.showsCell]

theorem Kept.trans {st st' : State} {g g' g'' : Gfx.State} (h : Kept st g g') (hs : SameScreen st st')
    (h' : Kept st' g' g'') : Kept st g g'' := by
  obtain ⟨hb, ho, hm⟩ := h'
  rw [hs.surf] at hb ho
  rw [hs.rect] at ho
  exact ⟨h.beside.trans hb, fun p hp => (ho p hp).trans (h.outside p hp), fun r => (hm r).trans (h.meets r)⟩

theorem Placed.kept {st st' : State} {g g' : Gfx.State} (h : Placed st g) (hs : SameScreen st st')
    (hk : Kept st g g') : Placed st' g' := by
  constructor
  · rw [hs.surf, hs.rect]
    refine ⟨?_, fun h0 => (hk.meets _).trans (h.free.cursor h0)⟩
    rw [hk.beside.target]
    exact h.free.size
  · unfold bits
    rw [hs.font]
    exact h.space

end State

open State

variable {st st' st'' : State} {g g' : Gfx.State} {col row c₀ r₀ m n : Nat} {p : Pos} {q q' : Nat → Nat → Prop}

/-! ### Regions -/

/-- A pixel of column `k` is in the columns from `c` to `c + m` if `k` is. -/
theorem mem_columns {k c m w : Nat} {x v : Int} (hlo : x + k * w ≤ v) (hhi : v < x + k * w + (1 : Nat) * w) :
    x + c * w ≤ v ∧ v < x + c * w + m * w ↔ c ≤ k ∧ k < c + m := by
  have hend : x + c * w + m * w = x + (c + m : Nat) * w := by
    rw [Int.natCast_add, Int.add_mul, Int.add_assoc]
  have hnext : x + k * w + (1 : Nat) * w = x + (k + 1 : Nat) * w := by
    rw [Int.natCast_add, Int.add_mul, Int.add_assoc]
  have hmono {i j : Nat} (h : i ≤ j) : (i * w : Int) ≤ j * w :=
    Int.mul_le_mul_of_nonneg_right (Int.ofNat_le.mpr h) (Int.natCast_nonneg w)
  rw [hend]
  rw [hnext] at hhi
  constructor
  · rintro ⟨h₁, h₂⟩
    constructor
    · by_contra hlt
      have := hmono (i := k + 1) (j := c) (by omega)
      omega
    · by_contra hle
      have := hmono (i := c + m) (j := k) (by omega)
      omega
  · rintro ⟨h₁, h₂⟩
    have := hmono h₁
    have := hmono (i := k + 1) (j := c + m) h₂
    omega

theorem mem_region (hp : (st.region col row 1 1).Mem p) :
    (st.region c₀ r₀ m n).Mem p ↔ (c₀ ≤ col ∧ col < c₀ + m) ∧ r₀ ≤ row ∧ row < r₀ + n := by
  obtain ⟨h₁, h₂, h₃, h₄⟩ := hp
  rw [← mem_columns h₁ h₂, ← mem_columns h₃ h₄, and_assoc]
  rfl

theorem region_bounds {k c m w : Nat} {x : Int} (h : c + m ≤ k) :
    x + (0 : Nat) * w ≤ x + c * w ∧ x + c * w + m * w ≤ x + (0 : Nat) * w + k * w := by
  have hend : (c * w : Int) + m * w = (c + m : Nat) * w := by
    rw [Int.natCast_add, Int.add_mul]
  have hle : ((c + m : Nat) * w : Int) ≤ k * w :=
    Int.mul_le_mul_of_nonneg_right (Int.ofNat_le.mpr h) (Int.natCast_nonneg w)
  have h0 : 0 ≤ (c * w : Int) := Int.mul_nonneg (Int.natCast_nonneg c) (Int.natCast_nonneg w)
  omega

theorem free_region (h : Free g st.surf st.rect) (col row m n : Nat) (hc : col + m ≤ st.cols) (hr : row + n ≤ st.rows) :
    Free g st.surf (st.region col row m n) :=
  have hx := region_bounds (w := st.cw) (x := st.x) hc
  have hy := region_bounds (w := st.ch) (x := st.y) hr
  h.sub hx.1 hx.2 hy.1 hy.2

theorem mem_rect_of_region (hc : c₀ + m ≤ st.cols) (hr : r₀ + n ≤ st.rows) (hp : (st.region c₀ r₀ m n).Mem p) :
    st.rect.Mem p := by
  obtain ⟨h₁, h₂, h₃, h₄⟩ := hp
  have hx := region_bounds (w := st.cw) (x := st.x) hc
  have hy := region_bounds (w := st.ch) (x := st.y) hr
  exact ⟨Int.le_trans hx.1 h₁, Int.lt_of_lt_of_le h₂ hx.2, Int.le_trans hy.1 h₃, Int.lt_of_lt_of_le h₄ hy.2⟩

/-- What was drawn in a region of the terminal. -/
theorem kept_of_drew {c : Pos → Color} (h : Drew st.surf c (st.region c₀ r₀ m n).Mem g g') (hc : c₀ + m ≤ st.cols)
    (hr : r₀ + n ≤ st.rows) : Kept st g g' :=
  ⟨h.beside, fun p hp => h.kept p (mt (mem_rect_of_region hc hr) hp), h.meets⟩

/-- A cell outside the region is still shown. -/
theorem showsCell_of_drew {c : Pos → Color} {cell : Cell} {inverse : Bool}
    (h : Drew st.surf c (st.region c₀ r₀ m n).Mem g g') (hshow : st.ShowsCell g col row cell inverse)
    (hout : ¬ ((c₀ ≤ col ∧ col < c₀ + m) ∧ r₀ ≤ row ∧ row < r₀ + n)) : st.ShowsCell g' col row cell inverse := by
  intro p hp
  rw [h.kept p (mt (mem_region hp).mp hout)]
  exact hshow p hp

/-! ### Cells -/

theorem cellRect_eq : st.region col row 1 1 =
    ⟨st.x + col * st.cw, st.y + row * st.ch, st.font.width * st.scale, st.font.height * st.scale⟩ := by
  unfold State.region cw ch
  rw [Int.natCast_mul, Int.natCast_mul, Int.ofNat_one, Int.one_mul, Int.one_mul, Int.mul_comm st.scale st.font.width,
    Int.mul_comm st.scale st.font.height]

/-- `drawCell` never throws; it draws the cell's rectangle. -/
theorem drew_drawCell (st : State) (col row : Nat) (cell : Cell) (inverse : Bool) (g : Gfx.State) :
    ∃ g', drawCell st col row cell inverse g = .ok ((), g') ∧
      (Placed st g → st.Within (col, row) → 0 ≤ cell.fg ∧ 0 ≤ cell.bg →
        Drew st.surf (st.cellColor col row cell inverse) (st.region col row 1 1).Mem g g') := by
  refine ⟨_, rfl, fun hg hin hc => ?_⟩
  have hfree := free_region hg.free col row 1 1 (Nat.succ_le_of_lt hin.1) (Nat.succ_le_of_lt hin.2)
  have hbg : 0 ≤ if inverse then cell.fg else cell.bg := by
    split_ifs
    · exact hc.1
    · exact hc.2
  rw [cellRect_eq] at hfree ⊢
  exact drew_blitBitsOn hbg hfree

/-- A cell that was just drawn shows itself. -/
theorem showsCell_self {cell : Cell} {inverse : Bool}
    (h : Drew st.surf (st.cellColor col row cell inverse) (st.region col row 1 1).Mem g g') :
    st.ShowsCell g' col row cell inverse := h.drawn

/-- A blank cell is a rectangle of its background. -/
theorem cellColor_blank (hg : Placed st g) {cell : Cell} (hchar : cell.char = ' ')
    (hp : (st.region col row 1 1).Mem p) : st.cellColor col row cell false p = .ofInt cell.bg := by
  rw [cellRect_eq] at hp
  obtain ⟨h₁, h₂, h₃, h₄⟩ := hp
  dsimp only at h₁ h₂ h₃ h₄
  have hindex {w : Nat} {x v : Int} (hlo : x ≤ v) (hhi : v < x + w * st.scale) : ((v - x) / st.scale).toNat < w := by
    have hs : (0 : Int) < st.scale := by
      by_contra hs
      have : (st.scale : Int) = 0 := by omega
      rw [this, Int.mul_zero] at hhi
      omega
    have := Int.ediv_lt_of_lt_mul hs (a := v - x) (b := w) (by omega)
    have := Int.ediv_nonneg (a := v - x) (b := st.scale) (by omega) (by omega)
    omega
  unfold State.cellColor bitmapColor
  rw [hchar, hg.space _ _ (hindex h₃ h₄) (hindex h₁ h₂)]
  rfl

/-! ### Steps -/

theorem draw_bind {α β : Type} {d : Draw α} {k : α → Draw β} {a : α} (h : d g = .ok (a, g')) :
    (d >>= k) g = k a g' := by
  show (d g >>= _) = _
  rw [h]
  rfl

/-- A value that is there. -/
theorem lift_bind {α β : Type} {e : Except Error α} {a : α} (h : e = .ok a) (k : α → Draw β) :
    ((liftM e : Draw α) >>= k) = k a := by
  rw [h]
  rfl

/-- From `st` the step ends in `st'` whatever the surfaces show; `Q` holds after it if `P` does before. -/
structure Goes (st : State) (P : Gfx.State → Prop) (d : Draw State) (st' : State) (Q : Gfx.State → Prop) : Prop where
  screen : SameScreen st st'
  run : ∀ g, ∃ g', d g = .ok (st', g') ∧ (Placed st g → P g → Kept st g g' ∧ Q g')

variable {P P' Q Q' R : Gfx.State → Prop} {d : Draw State}

theorem goes_pure (hs : SameScreen st st') (h : ∀ g, Placed st g → P g → Q g) : Goes st P (pure st') st' Q :=
  ⟨hs, fun g => ⟨g, rfl, fun hg hP => ⟨.refl st g, h g hg hP⟩⟩⟩

theorem Goes.bind {k : State → Draw State} (h : Goes st P d st' P') (h' : Goes st' P' (k st') st'' Q) :
    Goes st P (d >>= k) st'' Q := by
  refine ⟨h.screen.trans h'.screen, fun g => ?_⟩
  obtain ⟨g₁, hrun₁, hk₁⟩ := h.run g
  obtain ⟨g₂, hrun₂, hk₂⟩ := h'.run g₁
  refine ⟨g₂, (draw_bind hrun₁).trans hrun₂, fun hg hP => ?_⟩
  obtain ⟨hkept, hP'⟩ := hk₁ hg hP
  obtain ⟨hkept', hQ⟩ := hk₂ (hg.kept h.screen hkept) hP'
  exact ⟨hkept.trans h.screen hkept', hQ⟩

/-- A step from a state on the same screen. -/
theorem Goes.from (h : Goes st' P d st'' Q) (hs : SameScreen st st') : Goes st P d st'' Q := by
  refine ⟨hs.trans h.screen, fun g => ?_⟩
  obtain ⟨g', hrun, hk⟩ := h.run g
  refine ⟨g', hrun, fun hg hP => ?_⟩
  obtain ⟨hkept, hQ⟩ := hk (hg.kept hs (.refl st g)) hP
  exact ⟨(Kept.refl st g).trans hs hkept, hQ⟩

theorem Goes.mono (h : Goes st P d st' Q) (hP : ∀ g, P' g → P g) (hQ : ∀ g, Q g → Q' g) : Goes st P' d st' Q' := by
  refine ⟨h.screen, fun g => ?_⟩
  obtain ⟨g', hrun, hk⟩ := h.run g
  exact ⟨g', hrun, fun hg hg' => (hk hg (hP g hg')).imp id (hQ g')⟩

/-- A drawing that comes before a step. -/
theorem Goes.after {u : Draw Unit} {k : Unit → Draw State}
    (hu : ∀ g, ∃ g', u g = .ok ((), g') ∧ (Placed st g → P g → Kept st g g' ∧ R g'))
    (h : Goes st R (k ()) st' Q) : Goes st P (u >>= k) st' Q := by
  refine ⟨h.screen, fun g => ?_⟩
  obtain ⟨g₁, hrun₁, hk₁⟩ := hu g
  obtain ⟨g₂, hrun₂, hk₂⟩ := h.run g₁
  refine ⟨g₂, (draw_bind hrun₁).trans hrun₂, fun hg hP => ?_⟩
  obtain ⟨hkept, hP'⟩ := hk₁ hg hP
  obtain ⟨hkept', hQ⟩ := hk₂ (hg.kept (.refl st) hkept) hP'
  exact ⟨hkept.trans (.refl st) hkept', hQ⟩

theorem State.ShowsOn.mono (h : st.ShowsOn q g) (hq : ∀ row col, q' row col → q row col) : st.ShowsOn q' g :=
  fun row col cell hcell => h row col cell (hq row col hcell)

/-! ### Erasing -/

/-- The state whose cells in `p` are blank. -/
def State.erased (st : State) (p : Nat → Nat → Bool) : State :=
  { st with cells := Grid.paint p st.blankCell st.cells }

theorem State.Good.erased (h : st.Good) (p : Nat → Nat → Bool) : (st.erased p).Good :=
  State.Good.painted h p h.blank.2

theorem goes_eraseCells (h : st.Good) (hr : row < st.rows) (start : Nat) {stop : Nat} (hstop : stop ≤ st.cols)
    (q : Nat → Nat → Prop) :
    Goes st (st.ShowsOn q) (eraseCells st row start stop)
      (st.erased fun r c => r = row ∧ start ≤ c ∧ c < stop)
      ((st.erased fun r c => r = row ∧ start ≤ c ∧ c < stop).ShowsOn fun r c =>
        q r c ∨ r = row ∧ start ≤ c ∧ c < stop) := by
  unfold eraseCells
  by_cases hlt : start ≥ stop
  · have hnone : (st.erased fun r c => r = row ∧ start ≤ c ∧ c < stop) = st := by
      unfold State.erased
      rw [Grid.paint_none fun r c => decide_eq_false (by omega)]
    rw [if_pos hlt, hnone]
    apply goes_pure (.refl st)
    intro g _ hshow
    exact hshow.mono fun r c hq => hq.resolve_right (by omega)
  rw [if_neg hlt, lift_bind h.blank.1]
  have hrect : st.region start row (stop - start) 1 =
      ⟨st.x + start * st.cw, st.y + row * st.ch, (stop - start : Nat) * st.cw, st.ch⟩ := by
    unfold State.region
    rw [Int.ofNat_one, Int.one_mul]
  refine Goes.after (R := (st.erased fun r c => r = row ∧ start ≤ c ∧ c < stop).ShowsOn fun r c =>
    q r c ∨ r = row ∧ start ≤ c ∧ c < stop) (fun g => ⟨_, rfl, fun hg hshow => ?_⟩) ?_
  · rw [← hrect]
    have hdrew := drew_fillRectOn (free_region hg.free start row (stop - start) 1 (by omega) (by omega)) (.ofInt st.blankCell.bg)
    refine ⟨kept_of_drew hdrew (by omega) (by omega), fun r c cell hq hcell => ?_⟩
    change Grid.cell? (Grid.paint _ _ _) r c = _ at hcell
    rw [Grid.cell?_paint] at hcell
    obtain ⟨old, hold, he⟩ := Option.map_eq_some_iff.mp hcell
    by_cases hin : r = row ∧ start ≤ c ∧ c < stop
    · rw [if_pos (decide_eq_true hin)] at he
      intro p hp
      have hmem : (st.region start row (stop - start) 1).Mem p := (mem_region hp).mpr (by omega)
      show _ = st.cellColor c r cell false p
      rw [cellColor_blank hg (by rw [← he]; rfl) hp, ← he]
      exact hdrew.drawn p hmem
    · rw [if_neg (by rw [decide_eq_true_eq]; exact hin)] at he
      rw [← he]
      exact showsCell_of_drew hdrew (hshow r c old (hq.resolve_right hin) hold) (by omega)
  · have hrow : row < st.cells.length := by
      rw [h.shape.length]
      exact hr
    have hlen := h.shape.getD hr
    have hset : st.cells.set row _ = Grid.paint (fun r c => r = row ∧ start ≤ c ∧ c < stop) st.blankCell st.cells :=
      Grid.set_blank h.shape hr (by omega) hstop
    rw [lift_bind (nth_ok [] hrow), lift_bind (subvec_zero (by omega)), lift_bind (subvecFrom_ok (by omega)),
      lift_bind (assocAt_ok hrow _), hset]
    exact goes_pure ⟨rfl, rfl, rfl, rfl, rfl, rfl, rfl⟩ fun _ _ hP => hP

/-- Blanking twice is blanking what either blanks. -/
theorem erased_erased (h : st.Good) {p p' p'' : Nat → Nat → Bool}
    (hp : ∀ r c, r < st.rows → c < st.cols → (p' r c || p r c) = p'' r c) :
    (st.erased p).erased p' = st.erased p'' := by
  show { st with cells := Grid.paint p' st.blankCell (Grid.paint p st.blankCell st.cells) } = _
  rw [Grid.paint_paint, Grid.paint_congr h.shape hp]
  rfl

theorem erased_self (h : st.Good) {p : Nat → Nat → Bool}
    (hp : ∀ r c, r < st.rows → c < st.cols → p r c = true → Grid.cell? st.cells r c = some st.blankCell) :
    st.erased p = st := by
  unfold State.erased
  rw [Grid.paint_self h.shape hp]

theorem goes_eraseRows_aux (h : st.Good) (start n : Nat) (hn : start + n ≤ st.rows) (q : Nat → Nat → Prop) :
    Goes st (st.ShowsOn q)
      ((List.range' start n).foldlM (fun st row => eraseCells st row 0 st.cols) st)
      (st.erased fun r _ => start ≤ r ∧ r < start + n)
      ((st.erased fun r _ => start ≤ r ∧ r < start + n).ShowsOn fun r c => q r c ∨ start ≤ r ∧ r < start + n) := by
  induction n generalizing st start q with
  | zero =>
      have hnone : (st.erased fun r _ => start ≤ r ∧ r < start + 0) = st := by
        unfold State.erased
        rw [Grid.paint_none fun r c => decide_eq_false (by omega)]
      rw [hnone]
      apply goes_pure (.refl st)
      intro g _ hshow
      exact hshow.mono fun r c hq => hq.resolve_right (by omega)
  | succ n ih =>
      have hfirst := goes_eraseCells h (show start < st.rows by omega) 0 (Nat.le_refl st.cols) q
      have hrest := ih (h.erased fun r c => r = start ∧ 0 ≤ c ∧ c < st.cols) (start + 1)
        (by show start + 1 + n ≤ st.rows; omega) fun r c => q r c ∨ r = start ∧ 0 ≤ c ∧ c < st.cols
      have hboth : ((st.erased fun r c => r = start ∧ 0 ≤ c ∧ c < st.cols).erased fun r _ =>
          start + 1 ≤ r ∧ r < start + 1 + n) = st.erased fun r _ => start ≤ r ∧ r < start + (n + 1) := by
        refine erased_erased h fun r c _ hc => ?_
        rw [← Bool.decide_or]
        apply decide_eq_decide.mpr
        omega
      rw [hboth] at hrest
      rw [List.range'_succ, List.foldlM_cons]
      refine (hfirst.bind hrest).mono (fun g hg => hg) fun g hshow r c cell hq hcell => ?_
      have hc := (((h.erased _).shape).of_cell? hcell).2
      change c < st.cols at hc
      refine hshow r c cell ?_ hcell
      rcases hq with hq | hq
      · exact .inl (.inl hq)
      · by_cases hr : r = start
        · exact .inl (.inr ⟨hr, Nat.zero_le c, hc⟩)
        · exact .inr (by omega)

theorem goes_eraseRows (h : st.Good) (start : Nat) {stop : Nat} (hstop : stop ≤ st.rows) (q : Nat → Nat → Prop) :
    Goes st (st.ShowsOn q) (eraseRows st start stop) (st.erased fun r _ => start ≤ r ∧ r < stop)
      ((st.erased fun r _ => start ≤ r ∧ r < stop).ShowsOn fun r c => q r c ∨ start ≤ r ∧ r < stop) := by
  unfold eraseRows
  by_cases hle : start ≤ stop
  · have haux := goes_eraseRows_aux h start (stop - start) (by omega) q
    rw [Nat.add_sub_cancel' hle] at haux
    exact haux
  · have hnone : (st.erased fun r _ => start ≤ r ∧ r < stop) = st := by
      unfold State.erased
      rw [Grid.paint_none fun r c => decide_eq_false (by omega)]
    rw [Nat.sub_eq_zero_of_le (by omega), hnone]
    apply goes_pure (.refl st)
    intro g _ hshow
    exact hshow.mono fun r c hq => hq.resolve_right (by omega)

/-! ### Scrolling -/

/-- `k` rows of pixels move from row `s` to row `d`. -/
theorem drew_copyRows {s d k : Nat} (hs : s + k ≤ st.rows) (hd : d + k ≤ st.rows) (hg : Placed st g) :
    ∃ g', copyRectOn st.surf st.x (st.y + s * st.ch) (st.cols * st.cw) (k * st.ch) st.x (st.y + d * st.ch) g =
        .ok ((), g') ∧
      Drew st.surf (fun p => g.canvas.get st.surf (p.1, p.2 - d * st.ch + s * st.ch)) (st.region 0 d st.cols k).Mem g
        g' := by
  have hfrom := free_region hg.free 0 s st.cols k (by omega) hs
  have hto := free_region hg.free 0 d st.cols k (by omega) hd
  have hregion (r : Nat) : st.region 0 r st.cols k =
      ⟨st.x, st.y + r * st.ch, st.cols * st.cw, k * st.ch⟩ := by
    unfold State.region
    rw [Int.ofNat_zero, Int.zero_mul, Int.add_zero]
  rw [hregion] at hfrom hto ⊢
  obtain ⟨-, -, -, hx, hy, -, -⟩ := hfrom.size
  obtain ⟨-, -, -, -, hy', -, -⟩ := hto.size
  dsimp only at hx hy hy'
  have hw : (0 : Int) ≤ st.cols * st.cw := Int.mul_nonneg (Int.natCast_nonneg _) (Int.natCast_nonneg _)
  have hh : (0 : Int) ≤ k * st.ch := Int.mul_nonneg (Int.natCast_nonneg _) (Int.natCast_nonneg _)
  unfold copyRectOn
  rw [if_neg (by omega)]
  refine ⟨_, rfl, ?_⟩
  obtain ⟨x, hx⟩ := Int.eq_ofNat_of_zero_le hx
  obtain ⟨sy, hsy⟩ := Int.eq_ofNat_of_zero_le hy
  obtain ⟨dy, hdy⟩ := Int.eq_ofNat_of_zero_le hy'
  obtain ⟨w, hw⟩ := Int.eq_ofNat_of_zero_le hw
  obtain ⟨h, hh⟩ := Int.eq_ofNat_of_zero_le hh
  rw [hx, hsy, hw, hh] at hfrom
  rw [hx, hdy, hw, hh] at hto
  have hdrew := drew_copyRectOn hfrom hto
  rw [hx, hsy, hdy, hw, hh, Int.toNat_natCast, Int.toNat_natCast, Int.toNat_natCast, Int.toNat_natCast,
    Int.toNat_natCast]
  have hcol : (fun p : Pos => g.canvas.get st.surf (p.1, p.2 - d * st.ch + s * st.ch)) =
      fun p => g.canvas.get st.surf (p.1 - x + x, p.2 - dy + sy) := by
    funext p
    congr 2
    · omega
    · omega
  rw [hcol]
  exact hdrew

/-- A cell that moves with its pixels is shown at its new place. -/
theorem showsCell_copied {s d : Nat} {cell : Cell} (hshow : st.ShowsCell g col (s + row) cell false)
    (hdrew : ∀ p, (st.region col (d + row) 1 1).Mem p →
      g'.canvas.get st.surf p = g.canvas.get st.surf (p.1, p.2 - d * st.ch + s * st.ch)) :
    st.ShowsCell g' col (d + row) cell false := by
  intro p hp
  rw [hdrew p hp]
  have hy (r : Nat) : st.y + (r + row : Nat) * st.ch = st.y + row * st.ch + r * st.ch := by
    rw [Int.natCast_add, Int.add_mul]
    omega
  have hmem : (st.region col (s + row) 1 1).Mem (p.1, p.2 - d * st.ch + s * st.ch) := by
    obtain ⟨h₁, h₂, h₃, h₄⟩ := hp
    have hd := hy d
    have hs := hy s
    refine ⟨h₁, h₂, ?_, ?_⟩
    · show st.y + (s + row : Nat) * st.ch ≤ p.2 - d * st.ch + s * st.ch
      change st.y + (d + row : Nat) * st.ch ≤ p.2 at h₃
      omega
    · show p.2 - d * st.ch + s * st.ch < st.y + (s + row : Nat) * st.ch + (1 : Nat) * st.ch
      change p.2 < st.y + (d + row : Nat) * st.ch + (1 : Nat) * st.ch at h₄
      omega
  rw [hshow _ hmem]
  unfold State.cellColor bitmapColor
  have hsame : p.2 - d * st.ch + s * st.ch - (st.y + (s + row : Nat) * st.ch) =
      p.2 - (st.y + (d + row : Nat) * st.ch) := by
    rw [hy s, hy d]
    omega
  rw [hsame]

/-- The state whose rows moved up by `n`. -/
def State.scrolledUp (st : State) (n : Nat) : State :=
  { st with cells := Grid.shiftUp n (.replicate st.cols st.blankCell) st.cells }

/-- The state whose rows moved down by `n`. -/
def State.scrolledDown (st : State) (n : Nat) : State :=
  { st with cells := Grid.shiftDown n (.replicate st.cols st.blankCell) st.cells }

theorem State.Good.scrolledUp (h : st.Good) (hn : n ≤ st.rows) : (st.scrolledUp n).Good :=
  h.shiftedUp hn h.blank.2

theorem State.Good.scrolledDown (h : st.Good) (hn : n ≤ st.rows) : (st.scrolledDown n).Good :=
  h.shiftedDown hn h.blank.2

/-- Every cell. -/
abbrev All : Nat → Nat → Prop := fun _ _ => True

/-- The copy of a scroll: the rows `s` to `s + k` are shown at `d`. -/
theorem goes_copyRows (st : State) {s d k : Nat} (hs : s + k ≤ st.rows) (hd : d + k ≤ st.rows) {sy dy : Int}
    (hsy : sy = st.y + s * st.ch) (hdy : dy = st.y + d * st.ch) {cells : List (List Cell)}
    (hshape : Grid.Shape st.rows st.cols cells)
    (hcells : ∀ row col, row < k → Grid.cell? cells (d + row) col = Grid.cell? st.cells (s + row) col) (g : Gfx.State) :
    ∃ g', copyRectOn st.surf st.x sy (st.cols * st.cw) (k * st.ch) st.x dy g = .ok ((), g') ∧
      (Placed st g → st.ShowsOn All g → Kept st g g' ∧
        ({ st with cells := cells } : State).ShowsOn (fun r _ => d ≤ r ∧ r < d + k) g') := by
  rw [hsy, hdy]
  by_cases hg : Placed st g
  · obtain ⟨g', hrun, hdrew⟩ := drew_copyRows hs hd hg
    refine ⟨g', hrun, fun _ hshow => ⟨kept_of_drew hdrew (by omega) hd, fun r c cell hr hcell => ?_⟩⟩
    obtain ⟨row, rfl⟩ := Nat.exists_eq_add_of_le hr.1
    change Grid.cell? cells (d + row) c = some cell at hcell
    have hc := (hshape.of_cell? hcell).2
    rw [hcells row c (by omega)] at hcell
    have hold := hshow (s + row) c cell trivial hcell
    apply showsCell_copied hold
    intro p hp
    exact hdrew.drawn p ((mem_region hp).mpr (by omega))
  · unfold copyRectOn
    split_ifs
    · exact ⟨_, rfl, fun h => absurd h hg⟩
    · exact ⟨_, rfl, fun h => absurd h hg⟩

theorem goes_scrollUp (h : st.Good) {n : Int} (hn : 0 ≤ n) :
    Goes st (st.ShowsOn All) (scrollUp st n) (st.scrolledUp (min n st.rows).toNat)
      ((st.scrolledUp (min n st.rows).toNat).ShowsOn All) := by
  obtain ⟨k, hk⟩ := Int.eq_ofNat_of_zero_le (a := min n st.rows) (by omega)
  have hle : k ≤ st.rows := by omega
  have hkeep : (st.rows : Int) - k = (st.rows - k : Nat) := by omega
  have hgood := h.scrolledUp hle
  unfold scrollUp
  rw [hk]
  dsimp only
  rw [hkeep, Int.toNat_natCast, Int.toNat_natCast, lift_bind (subvecFrom_ok (by rw [h.shape.length]; exact hle)),
    lift_bind h.blankRow]
  have hpaint : (st.scrolledUp k).erased (fun r _ => st.rows - k ≤ r ∧ r < st.rows) = st.scrolledUp k := by
    refine erased_self hgood fun r c hr hc hin => ?_
    rw [decide_eq_true_eq] at hin
    exact Grid.cell?_shiftUp_below h.shape hle hin.1 hr hc
  have hrows : Goes st ((st.scrolledUp k).ShowsOn fun r _ => 0 ≤ r ∧ r < 0 + (st.rows - k))
      (eraseRows (st.scrolledUp k) (st.rows - k) st.rows) (st.scrolledUp k) ((st.scrolledUp k).ShowsOn All) := by
    have herase := goes_eraseRows hgood (st.rows - k) (Nat.le_refl st.rows) fun r _ => 0 ≤ r ∧ r < 0 + (st.rows - k)
    rw [hpaint] at herase
    refine Goes.from (herase.mono (fun _ hP => hP) fun g hshow r c cell _ hcell => ?_)
      ⟨rfl, rfl, rfl, rfl, rfl, rfl, rfl⟩
    have hr := (hgood.shape.of_cell? hcell).1
    change r < st.rows at hr
    exact hshow r c cell (by show _ ∨ st.rows - k ≤ r ∧ r < st.rows; omega) hcell
  by_cases hpos : ((st.rows - k : Nat) : Int) > 0
  · rw [if_pos hpos]
    refine Goes.after (fun g => goes_copyRows st (s := k) (d := 0) (by omega) (by omega) rfl ?_ hgood.shape ?_ g) hrows
    · rw [Int.ofNat_zero, Int.zero_mul, Int.add_zero]
    · intro r c hr
      rw [Nat.zero_add]
      exact Grid.cell?_shiftUp h.shape hr _
  · rw [if_neg hpos]
    exact hrows.mono (fun g _ r c cell hr => by omega) fun _ hQ => hQ

theorem goes_scrollDown (h : st.Good) {n : Int} (hn : 0 ≤ n) :
    Goes st (st.ShowsOn All) (scrollDown st n) (st.scrolledDown (min n st.rows).toNat)
      ((st.scrolledDown (min n st.rows).toNat).ShowsOn All) := by
  obtain ⟨k, hk⟩ := Int.eq_ofNat_of_zero_le (a := min n st.rows) (by omega)
  have hle : k ≤ st.rows := by omega
  have hkeep : (st.rows : Int) - k = (st.rows - k : Nat) := by omega
  have hgood := h.scrolledDown hle
  have hlen : st.rows - k ≤ st.cells.length := by
    rw [h.shape.length]
    exact Nat.sub_le _ _
  unfold scrollDown
  rw [hk]
  dsimp only
  rw [hkeep, Int.toNat_natCast, lift_bind h.blankRow, lift_bind (subvec_zero hlen)]
  have hpaint : (st.scrolledDown k).erased (fun r _ => 0 ≤ r ∧ r < k) = st.scrolledDown k := by
    refine erased_self hgood fun r c hr hc hin => ?_
    rw [decide_eq_true_eq] at hin
    exact Grid.cell?_shiftDown_above hin.2 hc
  have hcells : (List.replicate k (List.replicate st.cols st.blankCell) ++ st.cells.take (st.rows - k)) =
      Grid.shiftDown k (.replicate st.cols st.blankCell) st.cells := by
    unfold Grid.shiftDown
    rw [h.shape.length]
  rw [hcells]
  have hrows : Goes st ((st.scrolledDown k).ShowsOn fun r _ => k ≤ r ∧ r < k + (st.rows - k))
      (eraseRows (st.scrolledDown k) 0 k) (st.scrolledDown k) ((st.scrolledDown k).ShowsOn All) := by
    have herase := goes_eraseRows hgood 0 hle fun r _ => k ≤ r ∧ r < k + (st.rows - k)
    rw [hpaint] at herase
    refine Goes.from (herase.mono (fun _ hP => hP) fun g hshow r c cell _ hcell => ?_)
      ⟨rfl, rfl, rfl, rfl, rfl, rfl, rfl⟩
    have hr := (hgood.shape.of_cell? hcell).1
    change r < st.rows at hr
    exact hshow r c cell (by show _ ∨ 0 ≤ r ∧ r < k; omega) hcell
  by_cases hpos : ((st.rows - k : Nat) : Int) > 0
  · rw [if_pos hpos]
    refine Goes.after (fun g => goes_copyRows st (s := 0) (d := k) (by omega) (by omega) ?_ rfl hgood.shape ?_ g) hrows
    · rw [Int.ofNat_zero, Int.zero_mul, Int.add_zero]
    · intro r c hr
      rw [Nat.zero_add]
      exact Grid.cell?_shiftDown h.shape hr _
  · rw [if_neg hpos]
    exact hrows.mono (fun g _ r c cell hr => by omega) fun _ hQ => hQ

end Beeros.Term
