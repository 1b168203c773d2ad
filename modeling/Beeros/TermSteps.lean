import Beeros.TermDraw

/-! What the characters and control sequences do to a terminal. -/

namespace Beeros.Term

open Beerlang Gfx State

/-- A step that keeps what every state keeps, the parser and the drawn cursor, and the cells on the screen. -/
structure Steps (st : State) (d : Draw State) (st' : State) : Prop where
  goes : Goes st (st.ShowsOn All) d st' (st'.ShowsOn All)
  good : st'.Good
  drawn : st'.drawnCursor = st.drawnCursor
  mode : st'.mode = st.mode
  params : st'.params = st.params

variable {st st' st'' : State} {d : Draw State} {row : Nat}

theorem goes_same (hs : SameScreen st st') (hc : st'.cells = st.cells) :
    Goes st (st.ShowsOn All) (pure st') st' (st'.ShowsOn All) := by
  apply goes_pure hs
  intro g _ hshow
  rw [hs.showsOn hc]
  exact hshow

theorem Steps.bind {k : State → Draw State} (h : Steps st d st') (h' : Steps st' (k st') st'') :
    Steps st (d >>= k) st'' :=
  ⟨h.goes.bind h'.goes, h'.good, h'.drawn.trans h.drawn, h'.mode.trans h.mode, h'.params.trans h.params⟩

theorem steps_refl (h : st.Good) : Steps st (pure st) st :=
  ⟨goes_same (.refl st) rfl, h, rfl, rfl, rfl⟩

/-! ### Erasing and scrolling -/

theorem steps_eraseCells (h : st.Good) (hr : row < st.rows) (start : Nat) {stop : Nat} (hstop : stop ≤ st.cols) :
    Steps st (eraseCells st row start stop) (st.erased fun r c => r = row ∧ start ≤ c ∧ c < stop) :=
  ⟨(goes_eraseCells h hr start hstop All).mono (fun _ hP => hP) fun _ hQ => hQ.mono fun _ _ _ => .inl trivial,
    h.erased _, rfl, rfl, rfl⟩

theorem steps_eraseRows (h : st.Good) (start : Nat) {stop : Nat} (hstop : stop ≤ st.rows) :
    Steps st (eraseRows st start stop) (st.erased fun r _ => start ≤ r ∧ r < stop) :=
  ⟨(goes_eraseRows h start hstop All).mono (fun _ hP => hP) fun _ hQ => hQ.mono fun _ _ _ => .inl trivial,
    h.erased _, rfl, rfl, rfl⟩

theorem steps_scrollUp (h : st.Good) {n : Int} (hn : 0 ≤ n) :
    Steps st (scrollUp st n) (st.scrolledUp (min n st.rows).toNat) :=
  ⟨goes_scrollUp h hn, h.scrolledUp (by omega), rfl, rfl, rfl⟩

theorem steps_scrollDown (h : st.Good) {n : Int} (hn : 0 ≤ n) :
    Steps st (scrollDown st n) (st.scrolledDown (min n st.rows).toNat) :=
  ⟨goes_scrollDown h hn, h.scrolledDown (by omega), rfl, rfl, rfl⟩

/-! ### Moves -/

theorem State.Good.rows_pos (h : st.Good) : 0 < st.rows := Nat.zero_lt_of_lt h.cursor.2

theorem State.Good.cols_pos (h : st.Good) : 0 < st.cols := Nat.zero_lt_of_lt h.cursor.1

/-- The cursor is somewhere else. -/
theorem State.Good.at (h : st.Good) (cx cy : Nat) (hp : st.Within (cx, cy)) (wrap : Bool) :
    ({ st with cx := cx, cy := cy, wrap := wrap } : State).Good :=
  { shape := h.shape, cursor := hp, saved := h.saved, fg := h.fg, bg := h.bg, defaultFg := h.defaultFg
    defaultBg := h.defaultBg, drawn := h.drawn, cell := h.cell }

theorem steps_at (h : st.Good) (cx cy : Nat) (hp : st.Within (cx, cy)) (wrap : Bool) :
    Steps st (pure { st with cx := cx, cy := cy, wrap := wrap }) { st with cx := cx, cy := cy, wrap := wrap } :=
  ⟨goes_same ⟨rfl, rfl, rfl, rfl, rfl, rfl, rfl⟩ rfl, h.at cx cy hp wrap, rfl, rfl, rfl⟩

theorem steps_moveTo (h : st.Good) (col row : Int) : Steps st (pure (moveTo st col row)) (moveTo st col row) := by
  have := h.rows_pos
  have := h.cols_pos
  exact steps_at h _ _ ⟨by dsimp only; omega, by dsimp only; omega⟩ false

/-- `line-feed`. -/
def State.lineFed (st : State) : State :=
  if st.cy + 1 ≥ st.rows then st.scrolledUp 1 else { st with cy := st.cy + 1 }

theorem steps_lineFeed (h : st.Good) : Steps st (lineFeed st) st.lineFed := by
  have hrows := h.rows_pos
  unfold lineFeed State.lineFed
  split_ifs with hlast
  · have hone : (min (1 : Int) st.rows).toNat = 1 := by omega
    have hscroll := steps_scrollUp h (n := 1) (by omega)
    rw [hone] at hscroll
    exact hscroll
  · exact steps_at h st.cx (st.cy + 1) ⟨h.cursor.1, by dsimp only; omega⟩ st.wrap

/-- The state after the wrap that was left pending. -/
def State.unwrapped (st : State) : State :=
  if st.wrap then { st.lineFed with cx := 0, wrap := false } else st

theorem steps_wrapped (h : st.Good) : Steps st (wrapped st) st.unwrapped := by
  unfold wrapped State.unwrapped
  cases st.wrap with
  | false => exact steps_refl h
  | true =>
      have hfed := steps_lineFeed h
      exact hfed.bind (steps_at hfed.good 0 _ ⟨hfed.good.cols_pos, hfed.good.cursor.2⟩ false)

/-- The cell that `put-char` writes. -/
def State.penCell (st : State) (c : Char) : Cell := ⟨c, st.pen.1, st.pen.2⟩

/-- The cell under the cursor is `cell`. -/
def State.withCell (st : State) (cell : Cell) : State :=
  { st with cells := Grid.paint (fun r c => r = st.cy ∧ c = st.cx) cell st.cells }

/-- The cursor after a character was written under it. -/
def State.advanced (st : State) : State :=
  if st.cx + 1 ≥ st.cols then { st with wrap := true } else { st with cx := st.cx + 1 }

/-- `put-char`. -/
def State.typed (st : State) (c : Char) : State :=
  (st.unwrapped.withCell (st.unwrapped.penCell c)).advanced

theorem State.Good.withCell (h : st.Good) {cell : Cell} (hc : 0 ≤ cell.fg ∧ 0 ≤ cell.bg) : (st.withCell cell).Good :=
  h.painted _ hc

theorem State.Good.advanced (h : st.Good) : st.advanced.Good := by
  unfold State.advanced
  split_ifs with hlast
  · exact h.at _ _ h.cursor true
  · exact h.at (st.cx + 1) _ ⟨by dsimp only; omega, h.cursor.2⟩ st.wrap

theorem steps_putChar (h : st.Good) (c : Char) : Steps st (putChar st c) (st.typed c) := by
  unfold putChar
  refine (steps_wrapped h).bind ?_
  have h := (steps_wrapped h).good
  unfold State.typed
  generalize st.unwrapped = st at h
  have hcolor := h.pen.2
  have hrow : st.cy < st.cells.length := by
    rw [h.shape.length]
    exact h.cursor.2
  have hcol : st.cx < (st.cells.getD st.cy []).length := by
    rw [h.shape.getD h.cursor.2]
    exact h.cursor.1
  have hcells : st.cells.set st.cy ((st.cells.getD st.cy []).set st.cx (st.penCell c)) =
      (st.withCell (st.penCell c)).cells := Grid.set_cell h.shape h.cursor.2 h.cursor.1
  refine ⟨?_, (h.withCell hcolor).advanced, ?_, ?_, ?_⟩
  · rw [lift_bind h.pen.1]
    refine Goes.after (R := (st.withCell (st.penCell c)).ShowsOn All) (fun g => ?_) ?_
    · obtain ⟨g', hrun, hdrew⟩ := drew_drawCell st st.cx st.cy (st.penCell c) false g
      refine ⟨g', hrun, fun hg hshow => ?_⟩
      have hdrew := hdrew hg h.cursor hcolor
      refine ⟨kept_of_drew hdrew h.cursor.1 h.cursor.2, fun row col cell _ hcell => ?_⟩
      change Grid.cell? (Grid.paint _ _ _) row col = _ at hcell
      rw [Grid.cell?_paint] at hcell
      obtain ⟨old, hold, he⟩ := Option.map_eq_some_iff.mp hcell
      by_cases hin : row = st.cy ∧ col = st.cx
      · rw [if_pos (decide_eq_true hin)] at he
        obtain ⟨rfl, rfl⟩ := hin
        rw [← he]
        exact showsCell_self hdrew
      · rw [if_neg (by rw [decide_eq_true_eq]; exact hin)] at he
        rw [← he]
        exact showsCell_of_drew hdrew (hshow row col old trivial hold) (by omega)
    · rw [lift_bind (nth_ok [] hrow), lift_bind (assocAt_ok hcol _), lift_bind (assocAt_ok hrow _)]
      let set : State := { st with cells := st.cells.set st.cy ((st.cells.getD st.cy []).set st.cx (st.penCell c)) }
      have hset : set = st.withCell (st.penCell c) := by
        dsimp only [set]
        rw [hcells]
        rfl
      have hend : Goes st (set.ShowsOn All)
          (if st.cx + 1 ≥ st.cols then pure { set with wrap := true } else pure { set with cx := st.cx + 1 })
          set.advanced (set.advanced.ShowsOn All) := by
        unfold State.advanced
        split_ifs
        · exact goes_pure ⟨rfl, rfl, rfl, rfl, rfl, rfl, rfl⟩ fun _ _ hP => hP
        · exact goes_pure ⟨rfl, rfl, rfl, rfl, rfl, rfl, rfl⟩ fun _ _ hP => hP
      rw [← hset]
      exact hend
  · unfold State.advanced
    split_ifs <;> rfl
  · unfold State.advanced
    split_ifs <;> rfl
  · unfold State.advanced
    split_ifs <;> rfl

/-! ### Control sequences -/

/-- The numbers that `sgr` takes as indexes of the 256 colours. -/
def paletteIndexes : List (Option Int) → List Int
  | [] => []
  | p :: more =>
      if p.getD 0 = 38 ∨ p.getD 0 = 48 then
        match more with
        | some 5 :: n :: rest => n.getD 0 :: paletteIndexes rest
        | some 2 :: _ :: _ :: _ :: rest => paletteIndexes rest
        | _ => []
      else paletteIndexes more

/-- What does not touch the grid, the positions or the parser. -/
structure Recolored (st st' : State) : Prop where
  screen : SameScreen st st'
  cells : st'.cells = st.cells
  cx : st'.cx = st.cx
  cy : st'.cy = st.cy
  wrap : st'.wrap = st.wrap
  saved : st'.saved = st.saved
  cursor : st'.cursor = st.cursor
  drawn : st'.drawnCursor = st.drawnCursor
  mode : st'.mode = st.mode
  params : st'.params = st.params
  colored : st.Colored → st'.Colored

theorem Recolored.trans (h : Recolored st st') (h' : Recolored st' st'') : Recolored st st'' :=
  ⟨h.screen.trans h'.screen, h'.cells.trans h.cells, h'.cx.trans h.cx, h'.cy.trans h.cy, h'.wrap.trans h.wrap,
    h'.saved.trans h.saved, h'.cursor.trans h.cursor, h'.drawn.trans h.drawn, h'.mode.trans h.mode,
    h'.params.trans h.params, h'.colored ∘ h.colored⟩

/-- The state with another pen. -/
def State.recolored (st : State) (fg bg : Int) (bold inverse : Bool) : State :=
  { st with fg := fg, bg := bg, bold := bold, inverse := inverse }

theorem recolored_of {fg bg : Int} {bold inverse : Bool} (hc : st.Colored → 0 ≤ fg ∧ 0 ≤ bg) :
    Recolored st (st.recolored fg bg bold inverse) :=
  ⟨⟨rfl, rfl, rfl, rfl, rfl, rfl, rfl⟩, rfl, rfl, rfl, rfl, rfl, rfl, rfl, rfl, rfl,
    fun h => ⟨(hc h).1, (hc h).2, h.defaultFg, h.defaultBg⟩⟩

theorem recolored_refl (st : State) : Recolored st st := by
  show Recolored st (st.recolored st.fg st.bg st.bold st.inverse)
  exact recolored_of fun h => ⟨h.fg, h.bg⟩

theorem recolored_ite {c : Prop} [Decidable c] (h : c → Recolored st st') (h' : ¬ c → Recolored st st'') :
    Recolored st (if c then st' else st'') := by
  split_ifs with hc
  · exact h hc
  · exact h' hc

theorem recolored_setColor {c : Int} (p : Int) (hc : 0 ≤ c) : Recolored st (setColor st p c) :=
  recolored_ite (fun _ => recolored_of fun h => ⟨hc, h.bg⟩) fun _ => recolored_of fun h => ⟨h.fg, hc⟩

theorem recolored_sgr1 (p : Int) : Recolored st (sgr1 st p) := by
  refine recolored_ite (fun _ => recolored_of fun h => ⟨h.defaultFg, h.defaultBg⟩) fun _ => ?_
  refine recolored_ite (fun _ => recolored_of fun h => ⟨h.fg, h.bg⟩) fun _ => ?_
  refine recolored_ite (fun _ => recolored_of fun h => ⟨h.fg, h.bg⟩) fun _ => ?_
  refine recolored_ite (fun _ => recolored_of fun h => ⟨h.fg, h.bg⟩) fun _ => ?_
  refine recolored_ite (fun _ => recolored_of fun h => ⟨h.fg, h.bg⟩) fun _ => ?_
  refine recolored_ite (fun hp => recolored_of fun h => ⟨by omega, h.bg⟩) fun _ => ?_
  refine recolored_ite (fun hp => recolored_of fun h => ⟨by omega, h.bg⟩) fun _ => ?_
  refine recolored_ite (fun hp => recolored_of fun h => ⟨h.fg, by omega⟩) fun _ => ?_
  refine recolored_ite (fun hp => recolored_of fun h => ⟨h.fg, by omega⟩) fun _ => ?_
  refine recolored_ite (fun _ => recolored_of fun h => ⟨h.defaultFg, h.bg⟩) fun _ => ?_
  refine recolored_ite (fun _ => recolored_of fun h => ⟨h.fg, h.defaultBg⟩) fun _ => ?_
  exact recolored_refl st

theorem rgbFlag_add_nonneg (r g b : Int) : 0 ≤ rgbFlag + rgb r g b := by
  have := rgb_nonneg r g b
  unfold rgbFlag
  omega

theorem recolored_sgrLoop (st : State) (ps : List (Option Int)) (h : ∀ n ∈ paletteIndexes ps, 0 ≤ n) :
    Recolored st (sgrLoop st ps) := by
  induction st, ps using sgrLoop.induct with
  | case1 st => exact recolored_refl st
  | case2 st p _ hp =>
      rw [sgrLoop.eq_def]
      dsimp only
      rw [if_pos hp]
      exact recolored_setColor _ (Int.le_refl 0)
  | case3 st p _ hp n rest ih =>
      rw [paletteIndexes, if_pos hp] at h
      rw [sgrLoop.eq_def]
      dsimp only
      rw [if_pos hp]
      exact (recolored_setColor _ (h _ List.mem_cons_self)).trans (ih fun n hn => h n (List.mem_cons_of_mem _ hn))
  | case4 st p _ hp r g b rest ih =>
      rw [paletteIndexes, if_pos hp] at h
      rw [sgrLoop.eq_def]
      dsimp only
      rw [if_pos hp]
      exact (recolored_setColor _ (rgbFlag_add_nonneg _ _ _)).trans (ih h)
  | case5 st p _ hp rest hrest =>
      rw [sgrLoop.eq_def]
      dsimp only
      rw [if_pos hp]
      split
      · rename_i heq
        cases heq
      · rename_i heq
        cases heq
        split
        · exact (hrest _ _ _ _ rfl).elim
        · exact recolored_setColor _ (rgbFlag_add_nonneg _ _ _)
      · exact recolored_refl st
  | case6 st p rest _ hp h5 h2 =>
      rw [sgrLoop.eq_def]
      dsimp only
      rw [if_pos hp]
      split
      · exact (h5 _ rfl).elim
      · exact (h2 _ rfl).elim
      · exact recolored_refl st
  | case7 st p rest _ hp ih =>
      rw [paletteIndexes.eq_def] at h
      dsimp only at h
      rw [if_neg hp] at h
      rw [sgrLoop.eq_def]
      dsimp only
      rw [if_neg hp]
      exact (recolored_sgr1 _).trans (ih h)

theorem Recolored.good (h : st.Good) (hr : Recolored st st') : st'.Good := by
  have hwithin : st'.Within = st.Within := by
    unfold Within
    rw [hr.screen.cols, hr.screen.rows]
  have hc := hr.colored h.toColored
  refine { shape := ?_, cursor := ?_, saved := ?_, fg := hc.fg, bg := hc.bg, defaultFg := hc.defaultFg
           defaultBg := hc.defaultBg, drawn := ?_, cell := ?_ }
  · rw [hr.cells, hr.screen.cols, hr.screen.rows]
    exact h.shape
  · rw [hwithin, hr.cx, hr.cy]
    exact h.cursor
  · rw [hr.saved, hwithin]
    exact h.saved
  · rw [hr.drawn, hwithin]
    exact h.drawn
  · rw [hr.cells]
    exact h.cell

theorem recolored_sgr {ps : List (Option Int)} (hps : ∀ n ∈ paletteIndexes ps, 0 ≤ n) : Recolored st (sgr st ps) := by
  unfold sgr
  apply recolored_sgrLoop
  cases ps with
  | nil => exact nofun
  | cons p ps => exact hps

theorem steps_sgr (h : st.Good) {ps : List (Option Int)} (hps : ∀ n ∈ paletteIndexes ps, 0 ≤ n) :
    Steps st (pure (sgr st ps)) (sgr st ps) := by
  have hr : Recolored st (sgr st ps) := recolored_sgr hps
  exact ⟨goes_same hr.screen hr.cells, hr.good h, hr.drawn, hr.mode, hr.params⟩

/-- `CSI J`. -/
def State.erasedBelow (st : State) : State :=
  (st.erased fun r c => r = st.cy ∧ st.cx ≤ c ∧ c < st.cols).erased fun r _ => st.cy + 1 ≤ r ∧ r < st.rows

theorem steps_eraseBelow (h : st.Good) : Steps st (eraseDisplay st 0) st.erasedBelow := by
  unfold eraseDisplay
  rw [Nat.min_eq_left (Nat.le_of_lt h.cursor.1), if_pos rfl]
  have hrow := steps_eraseCells h h.cursor.2 st.cx (Nat.le_refl st.cols)
  exact hrow.bind (steps_eraseRows hrow.good (st.cy + 1) (Nat.le_refl st.rows))

theorem steps_eraseDisplay (h : st.Good) (m : Int) : ∃ st', Steps st (eraseDisplay st m) st' := by
  by_cases h0 : m = 0
  · rw [h0]
    exact ⟨_, steps_eraseBelow h⟩
  · unfold eraseDisplay
    rw [if_neg h0]
    split_ifs
    · have hrows := steps_eraseRows h 0 (Nat.le_of_lt h.cursor.2)
      exact ⟨_, hrows.bind (steps_eraseCells hrows.good h.cursor.2 0 (Nat.min_le_right _ st.cols))⟩
    · exact ⟨_, steps_eraseRows h 0 (Nat.le_refl _)⟩

/-- `CSI K`. -/
def State.erasedRight (st : State) : State := st.erased fun r c => r = st.cy ∧ st.cx ≤ c ∧ c < st.cols

theorem steps_eraseRight (h : st.Good) : Steps st (eraseLine st 0) st.erasedRight := by
  unfold eraseLine
  rw [Nat.min_eq_left (Nat.le_of_lt h.cursor.1), if_pos rfl]
  exact steps_eraseCells h h.cursor.2 st.cx (Nat.le_refl st.cols)

theorem steps_eraseLine (h : st.Good) (m : Int) : ∃ st', Steps st (eraseLine st m) st' := by
  by_cases h0 : m = 0
  · rw [h0]
    exact ⟨_, steps_eraseRight h⟩
  · unfold eraseLine
    rw [if_neg h0]
    split_ifs
    · exact ⟨_, steps_eraseCells h h.cursor.2 0 (Nat.min_le_right _ st.cols)⟩
    · exact ⟨_, steps_eraseCells h h.cursor.2 0 (Nat.le_refl _)⟩

theorem State.Good.savedAs (h : st.Good) {p : Nat × Nat} (hp : st.Within p) :
    ({ st with saved := some p } : State).Good :=
  { shape := h.shape, cursor := h.cursor, saved := fun _ hq => Option.some.inj hq ▸ hp, fg := h.fg, bg := h.bg
    defaultFg := h.defaultFg, defaultBg := h.defaultBg, drawn := h.drawn, cell := h.cell }

theorem steps_save (h : st.Good) :
    Steps st (pure { st with saved := some (st.cx, st.cy) }) { st with saved := some (st.cx, st.cy) } :=
  ⟨goes_same ⟨rfl, rfl, rfl, rfl, rfl, rfl, rfl⟩ rfl, h.savedAs h.cursor, rfl, rfl, rfl⟩

theorem steps_restore (h : st.Good) : Steps st (pure (restore st)) (restore st) := steps_moveTo h _ _

/-- Parameters for which the control sequence does not throw: no scroll by less than no rows, no colour index
below 0. -/
def Harmless (ps : List (Option Int)) (final : Char) : Prop :=
  (final = 'S' ∨ final = 'T' → 0 ≤ count ps 0 1) ∧ (final = 'm' → ∀ n ∈ paletteIndexes ps, 0 ≤ n)

theorem steps_control (h : st.Good) {ps : List (Option Int)} {final : Char} (hps : Harmless ps final) :
    ∃ st', Steps st (control st ps final) st' := by
  unfold control
  dsimp only
  split
  case h_11 => exact steps_eraseDisplay h _
  case h_12 => exact steps_eraseLine h _
  case h_13 => exact ⟨_, steps_scrollUp h (hps.1 (.inl rfl))⟩
  case h_14 => exact ⟨_, steps_scrollDown h (hps.1 (.inr rfl))⟩
  case h_15 => exact ⟨_, steps_sgr h (hps.2 rfl)⟩
  case h_16 => exact ⟨_, steps_save h⟩
  case h_17 => exact ⟨_, steps_restore h⟩
  case h_18 => exact ⟨_, steps_refl h⟩
  all_goals exact ⟨_, steps_moveTo h _ _⟩

end Beeros.Term
