import Beeros.TermText
import Mathlib.Data.List.GetD

/-! Texts longer than a row, fed to a terminal: they wrap, and the screen scrolls where they run over its last row.
Positions count the cells of the screen along its rows, from the start of some row on. -/

namespace Beeros.Term

open Beerlang State

/-! ### Places -/

section Places

variable {w n k i col : Nat}

theorem place_succ (hw : 0 < w) (n : Nat) :
    (n % w + 1 < w → (n + 1) / w = n / w ∧ (n + 1) % w = n % w + 1) ∧
      (w ≤ n % w + 1 → (n + 1) / w = n / w + 1 ∧ (n + 1) % w = 0) := by
  have hn := Nat.mod_add_div n w
  have hlt := Nat.mod_lt n hw
  refine ⟨fun hin => (Nat.div_mod_unique hw).mpr ⟨?_, hin⟩, fun hout => (Nat.div_mod_unique hw).mpr ⟨?_, hw⟩⟩
  · omega
  · rw [Nat.mul_succ]
    omega

/-- Behind full rows a new one starts. -/
theorem place_full (hw : 0 < w) (hn : 0 < n) (hfull : n % w = 0) : n / w = (n - 1) / w + 1 := by
  obtain ⟨hin, hout⟩ := place_succ hw (n - 1)
  rw [Nat.sub_add_cancel hn] at hin hout
  have hlast : w ≤ (n - 1) % w + 1 := by
    by_contra hlt
    have := (hin (by omega)).2
    omega
  exact (hout hlast).1

theorem place_eq (hcol : col < w) : (i * w + col) / w = i ∧ (i * w + col) % w = col := by
  refine (Nat.div_mod_unique (by omega)).mpr ⟨?_, hcol⟩
  rw [Nat.mul_comm, Nat.add_comm]

/-- The places are passed row by row. -/
theorem le_place_iff (hcol : col < w) : n ≤ i * w + col ↔ n / w < i ∨ i = n / w ∧ n % w ≤ col := by
  have hn := Nat.mod_add_div n w
  have hlt := Nat.mod_lt n (show w > 0 by omega)
  rw [Nat.mul_comm] at hn
  rcases Nat.lt_trichotomy i (n / w) with hi | hi | hi
  · have hmul := Nat.mul_le_mul_right w hi
    rw [Nat.succ_mul] at hmul
    omega
  · rw [hi]
    omega
  · have hmul := Nat.mul_le_mul_right w hi
    rw [Nat.succ_mul] at hmul
    omega

end Places

/-! ### The cells of a text -/

/-- The rows from `p` on have the characters of `t` at their places. -/
def State.Holds (st : State) (p : Nat) (t : Str) : Prop :=
  ∀ k c, t[k]? = some c → st.charAt (p + k / st.cols) (k % st.cols) = some c

/-- The rows from `p` on have the characters of `t` at their places and blanks behind them. -/
def State.ShowsText (st : State) (p : Nat) (t : Str) : Prop :=
  ∀ i col, p + i < st.rows → col < st.cols → st.charAt (p + i) col = some (t.getD (i * st.cols + col) ' ')

/-- The cursor is on the cell `q` places behind the start of row `p`. -/
structure State.At (st : State) (p q : Nat) : Prop where
  cy : st.cy = p + q / st.cols
  cx : st.cx = q % st.cols

/-- The cursor is behind `t`: on the next cell, or on the last one of `t` with the wrap pending. -/
inductive State.Behind (st : State) (p : Nat) (t : Str) : Prop
  | next (hat : st.At p t.length) (hwrap : st.wrap = false) (hedge : t.length % st.cols = 0 → t = [])
  | pending (hat : st.At p (t.length - 1)) (hwrap : st.wrap = true) (hedge : t.length % st.cols = 0) (hne : t ≠ [])

variable {st st' : State} {p q r : Nat} {s t : Str} {c : Char}

theorem State.ShowsText.congr (h : st.ShowsText p t) (hcells : st'.cells = st.cells) (hscreen : SameScreen st st') :
    st'.ShowsText p t := by
  intro i col hi hcol
  rw [hscreen.rows] at hi
  rw [hscreen.cols] at hcol ⊢
  unfold State.charAt
  rw [hcells]
  exact h i col hi hcol

theorem holds_nil (st : State) (p : Nat) : st.Holds p [] := by
  intro k c hk
  rw [List.getElem?_nil] at hk
  cases hk

/-- Colours leave the text and the cursor where they are. -/
theorem Recolored.holds (h : Recolored st st') (hold : st.Holds p t) (hb : st.Behind p t) :
    st'.Holds p t ∧ st'.Behind p t := by
  have hat : ∀ {q}, st.At p q → st'.At p q := fun hq => by
    refine ⟨?_, ?_⟩
    · rw [h.cy, h.screen.cols]
      exact hq.cy
    · rw [h.cx, h.screen.cols]
      exact hq.cx
  refine ⟨fun k c hk => ?_, ?_⟩
  · unfold State.charAt
    rw [h.screen.cols, h.cells]
    exact hold k c hk
  · cases hb with
    | next hq hwrap hedge => exact .next (hat hq) (h.wrap.trans hwrap) (by rwa [h.screen.cols])
    | pending hq hwrap hedge hne => exact .pending (hat hq) (h.wrap.trans hwrap) (by rwa [h.screen.cols]) hne

/-! ### The next row -/

/-- After a line feed the rows from `p` on are at most one row higher, and a row that is new is blank. -/
theorem lineFed_rows (h : st.Good) (hcy : st.cy + 1 = p + r) (hr : r < st.rows) :
    ∃ p', st.lineFed.cy = p' + r ∧ ∀ i col, p' + i < st.rows → col < st.cols →
      st.lineFed.charAt (p' + i) col = if p + i < st.rows then st.charAt (p + i) col else some ' ' := by
  have hcur := h.cursor.2
  unfold State.lineFed
  split_ifs with hlast
  · have hone : st.rows = p + r := by omega
    refine ⟨p - 1, by show st.cy = _; omega, fun i col hi hcol => ?_⟩
    show (Grid.cell? (Grid.shiftUp 1 _ _) _ _).map _ = _
    by_cases hin : p + i < st.rows
    · rw [if_pos hin, Grid.cell?_shiftUp h.shape (by omega)]
      unfold State.charAt
      rw [show 1 + (p - 1 + i) = p + i by omega]
    · rw [if_neg hin, Grid.cell?_shiftUp_below h.shape (by omega) (by omega) hi hcol]
      rfl
  · exact ⟨p, hcy, fun i col hi _ => (if_pos hi).symm⟩

/-- The wrap carried out: the text is where it was, or one row higher, and the cursor on the next cell. -/
theorem State.Behind.unwrapped (hr : st.Ready) (hold : st.Holds p t) (hb : st.Behind p t)
    (hfit : t.length / st.cols < st.rows) : ∃ p', st.unwrapped.Ready ∧ SameScreen st st.unwrapped ∧
      st.unwrapped.wrap = false ∧ st.unwrapped.Holds p' t ∧ st.unwrapped.At p' t.length := by
  have hcols := hr.cols_pos
  have hsteps := steps_wrapped hr.toGood
  have hready : st.unwrapped.Ready :=
    { toGood := hsteps.good, mode := hsteps.mode.trans hr.mode, params := hsteps.params.trans hr.params }
  cases hb with
  | next hat hwrap hedge =>
      rw [unwrapped_of_not_wrap hwrap] at *
      exact ⟨p, hr, .refl st, hwrap, hold, hat⟩
  | pending hat hwrap hedge hne =>
      have hcy : st.cy + 1 = p + t.length / st.cols := by
        rw [hat.cy, place_full hcols (List.length_pos_iff.mpr hne) hedge]
        rfl
      obtain ⟨p', hcy', hrows⟩ := lineFed_rows hr.toGood hcy hfit
      have hscreen := hsteps.goes.screen
      obtain ⟨hcells, hcyu, hcxu, hwrapu⟩ : st.unwrapped.cells = st.lineFed.cells ∧
          st.unwrapped.cy = st.lineFed.cy ∧ st.unwrapped.cx = 0 ∧ st.unwrapped.wrap = false := by
        unfold State.unwrapped
        rw [if_pos hwrap]
        exact ⟨rfl, rfl, rfl, rfl⟩
      have hcur := hready.cursor.2
      dsimp only at hcur
      rw [hscreen.rows, hcyu, hcy'] at hcur
      have hcur' := hr.cursor.2
      dsimp only at hcur'
      refine ⟨p', hready, hscreen, hwrapu, fun k c hk => ?_, ?_, ?_⟩
      · have hlt := (List.getElem?_eq_some_iff.mp hk).1
        -- the character is on a row above the cursor
        have hup : k / st.cols < t.length / st.cols := by
          rw [Nat.div_lt_iff_lt_mul hcols, Nat.div_mul_cancel (Nat.dvd_of_mod_eq_zero hedge)]
          exact hlt
        have hch := hrows (k / st.cols) (k % st.cols) (by omega) (Nat.mod_lt k hcols)
        rw [if_pos (by omega)] at hch
        unfold State.charAt
        rw [hscreen.cols, hcells]
        exact hch.trans (hold k c hk)
      · rw [hscreen.cols, hcyu]
        exact hcy'
      · rw [hscreen.cols, hedge]
        exact hcxu

/-! ### Typing -/

/-- A character behind a text. -/
theorem typed_behind (hr : st.Ready) (hwrap : st.wrap = false) (hold : st.Holds p t) (hat : st.At p t.length)
    (c : Char) : (st.typed c).Holds p (t ++ [c]) ∧ (st.typed c).Behind p (t ++ [c]) := by
  have hcols := hr.cols_pos
  have hscreen := (steps_putChar hr.toGood c).goes.screen
  have hcur := hr.cursor.2
  dsimp only at hcur
  obtain ⟨hcy, hin, hout⟩ := typed_cursor hwrap c
  obtain ⟨hsame, hnext⟩ := place_succ hcols t.length
  have hcat := hat.cy
  have hcx := hat.cx
  constructor
  · intro k c' hk
    have hlt := (List.getElem?_eq_some_iff.mp hk).1
    rw [List.length_append, List.length_singleton] at hlt
    have hrow : k / st.cols ≤ t.length / st.cols := Nat.div_le_div_right (by omega)
    rw [hscreen.cols, charAt_typed hr.toGood hwrap c (by omega) (Nat.mod_lt k hcols)]
    by_cases hlast : k = t.length
    · subst hlast
      rw [List.getElem?_concat_length] at hk
      rw [if_pos ⟨hcat.symm, hcx.symm⟩]
      exact hk
    · rw [if_neg]
      · rw [List.getElem?_append_left (by omega)] at hk
        exact hold k c' hk
      · rintro ⟨hdiv, hmod⟩
        have hk := Nat.mod_add_div k st.cols
        have ht := Nat.mod_add_div t.length st.cols
        rw [hmod, hcx, show k / st.cols = t.length / st.cols by omega, ht] at hk
        exact hlast hk.symm
  · have hlen : (t ++ [c]).length = t.length + 1 := by rw [List.length_append, List.length_singleton]
    by_cases hlast : st.cols ≤ st.cx + 1
    · obtain ⟨hcx', hwrap'⟩ := hout hlast
      refine .pending ⟨?_, ?_⟩ hwrap' ?_ (List.append_ne_nil_of_right_ne_nil t (List.cons_ne_nil c []))
      · rw [hlen, Nat.add_sub_cancel, hscreen.cols, hcy]
        exact hcat
      · rw [hlen, Nat.add_sub_cancel, hscreen.cols, hcx']
        exact hcx
      · rw [hlen, hscreen.cols]
        exact (hnext (hcx ▸ hlast)).2
    · obtain ⟨hcx', hwrap'⟩ := hin (by omega)
      obtain ⟨hdiv, hmod⟩ := hsame (by omega)
      refine .next ⟨?_, ?_⟩ hwrap' fun hedge => ?_
      · rw [hlen, hscreen.cols, hdiv, hcy]
        exact hcat
      · rw [hlen, hscreen.cols, hmod, hcx', hcx]
      · rw [hlen, hscreen.cols, hmod] at hedge
        omega

section Reader

variable {readString : Str → Except Error (Option Int)}

/-- A text behind another one. -/
theorem writes_text (readString : Str → Except Error (Option Int)) (hr : st.Ready) (hold : st.Holds p t)
    (hb : st.Behind p t) (hs : ∀ c ∈ s, Printable c) (hfit : (t ++ s).length / st.cols < st.rows) :
    ∃ st' p', Writes readString st s st' ∧ st'.Holds p' (t ++ s) ∧ st'.Behind p' (t ++ s) := by
  induction s generalizing st p t with
  | nil =>
      rw [List.append_nil]
      exact ⟨st, p, writes_nil hr.toGood, hold, hb⟩
  | cons c s ih =>
      have hfit' : t.length / st.cols < st.rows := by
        refine Nat.lt_of_le_of_lt (Nat.div_le_div_right ?_) hfit
        rw [List.length_append]
        exact Nat.le_add_right _ _
      obtain ⟨p₁, hr₁, -, hwrap₁, hold₁, hat₁⟩ := hb.unwrapped hr hold hfit'
      obtain ⟨hold₂, hb₂⟩ := typed_behind hr₁ hwrap₁ hold₁ hat₁ c
      rw [typed_unwrapped] at hold₂ hb₂
      have hone : Writes readString st [c] (st.typed c) := writes_char hr (hs c List.mem_cons_self)
      have hscreen := hone.goes.screen
      have happ : t ++ c :: s = t ++ [c] ++ s := by rw [List.append_assoc, List.singleton_append]
      rw [happ] at hfit ⊢
      obtain ⟨st', p', hw, hold', hb'⟩ := ih (hone.ready hr) hold₂ hb₂
        (fun c' hc' => hs c' (List.mem_cons_of_mem c hc')) (by rw [hscreen.cols, hscreen.rows]; exact hfit)
      exact ⟨st', p', hone.append hw, hold', hb'⟩

/-! ### The rest of the screen -/

theorem charAt_erasedBelow (h : st.Good) {row col : Nat} (hrow : row < st.rows) (hcol : col < st.cols) :
    st.erasedBelow.charAt row col =
      if st.cy < row ∨ row = st.cy ∧ st.cx ≤ col then some ' ' else st.charAt row col := by
  unfold State.erasedBelow
  rw [charAt_erased (h.erased _) _ hrow hcol, charAt_erased h _ hrow hcol]
  by_cases hbelow : st.cy < row
  · rw [if_pos (by rw [decide_eq_true_eq]; omega), if_pos (.inl hbelow)]
  · rw [if_neg (by rw [decide_eq_true_eq]; omega)]
    exact if_congr (by rw [decide_eq_true_eq]; omega) rfl rfl

/-- Erasing from a cell on: the text before it and blanks are left. -/
theorem erasedBelow_shows (h : st.Good) (hold : st.Holds p t) (hat : st.At p q) (hq : q ≤ t.length) :
    st.erasedBelow.ShowsText p (t.take q) := by
  intro i col hi hcol
  change p + i < st.rows at hi
  change col < st.cols at hcol
  obtain ⟨hdiv, hmod⟩ := place_eq (i := i) hcol
  have hplace := le_place_iff (n := q) (i := i) hcol
  rw [charAt_erasedBelow h hi hcol, hat.cy, hat.cx]
  show _ = some ((t.take q).getD (i * st.cols + col) ' ')
  by_cases hbehind : q ≤ i * st.cols + col
  · rw [if_pos (by omega), List.getD_eq_default _ _ ((List.length_take_le q t).trans hbehind)]
  · rw [if_neg (by omega), List.getD_eq_getElem _ _ (by rw [List.length_take]; omega), List.getElem_take]
    have hch := hold (i * st.cols + col) _ (List.getElem?_eq_getElem (by omega))
    rw [hdiv, hmod] at hch
    exact hch

/-- What `CSI J` leaves of a text before the cursor: the last character of a text that fills its rows goes. -/
def unerased (cols : Nat) (t : Str) : Str := if t.length % cols = 0 then t.dropLast else t

/-- `CSI J` behind a text, and a new row when it fills its rows. -/
theorem writes_end (readString : Str → Except Error (Option Int)) (hr : st.Ready) (hold : st.Holds p t)
    (hb : st.Behind p t) (hfit : t.length / st.cols < st.rows) : ∃ st' p',
      Writes readString st (csiText [] 'J' ++ if t ≠ [] ∧ t.length % st.cols = 0 then ['\r', '\n'] else []) st' ∧
        st'.ShowsText p' (unerased st.cols t) ∧ st'.At p' t.length := by
  have hcols := hr.cols_pos
  have herase : Writes readString st (csiText [] 'J') st.erasedBelow := writes_eraseBelow hr
  cases hb with
  | next hat hwrap hedge =>
      have hshows := erasedBelow_shows hr.toGood hold hat (Nat.le_refl _)
      rw [if_neg fun h => h.1 (hedge h.2), List.append_nil]
      refine ⟨st.erasedBelow, p, herase, ?_, hat.cy, hat.cx⟩
      rw [List.take_length] at hshows
      unfold unerased
      split_ifs with hfull
      · obtain rfl := hedge hfull
        exact hshows
      · exact hshows
  | pending hat hwrap hedge hne =>
      have hshows := erasedBelow_shows hr.toGood hold hat (Nat.sub_le _ _)
      rw [← List.dropLast_eq_take] at hshows
      have hr₁ := herase.ready hr
      have hcr : Writes readString st.erasedBelow ['\r'] _ := writes_cr hr₁
      have hlf : Writes readString _ ['\n'] _ := writes_lf (hcr.ready hr₁)
      have hcy : st.cy + 1 = p + t.length / st.cols := by
        rw [hat.cy, place_full hcols (List.length_pos_iff.mpr hne) hedge]
        rfl
      obtain ⟨p', hcy', hrows⟩ := lineFed_rows (hcr.ready hr₁).toGood hcy hfit
      rw [if_pos ⟨hne, hedge⟩]
      have hscreen := (herase.append (hcr.append hlf)).goes.screen
      have hcur := hr.cursor.2
      dsimp only at hcur
      refine ⟨_, p', herase.append (hcr.append hlf), fun i col hi hcol => ?_, ?_, ?_⟩
      · rw [hscreen.rows] at hi
        rw [hscreen.cols] at hcol ⊢
        refine (hrows i col hi hcol).trans ?_
        unfold unerased
        rw [if_pos hedge]
        by_cases hin : p + i < st.rows
        · exact (if_pos hin).trans (hshows i col hin hcol)
        · -- a row that the screen has scrolled in
          have hbelow : t.length / st.cols * st.cols ≤ i * st.cols := Nat.mul_le_mul_right _ (by omega)
          rw [Nat.div_mul_cancel (Nat.dvd_of_mod_eq_zero hedge)] at hbelow
          refine (if_neg hin).trans ?_
          rw [List.getD_eq_default _ _ (by rw [List.length_dropLast]; omega)]
      · rw [hscreen.cols]
        exact hcy'
      · rw [hscreen.cols, hedge]
        unfold State.lineFed
        split_ifs <;> rfl

/-- Up some rows, to the start of the row and right some columns; nothing else changes. -/
theorem writes_move (hread : ReadsDecimal readString) (hr : st.Ready) {up n : Nat} (hup : up ≤ st.cy)
    (hn : n < st.cols) : ∃ st', Writes readString st ((if 0 < up then csiText (paramText [up]) 'A' else []) ++
      (['\r'] ++ if 0 < n then csiText (paramText [n]) 'C' else [])) st' ∧
        st'.cells = st.cells ∧ st'.wrap = false ∧ st'.cy = st.cy - up ∧ st'.cx = n := by
  have hback : ∃ st₁, Writes readString st ((if 0 < up then csiText (paramText [up]) 'A' else []) ++ ['\r']) st₁ ∧
      st₁.cells = st.cells ∧ st₁.wrap = false ∧ st₁.cy = st.cy - up ∧ st₁.cx = 0 := by
    split_ifs with hpos
    · have hmove := writes_up hread hr hpos hup
      exact ⟨_, hmove.append (writes_cr (hmove.ready hr)), rfl, rfl, rfl, rfl⟩
    · obtain rfl : up = 0 := by omega
      exact ⟨_, writes_cr hr, rfl, rfl, rfl, rfl⟩
  obtain ⟨st₁, hw, hcells, hwrap, hcy, hcx⟩ := hback
  have hr₁ := hw.ready hr
  have hcols := hw.goes.screen.cols
  rw [← List.append_assoc]
  by_cases hpos : 0 < n
  · rw [if_pos hpos]
    have hright := writes_right hread hr₁ hpos (by rw [hcx, hcols]; omega)
    refine ⟨_, hw.append hright, hcells, rfl, hcy, ?_⟩
    show st₁.cx + n = n
    rw [hcx, Nat.zero_add]
  · rw [if_neg hpos, List.append_nil]
    exact ⟨st₁, hw, hcells, hwrap, hcy, by omega⟩

end Reader

end Beeros.Term
