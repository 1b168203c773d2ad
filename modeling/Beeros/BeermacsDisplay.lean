import Beeros.BeermacsEditor
import Beeros.Interleave
import Beeros.TermText

/-! `redisplay!` of `beermacs.core` on a terminal of `beer.term`: only the rows that changed are rewritten. When does
the terminal show the editor's rows? -/

namespace Beeros.Beermacs

open Beerlang Interleave
open Term (Writes ReadsDecimal Printable csiText paramText)

/-! ### Runs -/

/-- The terminal, the surfaces, and the `:screen` that the last `redisplay!` left. -/
structure Screen where
  term : Term.State
  gfx : Gfx.State
  rows : List Str

/-- A `redisplay!` of any editor state, with the `:screen` of the last one or, after `C-l`, with none. -/
structure Redisplay where
  ed : Editor
  recenter : Bool

def Redisplay.editor (e : Redisplay) (s : Screen) : Editor :=
  { e.ed with screen := if e.recenter then [] else s.rows }

/-- What is written is drawn. -/
def step (readString : Str → Except Error (Option Int)) (e : Redisplay) (s : Screen) : Option Screen :=
  match (e.editor s).redisplay with
  | .error _ => none
  | .ok (out, ed) =>
      match Term.feed readString s.term out s.gfx with
      | .error _ => none
      | .ok (term, gfx) => some ⟨term, gfx, ed.screen⟩

/-- A row without its SGR codes, from inside a code or outside. -/
def withoutSgrFrom : Bool → Str → Str
  | _, [] => []
  | true, c :: s => withoutSgrFrom (c != 'm') s
  | false, c :: s => if c = '\x1b' then withoutSgrFrom true s else c :: withoutSgrFrom false s

def withoutSgr (row : Str) : Str := withoutSgrFrom false row

/-- The terminal shows the rows of the editor, scrolled to point, and has its cursor on the cell of point. -/
def ShowsEditor (term : Term.State) (ed : Editor) : Prop :=
  ∃ ed' bf rows, ed.scrollToPoint = .ok ed' ∧ ed'.buf = some bf ∧ ed'.screenRows = .ok rows ∧
    rows.length = term.rows ∧
    (∀ i row, rows[i]? = some row → ∀ col, col < term.cols →
      term.charAt i col = some ((withoutSgr row).getD col ' ')) ∧
    (ed.prompt = none → (term.cx : Int) = bf.col - bf.left ∧ (term.cy : Int) = bf.row - bf.top)

/-- No row of as many characters as the terminal has columns ends with another character than a blank. -/
def EndsBlank (ed : Editor) : Prop :=
  ∀ ed' rows, ed.scrollToPoint = .ok ed' → ed'.screenRows = .ok rows → ∀ row ∈ rows,
    (withoutSgr row).length = ed.size.1 → (withoutSgr row).getLast? = some ' '

/-- A state of an editor on a terminal of that size, with a buffer; its texts are printable. -/
structure Legible (cols rows : Nat) (ed : Editor) (bf : Buffer) : Prop where
  size : ed.size = (cols, rows)
  buf : ed.buf = some bf
  lines : bf.lines ≠ []
  line : ∀ l ∈ bf.lines, ∀ c ∈ l, Printable c
  name : ∀ c ∈ bf.name, Printable c
  file : ∀ f, bf.file = some f → ∀ c ∈ f, Printable c
  prompt : ∀ p, ed.prompt = some p → ∀ c ∈ p, Printable c
  msg : ∀ c ∈ ed.msg, Printable c

variable {readString : Str → Except Error (Option Int)} {ed ed' : Editor} {bf : Buffer} {cols rows left i : Nat}
  {l s line : Str}

/-! ### Rows -/

/-- A row of at most `cols` characters: a text, or an inverse or underlined text. -/
inductive Row (cols : Nat) : Str → Str → Prop
  | text {s : Str} (hs : ∀ c ∈ s, Printable c) (hlen : s.length ≤ cols) : Row cols s s
  | inverse {s : Str} (hs : ∀ c ∈ s, Printable c) (hlen : s.length ≤ cols) :
      Row cols (csi ++ str "7m" ++ s ++ csi ++ str "0m") s
  | underlined {s : Str} (hs : ∀ c ∈ s, Printable c) (hlen : s.length ≤ cols) :
      Row cols (csi ++ str "4m" ++ s ++ csi ++ str "0m") s

theorem withoutSgrFrom_append (hs : ∀ c ∈ s, Printable c) (t : Str) :
    withoutSgrFrom false (s ++ t) = s ++ withoutSgrFrom false t := by
  induction s with
  | nil => rfl
  | cons c s ih =>
      have hesc : c ≠ '\x1b' := by
        rintro rfl
        exact absurd (hs _ List.mem_cons_self) (by decide)
      show (if c = '\x1b' then _ else c :: withoutSgrFrom false (s ++ t)) = _
      rw [if_neg hesc, ih fun c' hc' => hs c' (List.mem_cons_of_mem c hc')]
      rfl

theorem withoutSgr_row (h : Row cols line s) : withoutSgr line = s := by
  have hcoded (hs : ∀ c ∈ s, Printable c) : withoutSgrFrom false (s ++ (csi ++ str "0m")) = s := by
    rw [withoutSgrFrom_append hs]
    exact List.append_nil s
  cases h with
  | text hs _ =>
      have h := withoutSgrFrom_append hs []
      rw [List.append_nil] at h
      exact h.trans (List.append_nil s)
  | inverse hs _ =>
      rw [List.append_assoc, List.append_assoc]
      exact hcoded hs
  | underlined hs _ =>
      rw [List.append_assoc, List.append_assoc]
      exact hcoded hs

theorem Row.length_le (h : Row cols line s) : s.length ≤ cols := by
  cases h with
  | text _ hlen => exact hlen
  | inverse _ hlen => exact hlen
  | underlined _ hlen => exact hlen

theorem Row.mono (h : Row cols line s) {cols' : Nat} (hle : cols ≤ cols') : Row cols' line s := by
  cases h with
  | text hs hlen => exact .text hs (hlen.trans hle)
  | inverse hs hlen => exact .inverse hs (hlen.trans hle)
  | underlined hs hlen => exact .underlined hs (hlen.trans hle)

/-- What `visible` shows of a line. -/
theorem visible_row (hl : ∀ c ∈ l, Printable c) (left : Nat) (hcols : 0 < cols) :
    ∃ s, visible l left cols = .ok s ∧ Row cols s s := by
  have hpart (m : Nat) : ∀ c ∈ (l.take m).drop left, Printable c :=
    fun c hc => hl c (List.mem_of_mem_take (List.mem_of_mem_drop hc))
  unfold visible
  by_cases hleft : left ≥ l.length
  · rw [if_pos hleft]
    refine ⟨[], ?_, .text (List.forall_mem_nil _) (Nat.zero_le _)⟩
    show (if l.length > left + cols then _ else pure []) = _
    rw [if_neg (by omega)]
    rfl
  · rw [if_neg hleft, subvec_ok (by omega) (Nat.min_le_left _ _), ok_bind]
    dsimp only
    by_cases hlong : l.length > left + cols
    · have hcast : (cols : Int) - 1 = (cols - 1 : Nat) := by omega
      have hlen : ((l.take (min l.length (left + cols))).drop left).length = cols := by
        rw [List.length_drop, List.length_take]
        omega
      rw [if_pos hlong, hcast, subvec_zero (by omega), ok_bind]
      refine ⟨_, rfl, .text (fun c hc => ?_) ?_⟩
      · rcases List.mem_append.mp hc with hc | hc
        · exact hpart _ c (List.mem_of_mem_take hc)
        · rw [List.mem_singleton.mp hc]
          decide
      · rw [List.length_append, List.length_take, List.length_singleton]
        omega
    · rw [if_neg hlong]
      refine ⟨_, rfl, .text (hpart _) ?_⟩
      rw [List.length_drop, List.length_take]
      omega

theorem printable_decimal (n : Nat) : ∀ c ∈ decimal n, Printable c := by
  intro c hc
  have hdigit : 48 ≤ c.toNat ∧ c.toNat ≤ 57 := Char.isDigit_iff_toNat.mp (isDigit_of_mem_decimal hc)
  exact ⟨by omega, by omega⟩

theorem pad_spec {x : Str} (hx : ∀ c ∈ x, Printable c) (n : Nat) :
    (pad x n).length = n ∧ ∀ c ∈ pad x n, Printable c := by
  unfold pad
  split_ifs with hlen
  · exact ⟨List.length_take_of_le hlen, fun c hc => hx c (List.mem_of_mem_take hc)⟩
  · constructor
    · rw [List.length_append, List.length_replicate]
      omega
    · intro c hc
      rcases List.mem_append.mp hc with hc | hc
      · exact hx c hc
      · rw [List.eq_of_mem_replicate hc]
        decide

theorem modeLine_row (h : Legible cols rows ed bf) : ∃ line s, ed.modeLine cols = .ok line ∧ Row cols line s := by
  have happend {a b : Str} (ha : ∀ c ∈ a, Printable c) (hb : ∀ c ∈ b, Printable c) : ∀ c ∈ a ++ b, Printable c :=
    fun c hc => (List.mem_append.mp hc).elim (ha c) (hb c)
  have hmodified : ∀ c ∈ str (if bf.modified then "**" else "--"), Printable c := by
    cases bf.modified <;> exact Term.printable_of_all (by decide)
  obtain ⟨x, hx, hline⟩ : ∃ x, (∀ c ∈ x, Printable c) ∧
      ed.modeLine cols = .ok (csi ++ str "7m" ++ pad x cols ++ csi ++ str "0m") := by
    unfold Editor.modeLine Editor.buf!
    rw [h.buf]
    refine ⟨_, ?_, rfl⟩
    have hflags := happend (Term.printable_of_all (by decide) : ∀ c ∈ str "-", Printable c) hmodified
    have hname := happend (happend hflags (Term.printable_of_all (by decide) : ∀ c ∈ str "- ", Printable c)) h.name
    have hrow := happend (happend hname (Term.printable_of_all (by decide) : ∀ c ∈ str "   L", Printable c)) (printable_decimal (bf.row + 1))
    have hcol := happend (happend hrow (Term.printable_of_all (by decide) : ∀ c ∈ str " C", Printable c)) (printable_decimal bf.col)
    cases hf : bf.file with
    | none => exact happend (happend hcol (List.forall_mem_nil _)) (Term.printable_of_all (by decide))
    | some f =>
        have hfile := happend (Term.printable_of_all (by decide) : ∀ c ∈ str "   ", Printable c) (h.file f hf)
        exact happend (happend hcol hfile) (Term.printable_of_all (by decide))
  exact ⟨_, _, hline, .inverse (pad_spec hx cols).2 (Nat.le_of_eq (pad_spec hx cols).1)⟩

theorem mapM_ok {α β : Type} {f : α → Except Error β} {P : β → Prop} {xs : List α}
    (h : ∀ x ∈ xs, ∃ y, f x = .ok y ∧ P y) : ∃ ys, xs.mapM f = .ok ys ∧ ys.length = xs.length ∧ ∀ y ∈ ys, P y := by
  induction xs with
  | nil => exact ⟨[], rfl, rfl, nofun⟩
  | cons x xs ih =>
      obtain ⟨y, hy, hP⟩ := h x List.mem_cons_self
      obtain ⟨ys, hys, hlen, hall⟩ := ih fun x' hx' => h x' (List.mem_cons_of_mem x hx')
      refine ⟨y :: ys, ?_, congrArg Nat.succ hlen, fun y' hy' => ?_⟩
      · rw [List.mapM_cons, hy, ok_bind, hys]
        rfl
      · rcases List.mem_cons.mp hy' with rfl | hy'
        · exact hP
        · exact hall y' hy'

/-- The rows of a legible editor. -/
theorem screenRows_ok (h : Legible cols rows ed bf) (hcols : 0 < cols) (hrows : 2 ≤ rows) :
    ∃ lines, ed.screenRows = .ok lines ∧ lines.length = rows ∧ ∀ line ∈ lines, ∃ s, Row cols line s := by
  have htext : ∀ i ∈ List.range ed.textRows.toNat, ∃ line, (do
      let r := bf.top + i
      if r ≤ bf.lastRow then visible (← bf.line r) bf.left cols else pure [] : Except Error Str) = .ok line ∧
      ∃ s, Row cols line s := by
    intro i _
    dsimp only
    split_ifs with hr
    · have hlt : bf.top + i < bf.lines.length := by
        have := List.length_pos_iff.mpr h.lines
        unfold Buffer.lastRow at hr
        omega
      have hmem : bf.lines.getD (bf.top + i) [] ∈ bf.lines := by
        rw [List.getD_eq_getElem?_getD, List.getElem?_eq_getElem hlt]
        exact List.getElem_mem hlt
      obtain ⟨s, hs, hrow⟩ := visible_row (h.line _ hmem) bf.left hcols
      refine ⟨s, ?_, s, hrow⟩
      show (nth bf.lines (bf.top + i : Nat) >>= _) = _
      rw [nth_ok [] hlt, ok_bind, hs]
    · exact ⟨[], rfl, [], .text (List.forall_mem_nil _) (Nat.zero_le _)⟩
  obtain ⟨lines, hlines, hlen, hall⟩ := mapM_ok htext
  obtain ⟨line, s, hmode, hrow⟩ := modeLine_row h
  have hmini : ∀ c ∈ ed.prompt.getD ed.msg, Printable c := by
    cases hp : ed.prompt with
    | none => exact h.msg
    | some p => exact h.prompt p hp
  obtain ⟨m, hm, hmrow⟩ := visible_row hmini 0 hcols
  refine ⟨lines ++ [line] ++ [m], ?_, ?_, fun line' hline' => ?_⟩
  · unfold Editor.screenRows Editor.buf!
    rw [h.buf, h.size]
    dsimp only
    rw [ok_bind, hlines, ok_bind, hmode, ok_bind, hm]
    rfl
  · rw [List.length_append, List.length_append, hlen, List.length_range]
    unfold Editor.textRows
    rw [h.size]
    dsimp only [List.length_singleton]
    omega
  · rcases List.mem_append.mp hline' with hline' | hline'
    · rcases List.mem_append.mp hline' with hline' | hline'
      · exact hall line' hline'
      · exact ⟨s, List.mem_singleton.mp hline' ▸ hrow⟩
    · exact ⟨m, List.mem_singleton.mp hline' ▸ hmrow⟩

/-- Point is on the screen after `scrollToPoint`. -/
theorem scrollToPoint_ok (h : Legible cols rows ed bf) (hcols : 3 ≤ cols) (hrows : 3 ≤ rows) :
    ∃ ed' bf', ed.scrollToPoint = .ok ed' ∧ Legible cols rows ed' bf' ∧ ed'.prompt = ed.prompt ∧
      ed'.screen = ed.screen ∧ bf'.top ≤ bf'.row ∧ bf'.row < bf'.top + rows ∧ bf'.left ≤ bf'.col ∧
      bf'.col < bf'.left + cols := by
  have hscroll : ∃ top left : Nat, ed.scrollToPoint = .ok (ed.setBuf { bf with top := top, left := left }) ∧
      top ≤ bf.row ∧ bf.row < top + rows ∧ left ≤ bf.col ∧ bf.col < left + cols := by
    unfold Editor.scrollToPoint Editor.updateBuf Editor.buf!
    rw [h.buf]
    refine ⟨_, _, rfl, ?_⟩
    unfold Editor.textRows
    rw [h.size]
    dsimp only
    rw [Int.tdiv_eq_ediv_of_nonneg (show 0 ≤ (rows : Int) - 2 by omega)]
    refine ⟨?_, ?_, ?_, ?_⟩ <;> split_ifs <;> omega
  obtain ⟨top, left, hok, hpoint⟩ := hscroll
  refine ⟨_, { bf with top := top, left := left }, hok, ?_, rfl, rfl, hpoint⟩
  exact { size := h.size, buf := AList.lookup_insert _, lines := h.lines, line := h.line, name := h.name
          file := h.file, prompt := h.prompt, msg := h.msg }

/-! ### Rewritten rows -/

/-- What stands in a row of the terminal after it was rewritten: `CSI K` erases the last column after a row of `cols`
characters. -/
def rewritten (cols : Nat) (line : Str) (col : Nat) : Char := ((withoutSgr line).take (cols - 1)).getD col ' '

variable {st : Term.State} {old new : List Str} {k : Nat}

/-- `s` was written from the start of the row that the cursor is in, and all else stays. -/
structure Wrote (s : Str) (st st' : Term.State) : Prop where
  cy : st'.cy = st.cy
  cx : st'.cx = min s.length (st.cols - 1)
  chars : ∀ row col, row < st.rows → col < st.cols → st'.charAt row col =
    if row = st.cy ∧ col < s.length then s[col]? else st.charAt row col

theorem writes_printable (readString : Str → Except Error (Option Int)) (hr : st.Ready) (hwrap : st.wrap = false)
    (hcx : st.cx = 0) (hs : ∀ c ∈ s, Printable c) (hlen : s.length ≤ st.cols) :
    ∃ st', Writes readString st s st' ∧ Wrote s st st' := by
  have hfits : st.cx + s.length ≤ st.cols := by omega
  obtain ⟨st', hw, hcy, hcx', hchars⟩ := Term.writes_row readString hr hwrap hs hfits
  rw [hcx, Nat.zero_add] at hcx'
  refine ⟨st', hw, hcy, hcx', fun row col hrow hcol => ?_⟩
  have hchar := hchars row col hrow hcol
  rw [hcx, Nat.zero_add, Nat.sub_zero] at hchar
  rw [hchar]
  exact if_congr (by omega) rfl rfl

theorem charAt_recolored {st st' : Term.State} (h : Term.Recolored st st') (row col : Nat) :
    st'.charAt row col = st.charAt row col := by
  unfold Term.State.charAt
  rw [h.cells]

theorem Wrote.recolored {st₁ st₂ st₃ : Term.State} (h : Wrote s st₁ st₂) (hon : Term.Recolored st st₁)
    (hoff : Term.Recolored st₂ st₃) : Wrote s st st₃ where
  cy := hoff.cy.trans (h.cy.trans hon.cy)
  cx := by rw [hoff.cx, h.cx, hon.screen.cols]
  chars := by
    intro row col hrow hcol
    rw [charAt_recolored hoff, h.chars row col (hon.screen.rows ▸ hrow) (hon.screen.cols ▸ hcol), charAt_recolored hon,
      hon.cy]

/-- A text between `CSI n m` and `CSI 0 m`. -/
theorem writes_coded (hread : ReadsDecimal readString) (hr : st.Ready) (hwrap : st.wrap = false) (hcx : st.cx = 0)
    {n : Nat} (hn : n = 7 ∨ n = 0 ∨ n = 4) (hs : ∀ c ∈ s, Printable c) (hlen : s.length ≤ st.cols) :
    ∃ st', Writes readString st (csiText (paramText [n]) 'm' ++ (s ++ csiText (paramText [0]) 'm')) st' ∧
      Wrote s st st' := by
  have hon : Term.Recolored st (Term.sgr1 st n) := Term.recolored_sgr1 n
  have hwon := Term.writes_sgr hread hr hn
  obtain ⟨st₂, hw, hwrote⟩ := writes_printable readString (hwon.ready hr) (hon.wrap.trans hwrap) (hon.cx.trans hcx) hs
    (hon.screen.cols.symm ▸ hlen)
  have hwoff := Term.writes_sgr hread (hw.ready (hwon.ready hr)) (.inr (.inl rfl))
  exact ⟨_, hwon.append (hw.append hwoff), hwrote.recolored hon (Term.recolored_sgr1 _)⟩

/-- A row written from the start of a row of the terminal. -/
theorem writes_line (hread : ReadsDecimal readString) (hr : st.Ready) (hwrap : st.wrap = false) (hcx : st.cx = 0)
    (h : Row st.cols line s) : ∃ st', Writes readString st line st' ∧ Wrote s st st' := by
  cases h with
  | text hs hlen => exact writes_printable readString hr hwrap hcx hs hlen
  | inverse hs hlen =>
      rw [List.append_assoc, List.append_assoc]
      exact writes_coded hread hr hwrap hcx (.inl rfl) hs hlen
  | underlined hs hlen =>
      rw [List.append_assoc, List.append_assoc]
      exact writes_coded hread hr hwrap hcx (.inr (.inr rfl)) hs hlen

theorem rowText_eq (i : Nat) (line : Str) :
    Editor.rowText i line = csiText (paramText [i + 1, 0 + 1]) 'H' ++ (line ++ csiText [] 'K') := by
  have hparams : paramText [i + 1, 0 + 1] = decimal (i + 1) ++ [';'] ++ ['1'] := by
    unfold paramText
    rw [List.map_cons, List.map_singleton, List.intercalate_cons_cons, List.intercalate_singleton]
    rfl
  unfold Editor.rowText csiText
  rw [hparams]
  simp only [List.append_assoc]
  rfl

theorem writes_rowText (hread : ReadsDecimal readString) (hr : st.Ready) (hi : i < st.rows) (h : Row st.cols line s) :
    ∃ st', Writes readString st (Editor.rowText i line) st' ∧
      ∀ row col, row < st.rows → col < st.cols → st'.charAt row col =
        if row = i then some (rewritten st.cols line col) else st.charAt row col := by
  have hcols := hr.cols_pos
  have hgoto := Term.writes_goto hread hr i 0
  have hready := hgoto.ready hr
  rw [Term.moveTo_within hcols hi] at hgoto hready
  obtain ⟨st', hw, hcy, hcx, hchars⟩ := writes_line hread hready rfl rfl h
  dsimp only at hcy hcx
  have hready' := hw.ready hready
  have hscreen := hw.goes.screen
  refine ⟨st'.erasedRight, ?_, fun row col hrow hcol => ?_⟩
  · rw [rowText_eq]
    exact hgoto.append (hw.append (Term.writes_eraseRight hready'))
  · have hcols' : st'.cols = st.cols := hscreen.cols
    have hrows' : st'.rows = st.rows := hscreen.rows
    have hchar := hchars row col hrow hcol
    dsimp only at hchar
    unfold Term.State.erasedRight
    rw [Term.charAt_erased hready'.toGood _ (by omega) (by omega), hchar]
    have hlen := h.length_le
    unfold rewritten
    rw [withoutSgr_row h, List.getD_eq_getElem?_getD]
    by_cases hi' : row = i
    · rw [if_pos hi']
      by_cases hin : col < min s.length (st.cols - 1)
      · rw [if_neg (by rw [decide_eq_true_eq]; omega), if_pos ⟨hi', by omega⟩, List.getElem?_take_of_lt (by omega),
          List.getElem?_eq_getElem (by omega)]
        rfl
      · rw [if_pos (decide_eq_true ⟨by omega, by omega, by omega⟩),
          List.getElem?_eq_none (by rw [List.length_take]; omega)]
        rfl
    · rw [if_neg hi', if_neg (by rw [decide_eq_true_eq]; omega), if_neg (fun h => hi' h.1)]
      rfl

/-- The rows from `k` on: those that differ from the old ones are rewritten, all else stays. -/
theorem writes_rowTexts (hread : ReadsDecimal readString) (old : List Str) (hr : st.Ready)
    (hnew : ∀ line ∈ new, ∃ s, Row st.cols line s) (hk : k + new.length ≤ st.rows) :
    ∃ st', Writes readString st
        ((new.zipIdx k).flatMap fun li => if some li.1 = old[li.2]? then [] else Editor.rowText li.2 li.1) st' ∧
      ∀ row col, row < st.rows → col < st.cols →
        (∀ i line, new[i]? = some line → row = k + i → old[row]? ≠ some line →
          st'.charAt row col = some (rewritten st.cols line col)) ∧
        ((∀ i line, new[i]? = some line → row = k + i → old[row]? = some line) →
          st'.charAt row col = st.charAt row col) := by
  induction new generalizing st k with
  | nil => exact ⟨st, Term.writes_nil hr.toGood, fun row col _ _ => ⟨nofun, fun _ => rfl⟩⟩
  | cons line new ih =>
      obtain ⟨s, hrow⟩ := hnew line List.mem_cons_self
      rw [List.length_cons] at hk
      -- the first row
      obtain ⟨st₁, hw, hsame, hfirst⟩ : ∃ st₁, Writes readString st
          (if some line = old[k]? then [] else Editor.rowText k line) st₁ ∧
          (∀ row col, row < st.rows → col < st.cols → (row = k → old[k]? = some line) →
            st₁.charAt row col = st.charAt row col) ∧
          ∀ col, col < st.cols → old[k]? ≠ some line → st₁.charAt k col = some (rewritten st.cols line col) := by
        by_cases heq : some line = old[k]?
        · rw [if_pos heq]
          exact ⟨st, Term.writes_nil hr.toGood, fun _ _ _ _ _ => rfl, fun _ _ hne => absurd heq.symm hne⟩
        · rw [if_neg heq]
          obtain ⟨st₁, hw, hchars⟩ := writes_rowText hread hr (i := k) (by omega) hrow
          refine ⟨st₁, hw, fun row col hrow hcol hold => ?_, fun col hcol _ => ?_⟩
          · rw [hchars row col hrow hcol, if_neg fun h => heq (hold h).symm]
          · rw [hchars k col (by omega) hcol, if_pos rfl]
      have hscreen := hw.goes.screen
      obtain ⟨st', hrest, hchars⟩ := ih (k := k + 1) (hw.ready hr)
        (fun l hl => hscreen.cols ▸ hnew l (List.mem_cons_of_mem line hl)) (by rw [hscreen.rows]; omega)
      rw [hscreen.cols, hscreen.rows] at hchars
      refine ⟨st', ?_, fun row col hrow hcol => ⟨?_, ?_⟩⟩
      · rw [List.zipIdx_cons, List.flatMap_cons]
        exact hw.append hrest
      · obtain ⟨hnewRow, hsameRow⟩ := hchars row col hrow hcol
        intro i line' hi hrowi hold
        cases i with
        | zero =>
            obtain rfl : line = line' := Option.some.inj hi
            obtain rfl : row = k := hrowi
            rw [hsameRow fun j _ _ hj => by omega]
            exact hfirst col hcol hold
        | succ i => exact hnewRow i line' hi (by omega) hold
      · obtain ⟨hnewRow, hsameRow⟩ := hchars row col hrow hcol
        intro hall
        rw [hsameRow fun i l hi hrowi => hall (i + 1) l hi (by omega)]
        exact hsame row col hrow hcol fun h => h ▸ hall 0 line rfl (by omega)

/-! ### One redisplay -/

theorem scrollToPoint_screen (ed : Editor) (screen : List Str) :
    ({ ed with screen := screen } : Editor).scrollToPoint =
      ed.scrollToPoint.map fun ed' => { ed' with screen := screen } := by
  unfold Editor.scrollToPoint Editor.updateBuf
  show (ed.buf! >>= fun _ => ed.buf! >>= _) = Except.map _ (ed.buf! >>= fun _ => ed.buf! >>= _)
  cases ed.buf! with
  | error e => rfl
  | ok bf => rfl

/-- The cursor's row and column. -/
theorem redisplay_eq {lines : List Str} (h : ed.scrollToPoint = .ok ed') (hbuf : ed'.buf = some bf)
    (hlines : ed'.screenRows = .ok lines) {row col : Nat} (hcur : ed'.cursor bf lines.length = ((row : Int), (col : Int)))
    (screen : List Str) :
    ({ ed with screen := screen } : Editor).redisplay = .ok (csiText ('?' :: decimal 25) 'l' ++
      (Editor.changedRows screen lines ++
        (csiText (paramText [row + 1, col + 1]) 'H' ++ csiText ('?' :: decimal 25) 'h')),
      { ed' with screen := lines }) := by
  have hparams : paramText [row + 1, col + 1] = decimal (row + 1) ++ [';'] ++ decimal (col + 1) := by
    unfold paramText
    rw [List.map_cons, List.map_singleton, List.intercalate_cons_cons, List.intercalate_singleton]
  have hbuf' : ed'.buf! = .ok bf := by
    unfold Editor.buf!
    rw [hbuf]
  unfold Editor.redisplay
  rw [scrollToPoint_screen, h]
  show (ed'.screenRows >>= _) = _
  rw [hlines, ok_bind]
  show (ed'.buf! >>= _) = _
  rw [hbuf', ok_bind]
  show Except.ok (csi ++ str "?25l" ++ Editor.changedRows screen lines ++ csi ++
    decimal ((ed'.cursor bf lines.length).1 + 1).toNat ++ [';'] ++
    decimal ((ed'.cursor bf lines.length).2 + 1).toNat ++ ['H'] ++ csi ++ str "?25h", _) = _
  rw [hcur, hparams]
  unfold csiText
  simp only [List.append_assoc]
  rfl

/-- The terminal takes text, and every row that `:screen` has was rewritten. -/
structure Drawn (s : Screen) : Prop where
  ready : s.term.Ready
  row : ∀ i line, s.rows[i]? = some line → ∀ col, i < s.term.rows → col < s.term.cols →
    s.term.charAt i col = some (rewritten s.term.cols line col)

/-- After the rows that changed, the terminal has all rows as they are rewritten. -/
theorem writes_changedRows (hread : ReadsDecimal readString) (hr : st.Ready) {lines : List Str}
    (hlines : ∀ line ∈ lines, ∃ s, Row st.cols line s) (hlen : lines.length = st.rows)
    (hold : ∀ i line, old[i]? = some line → ∀ col, i < st.rows → col < st.cols →
      st.charAt i col = some (rewritten st.cols line col)) :
    ∃ st', Writes readString st (Editor.changedRows old lines) st' ∧
      ∀ i line, lines[i]? = some line → ∀ col, col < st.cols →
        st'.charAt i col = some (rewritten st.cols line col) := by
  obtain ⟨st', hw, hchars⟩ := writes_rowTexts hread old (k := 0) hr hlines (Nat.le_of_eq ((Nat.zero_add _).trans hlen))
  refine ⟨st', hw, fun i line hi c hc => ?_⟩
  have hlt : i < st.rows := hlen ▸ (List.getElem?_eq_some_iff.mp hi).1
  obtain ⟨hnew, hsame⟩ := hchars i c hlt hc
  by_cases heq : old[i]? = some line
  · rw [hsame fun j l hj hij => ?_]
    · exact hold i line heq c hlt hc
    · rw [heq, ← hi, hij, Nat.zero_add, hj]
  · exact hnew i line hi (Nat.zero_add i).symm heq

/-- What is drawn: the rows as they are rewritten, and the cursor. -/
theorem writes_redisplay (hread : ReadsDecimal readString) (hr : st.Ready) {lines : List Str}
    (hlines : ∀ line ∈ lines, ∃ s, Row st.cols line s) (hlen : lines.length = st.rows)
    (hold : ∀ i line, old[i]? = some line → ∀ col, i < st.rows → col < st.cols →
      st.charAt i col = some (rewritten st.cols line col)) (row col : Nat) :
    ∃ st', Writes readString st (csiText ('?' :: decimal 25) 'l' ++ (Editor.changedRows old lines ++
        (csiText (paramText [row + 1, col + 1]) 'H' ++ csiText ('?' :: decimal 25) 'h'))) st' ∧
      (∀ i line, lines[i]? = some line → ∀ col, col < st.cols →
        st'.charAt i col = some (rewritten st.cols line col)) ∧
      (row < st.rows → col < st.cols → st'.cy = row ∧ st'.cx = col) := by
  have hhide := Term.writes_cursor hread hr (.inl rfl)
  obtain ⟨st₁, hw, hchars⟩ := writes_changedRows hread (hhide.ready hr) hlines hlen hold
  have hr₁ := hw.ready (hhide.ready hr)
  have hgoto := Term.writes_goto hread hr₁ row col
  have hshow := Term.writes_cursor hread (hgoto.ready hr₁) (.inr rfl)
  have hscreen := hw.goes.screen
  refine ⟨_, hhide.append (hw.append (hgoto.append hshow)), hchars, fun hrow hcol => ?_⟩
  · have hrow' : row < st₁.rows := hscreen.rows.symm ▸ hrow
    have hcol' : col < st₁.cols := hscreen.cols.symm ▸ hcol
    rw [Term.moveTo_within hcol' hrow']
    exact ⟨rfl, rfl⟩

/-- What a `redisplay!` of a legible editor leaves. -/
structure Redisplayed (ed : Editor) (s s' : Screen) : Prop where
  drawn : Drawn s'
  cols : s'.term.cols = s.term.cols
  rows : s'.term.rows = s.term.rows
  shown : ∃ ed' bf, ed.scrollToPoint = .ok ed' ∧ ed'.buf = some bf ∧ ed'.screenRows = .ok s'.rows ∧
    s'.rows.length = s.term.rows ∧ (∀ line ∈ s'.rows, ∃ t, Row s.term.cols line t) ∧
    (ed.prompt = none → (s'.term.cx : Int) = bf.col - bf.left ∧ (s'.term.cy : Int) = bf.row - bf.top)

theorem step_ok (hread : ReadsDecimal readString) {s : Screen} (hs : Drawn s) (e : Redisplay)
    (he : Legible s.term.cols s.term.rows e.ed bf) (hcols : 3 ≤ s.term.cols) (hrows : 3 ≤ s.term.rows) :
    ∃ s', step readString e s = some s' ∧ Redisplayed e.ed s s' := by
  obtain ⟨ed', bf', hscroll, he', hprompt, -, htop, hrow, hleft, hcol⟩ := scrollToPoint_ok he hcols hrows
  obtain ⟨lines, hlines, hlen, hall⟩ := screenRows_ok he' (by omega) (by omega)
  obtain ⟨row, col, hcur, hpoint⟩ : ∃ row col : Nat,
      ed'.cursor bf' lines.length = ((row : Int), (col : Int)) ∧ (e.ed.prompt = none →
        row = bf'.row - bf'.top ∧ col = bf'.col - bf'.left) := by
    unfold Editor.cursor
    cases hp : ed'.prompt with
    | none => exact ⟨bf'.row - bf'.top, bf'.col - bf'.left, by rw [Int.ofNat_sub htop, Int.ofNat_sub hleft], fun _ => ⟨rfl, rfl⟩⟩
    | some p =>
        refine ⟨lines.length - 1, p.length, by rw [Int.ofNat_sub (by omega)]; rfl, fun hnone => ?_⟩
        rw [← hprompt, hp] at hnone
        cases hnone
  -- the terminal with its cursor hidden
  have hr : ({ s.term with drawnCursor := none } : Term.State).Ready :=
    { toGood := hs.ready.toGood.cursorAt nofun, mode := hs.ready.mode, params := hs.ready.params }
  have hold : ∀ i line, (e.editor s).screen[i]? = some line → ∀ c, i < s.term.rows → c < s.term.cols →
      s.term.charAt i c = some (rewritten s.term.cols line c) := by
    unfold Redisplay.editor
    dsimp only
    split_ifs
    · exact nofun
    · exact hs.row
  obtain ⟨st', hw, hshown, hcursor⟩ := writes_redisplay hread hr hall hlen hold row col
  obtain ⟨g', hfeed⟩ := Term.feed_of_writes hs.ready.toGood hw s.gfx
  have hscreen := hw.goes.screen
  refine ⟨⟨st'.withCursor, g', lines⟩, ?_, ?_⟩
  · unfold step Redisplay.editor
    rw [redisplay_eq hscroll he'.buf hlines hcur]
    change Term.feed readString s.term (_ ++ (Editor.changedRows (if e.recenter then [] else s.rows) lines ++ _)) _ = _
      at hfeed
    dsimp only
    rw [hfeed]
  · have hcursorScreen := Term.sameScreen_withCursor st'
    have hcols' : st'.withCursor.cols = s.term.cols := hcursorScreen.cols.trans hscreen.cols
    have hrows' : st'.withCursor.rows = s.term.rows := hcursorScreen.rows.trans hscreen.rows
    refine ⟨⟨Term.ready_withCursor (hw.ready hr), fun i line hi c _ hc => ?_⟩, hcols', hrows', ed', bf', hscroll, he'.buf,
      hlines, hlen, hall, fun hnone => ?_⟩
    · rw [Term.charAt_withCursor, hcols']
      exact hshown i line hi c (hcols' ▸ hc)
    · obtain ⟨rfl, rfl⟩ := hpoint hnone
      obtain ⟨hcy, hcx⟩ := hcursor (by dsimp only; omega) (by dsimp only; omega)
      rw [Term.cx_withCursor, Term.cy_withCursor, hcy, hcx, Int.ofNat_sub hleft, Int.ofNat_sub htop]
      exact ⟨rfl, rfl⟩

/-! ### Runs of redisplays -/

theorem run_ok (hread : ReadsDecimal readString) {s : Screen} (hs : Drawn s) (hcols : 3 ≤ s.term.cols)
    (hrows : 3 ≤ s.term.rows) {es : List Redisplay} (hall : ∀ e ∈ es, ∃ bf, Legible s.term.cols s.term.rows e.ed bf) :
    ∃ s', runEvents (step readString) s es = some s' ∧ Drawn s' ∧ s'.term.cols = s.term.cols ∧
      s'.term.rows = s.term.rows := by
  induction es generalizing s with
  | nil => exact ⟨s, rfl, hs, rfl, rfl⟩
  | cons e es ih =>
      obtain ⟨bf, he⟩ := hall e List.mem_cons_self
      obtain ⟨s₁, hstep, h₁⟩ := step_ok hread hs e he hcols hrows
      obtain ⟨s', hrun, hs', hcols', hrows'⟩ := ih h₁.drawn (h₁.cols ▸ hcols) (h₁.rows ▸ hrows) fun e' he' => by
        rw [h₁.cols, h₁.rows]
        exact hall e' (List.mem_cons_of_mem e he')
      refine ⟨s', ?_, hs', hcols'.trans h₁.cols, hrows'.trans h₁.rows⟩
      rw [runEvents, hstep]
      exact hrun

theorem rewritten_eq_iff (h : Row cols line l) (hcols : 0 < cols) :
    (∀ col, col < cols → rewritten cols line col = (withoutSgr line).getD col ' ') ↔
      ((withoutSgr line).length = cols → (withoutSgr line).getLast? = some ' ') := by
  unfold rewritten
  rw [withoutSgr_row h]
  have hlen := h.length_le
  constructor
  · intro hall hfull
    have hlast := hall (cols - 1) (by omega)
    rw [List.getD_eq_default _ _ (by rw [List.length_take]; omega)] at hlast
    rw [List.getLast?_eq_getElem?, hfull, List.getElem?_eq_getElem (by omega)]
    rw [List.getD_eq_getElem _ _ (by omega)] at hlast
    rw [← hlast]
  · intro hblank col hcol
    by_cases hin : col < cols - 1
    · rw [List.getD_eq_getElem?_getD, List.getElem?_take_of_lt hin, List.getD_eq_getElem?_getD]
    · rw [List.getD_eq_default _ _ (by rw [List.length_take]; omega)]
      by_cases hfull : l.length = cols
      · have hlast := hblank hfull
        have hcol' : col = l.length - 1 := by omega
        rw [List.getLast?_eq_getElem?, ← hcol'] at hlast
        rw [List.getD_eq_getElem?_getD, hlast]
        rfl
      · rw [List.getD_eq_default _ _ (by omega)]

/-- The terminal shows the editor exactly if every full row ends with a blank. -/
theorem Redisplayed.shows_iff {s s' : Screen} (h : Redisplayed ed s s') (hsize : ed.size = (s.term.cols, s.term.rows))
    (hcols : 3 ≤ s.term.cols) : ShowsEditor s'.term ed ↔ EndsBlank ed := by
  obtain ⟨ed', bf, hscroll, hbuf, hlines, hlen, hrow, hcursor⟩ := h.shown
  constructor
  · intro hshows ed'' lines hscroll' hlines' line hline
    obtain ⟨ed₂, bf₂, lines₂, hscroll₂, -, hlines₂, -, hchars, -⟩ := hshows
    obtain rfl : ed₂ = ed'' := Except.ok.inj (hscroll₂.symm.trans hscroll')
    obtain rfl : lines₂ = lines := Except.ok.inj (hlines₂.symm.trans hlines')
    obtain rfl : ed' = ed₂ := Except.ok.inj (hscroll.symm.trans hscroll')
    obtain rfl : s'.rows = lines₂ := Except.ok.inj (hlines.symm.trans hlines')
    obtain ⟨i, hi, rfl⟩ := List.getElem_of_mem hline
    obtain ⟨t, ht⟩ := hrow _ hline
    rw [hsize]
    refine (rewritten_eq_iff ht (by omega)).mp fun col hcol => ?_
    have hi' := List.getElem?_eq_getElem hi
    have hdrawn := h.drawn.row i _ hi' col (by rw [h.rows]; omega) (h.cols.symm ▸ hcol)
    rw [hchars i _ hi' col (h.cols.symm ▸ hcol), h.cols] at hdrawn
    exact (Option.some.inj hdrawn).symm
  · intro hblank
    refine ⟨ed', bf, s'.rows, hscroll, hbuf, hlines, hlen.trans h.rows.symm, fun i line hi col hcol => ?_, hcursor⟩
    have hmem := List.mem_of_getElem? hi
    obtain ⟨t, ht⟩ := hrow line hmem
    have hlt := (List.getElem?_eq_some_iff.mp hi).1
    rw [h.drawn.row i line hi col (by rw [h.rows]; omega) hcol, h.cols]
    refine congrArg some ((rewritten_eq_iff ht (by omega)).mpr ?_ col (h.cols ▸ hcol))
    have hend := hblank ed' s'.rows hscroll hlines line hmem
    rw [hsize] at hend
    exact hend

/-- After any run of `redisplay!`s from an empty `:screen`, the terminal shows the last editor state exactly if none of
its rows of as many characters as the terminal has columns ends with another character than a blank. -/
theorem showsEditor_iff (hread : ReadsDecimal readString) {s : Screen} (hr : s.term.Ready) (hempty : s.rows = [])
    (hcols : 3 ≤ s.term.cols) (hrows : 3 ≤ s.term.rows) {es : List Redisplay} {e : Redisplay}
    (hall : ∀ e' ∈ es ++ [e], ∃ bf, Legible s.term.cols s.term.rows e'.ed bf) :
    ∃ s', runEvents (step readString) s (es ++ [e]) = some s' ∧ (ShowsEditor s'.term e.ed ↔ EndsBlank e.ed) := by
  have hs : Drawn s := ⟨hr, fun i line hi => by rw [hempty] at hi; cases hi⟩
  have hfirst : ∀ e' ∈ es, ∃ bf, Legible s.term.cols s.term.rows e'.ed bf :=
    fun e' he' => hall e' (List.mem_append_left [e] he')
  obtain ⟨s₁, hrun, hs₁, hcols₁, hrows₁⟩ := run_ok hread hs hcols hrows hfirst
  obtain ⟨bf, he⟩ := hall e (List.mem_append_right es (List.mem_singleton_self e))
  rw [← hcols₁] at he hcols
  rw [← hrows₁] at he hrows
  obtain ⟨s', hstep, h⟩ := step_ok hread hs₁ e he hcols hrows
  refine ⟨s', ?_, h.shows_iff he.size hcols⟩
  rw [runEvents_append, hrun]
  show (step readString e s₁).bind _ = _
  rw [hstep]
  rfl

/-! ### Two editors on a terminal of 40 columns and 3 rows -/

def smallTerm : Term.Options where
  cols := 40
  rows := 3
  font := Term.emptyFont

def smallStart : Screen := ⟨smallTerm.made, Term.smallScreen, []⟩

/-- An editor with one line of text. -/
def oneLine (text : Str) : Editor where
  buffers := (∅ : AList fun _ : Str => Buffer).insert (str "b") { name := str "b", file := none, lines := [text] }
  current := str "b"
  size := (40, 3)

theorem legible_oneLine {text : Str} (h : ∀ c ∈ text, Printable c) :
    Legible 40 3 (oneLine text) { name := str "b", file := none, lines := [text] } where
  size := rfl
  buf := AList.lookup_insert _
  lines := List.cons_ne_nil _ _
  line l hl := List.mem_singleton.mp hl ▸ h
  name := (Term.printable_of_all (by decide) : ∀ c ∈ str "b", Printable c)
  file := nofun
  prompt := nofun
  msg := nofun

theorem ready_smallStart : smallStart.term.Ready :=
  { toGood := Term.good_made (by decide) (by decide), mode := rfl, params := rfl }

theorem showsEditor_iff_hi :
    ∃ s', runEvents (step Term.readDecimal) smallStart ([] ++ [⟨oneLine (str "hi"), false⟩]) = some s' ∧
      (ShowsEditor s'.term (oneLine (str "hi")) ↔ EndsBlank (oneLine (str "hi"))) := by
  refine showsEditor_iff Term.readsDecimal_readDecimal ready_smallStart rfl (by decide) (by decide) fun e he => ?_
  rw [List.mem_singleton.mp he]
  exact ⟨_, legible_oneLine (Term.printable_of_all (by decide))⟩

/-- A line that fills its row. -/
def fullLine : Str := List.replicate 40 'a'

/-- The last character of a line that fills its row is erased. -/
theorem not_showsEditor_fullRow :
    ¬∀ (s : Screen) (es : List Redisplay) (e : Redisplay), s.term.Ready → s.rows = [] → 3 ≤ s.term.cols →
      3 ≤ s.term.rows → (∀ e' ∈ es ++ [e], ∃ bf, Legible s.term.cols s.term.rows e'.ed bf) →
      ∀ s', runEvents (step Term.readDecimal) s (es ++ [e]) = some s' → ShowsEditor s'.term e.ed := by
  intro h
  have hlegible : Legible 40 3 (oneLine fullLine) _ := legible_oneLine (Term.printable_of_all (by decide))
  obtain ⟨s', hstep, hs'⟩ := step_ok Term.readsDecimal_readDecimal (s := smallStart) ⟨ready_smallStart, nofun⟩
    ⟨oneLine fullLine, false⟩ hlegible (by decide) (by decide)
  have hrun : runEvents (step Term.readDecimal) smallStart ([] ++ [⟨oneLine fullLine, false⟩]) = some s' := by
    show (step _ _ _).bind _ = _
    rw [hstep]
    rfl
  have hall : ∀ e' ∈ [] ++ [(⟨oneLine fullLine, false⟩ : Redisplay)], ∃ bf, Legible 40 3 e'.ed bf := by
    intro e' he'
    rw [List.mem_singleton.mp he']
    exact ⟨_, hlegible⟩
  have hshows := h smallStart [] ⟨oneLine fullLine, false⟩ ready_smallStart rfl (by decide) (by decide) hall s' hrun
  have hblank := (hs'.shows_iff rfl (by decide)).mp hshows
  obtain ⟨ed', bf, hscroll, -, hlines, -⟩ := hs'.shown
  have hhead : ((oneLine fullLine).scrollToPoint >>= Editor.screenRows).toOption.bind (·.head?) = some fullLine := by
    rfl
  rw [hscroll, ok_bind, hlines] at hhead
  have hlast := hblank ed' s'.rows hscroll hlines fullLine (List.mem_of_head? hhead) (by decide)
  exact absurd hlast (by decide)

end Beeros.Beermacs
