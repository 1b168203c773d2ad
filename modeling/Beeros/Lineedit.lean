import Beeros.FormComplete
import Beeros.Interleave
import Beeros.TermWrap

/-! `render!` of `beer.lineedit` (`lib/lineedit.beer`): the prompt and the line are written over the rows they had.
What does a terminal of `beer.term` show then? -/

namespace Beeros.Lineedit

open Beerlang Interleave FormComplete
open Term (Writes ReadsDecimal Printable csiText paramText unerased)

/-! ### `match-before` -/

/-- `(get closers c)`. -/
def closer (c : Char) : Option Char :=
  if c = ')' then some '(' else if c = ']' then some '[' else if c = '}' then some '{' else none

/-- The loop of `match-before`: the openers that are not closed yet, the last one first, and whether `j` is in a
string. -/
def matchLoop (buf : Str) (i : Nat) : Nat → Nat → List Nat → Bool → Except Error (Option Nat)
  | 0, _, _, _ => .error .endless
  | fuel + 1, j, stack, inStr => do
      if j ≤ i then
        let c ← nth buf j
        if inStr then
          if c = '\\' then matchLoop buf i fuel (j + 2) stack true
          else if c = '"' then matchLoop buf i fuel (j + 1) stack false
          else matchLoop buf i fuel (j + 1) stack true
        else if c = '"' then matchLoop buf i fuel (j + 1) stack true
        else if c = '\\' then matchLoop buf i fuel (j + 2) stack false
        else if c = ';' then pure none
        else if isOpener c then matchLoop buf i fuel (j + 1) (j :: stack) false
        else
          match closer c with
          | some opener =>
              if j = i then
                match stack with
                | [] => pure none
                | o :: _ => if (← nth buf o) = opener then pure (some o) else pure none
              else matchLoop buf i fuel (j + 1) stack.tail false
          | none => matchLoop buf i fuel (j + 1) stack false
      else pure none

/-- Index of the opener matching the closer at index `i` of `buf`. -/
def matchBefore (buf : Str) (i : Nat) : Except Error (Option Nat) := matchLoop buf i (i + 2) 0 [] false

/-! ### `render!` -/

/-- What `render!` reads of the editor's state. -/
structure State where
  prompt : Str
  buf : Str
  pos : Nat
  final : Bool
  crow : Option Nat

def csi : Str := ['\x1b', '[']

/-- The opener to be highlighted. -/
def State.hl (st : State) : Except Error (Option Nat) :=
  if st.final = false ∧ 0 < st.pos then do
    if (closer (← nth st.buf (st.pos - 1))).isSome then matchBefore st.buf (st.pos - 1) else pure none
  else pure none

def State.line (st : State) : Except Error Str := do
  match ← st.hl with
  | some o =>
      pure ((← subvec st.buf 0 o) ++ csi ++ ['7', 'm'] ++ [← nth st.buf o] ++ csi ++ ['0', 'm'] ++
        (← subvecFrom st.buf (o + 1)))
  | none => pure st.buf

/-- What is written on a tty of `w` columns, and the state with the new `:crow`. -/
def State.render (st : State) (w : Nat) : Except Error (Str × State) := do
  let line ← st.line
  let plen := st.prompt.length
  let stop := plen + st.buf.length
  let pos := plen + st.pos
  if w = 0 then throw .native
  let edge := stop > 0 ∧ stop % w = 0
  let erow := stop / w
  let trow := pos / w
  let up := erow - trow
  let crow := st.crow.getD 0
  pure ((if 0 < crow then csi ++ decimal crow ++ ['A'] else []) ++ (['\r'] ++ st.prompt ++ line ++ csi ++ ['J'] ++
      (if edge then ['\r', '\n'] else []) ++ (if 0 < up then csi ++ decimal up ++ ['A'] else []) ++ ['\r'] ++
      if 0 < pos % w then csi ++ decimal (pos % w) ++ ['C'] else []),
    { st with crow := some trow })

variable {readString : Str → Except Error (Option Int)} {buf s : Str} {i w : Nat} {st : State}

/-! ### The highlighted line -/

/-- The loop ends inside the buffer. -/
theorem matchLoop_ok (hi : i < buf.length) {fuel j : Nat} {stack : List Nat} {inStr : Bool}
    (hfuel : i + 1 - j < fuel) (hstack : ∀ o ∈ stack, o ≤ i) :
    ∃ r, matchLoop buf i fuel j stack inStr = .ok r ∧ ∀ o ∈ r, o ≤ i := by
  induction fuel generalizing j stack inStr with
  | zero => exact absurd hfuel (Nat.not_lt_zero _)
  | succ fuel ih =>
      have hnone : ∃ r, (pure none : Except Error (Option Nat)) = .ok r ∧ ∀ o ∈ r, o ≤ i :=
        ⟨none, rfl, nofun⟩
      rw [matchLoop]
      by_cases hj : j ≤ i
      · have hone : i + 1 - (j + 1) < fuel := by omega
        have htwo : i + 1 - (j + 2) < fuel := by omega
        rw [if_pos hj, nth_ok ' ' (by omega), ok_bind]
        generalize buf.getD j ' ' = c
        split_ifs
        · exact ih htwo hstack
        · exact ih hone hstack
        · exact ih hone hstack
        · exact ih hone hstack
        · exact ih htwo hstack
        · exact hnone
        · exact ih hone (List.forall_mem_cons.mpr ⟨hj, hstack⟩)
        · -- the closer asked for
          cases closer c with
          | none => exact ih hone hstack
          | some opener =>
              cases stack with
              | nil => exact hnone
              | cons o stack =>
                  have ho := hstack o List.mem_cons_self
                  dsimp only
                  rw [nth_ok ' ' (by omega), ok_bind]
                  split_ifs
                  · exact ⟨some o, rfl, fun o' ho' => Option.some.inj ho' ▸ ho⟩
                  · exact hnone
        · cases closer c with
          | none => exact ih hone hstack
          | some opener => exact ih hone fun o ho => hstack o (List.mem_of_mem_tail ho)
      · rw [if_neg hj]
        exact hnone

theorem matchBefore_ok (hi : i < buf.length) : ∃ r, matchBefore buf i = .ok r ∧ ∀ o ∈ r, o ≤ i :=
  matchLoop_ok hi (by omega) nofun

/-- The line is the text of the buffer, with one character perhaps in inverse. -/
theorem line_ok (hpos : st.pos ≤ st.buf.length) : ∃ l, st.line = .ok l ∧ (l = st.buf ∨
    ∃ pre c post, st.buf = pre ++ c :: post ∧
      l = pre ++ (csi ++ ['7', 'm']) ++ [c] ++ (csi ++ ['0', 'm']) ++ post) := by
  have hhl : ∃ r, st.hl = .ok r ∧ ∀ o ∈ r, o < st.buf.length := by
    unfold State.hl
    split_ifs with hclose
    · have hlt : st.pos - 1 < st.buf.length := by omega
      have hcast : (st.pos : Int) - 1 = (st.pos - 1 : Nat) := by omega
      rw [hcast, nth_ok ' ' hlt, ok_bind]
      split_ifs
      · obtain ⟨r, hr, hle⟩ := matchBefore_ok hlt
        exact ⟨r, hr, fun o ho => Nat.lt_of_le_of_lt (hle o ho) hlt⟩
      · exact ⟨none, rfl, nofun⟩
    · exact ⟨none, rfl, nofun⟩
  obtain ⟨r, hr, hlt⟩ := hhl
  unfold State.line
  rw [hr, ok_bind]
  cases r with
  | none => exact ⟨st.buf, rfl, .inl rfl⟩
  | some o =>
      have ho := hlt o rfl
      dsimp only
      have hpre : subvec st.buf 0 o = .ok (st.buf.take o) := subvec_zero (by omega)
      have hpost : subvecFrom st.buf ((o : Int) + 1) = .ok (st.buf.drop (o + 1)) :=
        subvecFrom_ok (i := o + 1) ho
      rw [hpre, ok_bind, nth_ok ' ' ho, ok_bind, hpost, ok_bind]
      refine ⟨_, rfl, .inr ⟨st.buf.take o, st.buf.getD o ' ', st.buf.drop (o + 1), ?_, ?_⟩⟩
      · rw [List.getD_eq_getElem _ _ ho, ← List.drop_eq_getElem_cons ho, List.take_append_drop]
      · simp only [List.append_assoc]

/-! ### The line on the terminal -/

section Writes

variable {term : Term.State} {t : Str} {p : Nat}

theorem csiText_number (n : Nat) (c : Char) : csiText (paramText [n]) c = csi ++ decimal n ++ [c] := by
  unfold csiText paramText
  rw [List.map_singleton, List.intercalate_singleton]
  rfl

/-- `CSI n m` behind a text. -/
theorem writes_inverse (hread : ReadsDecimal readString) (hr : term.Ready) (hold : term.Holds p t)
    (hb : term.Behind p t) {n : Nat} (hn : n = 7 ∨ n = 0) :
    Writes readString term (csi ++ decimal n ++ ['m']) (Term.sgr1 term n) ∧
      (Term.sgr1 term n).Holds p t ∧ (Term.sgr1 term n).Behind p t := by
  have hw := Term.writes_sgr hread hr (hn.imp_right .inl)
  rw [csiText_number] at hw
  exact ⟨hw, (Term.recolored_sgr1 n).holds hold hb⟩

/-- The line, highlighted or not, behind the prompt. -/
theorem writes_line {l : Str} (hread : ReadsDecimal readString) (hr : term.Ready) (hold : term.Holds p t)
    (hb : term.Behind p t) (hbuf : ∀ c ∈ buf, Printable c) (hfit : (t ++ buf).length / term.cols < term.rows)
    (hl : l = buf ∨ ∃ pre c post, buf = pre ++ c :: post ∧
      l = pre ++ (csi ++ ['7', 'm']) ++ [c] ++ (csi ++ ['0', 'm']) ++ post) :
    ∃ term' p', Writes readString term l term' ∧ term'.Holds p' (t ++ buf) ∧ term'.Behind p' (t ++ buf) := by
  rcases hl with rfl | ⟨pre, c, post, rfl, rfl⟩
  · exact Term.writes_text readString hr hold hb hbuf hfit
  · have hfits : ∀ n ≤ (t ++ (pre ++ c :: post)).length, n / term.cols < term.rows :=
      fun n hn => Nat.lt_of_le_of_lt (Nat.div_le_div_right hn) hfit
    simp only [List.length_append, List.length_cons] at hfits
    have hpre : ∀ c' ∈ pre, Printable c' := fun c' hc' => hbuf c' (List.mem_append_left _ hc')
    have hmid : ∀ c' ∈ [c], Printable c' := fun c' hc' =>
      hbuf c' (List.mem_append_right _ (List.mem_singleton.mp hc' ▸ List.mem_cons_self))
    have hpost : ∀ c' ∈ post, Printable c' := fun c' hc' =>
      hbuf c' (List.mem_append_right _ (List.mem_cons_of_mem c hc'))
    obtain ⟨st₁, p₁, h₁, hold₁, hb₁⟩ := Term.writes_text readString hr hold hb hpre
      (hfits _ (by rw [List.length_append]; omega))
    have hr₁ := h₁.ready hr
    obtain ⟨h₂, hold₂, hb₂⟩ := writes_inverse hread hr₁ hold₁ hb₁ (.inl rfl)
    have hr₂ := h₂.ready hr₁
    have h₁₂ := h₁.append h₂
    obtain ⟨st₃, p₃, h₃, hold₃, hb₃⟩ := Term.writes_text readString hr₂ hold₂ hb₂ hmid (by
      rw [h₁₂.goes.screen.cols, h₁₂.goes.screen.rows]
      exact hfits _ (by simp only [List.length_append, List.length_singleton]; omega))
    have hr₃ := h₃.ready hr₂
    obtain ⟨h₄, hold₄, hb₄⟩ := writes_inverse hread hr₃ hold₃ hb₃ (.inr rfl)
    have hr₄ := h₄.ready hr₃
    have h₁₄ := (h₁₂.append h₃).append h₄
    obtain ⟨st₅, p₅, h₅, hold₅, hb₅⟩ := Term.writes_text readString hr₄ hold₄ hb₄ hpost (by
      rw [h₁₄.goes.screen.cols, h₁₄.goes.screen.rows]
      exact hfits _ (by simp only [List.length_append, List.length_singleton]; omega))
    have happ : t ++ pre ++ [c] ++ post = t ++ (pre ++ c :: post) := by
      simp only [List.append_assoc, List.singleton_append]
    rw [happ] at hold₅ hb₅
    exact ⟨st₅, p₅, h₁₄.append h₅, hold₅, hb₅⟩

/-- `render!` and the terminal it writes to. -/
theorem writes_render (st : State) (hread : ReadsDecimal readString) (hr : term.Ready)
    (hcrow : st.crow.getD 0 ≤ term.cy) (hprompt : ∀ c ∈ st.prompt, Printable c) (hbuf : ∀ c ∈ st.buf, Printable c)
    (hpos : st.pos ≤ st.buf.length) (hfit : (st.prompt ++ st.buf).length / term.cols < term.rows) :
    ∃ out term' p, st.render term.cols =
        .ok (out, { st with crow := some ((st.prompt.length + st.pos) / term.cols) }) ∧
      Writes readString term out term' ∧ term'.At p (st.prompt.length + st.pos) ∧
      term'.ShowsText p (unerased term.cols (st.prompt ++ st.buf)) ∧
      p + (st.prompt ++ st.buf).length / term.cols < term.rows := by
  have hcols := hr.cols_pos
  have hlen : (st.prompt ++ st.buf).length = st.prompt.length + st.buf.length := List.length_append
  obtain ⟨l, hl, hline⟩ := line_ok hpos
  -- up to the row of the prompt
  obtain ⟨st₁, h₁, -, hwrap₁, hcy₁, hcx₁⟩ := Term.writes_move hread hr hcrow hcols
  rw [if_neg (Nat.lt_irrefl 0), List.append_nil] at h₁
  have hr₁ := h₁.ready hr
  have hs₁ := h₁.goes.screen
  -- prompt and line
  have hb₁ : st₁.Behind st₁.cy [] := .next ⟨by rw [List.length_nil, Nat.zero_div]; rfl,
    by rw [List.length_nil, Nat.zero_mod]; exact hcx₁⟩ hwrap₁ fun _ => rfl
  obtain ⟨st₂, p₂, h₂, hold₂, hb₂⟩ := Term.writes_text readString hr₁ (Term.holds_nil _ _) hb₁ hprompt (by
      rw [hs₁.cols, hs₁.rows]
      exact Nat.lt_of_le_of_lt (Nat.div_le_div_right (by rw [List.nil_append, hlen]; omega)) hfit)
  rw [List.nil_append] at hold₂ hb₂
  have h₁₂ := h₁.append h₂
  have hr₂ := h₂.ready hr₁
  have hs₂ := h₁₂.goes.screen
  obtain ⟨st₃, p₃, h₃, hold₃, hb₃⟩ := writes_line hread hr₂ hold₂ hb₂ hbuf
    (by
      rw [hs₂.cols, hs₂.rows]
      exact hfit) hline
  have h₁₃ := h₁₂.append h₃
  have hr₃ := h₃.ready hr₂
  have hs₃ := h₁₃.goes.screen
  -- the rest erased, and the cursor to its place
  obtain ⟨st₄, p₄, h₄, hshows₄, hat₄⟩ := Term.writes_end readString hr₃ hold₃ hb₃
    (by
      rw [hs₃.cols, hs₃.rows]
      exact hfit)
  rw [hs₃.cols] at h₄ hshows₄
  have h₁₄ := h₁₃.append h₄
  have hr₄ := h₄.ready hr₃
  have hs₄ := h₁₄.goes.screen
  have hcy₄ := hat₄.cy
  rw [hs₄.cols] at hcy₄
  have hcur₄ := hr₄.cursor.2
  dsimp only at hcur₄
  rw [hcy₄, hs₄.rows] at hcur₄
  have hrow : (st.prompt.length + st.pos) / term.cols ≤ (st.prompt ++ st.buf).length / term.cols :=
    Nat.div_le_div_right (by omega)
  have hup : (st.prompt ++ st.buf).length / term.cols - (st.prompt.length + st.pos) / term.cols ≤ st₄.cy := by
    rw [hcy₄]
    exact (Nat.sub_le _ _).trans (Nat.le_add_left _ _)
  obtain ⟨st₅, h₅, hcells₅, -, hcy₅, hcx₅⟩ := Term.writes_move hread hr₄ hup
    (n := (st.prompt.length + st.pos) % term.cols) (by rw [hs₄.cols]; exact Nat.mod_lt _ hcols)
  have h₁₅ := h₁₄.append h₅
  have hs₅ := h₅.goes.screen
  refine ⟨_, st₅, p₄, ?_, h₁₅, ⟨?_, ?_⟩, hshows₄.congr hcells₅ hs₅, hcur₄⟩
  · unfold State.render
    rw [hl, ok_bind]
    simp only [csiText_number]
    rw [if_neg (Nat.ne_of_gt hcols)]
    have herase : csiText [] 'J' = csi ++ ['J'] := rfl
    simp only [herase, ← List.length_pos_iff, hlen, List.append_assoc]
    rfl
  · rw [hs₅.cols, hs₄.cols, hcy₅, hcy₄, Nat.add_sub_assoc (Nat.sub_le _ _), Nat.sub_sub_self hrow]
  · rw [hs₅.cols, hs₄.cols]
    exact hcx₅

end Writes

/-! ### Runs of redraws -/

/-- The terminal, the surfaces, and the `:crow` that the last `render!` left. -/
structure Screen where
  term : Term.State
  gfx : Gfx.State
  crow : Option Nat

/-- An editor state to be drawn. -/
structure Edit where
  buf : Str
  pos : Nat
  final : Bool

/-- What is written is drawn. -/
def step (readString : Str → Except Error (Option Int)) (prompt : Str) (e : Edit) (s : Screen) : Option Screen :=
  match (State.mk prompt e.buf e.pos e.final s.crow).render s.term.cols with
  | .error _ => none
  | .ok (out, st) =>
      match Term.feed readString s.term out s.gfx with
      | .error _ => none
      | .ok (term, gfx) => some ⟨term, gfx, st.crow⟩

/-- A printable line that has room on the screen, with the cursor in it. -/
structure Legible (cols rows : Nat) (prompt : Str) (e : Edit) : Prop where
  buf : ∀ c ∈ e.buf, Printable c
  pos : e.pos ≤ e.buf.length
  fits : (prompt ++ e.buf).length / cols < rows

/-- From the row of the prompt on the screen shows the text, wrapped, and nothing else, with the cursor on the cell of
the place `q`. -/
def ShowsLine (term : Term.State) (text : Str) (q : Nat) : Prop := ∃ p, term.At p q ∧ term.ShowsText p text

/-- A text that fills its rows ends with a blank. -/
def EndsBlank (cols : Nat) (text : Str) : Prop :=
  text ≠ [] → text.length % cols = 0 → text.getLast? = some ' '

/-- The prompt's row is the cursor's, less `:crow`. -/
structure Drawn (s : Screen) : Prop where
  ready : s.term.Ready
  crow : s.crow.getD 0 ≤ s.term.cy

/-- What a redraw leaves on the screen. -/
structure Redrawn (prompt : Str) (e : Edit) (s s' : Screen) : Prop where
  drawn : Drawn s'
  cols : s'.term.cols = s.term.cols
  rows : s'.term.rows = s.term.rows
  shown : ∃ p, s'.term.At p (prompt.length + e.pos) ∧
    s'.term.ShowsText p (unerased s.term.cols (prompt ++ e.buf)) ∧
    p + (prompt ++ e.buf).length / s.term.cols < s.term.rows

theorem step_ok (hread : ReadsDecimal readString) {s : Screen} (hs : Drawn s) {prompt : Str}
    (hprompt : ∀ c ∈ prompt, Printable c) {e : Edit} (he : Legible s.term.cols s.term.rows prompt e) :
    ∃ s', step readString prompt e s = some s' ∧ Redrawn prompt e s s' := by
  have hr : ({ s.term with drawnCursor := none } : Term.State).Ready :=
    { toGood := hs.ready.toGood.cursorAt nofun, mode := hs.ready.mode, params := hs.ready.params }
  obtain ⟨out, term', p, hrender, hw, hat, hshows, hfits⟩ :=
    writes_render ⟨prompt, e.buf, e.pos, e.final, s.crow⟩ hread hr hs.crow hprompt he.buf he.pos he.fits
  obtain ⟨g', hfeed⟩ := Term.feed_of_writes hs.ready.toGood hw s.gfx
  have hscreen := hw.goes.screen
  have hcursor := Term.sameScreen_withCursor term'
  have hcols : term'.withCursor.cols = s.term.cols := hcursor.cols.trans hscreen.cols
  have hrows : term'.withCursor.rows = s.term.rows := hcursor.rows.trans hscreen.rows
  have hcells : term'.withCursor.cells = term'.cells := by
    rcases term'.withCursor_cases with h | h <;> rw [h]
  have hat' : term'.withCursor.At p (prompt.length + e.pos) := by
    refine ⟨?_, ?_⟩
    · rw [Term.cy_withCursor, hcursor.cols]
      exact hat.cy
    · rw [Term.cx_withCursor, hcursor.cols]
      exact hat.cx
  refine ⟨⟨term'.withCursor, g', some ((prompt.length + e.pos) / s.term.cols)⟩, ?_,
    ⟨Term.ready_withCursor (hw.ready hr), ?_⟩, hcols, hrows, p, hat', hshows.congr hcells hcursor, hfits⟩
  · unfold step
    change State.render _ s.term.cols = _ at hrender
    rw [hrender]
    dsimp only
    rw [hfeed]
  · show (prompt.length + e.pos) / s.term.cols ≤ term'.withCursor.cy
    rw [hat'.cy, hcols]
    exact Nat.le_add_left _ _

theorem run_ok (hread : ReadsDecimal readString) {s : Screen} (hs : Drawn s) {prompt : Str}
    (hprompt : ∀ c ∈ prompt, Printable c) {es : List Edit}
    (hall : ∀ e ∈ es, Legible s.term.cols s.term.rows prompt e) :
    ∃ s', runEvents (step readString prompt) s es = some s' ∧ Drawn s' ∧ s'.term.cols = s.term.cols ∧
      s'.term.rows = s.term.rows := by
  induction es generalizing s with
  | nil => exact ⟨s, rfl, hs, rfl, rfl⟩
  | cons e es ih =>
      obtain ⟨s₁, hstep, h₁⟩ := step_ok hread hs hprompt (hall e List.mem_cons_self)
      obtain ⟨s', hrun, hs', hcols', hrows'⟩ := ih h₁.drawn fun e' he' => by
        rw [h₁.cols, h₁.rows]
        exact hall e' (List.mem_cons_of_mem e he')
      refine ⟨s', ?_, hs', hcols'.trans h₁.cols, hrows'.trans h₁.rows⟩
      rw [runEvents, hstep]
      exact hrun

/-! ### When the line is shown -/

/-- `CSI J` takes nothing away from a text that does not fill its rows or ends with a blank. -/
theorem unerased_iff {n cols : Nat} {t : Str} (hn : t.length ≤ n) :
    (∀ k < n, (unerased cols t).getD k ' ' = t.getD k ' ') ↔ EndsBlank cols t := by
  unfold unerased EndsBlank
  constructor
  · intro hall hne hedge
    have hpos := List.length_pos_iff.mpr hne
    have hlast := hall (t.length - 1) (by omega)
    rw [if_pos hedge, List.getD_eq_default _ _ (by rw [List.length_dropLast]),
      List.getD_eq_getElem _ _ (by omega)] at hlast
    rw [List.getLast?_eq_getElem?, List.getElem?_eq_getElem (by omega), ← hlast]
  · intro hblank k _
    split_ifs with hedge
    · by_cases hne : t = []
      · rw [hne]
        rfl
      · have hlast := hblank hne hedge
        rw [List.getLast?_eq_getElem?] at hlast
        rw [List.getD_eq_getElem?_getD, List.getD_eq_getElem?_getD, List.getElem?_dropLast]
        split_ifs with hk
        · rfl
        · rcases Nat.lt_or_ge k t.length with hlt | hge
          · rw [show k = t.length - 1 by omega, hlast]
            rfl
          · rw [List.getElem?_eq_none hge]
    · rfl

theorem Redrawn.shows_iff {s s' : Screen} {prompt : Str} {e : Edit} (h : Redrawn prompt e s s')
    (hcols : 0 < s.term.cols) :
    ShowsLine s'.term (prompt ++ e.buf) (prompt.length + e.pos) ↔ EndsBlank s.term.cols (prompt ++ e.buf) := by
  obtain ⟨p, hat, hshows, hfits⟩ := h.shown
  -- the places on the screen from the row of the prompt on
  have hroom : (prompt ++ e.buf).length ≤ (s.term.rows - p) * s.term.cols := by
    have hrows : (prompt ++ e.buf).length / s.term.cols < s.term.rows - p := by omega
    exact Nat.le_of_lt ((Nat.div_lt_iff_lt_mul hcols).mp hrows)
  rw [← unerased_iff hroom]
  constructor
  · rintro ⟨p', hat', hshows'⟩ k hk
    obtain rfl : p' = p := Nat.add_right_cancel (hat'.cy.symm.trans hat.cy)
    have hi : p' + k / s.term.cols < s.term.rows := by
      rw [Nat.add_comm]
      exact Nat.add_lt_of_lt_sub ((Nat.div_lt_iff_lt_mul hcols).mpr hk)
    have hplace : k / s.term.cols * s.term.cols + k % s.term.cols = k := by
      rw [Nat.mul_comm]
      exact Nat.div_add_mod k _
    have h₁ := hshows (k / s.term.cols) (k % s.term.cols) (by rw [h.rows]; exact hi)
      (by rw [h.cols]; exact Nat.mod_lt k hcols)
    have h₂ := hshows' (k / s.term.cols) (k % s.term.cols) (by rw [h.rows]; exact hi)
      (by rw [h.cols]; exact Nat.mod_lt k hcols)
    rw [h.cols, hplace] at h₁ h₂
    exact Option.some.inj (h₁.symm.trans h₂)
  · intro hall
    refine ⟨p, hat, fun i col hi hcol => ?_⟩
    have hch := hshows i col hi hcol
    rw [h.rows] at hi
    rw [h.cols] at hcol hch ⊢
    rw [hch]
    refine congrArg some (hall _ ((Nat.div_lt_iff_lt_mul hcols).mp ?_))
    rw [(Term.place_eq hcol).1]
    omega

/-- After any run of `render!`s the terminal shows the last line, with the cursor at its place, exactly if the line
does not fill its rows or ends with a blank. -/
theorem showsLine_iff (hread : ReadsDecimal readString) {s : Screen} (hr : s.term.Ready) (hfirst : s.crow = none)
    {prompt : Str} (hprompt : ∀ c ∈ prompt, Printable c) {es : List Edit} {e : Edit}
    (hall : ∀ e' ∈ es ++ [e], Legible s.term.cols s.term.rows prompt e') :
    ∃ s', runEvents (step readString prompt) s (es ++ [e]) = some s' ∧
      (ShowsLine s'.term (prompt ++ e.buf) (prompt.length + e.pos) ↔ EndsBlank s.term.cols (prompt ++ e.buf)) := by
  have hs : Drawn s := ⟨hr, by rw [hfirst]; exact Nat.zero_le _⟩
  obtain ⟨s₁, hrun, hs₁, hcols₁, hrows₁⟩ :=
    run_ok hread hs hprompt fun e' he' => hall e' (List.mem_append_left [e] he')
  have he := hall e (List.mem_append_right es (List.mem_singleton_self e))
  rw [← hcols₁, ← hrows₁] at he
  obtain ⟨s', hstep, h⟩ := step_ok hread hs₁ hprompt he
  refine ⟨s', ?_, ?_⟩
  · rw [runEvents_append, hrun]
    show (step readString prompt e s₁).bind _ = _
    rw [hstep]
    rfl
  · rw [← hcols₁]
    exact h.shows_iff hs₁.ready.cols_pos

/-! ### A terminal of 8 columns and 3 rows -/

def smallTerm : Term.Options where
  cols := 8
  rows := 3
  font := Term.emptyFont

def smallStart : Screen := ⟨smallTerm.made, Term.smallScreen, none⟩

theorem ready_smallStart : smallStart.term.Ready :=
  { toGood := Term.good_made (by decide) (by decide), mode := rfl, params := rfl }

theorem legible_small {e : Edit} (hbuf : ∀ c ∈ e.buf, Printable c) (hpos : e.pos ≤ e.buf.length)
    (hlen : e.buf.length ≤ 21) : Legible 8 3 ['>', ' '] e := by
  refine ⟨hbuf, hpos, ?_⟩
  rw [List.length_append]
  show (2 + e.buf.length) / 8 < 3
  omega

/-- A line of two rows and then one with a bracket in inverse. -/
theorem showsLine_iff_small :
    ∃ s', runEvents (step Term.readDecimal ['>', ' ']) smallStart
        ([⟨"(+ 1 2 3)".toList, 9, false⟩] ++ [⟨"(+ 1)".toList, 5, false⟩]) = some s' ∧
      (ShowsLine s'.term (['>', ' '] ++ "(+ 1)".toList) (2 + 5) ↔ EndsBlank 8 (['>', ' '] ++ "(+ 1)".toList)) := by
  refine showsLine_iff Term.readsDecimal_readDecimal ready_smallStart rfl (Term.printable_of_all (by decide)) fun e he => ?_
  rcases List.mem_append.mp he with he | he
  · rw [List.mem_singleton.mp he]
    exact legible_small (Term.printable_of_all (by decide)) (by decide) (by decide)
  · rw [List.mem_singleton.mp he]
    exact legible_small (Term.printable_of_all (by decide)) (by decide) (by decide)

/-- A line that fills its row. -/
def fullLine : Edit := ⟨"(list)".toList, 6, false⟩

/-- The last character of a line that fills its row is erased. -/
theorem not_showsLine_full :
    ¬∀ (s : Screen) (prompt : Str) (es : List Edit) (e : Edit), s.term.Ready → s.term.cx = 0 → s.crow = none →
      (∀ c ∈ prompt, Printable c) → (∀ e' ∈ es ++ [e], Legible s.term.cols s.term.rows prompt e') →
      ∀ s', runEvents (step Term.readDecimal prompt) s (es ++ [e]) = some s' →
        ShowsLine s'.term (prompt ++ e.buf) (prompt.length + e.pos) := by
  intro h
  have hlegible : Legible 8 3 ['>', ' '] fullLine := legible_small (Term.printable_of_all (by decide)) (by decide) (by decide)
  have hprompt : ∀ c ∈ ['>', ' '], Printable c := Term.printable_of_all (by decide)
  obtain ⟨s', hstep, hs'⟩ := step_ok Term.readsDecimal_readDecimal (s := smallStart)
    ⟨ready_smallStart, Nat.zero_le _⟩ hprompt hlegible
  have hrun : runEvents (step Term.readDecimal ['>', ' ']) smallStart ([] ++ [fullLine]) = some s' := by
    show (step _ _ _ _).bind _ = _
    rw [hstep]
    rfl
  have hall : ∀ e' ∈ [] ++ [fullLine], Legible 8 3 ['>', ' '] e' := by
    intro e' he'
    rw [List.mem_singleton.mp he']
    exact hlegible
  have hshows := h smallStart ['>', ' '] [] fullLine ready_smallStart rfl rfl hprompt hall s' hrun
  have hblank := (hs'.shows_iff (by decide)).mp hshows
  exact absurd (hblank (by decide) (by decide)) (by decide)

end Beeros.Lineedit
