import Beeros.TermSteps

/-! `feed` never throws on control sequences whose parameters read as numbers that the control takes, and it
keeps the pixels in step with the cells; over any runs of a terminal. -/

namespace Beeros.Term

open Beerlang Gfx State

/-! ### The parser -/

/-- How the parser state goes on: it does not depend on the grid. -/
def scan : Mode × Str → Char → Mode × Str
  | (.csi, raw), c =>
      if 0x40 ≤ c.toNat ∧ c.toNat ≤ 0x7E then (.ground, [])
      else if c.toNat = 27 then (.esc, [])
      else if c.toNat < 32 then (.csi, raw)
      else (.csi, raw ++ [c])
  | (.esc, raw), c => if c.toNat = 91 then (.csi, []) else (.ground, raw)
  | (.ground, raw), c => if c.toNat = 27 then (.esc, raw) else (.ground, raw)

theorem scan_csi (raw : Str) (c : Char) :
    scan (.csi, raw) c =
      if 0x40 ≤ c.toNat ∧ c.toNat ≤ 0x7E then (.ground, [])
      else if c.toNat = 27 then (.esc, [])
      else if c.toNat < 32 then (.csi, raw)
      else (.csi, raw ++ [c]) := rfl

theorem scan_esc (raw : Str) (c : Char) :
    scan (.esc, raw) c = if c.toNat = 91 then (.csi, []) else (.ground, raw) := rfl

theorem scan_ground (raw : Str) (c : Char) :
    scan (.ground, raw) c = if c.toNat = 27 then (.esc, raw) else (.ground, raw) := rfl

/-- The control sequences that a text completes: their parameter texts and final characters. -/
def sequences (m : Mode × Str) : Str → List (Str × Char)
  | [] => []
  | c :: s =>
      if m.1 = .csi ∧ 0x40 ≤ c.toNat ∧ c.toNat ≤ 0x7E then (m.2, c) :: sequences (scan m c) s
      else sequences (scan m c) s

section Reader

variable (readString : Str → Except Error (Option Int))

/-- The pieces of a parameter text, without its `?`. -/
def pieces (raw : Str) : List Str := (if raw.head? = some '?' then raw.tail else raw).splitOn ';'

/-- The number that a piece gives. -/
def value (piece : Str) : Option Int := if piece = [] then none else (readString piece).toOption.join

/-- A control sequence that does not throw: each piece of its parameter text is empty or one complete form, and
the numbers are ones that the control takes. -/
def Sound (raw : Str) (final : Char) : Prop :=
  (∀ piece ∈ pieces raw, piece ≠ [] → ∃ v, readString piece = .ok v) ∧
    (raw.head? ≠ some '?' → Harmless ((pieces raw).map (value readString)) final)

variable {readString} {st st' : State} {g : Gfx.State} {c : Char} {s : Str} {raw : Str}

theorem parseParams_ok {s : Str} (h : ∀ piece ∈ s.splitOn ';', piece ≠ [] → ∃ v, readString piece = .ok v) :
    parseParams readString s = .ok ((s.splitOn ';').map (value readString)) := by
  unfold parseParams
  generalize s.splitOn ';' = ps at h
  induction ps with
  | nil => rfl
  | cons p ps ih =>
      have hp : (if p = [] then pure none else readString p : Except Error (Option Int)) =
          .ok (value readString p) := by
        unfold value
        split_ifs with hnil
        · rfl
        · obtain ⟨v, hv⟩ := h p List.mem_cons_self hnil
          rw [hv]
          rfl
      rw [List.mapM_cons, hp, ok_bind, ih fun q hq => h q (List.mem_cons_of_mem p hq)]
      rfl

/-- What a character does, if it does not complete a control sequence that throws. -/
structure Takes (st : State) (d : Draw State) (st' : State) (m : Mode × Str) : Prop where
  goes : Goes st (st.ShowsOn All) d st' (st'.ShowsOn All)
  good : st'.Good
  drawn : st'.drawnCursor = st.drawnCursor
  parser : (st'.mode, st'.params) = m

/-- The state with another parser state. -/
def State.parsing (st : State) (m : Mode × Str) : State := { st with mode := m.1, params := m.2 }

theorem State.Good.parsing (h : st.Good) (m : Mode × Str) : (st.parsing m).Good :=
  { shape := h.shape, cursor := h.cursor, saved := h.saved, fg := h.fg, bg := h.bg, defaultFg := h.defaultFg
    defaultBg := h.defaultBg, drawn := h.drawn, cell := h.cell }

theorem Steps.takes {m : Mode × Str} {d : Draw State} (h : Steps (st.parsing m) d st') : Takes st d st' m := by
  refine ⟨h.goes.from ⟨rfl, rfl, rfl, rfl, rfl, rfl, rfl⟩, h.good, h.drawn, ?_⟩
  rw [h.mode, h.params]
  rfl

theorem takes_parsing (h : st.Good) (m : Mode × Str) : Takes st (pure (st.parsing m)) (st.parsing m) m :=
  (steps_refl (h.parsing m)).takes

/-- A control sequence whose parameters can be read. -/
theorem csi_eq (h : ∀ piece ∈ pieces st.params, piece ≠ [] → ∃ v, readString piece = .ok v) :
    csi readString st c =
      if st.params.head? = some '?' then
        pure (privControl (st.parsing (.ground, [])) ((pieces st.params).map (value readString)) c)
      else control (st.parsing (.ground, [])) ((pieces st.params).map (value readString)) c := by
  unfold csi
  dsimp only
  rw [lift_bind (parseParams_ok h)]
  rfl

theorem steps_privControl (h : st.Good) (ps : List (Option Int)) (final : Char) :
    Steps st (pure (privControl st ps final)) (privControl st ps final) := by
  have hshown (b : Bool) : Steps st (pure { st with cursor := b }) { st with cursor := b } := by
    refine ⟨goes_same ⟨rfl, rfl, rfl, rfl, rfl, rfl, rfl⟩ rfl, ?_, rfl, rfl, rfl⟩
    exact { shape := h.shape, cursor := h.cursor, saved := h.saved, fg := h.fg, bg := h.bg, defaultFg := h.defaultFg
            defaultBg := h.defaultBg, drawn := h.drawn, cell := h.cell }
  unfold privControl
  split_ifs
  · split
    · exact hshown true
    · exact hshown false
    · exact steps_refl h
  · exact steps_refl h

theorem takes_csi (h : st.Good) (hs : Sound readString st.params c) :
    ∃ st', Takes st (csi readString st c) st' (.ground, []) := by
  rw [csi_eq hs.1]
  have h := h.parsing (.ground, [])
  split_ifs with hpriv
  · exact ⟨_, (steps_privControl h _ c).takes⟩
  · obtain ⟨st', hst'⟩ := steps_control h (hs.2 hpriv)
    exact ⟨st', hst'.takes⟩

/-- The state before `reset-state` erases and moves. -/
def State.cleared (st : State) : State :=
  { st with fg := st.defaultFg, bg := st.defaultBg, bold := false, inverse := false, cursor := true, saved := none }

theorem steps_resetState (h : st.Good) : ∃ st', Steps st (resetState st) st' := by
  have hclear : st.cleared.Good :=
    { shape := h.shape, cursor := h.cursor, saved := nofun, fg := h.defaultFg, bg := h.defaultBg
      defaultFg := h.defaultFg, defaultBg := h.defaultBg, drawn := h.drawn, cell := h.cell }
  have hrows := steps_eraseRows hclear 0 (Nat.le_refl st.cleared.rows)
  obtain ⟨hgoes, hgood, hdrawn, hmode, hparams⟩ :=
    hrows.bind (k := fun st => pure (moveTo st 0 0)) (steps_moveTo hrows.good 0 0)
  exact ⟨_, hgoes.from ⟨rfl, rfl, rfl, rfl, rfl, rfl, rfl⟩, hgood, hdrawn, hmode, hparams⟩

theorem steps_up (h : st.Good) :
    Steps st (pure { st with cy := st.cy - 1 }) { st with cy := st.cy - 1 } :=
  steps_at h st.cx (st.cy - 1) ⟨h.cursor.1, Nat.lt_of_le_of_lt (Nat.sub_le _ _) h.cursor.2⟩ st.wrap

theorem takes_escChar (h : st.Good) (hmode : st.mode = .esc) (c : Char) :
    ∃ st', Takes st (escChar st c.toNat) st' (scan (st.mode, st.params) c) := by
  have hg := h.parsing (.ground, st.params)
  rw [hmode, scan_esc]
  unfold escChar
  dsimp only
  split_ifs with h91 h55 h56 h99 h68 h77 hcy h69
  · exact ⟨_, takes_parsing h (.csi, [])⟩
  · exact ⟨_, (steps_save hg).takes⟩
  · exact ⟨_, (steps_restore hg).takes⟩
  · obtain ⟨st', hst'⟩ := steps_resetState hg
    exact ⟨st', hst'.takes⟩
  · exact ⟨_, (steps_lineFeed hg).takes⟩
  · exact ⟨_, (steps_scrollDown hg (n := 1) (by omega)).takes⟩
  · exact ⟨_, (steps_up hg).takes⟩
  · have hfed := steps_lineFeed hg
    exact ⟨_, (hfed.bind (steps_at hfed.good 0 _ ⟨hfed.good.cols_pos, hfed.good.cursor.2⟩ _)).takes⟩
  · exact ⟨_, (steps_refl hg).takes⟩

theorem takes_groundChar (h : st.Good) (hmode : st.mode = .ground) (c : Char) :
    ∃ st', Takes st (groundChar st c) st' (scan (st.mode, st.params) c) := by
  have hsame : st.parsing (.ground, st.params) = st := by
    unfold State.parsing
    rw [← hmode]
  have htakes {d : Draw State} {st' : State} (hd : Steps st d st') : Takes st d st' (.ground, st.params) := by
    rw [← hsame] at hd
    have hd := hd.takes
    exact hd
  have hcols := h.cols_pos
  rw [hmode, scan_ground]
  unfold groundChar
  dsimp only
  split_ifs with h27 h13 h10 h8 h9 h32 h127
  · exact ⟨_, takes_parsing h (.esc, st.params)⟩
  · exact ⟨_, htakes (steps_at h 0 st.cy ⟨hcols, h.cursor.2⟩ false)⟩
  · have hfed := steps_lineFeed h
    exact ⟨_, htakes (hfed.bind (steps_at hfed.good _ _ hfed.good.cursor false))⟩
  · exact ⟨_, htakes (steps_at h (min st.cx (st.cols - 1) - 1) st.cy ⟨by dsimp only; omega, h.cursor.2⟩ false)⟩
  · exact ⟨_, htakes (steps_moveTo h _ _)⟩
  · exact ⟨_, htakes (steps_refl h)⟩
  · exact ⟨_, htakes (steps_refl h)⟩
  · exact ⟨_, htakes (steps_putChar h c)⟩

/-- The character does not complete a control sequence, or one that does not throw. -/
def Tame (readString : Str → Except Error (Option Int)) (m : Mode × Str) (c : Char) : Prop :=
  m.1 = .csi → 0x40 ≤ c.toNat → c.toNat ≤ 0x7E → Sound readString m.2 c

theorem takes_feedChar (h : st.Good) (hc : Tame readString (st.mode, st.params) c) :
    ∃ st', Takes st (feedChar readString st c) st' (scan (st.mode, st.params) c) := by
  unfold feedChar
  cases hmode : st.mode with
  | ground =>
      have htakes := takes_groundChar h hmode c
      rw [hmode] at htakes
      exact htakes
  | esc =>
      have htakes := takes_escChar h hmode c
      rw [hmode] at htakes
      exact htakes
  | csi =>
      have hsame : st.parsing (.csi, st.params) = st := by
        unfold State.parsing
        rw [← hmode]
      rw [scan_csi]
      dsimp only
      split_ifs with hfinal h27 h32
      · exact takes_csi h (hc hmode hfinal.1 hfinal.2)
      · exact ⟨_, takes_parsing h (.esc, [])⟩
      · have htakes := takes_parsing h (.csi, st.params)
        rw [hsame] at htakes
        exact ⟨_, htakes⟩
      · exact ⟨_, takes_parsing h (.csi, st.params ++ [c])⟩

theorem Takes.bind {d : Draw State} {k : State → Draw State} {st'' : State} {m m' : Mode × Str}
    (h : Takes st d st' m) (h' : Takes st' (k st') st'' m') : Takes st (d >>= k) st'' m' :=
  ⟨h.goes.bind h'.goes, h'.good, h'.drawn.trans h.drawn, h'.parser⟩

/-- Every control sequence that the text completes is one that does not throw. -/
def Calm (readString : Str → Except Error (Option Int)) (m : Mode × Str) (s : Str) : Prop :=
  ∀ q ∈ sequences m s, Sound readString q.1 q.2

theorem calm_cons {m : Mode × Str} (h : Calm readString m (c :: s)) :
    Tame readString m c ∧ Calm readString (scan m c) s := by
  unfold Calm sequences at h
  split_ifs at h with hfinal
  · exact ⟨fun _ _ _ => h (m.2, c) List.mem_cons_self, fun q hq => h q (List.mem_cons_of_mem _ hq)⟩
  · exact ⟨fun h₁ h₂ h₃ => absurd ⟨h₁, h₂, h₃⟩ hfinal, h⟩

theorem takes_chars (h : st.Good) (hs : Calm readString (st.mode, st.params) s) :
    ∃ st', Takes st (s.foldlM (feedChar readString) st) st' (s.foldl scan (st.mode, st.params)) := by
  induction s generalizing st with
  | nil => exact ⟨st, goes_same (.refl st) rfl, h, rfl, rfl⟩
  | cons c s ih =>
      obtain ⟨hc, hs⟩ := calm_cons hs
      obtain ⟨st₁, hfirst⟩ := takes_feedChar h hc
      rw [← hfirst.parser] at hs
      obtain ⟨st₂, hrest⟩ := ih hfirst.good hs
      rw [hfirst.parser] at hrest
      rw [List.foldlM_cons, List.foldl_cons]
      exact ⟨st₂, hfirst.bind hrest⟩

/-! ### The cursor -/

/-- A cell that is drawn over the others. -/
theorem goes_drawCell (h : st.Good) (hs : SameScreen st st') {col row : Nat} {cell : Cell} {inverse : Bool}
    (hin : st.Within (col, row)) (hcell : Grid.cell? st.cells row col = some cell) {P Q : Gfx.State → Prop}
    (hQ : ∀ g g', P g →
      (∀ r c cell inv, (r ≠ row ∨ c ≠ col) → st.ShowsCell g c r cell inv → st.ShowsCell g' c r cell inv) →
      st.ShowsCell g' col row cell inverse → Q g') :
    Goes st P (do drawCell st col row cell inverse; pure st') st' Q := by
  refine Goes.after (R := Q) (fun g => ?_) (goes_pure hs fun _ _ hQ => hQ)
  obtain ⟨g', hrun, hdrew⟩ := drew_drawCell st col row cell inverse g
  refine ⟨g', hrun, fun hg hP => ?_⟩
  have hdrew := hdrew hg hin (h.cell row col cell hcell)
  refine ⟨kept_of_drew hdrew hin.1 hin.2, hQ g g' hP (fun r c cell inv hne hshow => ?_) (showsCell_self hdrew)⟩
  exact showsCell_of_drew hdrew hshow (by omega)

theorem State.Good.cursorAt (h : st.Good) {d : Option (Nat × Nat)} (hd : ∀ p, d = some p → st.Within p) :
    ({ st with drawnCursor := d } : State).Good :=
  { shape := h.shape, cursor := h.cursor, saved := h.saved, fg := h.fg, bg := h.bg, defaultFg := h.defaultFg
    defaultBg := h.defaultBg, drawn := hd, cell := h.cell }

theorem goes_hideCursor (h : st.Good) :
    Goes st st.Shows (hideCursor st) { st with drawnCursor := none }
      (({ st with drawnCursor := none } : State).ShowsOn All) := by
  unfold hideCursor
  have hs : SameScreen st { st with drawnCursor := none } := ⟨rfl, rfl, rfl, rfl, rfl, rfl, rfl⟩
  cases hd : st.drawnCursor with
  | none =>
      refine goes_pure hs fun g _ hshow row col cell _ hcell => ?_
      have hcellShown := hshow row col cell hcell
      rw [hd] at hcellShown
      exact hcellShown
  | some p =>
      obtain ⟨col, row⟩ := p
      have hin := h.drawn _ hd
      obtain ⟨cell, hat, hcell⟩ := h.cellAt hin
      dsimp only
      rw [if_pos (show col < st.cols ∧ row < st.rows from hin), lift_bind hat]
      refine goes_drawCell h hs hin hcell fun g g' hshow hothers hself => ?_
      intro r c cell' _ hcell'
      change Grid.cell? st.cells r c = some cell' at hcell'
      by_cases heq : r = row ∧ c = col
      · obtain ⟨rfl, rfl⟩ := heq
        rw [hcell] at hcell'
        cases hcell'
        exact hself
      · have hne : r ≠ row ∨ c ≠ col := by omega
        have hold := hshow r c cell' hcell'
        rw [hd, decide_eq_false (by rintro he; cases he; omega)] at hold
        exact hothers r c cell' false hne hold

/-- `show-cursor`. -/
def State.withCursor (st : State) : State :=
  if st.cursor then { st with drawnCursor := some (st.cx, st.cy) } else st

theorem State.Good.withCursor (h : st.Good) : st.withCursor.Good := by
  unfold State.withCursor
  split_ifs
  · exact h.cursorAt fun p hp => Option.some.inj hp ▸ h.cursor
  · exact h

theorem goes_showCursor (h : st.Good) (hd : st.drawnCursor = none) :
    Goes st (st.ShowsOn All) (showCursor st) st.withCursor st.withCursor.Shows := by
  unfold showCursor State.withCursor
  have hcx : min st.cx (st.cols - 1) = st.cx := by
    have := h.cursor.1
    dsimp only at this
    omega
  split_ifs with hcursor
  · obtain ⟨cell, hat, hcell⟩ := h.cellAt h.cursor
    rw [hcx, lift_bind hat]
    have hs : SameScreen st { st with drawnCursor := some (st.cx, st.cy) } := ⟨rfl, rfl, rfl, rfl, rfl, rfl, rfl⟩
    refine goes_drawCell (P := st.ShowsOn All) h hs h.cursor hcell
      fun g g' hshow hothers hself => ?_
    intro r c cell' hcell'
    change Grid.cell? st.cells r c = some cell' at hcell'
    show st.ShowsCell g' c r cell' (some (st.cx, st.cy) = some (c, r))
    by_cases heq : r = st.cy ∧ c = st.cx
    · obtain ⟨rfl, rfl⟩ := heq
      rw [hcell] at hcell'
      cases hcell'
      rw [decide_eq_true rfl]
      exact hself
    · rw [decide_eq_false (by rintro he; cases he; omega)]
      exact hothers r c cell' false (by omega) (hshow r c cell' trivial hcell')
  · refine goes_pure (.refl st) fun g _ hshow r c cell hcell => ?_
    rw [hd]
    exact hshow r c cell trivial hcell

/-- A whole batch. -/
theorem goes_feed (h : st.Good) (hs : Calm readString (st.mode, st.params) s) :
    ∃ st', Goes st st.Shows (feed readString st s) st' st'.Shows ∧ st'.Good ∧
      (st'.mode, st'.params) = s.foldl scan (st.mode, st.params) := by
  have hhide := goes_hideCursor h
  obtain ⟨st₁, hchars⟩ := takes_chars (h.cursorAt (d := none) nofun) hs
  have hshow := goes_showCursor hchars.good hchars.drawn
  refine ⟨st₁.withCursor, hhide.bind (hchars.goes.bind hshow), hchars.good.withCursor, ?_⟩
  rw [← hchars.parser]
  unfold State.withCursor
  split_ifs <;> rfl

end Reader

end Beeros.Term
