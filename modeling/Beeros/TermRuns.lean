import Beeros.TermFeed

/-! Runs of a terminal: batches of text fed to what `make` gave, and redraws. -/

namespace Beeros.Term

open Beerlang Gfx State

variable {readString : Str → Except Error (Option Int)} {st st' : State} {g g' : Gfx.State} {c : Char} {s : Str}
  {C : Mode × Str → Str → Prop}

/-! ### The start -/

/-- What `make` starts from. -/
def Options.start (opts : Options) : State where
  x := opts.x
  y := opts.y
  cols := opts.cols
  rows := opts.rows
  font := opts.font
  scale := opts.scale
  defaultFg := opts.fg
  defaultBg := opts.bg
  fg := opts.fg
  bg := opts.bg
  surf := opts.surface

/-- What `make` gives. -/
def Options.made (opts : Options) : State :=
  { opts.start with cells := .replicate opts.rows (.replicate opts.cols opts.start.blankCell) }

theorem colored_start (opts : Options) : opts.start.Colored :=
  ⟨Int.natCast_nonneg _, Int.natCast_nonneg _, Int.natCast_nonneg _, Int.natCast_nonneg _⟩

theorem make_eq (opts : Options) : make opts = .ok opts.made := by
  show (opts.start.blankRow >>= _) = _
  rw [(colored_start opts).blankRow]
  rfl

theorem good_made {opts : Options} (hcols : 0 < opts.cols) (hrows : 0 < opts.rows) : opts.made.Good := by
  have hcolored := colored_start opts
  refine { shape := Grid.shape_replicate, cursor := ⟨hcols, hrows⟩, saved := nofun, fg := hcolored.fg,
           bg := hcolored.bg, defaultFg := hcolored.defaultFg, defaultBg := hcolored.defaultBg, drawn := nofun
           cell := fun row col cell hcell => ?_ }
  obtain ⟨r, hr, hcol⟩ := Option.bind_eq_some_iff.mp hcell
  rw [List.eq_of_mem_replicate (List.mem_of_getElem? hr)] at hcol
  rw [List.eq_of_mem_replicate (List.mem_of_getElem? hcol)]
  exact hcolored.blank.2

/-! ### Redraws -/

/-- A drawing that keeps the state. -/
def Draws (st : State) (P : Gfx.State → Prop) (u : Draw Unit) (Q : Gfx.State → Prop) : Prop :=
  ∀ g, ∃ g', u g = .ok ((), g') ∧ (Placed st g → P g → Kept st g g' ∧ Q g')

theorem draws_range' {P : Nat → Gfx.State → Prop} {u : Nat → Draw Unit} {start n : Nat}
    (h : ∀ i, start ≤ i → i < start + n → Draws st (P i) (u i) (P (i + 1))) :
    Draws st (P start) ((List.range' start n).forM u) (P (start + n)) := by
  induction n generalizing start with
  | zero => exact fun g => ⟨g, rfl, fun _ hP => ⟨.refl st g, hP⟩⟩
  | succ n ih =>
      intro g
      obtain ⟨g₁, hrun₁, hk₁⟩ := h start (Nat.le_refl _) (by omega) g
      have hrest : Draws st (P (start + 1)) ((List.range' (start + 1) n).forM u) (P (start + 1 + n)) :=
        ih fun i hlo hhi => h i (by omega) (by omega)
      obtain ⟨g₂, hrun₂, hk₂⟩ := hrest g₁
      refine ⟨g₂, ?_, fun hg hP => ?_⟩
      · rw [List.range'_succ]
        exact (draw_bind hrun₁).trans hrun₂
      · obtain ⟨hkept, hP'⟩ := hk₁ hg hP
        obtain ⟨hkept', hQ⟩ := hk₂ (hg.kept (.refl st) hkept) hP'
        rw [Nat.add_right_comm] at hQ
        exact ⟨hkept.trans (.refl st) hkept', hQ⟩

theorem draws_range {P : Nat → Gfx.State → Prop} {u : Nat → Draw Unit} (n : Nat)
    (h : ∀ i, i < n → Draws st (P i) (u i) (P (i + 1))) : Draws st (P 0) ((List.range n).forM u) (P n) := by
  have hrange : Draws st (P 0) ((List.range' 0 n).forM u) (P (0 + n)) :=
    draws_range' fun i _ hi => h i (by omega)
  rw [Nat.zero_add, ← List.range_eq_range'] at hrange
  exact hrange

/-- The cells drawn before column `col` of row `row`. -/
def Before (row col : Nat) : Nat → Nat → Prop := fun r c => r < row ∨ r = row ∧ c < col

theorem draws_cell (h : st.Good) {row col : Nat} (hin : st.Within (col, row)) :
    Draws st (st.ShowsOn (Before row col)) (do drawCell st col row (← st.cellAt col row) false)
      (st.ShowsOn (Before row (col + 1))) := by
  obtain ⟨cell, hat, hcell⟩ := h.cellAt hin
  rw [lift_bind hat]
  intro g
  obtain ⟨g', hrun, hdrew⟩ := drew_drawCell st col row cell false g
  refine ⟨g', hrun, fun hg hshow => ?_⟩
  have hdrew := hdrew hg hin (h.cell row col cell hcell)
  refine ⟨kept_of_drew hdrew hin.1 hin.2, fun r c cell' hbefore hcell' => ?_⟩
  by_cases heq : r = row ∧ c = col
  · obtain ⟨rfl, rfl⟩ := heq
    rw [hcell] at hcell'
    cases hcell'
    exact showsCell_self hdrew
  · refine showsCell_of_drew hdrew (hshow r c cell' ?_ hcell') (by omega)
    unfold Before at hbefore ⊢
    omega

/-- The rows before `row` are drawn. -/
theorem draws_row (h : st.Good) {row : Nat} (hrow : row < st.rows) :
    Draws st (st.ShowsOn fun r _ => r < row)
      ((List.range st.cols).forM fun col => do drawCell st col row (← st.cellAt col row) false)
      (st.ShowsOn fun r _ => r < row + 1) := by
  have hcols := draws_range (P := fun col => st.ShowsOn (Before row col)) st.cols
    fun col hcol => draws_cell h ⟨hcol, hrow⟩
  intro g
  obtain ⟨g', hrun, hk⟩ := hcols g
  refine ⟨g', hrun, fun hg hshow => ?_⟩
  obtain ⟨hkept, hshow'⟩ := hk hg fun r c cell hr hcell => hshow r c cell (by unfold Before at hr; omega) hcell
  refine ⟨hkept, fun r c cell hr hcell => hshow' r c cell ?_ hcell⟩
  have hc := (h.shape.of_cell? hcell).2
  unfold Before
  omega

theorem draws_cells (h : st.Good) :
    Draws st (fun _ => True)
      ((List.range st.rows).forM fun row => (List.range st.cols).forM fun col => do
        drawCell st col row (← st.cellAt col row) false)
      (st.ShowsOn All) := by
  have hrows := draws_range (P := fun row => st.ShowsOn fun r _ => r < row) st.rows fun row hrow => draws_row h hrow
  intro g
  obtain ⟨g', hrun, hk⟩ := hrows g
  refine ⟨g', hrun, fun hg _ => ?_⟩
  obtain ⟨hkept, hshow⟩ := hk hg fun r c cell hr => absurd hr (Nat.not_lt_zero r)
  exact ⟨hkept, fun r c cell _ hcell => hshow r c cell (h.shape.of_cell? hcell).1 hcell⟩

/-- A redraw shows every cell, whatever the pixels were before. -/
theorem goes_redraw (h : st.Good) :
    ∃ st', Goes st (fun _ => True) (redraw st) st' st'.Shows ∧ st'.Good ∧
      (st'.mode, st'.params) = (st.mode, st.params) := by
  have hclear : ({ st with drawnCursor := none } : State).Good := h.cursorAt nofun
  have hscreen : SameScreen st { st with drawnCursor := none } := ⟨rfl, rfl, rfl, rfl, rfl, rfl, rfl⟩
  refine ⟨_, ?_, hclear.withCursor, ?_⟩
  · unfold redraw
    exact Goes.after (draws_cells h) ((goes_showCursor hclear rfl).from hscreen)
  · unfold State.withCursor
    split_ifs <;> rfl

/-! ### Runs -/

/-- The states that batches with `C` and redraws lead to. -/
inductive Reached (readString : Str → Except Error (Option Int)) (C : Mode × Str → Str → Prop) : State → Prop
  | make {opts : Options} {st : State} (hcols : 0 < opts.cols) (hrows : 0 < opts.rows) (h : make opts = .ok st) :
      Reached readString C st
  | feed {st st' : State} {s : Str} {g g' : Gfx.State} (h : Reached readString C st) (hs : C (st.mode, st.params) s)
      (hrun : feed readString st s g = .ok (st', g')) : Reached readString C st'
  | redraw {st st' : State} {g g' : Gfx.State} (h : Reached readString C st)
      (hrun : redraw st g = .ok (st', g')) : Reached readString C st'

/-- A run ends where the step goes. -/
theorem Goes.eq_of_run {P Q : Gfx.State → Prop} {d : Draw State} {st₁ : State} (h : Goes st P d st₁ Q)
    (hrun : d g = .ok (st', g')) : st' = st₁ ∧ (Placed st g → P g → Kept st g g' ∧ Q g') := by
  obtain ⟨g₁, hrun₁, hk⟩ := h.run g
  rw [hrun₁] at hrun
  cases hrun
  exact ⟨rfl, hk⟩

theorem Reached.good (hC : ∀ st s g st' g', st.Good → C (st.mode, st.params) s →
    Term.feed readString st s g = .ok (st', g') → Calm readString (st.mode, st.params) s)
    (h : Reached readString C st) : st.Good := by
  induction h with
  | @make opts st hcols hrows h =>
      rw [make_eq] at h
      cases h
      exact good_made hcols hrows
  | feed _ hs hrun ih =>
      obtain ⟨st₁, hgoes, hgood, -⟩ := goes_feed ih (hC _ _ _ _ _ ih hs hrun)
      rw [(hgoes.eq_of_run hrun).1]
      exact hgood
  | redraw _ hrun ih =>
      obtain ⟨st₁, hgoes, hgood, -⟩ := goes_redraw ih
      rw [(hgoes.eq_of_run hrun).1]
      exact hgood

/-- A reader of decimal numbers. -/
def readDecimal (s : Str) : Except Error (Option Int) :=
  if s ≠ [] ∧ s.all Char.isDigit then .ok (some (Nat.ofDigitChars 10 s 0)) else .error .unreadable

/-- A font of empty glyphs. -/
def emptyFont : Font where
  width := 8
  height := 8
  stride := 1
  bytes := fun _ => 0
  capacity := 8
  base := 0
  glyphSize := 8
  count := 1
  first := 32
  unicode := some fun _ => some 0
  inside := fun _ => Nat.le_refl 8

/-- One cell of 16 by 16 pixels. -/
def oneCell : Options where
  cols := 1
  rows := 1
  font := emptyFont

/-- A screen of that size, the mouse cursor hidden. -/
def smallScreen : Gfx.State where
  canvas := { fb := fun _ => 0, w := 16, h := 16, surfaces := fun _ => none, owner := none }
  curX := 0
  curY := 0
  curShown := false
  curSaved := fun _ => 0

/-- Bold text. -/
def boldText : Str := [Char.ofNat 27, '[', '1', 'm', 'A']

theorem sequences_bold : sequences (.ground, []) boldText = [(['1'], 'm')] := by decide

theorem calm_bold : Calm readDecimal (.ground, []) boldText := by
  intro q hq
  rw [sequences_bold] at hq
  cases List.mem_singleton.mp hq
  have hpieces : pieces ['1'] = [['1']] := by decide
  refine ⟨fun piece hpiece _ => ?_, fun _ => ⟨by decide, fun _ n hn => ?_⟩⟩
  · rw [hpieces] at hpiece
    cases List.mem_singleton.mp hpiece
    exact ⟨some 1, rfl⟩
  · rw [hpieces] at hn
    cases hn

/-- Parameters of digits and `;`, after a `?` if there is one. -/
def PlainParams (raw : Str) : Prop :=
  ∀ c ∈ (if raw.head? = some '?' then raw.tail else raw), c.isDigit ∨ c = ';'

/-- Every control sequence that the text completes has such parameters. -/
def Plain (m : Mode × Str) (s : Str) : Prop := ∀ q ∈ sequences m s, PlainParams q.1

/-- A text of digits is read as a natural number, if it is read. -/
def ReadsDigits (readString : Str → Except Error (Option Int)) : Prop :=
  ∀ s v, s ≠ [] → (∀ c ∈ s, c.isDigit) → readString s = .ok v → ∃ n : Nat, v = some (n : Int)

/-- All parameters of a text are read. -/
def Reads (readString : Str → Except Error (Option Int)) (m : Mode × Str) (s : Str) : Prop :=
  ∀ q ∈ sequences m s, ∀ piece ∈ pieces q.1, piece ≠ [] → ∃ v, readString piece = .ok v

theorem mem_splitOn {s piece : Str} (h : piece ∈ s.splitOn ';') : ∀ c ∈ piece, c ∈ s ∧ c ≠ ';' := by
  induction s generalizing piece with
  | nil =>
      rw [List.splitOn_nil] at h
      cases List.mem_singleton.mp h
      exact List.forall_mem_nil _
  | cons a s ih =>
      unfold List.splitOn at h ih
      rw [List.splitOnP_cons_eq_if_modifyHead] at h
      split_ifs at h with ha
      · rcases List.mem_cons.mp h with rfl | h
        · exact List.forall_mem_nil _
        · exact fun c hc => ⟨List.mem_cons_of_mem a (ih h c hc).1, (ih h c hc).2⟩
      · have hne : a ≠ ';' := fun he => ha (beq_iff_eq.mpr he)
        cases hsplit : s.splitOnP (· == ';') with
        | nil => exact absurd hsplit (List.splitOnP_ne_nil _ s)
        | cons first more =>
            rw [hsplit] at h ih
            rcases List.mem_cons.mp h with rfl | h
            · intro c hc
              rcases List.mem_cons.mp hc with rfl | hc
              · exact ⟨List.mem_cons_self, hne⟩
              · obtain ⟨hmem, hsemi⟩ := ih List.mem_cons_self c hc
                exact ⟨List.mem_cons_of_mem a hmem, hsemi⟩
            · intro c hc
              obtain ⟨hmem, hsemi⟩ := ih (List.mem_cons_of_mem first h) c hc
              exact ⟨List.mem_cons_of_mem a hmem, hsemi⟩

/-- An index of the 256 colours is one of the parameters. -/
theorem mem_paletteIndexes (ps : List (Option Int)) {n : Int} (h : n ∈ paletteIndexes ps) : ∃ v ∈ ps, n = v.getD 0 := by
  induction ps using paletteIndexes.induct with
  | case1 => cases h
  | case2 p hp q rest ih =>
      rw [paletteIndexes, if_pos hp] at h
      rcases List.mem_cons.mp h with rfl | h
      · exact ⟨q, List.mem_cons_of_mem _ (List.mem_cons_of_mem _ List.mem_cons_self), rfl⟩
      · obtain ⟨v, hv, he⟩ := ih h
        exact ⟨v, List.mem_cons_of_mem _ (List.mem_cons_of_mem _ (List.mem_cons_of_mem _ hv)), he⟩
  | case3 p hp r g b rest ih =>
      rw [paletteIndexes, if_pos hp] at h
      obtain ⟨v, hv, he⟩ := ih h
      exact ⟨v, List.mem_append_right [p, some 2, r, g, b] hv, he⟩
  | case4 p more hp h5 h2 =>
      rw [paletteIndexes.eq_def] at h
      dsimp only at h
      rw [if_pos hp] at h
      split at h
      · exact (h5 _ _ rfl).elim
      · exact (h2 _ _ _ _ rfl).elim
      · cases h
  | case5 p more hp ih =>
      rw [paletteIndexes.eq_def] at h
      dsimp only at h
      rw [if_neg hp] at h
      obtain ⟨v, hv, he⟩ := ih h
      exact ⟨v, List.mem_cons_of_mem p hv, he⟩

theorem sound_of_plain {raw : Str} (hread : ReadsDigits readString) (hraw : PlainParams raw)
    (hpieces : ∀ piece ∈ pieces raw, piece ≠ [] → ∃ v, readString piece = .ok v) : Sound readString raw c := by
  have hvalue : ∀ v ∈ (pieces raw).map (value readString), 0 ≤ v.getD 0 := by
    intro v hv
    obtain ⟨piece, hpiece, rfl⟩ := List.mem_map.mp hv
    unfold value
    split_ifs with hnil
    · exact Int.le_refl 0
    · obtain ⟨v, hv⟩ := hpieces piece hpiece hnil
      have hdigits : ∀ c ∈ piece, c.isDigit := by
        intro c hc
        obtain ⟨hmem, hne⟩ := mem_splitOn hpiece c hc
        exact (hraw c hmem).resolve_right hne
      obtain ⟨n, rfl⟩ := hread piece v hnil hdigits hv
      rw [hv]
      exact Int.natCast_nonneg n
  refine ⟨hpieces, fun _ => ⟨fun _ => ?_, fun _ n hn => ?_⟩⟩
  · generalize (pieces raw).map (value readString) = ps at hvalue
    unfold count
    cases ps with
    | nil => exact Int.zero_le_ofNat 1
    | cons v ps =>
        have := hvalue v List.mem_cons_self
        show 0 ≤ if v.getD 0 = 0 then 1 else v.getD 0
        split_ifs <;> omega
  · obtain ⟨v, hv, rfl⟩ := mem_paletteIndexes _ hn
    exact hvalue v hv

theorem Draw.bind_ok {α β : Type} {d : Draw α} {k : α → Draw β} {b : β} (h : (d >>= k) g = .ok (b, g')) :
    ∃ a g₁, d g = .ok (a, g₁) ∧ k a g₁ = .ok (b, g') := by
  change (d g >>= fun r => k r.1 r.2) = _ at h
  obtain ⟨⟨a, g₁⟩, hd, hk⟩ := bind_eq_ok.mp h
  exact ⟨a, g₁, hd, hk⟩

theorem parseParams_reads {s : Str} {ps : List (Option Int)} (h : parseParams readString s = .ok ps) :
    ∀ piece ∈ s.splitOn ';', piece ≠ [] → ∃ v, readString piece = .ok v := by
  unfold parseParams at h
  generalize s.splitOn ';' = pieces at h
  induction pieces generalizing ps with
  | nil => exact nofun
  | cons p pieces ih =>
      rw [List.mapM_cons] at h
      obtain ⟨v, hv, h⟩ := bind_eq_ok.mp h
      obtain ⟨vs, hvs, -⟩ := bind_eq_ok.mp h
      intro piece hpiece hnil
      rcases List.mem_cons.mp hpiece with rfl | hpiece
      · rw [if_neg hnil] at hv
        exact ⟨v, hv⟩
      · exact ih hvs piece hpiece hnil

/-- A control sequence that does not throw has parameters that are read. -/
theorem reads_of_csi (h : csi readString st c g = .ok (st', g')) :
    ∀ piece ∈ pieces st.params, piece ≠ [] → ∃ v, readString piece = .ok v := by
  unfold csi at h
  dsimp only at h
  obtain ⟨ps, g₁, hparse, -⟩ := Draw.bind_ok h
  cases hps : parseParams readString (if st.params.head? = some '?' then st.params.tail else st.params) with
  | error e =>
      rw [hps] at hparse
      cases hparse
  | ok ps => exact parseParams_reads hps

theorem calm_of_chars (hread : ReadsDigits readString) (h : st.Good) (hs : Plain (st.mode, st.params) s)
    (hrun : s.foldlM (feedChar readString) st g = .ok (st', g')) : Calm readString (st.mode, st.params) s := by
  induction s generalizing st g with
  | nil => exact nofun
  | cons c s ih =>
      rw [List.foldlM_cons] at hrun
      obtain ⟨st₁, g₁, hfirst, hrest⟩ := Draw.bind_ok hrun
      have htame : Tame readString (st.mode, st.params) c := by
        intro hmode hlo hhi
        change st.mode = .csi at hmode
        unfold Plain sequences at hs
        rw [if_pos ⟨hmode, hlo, hhi⟩] at hs
        unfold feedChar at hfirst
        rw [hmode] at hfirst
        dsimp only at hfirst
        rw [if_pos ⟨hlo, hhi⟩] at hfirst
        exact sound_of_plain hread (hs _ List.mem_cons_self) (reads_of_csi hfirst)
      obtain ⟨st₂, htakes⟩ := takes_feedChar h htame
      obtain ⟨rfl, -⟩ := htakes.goes.eq_of_run hfirst
      have hplain : Plain (scan (st.mode, st.params) c) s := by
        intro q hq
        apply hs q
        unfold sequences
        split_ifs
        · exact List.mem_cons_of_mem _ hq
        · exact hq
      rw [← htakes.parser] at hplain
      have hcalm := ih htakes.good hplain hrest
      rw [htakes.parser] at hcalm
      intro q hq
      unfold sequences at hq
      split_ifs at hq with hfinal
      · rcases List.mem_cons.mp hq with rfl | hq
        · exact htame hfinal.1 hfinal.2.1 hfinal.2.2
        · exact hcalm q hq
      · exact hcalm q hq

/-- What a batch of plain text that returns went through. -/
theorem calm_of_feed (hread : ReadsDigits readString) (h : st.Good) (hs : Plain (st.mode, st.params) s)
    (hrun : feed readString st s g = .ok (st', g')) : Calm readString (st.mode, st.params) s := by
  unfold feed at hrun
  obtain ⟨st₁, g₁, hhide, hrun⟩ := Draw.bind_ok hrun
  obtain ⟨rfl, -⟩ := (goes_hideCursor h).eq_of_run hhide
  obtain ⟨st₂, g₂, hchars, -⟩ := Draw.bind_ok hrun
  have hclear : ({ st with drawnCursor := none } : State).Good := h.cursorAt nofun
  have hcalm := calm_of_chars hread hclear hs hchars
  exact hcalm

theorem calm_of_plain (hread : ReadsDigits readString) {m : Mode × Str} (hs : Plain m s) (hr : Reads readString m s) :
    Calm readString m s := fun q hq => sound_of_plain hread (hs q hq) (hr q hq)

theorem readsDigits_decimal : ReadsDigits readDecimal := by
  intro s v _ _ hv
  unfold readDecimal at hv
  split_ifs at hv
  cases hv
  exact ⟨_, rfl⟩

theorem plain_bold : Plain (.ground, []) ([boldText].flatten) := by
  intro q hq
  have hsequences : sequences (.ground, []) [boldText].flatten = [(['1'], 'm')] := by decide
  rw [hsequences] at hq
  cases List.mem_singleton.mp hq
  exact List.all_iff_forall_prop.mp (by decide)

/-- Several batches. -/
def feeds (readString : Str → Except Error (Option Int)) (st : State) (ss : List Str) : Draw State :=
  ss.foldlM (feed readString) st

theorem sequences_append (m : Mode × Str) (s t : Str) :
    sequences m (s ++ t) = sequences m s ++ sequences (s.foldl scan m) t := by
  induction s generalizing m with
  | nil => rfl
  | cons c s ih =>
      rw [List.cons_append, sequences, sequences, ih, List.foldl_cons]
      split_ifs
      · rfl
      · rfl

theorem plain_append {m : Mode × Str} {s t : Str} (h : Plain m (s ++ t)) : Plain m s ∧ Plain (s.foldl scan m) t := by
  unfold Plain at h ⊢
  rw [sequences_append] at h
  exact ⟨fun q hq => h q (List.mem_append_left _ hq), fun q hq => h q (List.mem_append_right _ hq)⟩

theorem shows_of_feeds_good (hread : ReadsDigits readString) {ss : List Str} (h : st.Good)
    (hs : Plain (st.mode, st.params) ss.flatten) (hg : Placed st g) (hshow : st.Shows g)
    (hrun : feeds readString st ss g = .ok (st', g')) : st'.Shows g' ∧ Kept st g g' := by
  induction ss generalizing st g with
  | nil =>
      cases hrun
      exact ⟨hshow, .refl _ _⟩
  | cons s ss ih =>
      unfold feeds at hrun
      rw [List.foldlM_cons] at hrun
      obtain ⟨st₁, g₁, hfirst, hrest⟩ := Draw.bind_ok hrun
      rw [List.flatten_cons] at hs
      obtain ⟨hplain, hmore⟩ := plain_append hs
      obtain ⟨st₂, hgoes, hgood, hparser⟩ := goes_feed h (calm_of_feed hread h hplain hfirst)
      obtain ⟨rfl, hk⟩ := hgoes.eq_of_run hfirst
      obtain ⟨hkept, hshow₁⟩ := hk hg hshow
      rw [← hparser] at hmore
      obtain ⟨hshow', hkept'⟩ := ih hgood hmore (hg.kept hgoes.screen hkept) hshow₁ hrest
      exact ⟨hshow', hkept.trans hgoes.screen hkept'⟩

theorem reads_append {m : Mode × Str} {s t : Str} (h : Reads readString m (s ++ t)) :
    Reads readString m s ∧ Reads readString (s.foldl scan m) t := by
  unfold Reads at h ⊢
  rw [sequences_append] at h
  exact ⟨fun q hq => h q (List.mem_append_left _ hq), fun q hq => h q (List.mem_append_right _ hq)⟩

theorem feeds_ok (hread : ReadsDigits readString) {ss : List Str} (h : st.Good)
    (hs : Plain (st.mode, st.params) ss.flatten) (hr : Reads readString (st.mode, st.params) ss.flatten)
    (g : Gfx.State) : ∃ st' g', feeds readString st ss g = .ok (st', g') := by
  induction ss generalizing st g with
  | nil => exact ⟨st, g, rfl⟩
  | cons s ss ih =>
      rw [List.flatten_cons] at hs hr
      obtain ⟨hplain, hmore⟩ := plain_append hs
      obtain ⟨hreads, hmoreReads⟩ := reads_append hr
      obtain ⟨st₁, hgoes, hgood, hparser⟩ := goes_feed h (calm_of_plain hread hplain hreads)
      obtain ⟨g₁, hrun, -⟩ := hgoes.run g
      rw [← hparser] at hmore hmoreReads
      obtain ⟨st₂, g₂, hrest⟩ := ih hgood hmore hmoreReads g₁
      refine ⟨st₂, g₂, ?_⟩
      unfold feeds
      rw [List.foldlM_cons]
      exact (draw_bind hrun).trans hrest

/-- After a redraw and any batches of plain text the terminal's pixels are those of its cells, and no other
pixel was touched; the batches return when their parameters are read. -/
theorem shows_of_feeds (hread : ReadsDigits readString) (h : Reached readString Plain st) (hg : Placed st g)
    {ss : List Str} (hs : Plain (st.mode, st.params) ss.flatten) :
    (∀ st' g', (redraw st >>= fun st => feeds readString st ss) g = .ok (st', g') → st'.Shows g' ∧ Kept st g g') ∧
      (Reads readString (st.mode, st.params) ss.flatten →
        ∃ st' g', (redraw st >>= fun st => feeds readString st ss) g = .ok (st', g')) := by
  have hgood := h.good fun _ _ _ _ _ hgood hs hrun => calm_of_feed hread hgood hs hrun
  obtain ⟨st₁, hgoes, hgood₁, hparser⟩ := goes_redraw hgood
  rw [← hparser] at hs ⊢
  constructor
  · intro st' g' hrun
    obtain ⟨st₂, g₁, hredraw, hfeeds⟩ := Draw.bind_ok hrun
    obtain ⟨rfl, hk⟩ := hgoes.eq_of_run hredraw
    obtain ⟨hkept, hshow⟩ := hk hg trivial
    obtain ⟨hshow', hkept'⟩ := shows_of_feeds_good hread hgood₁ hs (hg.kept hgoes.screen hkept) hshow hfeeds
    exact ⟨hshow', hkept.trans hgoes.screen hkept'⟩
  · intro hr
    obtain ⟨g₁, hredraw, -⟩ := hgoes.run g
    obtain ⟨st', g', hfeeds⟩ := feeds_ok hread hgood₁ hs hr g₁
    exact ⟨st', g', (draw_bind hredraw).trans hfeeds⟩

theorem placed_oneCell : Placed oneCell.made smallScreen := by
  refine ⟨⟨⟨16, 16, rfl, by decide, by decide, by decide, by decide⟩, fun _ => rfl⟩, fun r c _ _ => ?_⟩
  show bitAt (fun _ => 0) 1 r c = false
  unfold bitAt
  rw [UInt8.zero_and]
  rfl

theorem shows_of_feeds_bold :
    (∀ st' g', (redraw oneCell.made >>= fun st => feeds readDecimal st [boldText]) smallScreen = .ok (st', g') →
      st'.Shows g' ∧ Kept oneCell.made smallScreen g') ∧
      (Reads readDecimal (oneCell.made.mode, oneCell.made.params) [boldText].flatten →
        ∃ st' g', (redraw oneCell.made >>= fun st => feeds readDecimal st [boldText]) smallScreen = .ok (st', g')) :=
  shows_of_feeds readsDigits_decimal (.make (by decide) (by decide) (make_eq oneCell)) placed_oneCell plain_bold

end Beeros.Term
