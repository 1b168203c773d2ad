import Beeros.Interleave
import Beeros.TermText

/-! The pending wrap: a character in the last column leaves the cursor there, and the next one goes to the following
line unless the cursor was moved in between. Every control that moves the cursor clears `:wrap?`, but `ESC D`, `ESC E`
and `ESC M` do not. -/

namespace Beeros.Term

open Beerlang State
open Interleave (Run runEvents)

/-! ### Where characters go -/

/-- Where the next character goes, in the following line if it is `due` there. -/
def State.landing (st : State) (due : Bool) : Nat × Nat :=
  if due then (0, min (st.cy + 1) (st.rows - 1)) else (st.cx, st.cy)

/-- The cells around it: behind the last line comes a new one. -/
def State.around (st : State) (due : Bool) : List (List Cell) :=
  if due ∧ st.cy + 1 ≥ st.rows then Grid.shiftUp 1 (.replicate st.cols st.blankCell) st.cells else st.cells

/-- The character stands there, and no other cell has changed. -/
def State.Lands (st : State) (due : Bool) (c : Char) (st' : State) : Prop :=
  st'.cells = Grid.paint (fun row col => row = (st.landing due).2 ∧ col = (st.landing due).1) (st.penCell c)
    (st.around due)

/-- The character ends a control that moves the cursor. -/
def Moves (st : State) (c : Char) : Prop :=
  match st.mode with
  | .ground => 8 ≤ c.toNat ∧ c.toNat ≤ 13
  -- `8`, `c`, `D`, `E` and `M`
  | .esc => c.toNat ∈ [56, 99, 68, 69, 77]
  | .csi => st.params.head? ≠ some '?' ∧ c ∈ ['A', 'B', 'C', 'D', 'E', 'F', 'G', 'H', 'd', 'f', 'u']

instance (st : State) (c : Char) : Decidable (Moves st c) := by
  unfold Moves
  cases st.mode <;> infer_instance

/-- Whether the next character is due in the following line: the last one filled a line, and no control has moved the
cursor since. -/
def nextDue (st : State) (due : Bool) (c : Char) : Bool :=
  if st.mode = .ground ∧ Printable c then (st.landing due).1 + 1 = st.cols
  else if Moves st c then false
  else due

/-! ### Runs -/

structure Margin where
  st : State
  g : Gfx.State
  due : Bool

/-- The steps of `feed`. -/
inductive Step
  | hidden
  | char (c : Char)
  | shown

def step (readString : Str → Except Error (Option Int)) : Step → Margin → Option Margin
  | .hidden, m => (hideCursor m.st m.g).toOption.map fun r => ⟨r.1, r.2, m.due⟩
  | .char c, m => (feedChar readString m.st c m.g).toOption.map fun r => ⟨r.1, r.2, nextDue m.st m.due c⟩
  | .shown, m => (showCursor m.st m.g).toOption.map fun r => ⟨r.1, r.2, m.due⟩

/-- Control sequences have parameters of digits and `;`. -/
def Supported : Step → Margin → Prop
  | .char c, m => m.st.mode = .csi → 0x40 ≤ c.toNat → c.toNat ≤ 0x7E → PlainParams m.st.params
  | _, _ => True

/-- `ESC D`, `ESC E` and `ESC M` come when no wrap is pending. -/
def Settled : Step → Margin → Prop
  | .char c, m => m.st.mode = .esc → c.toNat ∈ [68, 69, 77] → m.st.wrap = false
  | _, _ => True

/-- A wrap is pending at the right edge only, and the next character goes where it is due. -/
structure Proper (readString : Str → Except Error (Option Int)) (m : Margin) : Prop where
  edge : m.st.wrap = true → m.st.cx + 1 = m.st.cols
  lands : m.st.mode = .ground → ∀ c, Printable c → ∃ st' g',
    feedChar readString m.st c m.g = .ok (st', g') ∧ m.st.Lands m.due c st'

variable {readString : Str → Except Error (Option Int)} {st st' st'' : State} {g g' : Gfx.State} {c : Char}
  {m m' : Margin} {due : Bool}

/-! ### What keeps the wrap -/

/-- Column, columns and the pending wrap are as before. -/
structure Stays (st st' : State) : Prop where
  cx : st'.cx = st.cx
  cols : st'.cols = st.cols
  wrap : st'.wrap = st.wrap

theorem Stays.refl (st : State) : Stays st st := ⟨rfl, rfl, rfl⟩

theorem Stays.trans (h : Stays st st') (h' : Stays st' st'') : Stays st st'' :=
  ⟨h'.cx.trans h.cx, h'.cols.trans h.cols, h'.wrap.trans h.wrap⟩

/-- Where the drawing ends, if it does. -/
def Leaves (P : State → Prop) (d : Draw State) : Prop := ∀ g st' g', d g = .ok (st', g') → P st'

section Leaves

variable {P Q : State → Prop} {d d' : Draw State}

theorem leaves_pure (h : P st) : Leaves P (pure st) := by
  intro g st' g' hrun
  cases hrun
  exact h

theorem Leaves.bind {k : State → Draw State} (h : Leaves Q d) (hk : ∀ st, Q st → Leaves P (k st)) :
    Leaves P (d >>= k) := by
  intro g st' g' hrun
  obtain ⟨st₁, g₁, hfirst, hrest⟩ := Draw.bind_ok hrun
  exact hk st₁ (h g st₁ g₁ hfirst) g₁ st' g' hrest

theorem leaves_bind {α : Type} {u : Draw α} {k : α → Draw State} (hk : ∀ a, Leaves P (k a)) : Leaves P (u >>= k) := by
  intro g st' g' hrun
  obtain ⟨a, g₁, -, hrest⟩ := Draw.bind_ok hrun
  exact hk a g₁ st' g' hrest

theorem Leaves.ite {p : Prop} [Decidable p] (h : p → Leaves P d) (h' : ¬p → Leaves P d') :
    Leaves P (if p then d else d') := by
  split_ifs with hp
  · exact h hp
  · exact h' hp

theorem Leaves.mono (h : Leaves Q d) (hQ : ∀ st, Q st → P st) : Leaves P d :=
  fun g st' g' hrun => hQ st' (h g st' g' hrun)

end Leaves

theorem stays_eraseCells (st : State) (row start stop : Nat) : Leaves (Stays st) (eraseCells st row start stop) :=
  .ite (fun _ => leaves_pure (.refl st)) fun _ => leaves_bind fun _ => leaves_bind fun _ => leaves_bind fun _ =>
    leaves_bind fun _ => leaves_bind fun _ => leaves_bind fun _ => leaves_pure ⟨rfl, rfl, rfl⟩

theorem stays_eraseRows (st : State) (start stop : Nat) : Leaves (Stays st) (eraseRows st start stop) := by
  unfold eraseRows
  generalize List.range' start (stop - start) = rows
  have hrows (st₁ : State) (h : Stays st st₁) :
      Leaves (Stays st) (rows.foldlM (fun st row => eraseCells st row 0 st.cols) st₁) := by
    induction rows generalizing st₁ with
    | nil => exact leaves_pure h
    | cons row rows ih =>
        rw [List.foldlM_cons]
        exact (stays_eraseCells st₁ row 0 st₁.cols).bind fun st₂ h₂ => ih st₂ (h.trans h₂)
  exact hrows st (.refl st)

/-- Other cells, and then rows erased. -/
theorem stays_cells (st : State) (cells : List (List Cell)) (start stop : Nat) :
    Leaves (Stays st) (eraseRows { st with cells := cells } start stop) :=
  (stays_eraseRows _ start stop).mono fun _ h => ⟨h.cx, h.cols, h.wrap⟩

theorem stays_scrollUp (st : State) (n : Int) : Leaves (Stays st) (scrollUp st n) :=
  .ite (fun _ => leaves_bind fun _ => leaves_bind fun _ => leaves_bind fun _ => stays_cells st _ _ _)
    fun _ => leaves_bind fun _ => leaves_bind fun _ => stays_cells st _ _ _

theorem stays_scrollDown (st : State) (n : Int) : Leaves (Stays st) (scrollDown st n) :=
  .ite (fun _ => leaves_bind fun _ => leaves_bind fun _ => leaves_bind fun _ => stays_cells st _ _ _)
    fun _ => leaves_bind fun _ => leaves_bind fun _ => stays_cells st _ _ _

theorem stays_lineFeed (st : State) : Leaves (Stays st) (lineFeed st) :=
  .ite (fun _ => stays_scrollUp st 1) fun _ => leaves_pure ⟨rfl, rfl, rfl⟩

theorem stays_eraseDisplay (st : State) (n : Int) : Leaves (Stays st) (eraseDisplay st n) :=
  .ite (fun _ => (stays_eraseCells st _ _ _).bind fun _ h => (stays_eraseRows _ _ _).mono fun _ => h.trans) fun _ =>
    .ite (fun _ => (stays_eraseRows st _ _).bind fun _ h => (stays_eraseCells _ _ _ _).mono fun _ => h.trans)
      fun _ => stays_eraseRows st _ _

theorem stays_eraseLine (st : State) (n : Int) : Leaves (Stays st) (eraseLine st n) :=
  .ite (fun _ => stays_eraseCells st _ _ _) fun _ =>
    .ite (fun _ => stays_eraseCells st _ _ _) fun _ => stays_eraseCells st _ _ _

theorem stays_sgr {ps : List (Option Int)} (hps : ∀ n ∈ paletteIndexes ps, 0 ≤ n) : Stays st (sgr st ps) := by
  have hr : Recolored st (sgr st ps) := recolored_sgr hps
  exact ⟨hr.cx, hr.screen.cols, hr.wrap⟩

theorem stays_control {ps : List (Option Int)} (hps : Harmless ps c)
    (hc : c ∉ ['A', 'B', 'C', 'D', 'E', 'F', 'G', 'H', 'd', 'f', 'u']) : Leaves (Stays st) (control st ps c) := by
  unfold control
  dsimp only
  split
  case h_11 => exact stays_eraseDisplay st _
  case h_12 => exact stays_eraseLine st _
  case h_13 => exact stays_scrollUp st _
  case h_14 => exact stays_scrollDown st _
  case h_15 => exact leaves_pure (stays_sgr (hps.2 rfl))
  case h_16 => exact leaves_pure ⟨rfl, rfl, rfl⟩
  case h_18 => exact leaves_pure (.refl st)
  all_goals exact absurd (by decide) hc

theorem wrap_control {ps : List (Option Int)} (hc : c ∈ ['A', 'B', 'C', 'D', 'E', 'F', 'G', 'H', 'd', 'f', 'u']) :
    Leaves (fun st' => st'.wrap = false) (control st ps c) := by
  simp only [List.mem_cons, List.not_mem_nil, or_false] at hc
  rcases hc with rfl | rfl | rfl | rfl | rfl | rfl | rfl | rfl | rfl | rfl | rfl <;> exact leaves_pure rfl

theorem stays_privControl (st : State) (ps : List (Option Int)) (final : Char) : Stays st (privControl st ps final) := by
  unfold privControl
  split_ifs
  · split <;> exact ⟨rfl, rfl, rfl⟩
  · exact .refl st

/-! ### One character -/

/-- The wrap is pending when the next character is due in the following line, and then at the right edge. -/
structure Edge (due : Bool) (st : State) : Prop where
  wrap : st.wrap = due
  right : due = true → st.cx + 1 = st.cols

theorem Edge.stays (h : Edge due st) (hs : Stays st st') : Edge due st' :=
  ⟨hs.wrap.trans h.wrap, fun hdue => by rw [hs.cx, hs.cols]; exact h.right hdue⟩

theorem edge_of_false (h : st.wrap = false) : Edge false st := ⟨h, nofun⟩

theorem nextDue_of_moves (hmode : st.mode = .ground → ¬Printable c) (h : Moves st c) : nextDue st due c = false := by
  unfold nextDue
  rw [if_neg fun h => hmode h.1 h.2, if_pos h]

theorem nextDue_of_not (hmode : st.mode = .ground → ¬Printable c) (h : ¬Moves st c) : nextDue st due c = due := by
  unfold nextDue
  rw [if_neg fun h => hmode h.1 h.2, if_neg h]

theorem edge_escChar (h : Edge due st) (hmode : st.mode = .esc)
    (hsettled : c.toNat ∈ [68, 69, 77] → st.wrap = false) :
    Leaves (Edge (nextDue st due c)) (escChar st c.toNat) := by
  have hground : st.mode = .ground → ¬Printable c := fun hg => by rw [hmode] at hg; cases hg
  have hmoves : Moves st c ↔ c.toNat ∈ [56, 99, 68, 69, 77] := by
    unfold Moves
    rw [hmode]
  unfold escChar
  dsimp only
  by_cases hc : c.toNat ∈ [56, 99, 68, 69, 77]
  · rw [nextDue_of_moves hground (hmoves.mpr hc)]
    simp only [List.mem_cons, List.not_mem_nil, or_false] at hc hsettled
    rcases hc with h | h | h | h | h <;> rw [h] at hsettled ⊢
    · exact leaves_pure (edge_of_false rfl)
    · exact leaves_bind fun _ => leaves_pure (edge_of_false rfl)
    · exact (stays_lineFeed _).mono fun _ hs => edge_of_false (hs.wrap.trans (hsettled (by decide)))
    · exact (stays_lineFeed _).bind fun _ hs => leaves_pure (edge_of_false (hs.wrap.trans (hsettled (by decide))))
    · show Leaves _ (if st.cy = 0 then scrollDown _ 1 else pure _)
      refine .ite (fun _ => ?_) fun _ => leaves_pure (edge_of_false (hsettled (by decide)))
      exact (stays_scrollDown _ 1).mono fun _ hs => edge_of_false (hs.wrap.trans (hsettled (by decide)))
  · rw [nextDue_of_not hground fun hm => hc (hmoves.mp hm)]
    simp only [List.mem_cons, List.not_mem_nil, or_false, not_or] at hc
    obtain ⟨h56, h99, h68, h69, h77⟩ := hc
    rw [if_neg h56, if_neg h99, if_neg h68, if_neg h69, if_neg h77]
    refine .ite (fun _ => ?_) fun _ => .ite (fun _ => ?_) fun _ => ?_
    all_goals exact leaves_pure (h.stays ⟨rfl, rfl, rfl⟩)

theorem edge_csi (h : Edge due st) (hmode : st.mode = .csi) (hs : Sound readString st.params c) :
    Leaves (Edge (nextDue st due c)) (csi readString st c) := by
  have hground : st.mode = .ground → ¬Printable c := fun hg => by rw [hmode] at hg; cases hg
  have hmoves : Moves st c ↔ st.params.head? ≠ some '?' ∧
      c ∈ ['A', 'B', 'C', 'D', 'E', 'F', 'G', 'H', 'd', 'f', 'u'] := by
    unfold Moves
    rw [hmode]
  have hparsing : Stays st (st.parsing (.ground, [])) := ⟨rfl, rfl, rfl⟩
  rw [csi_eq hs.1]
  refine .ite (fun hpriv => ?_) fun hpriv => ?_
  · rw [nextDue_of_not hground fun hm => (hmoves.mp hm).1 hpriv]
    exact leaves_pure (h.stays (hparsing.trans (stays_privControl _ _ _)))
  · by_cases hc : c ∈ ['A', 'B', 'C', 'D', 'E', 'F', 'G', 'H', 'd', 'f', 'u']
    · rw [nextDue_of_moves hground (hmoves.mpr ⟨hpriv, hc⟩)]
      exact (wrap_control hc).mono fun _ => edge_of_false
    · rw [nextDue_of_not hground fun hm => hc (hmoves.mp hm).2]
      exact (stays_control (hs.2 hpriv) hc).mono fun _ hs => h.stays (hparsing.trans hs)

theorem not_printable (h : c.toNat < 32 ∨ c.toNat = 127) : ¬Printable c := by
  unfold Printable
  omega

/-- Where the character goes that `put-char` writes. -/
theorem unwrapped_eq (h : st.Good) : (st.unwrapped.cx, st.unwrapped.cy) = st.landing st.wrap ∧
    st.unwrapped.cells = st.around st.wrap ∧ st.unwrapped.cols = st.cols ∧ st.unwrapped.wrap = false ∧
    st.unwrapped.pen = st.pen := by
  have hcy : st.cy < st.rows := h.cursor.2
  unfold State.unwrapped State.landing State.around State.lineFed
  cases hwrap : st.wrap with
  | false => exact ⟨rfl, rfl, rfl, hwrap, rfl⟩
  | true =>
      rw [if_pos rfl, if_pos rfl]
      by_cases hlast : st.cy + 1 ≥ st.rows
      · rw [if_pos hlast, if_pos ⟨rfl, hlast⟩, Nat.min_eq_right (by omega)]
        refine ⟨?_, rfl, rfl, rfl, rfl⟩
        rw [show st.rows - 1 = st.cy by omega]
        rfl
      · rw [if_neg hlast, if_neg fun h => hlast h.2, Nat.min_eq_left (by omega)]
        exact ⟨rfl, rfl, rfl, rfl, rfl⟩

theorem edge_typed (hg : st.Good) (h : Edge due st) (c : Char) :
    Edge (decide ((st.landing due).1 + 1 = st.cols)) (st.typed c) := by
  obtain ⟨hplace, -, hcols, hwrap, -⟩ := unwrapped_eq hg
  have hgood := (steps_wrapped hg).good
  have hcx : st.unwrapped.cx < st.unwrapped.cols := hgood.cursor.1
  rw [← h.wrap, ← hplace, ← hcols]
  unfold State.typed State.advanced State.withCell
  dsimp only
  by_cases hlast : st.unwrapped.cx + 1 = st.unwrapped.cols
  · rw [decide_eq_true hlast, if_pos (Nat.le_of_eq hlast.symm)]
    exact ⟨rfl, fun _ => hlast⟩
  · rw [decide_eq_false hlast, if_neg (by omega)]
    exact edge_of_false hwrap

theorem edge_groundChar (hg : st.Good) (h : Edge due st) (hmode : st.mode = .ground) :
    Leaves (Edge (nextDue st due c)) (groundChar st c) := by
  have hmoves : Moves st c ↔ 8 ≤ c.toNat ∧ c.toNat ≤ 13 := by
    unfold Moves
    rw [hmode]
  unfold groundChar
  dsimp only
  by_cases hprint : Printable c
  · have hdue : nextDue st due c = decide ((st.landing due).1 + 1 = st.cols) := if_pos ⟨hmode, hprint⟩
    obtain ⟨hlow, h127⟩ := hprint
    rw [if_neg (by omega), if_neg (by omega), if_neg (by omega), if_neg (by omega), if_neg (by omega),
      if_neg (by omega), if_neg h127, hdue]
    intro g st' g' hrun
    rw [((steps_putChar hg c).goes.eq_of_run hrun).1]
    exact edge_typed hg h c
  · have hno : st.mode = .ground → ¬Printable c := fun _ => hprint
    by_cases hc : 8 ≤ c.toNat ∧ c.toNat ≤ 13
    · rw [nextDue_of_moves hno (hmoves.mpr hc), if_neg (by omega)]
      refine .ite (fun _ => leaves_pure (edge_of_false rfl)) fun h13 => .ite (fun _ => ?_) fun h10 => ?_
      · exact leaves_bind fun _ => leaves_pure (edge_of_false rfl)
      · refine .ite (fun _ => leaves_pure (edge_of_false rfl)) fun h8 => ?_
        rw [if_pos (by omega)]
        exact leaves_pure (edge_of_false rfl)
    · rw [nextDue_of_not hno fun hm => hc (hmoves.mp hm)]
      refine .ite (fun _ => leaves_pure (h.stays ⟨rfl, rfl, rfl⟩)) fun h27 => ?_
      rw [if_neg (by omega), if_neg (by omega), if_neg (by omega), if_neg (by omega)]
      refine .ite (fun _ => leaves_pure h) fun h32 => .ite (fun _ => leaves_pure h) fun h127 => ?_
      exact absurd ⟨by omega, h127⟩ hprint

theorem edge_feedChar (hg : st.Good) (h : Edge due st) (hc : Tame readString (st.mode, st.params) c)
    (hsettled : st.mode = .esc → c.toNat ∈ [68, 69, 77] → st.wrap = false) :
    Leaves (Edge (nextDue st due c)) (feedChar readString st c) := by
  unfold feedChar
  dsimp only
  cases hmode : st.mode with
  | ground => exact edge_groundChar hg h hmode
  | esc => exact edge_escChar h hmode (hsettled hmode)
  | csi =>
      refine .ite (fun hfinal => edge_csi h hmode (hc hmode hfinal.1 hfinal.2)) fun hfinal => ?_
      have hdue : nextDue st due c = due := by
        refine nextDue_of_not (fun hground => by rw [hmode] at hground; cases hground) fun hm => hfinal ?_
        unfold Moves at hm
        rw [hmode] at hm
        obtain ⟨-, hm⟩ := hm
        simp only [List.mem_cons, List.not_mem_nil, or_false] at hm
        rcases hm with rfl | rfl | rfl | rfl | rfl | rfl | rfl | rfl | rfl | rfl | rfl <;> decide
      rw [hdue]
      refine .ite (fun _ => ?_) fun _ => .ite (fun _ => leaves_pure h) fun _ => ?_
      all_goals exact leaves_pure (h.stays ⟨rfl, rfl, rfl⟩)

theorem leaves_hideCursor (st : State) : Leaves (· = { st with drawnCursor := none }) (hideCursor st) := by
  unfold hideCursor
  cases st.drawnCursor with
  | none => exact leaves_pure rfl
  | some p => exact .ite (fun _ => leaves_bind fun _ => leaves_bind fun _ => leaves_pure rfl) fun _ => leaves_pure rfl

theorem leaves_showCursor (hg : st.Good) : Leaves (· = st.withCursor) (showCursor st) := by
  have hcx : min st.cx (st.cols - 1) = st.cx := by
    have := hg.cursor.1
    dsimp only at this
    omega
  unfold showCursor State.withCursor
  dsimp only
  rw [hcx]
  refine .ite (fun hcursor => ?_) fun hcursor => ?_
  · rw [if_pos hcursor]
    exact leaves_bind fun _ => leaves_bind fun _ => leaves_pure rfl
  · rw [if_neg hcursor]
    exact leaves_pure rfl

/-! ### Runs -/

/-- What every step keeps. -/
structure Margin.Ok (m : Margin) : Prop where
  good : m.st.Good
  edge : Edge m.due m.st

theorem of_toOption {ε α : Type} {x : Except ε α} {a : α} (h : x.toOption = some a) : x = .ok a := by
  cases x with
  | ok b =>
      cases h
      rfl
  | error e => cases h

/-- A character that is taken. -/
theorem tame_of_run (hread : ReadsDigits readString) (hs : Supported (.char c) m)
    (hrun : feedChar readString m.st c m.g = .ok (st', g')) : Tame readString (m.st.mode, m.st.params) c := by
  intro hmode hlo hhi
  change m.st.mode = .csi at hmode
  unfold feedChar at hrun
  rw [hmode] at hrun
  dsimp only at hrun
  rw [if_pos ⟨hlo, hhi⟩] at hrun
  exact sound_of_plain hread (hs hmode hlo hhi) (reads_of_csi hrun)

theorem ok_step (hread : ReadsDigits readString) {e : Step} (hok : m.Ok) (hs : Supported e m) (hsettled : Settled e m)
    (h : step readString e m = some m') : m'.Ok := by
  cases e with
  | hidden =>
      obtain ⟨⟨st', g'⟩, hrun, rfl⟩ := Option.map_eq_some_iff.mp h
      have hst : st' = { m.st with drawnCursor := none } := leaves_hideCursor m.st _ _ _ (of_toOption hrun)
      rw [hst]
      exact ⟨hok.good.cursorAt nofun, hok.edge.wrap, hok.edge.right⟩
  | char c =>
      obtain ⟨⟨st', g'⟩, hrun, rfl⟩ := Option.map_eq_some_iff.mp h
      have hrun := of_toOption hrun
      have htame := tame_of_run hread hs hrun
      obtain ⟨st₁, htakes⟩ := takes_feedChar hok.good htame
      have hst : st' = st₁ := (htakes.goes.eq_of_run hrun).1
      exact ⟨hst ▸ htakes.good, edge_feedChar hok.good hok.edge htame hsettled _ _ _ hrun⟩
  | shown =>
      obtain ⟨⟨st', g'⟩, hrun, rfl⟩ := Option.map_eq_some_iff.mp h
      have hst : st' = m.st.withCursor := leaves_showCursor hok.good _ _ _ (of_toOption hrun)
      rw [hst]
      refine ⟨hok.good.withCursor, ?_⟩
      have hstays : Stays m.st m.st.withCursor := by
        unfold State.withCursor
        split_ifs <;> exact ⟨rfl, rfl, rfl⟩
      exact hok.edge.stays hstays

theorem feedChar_printable (hmode : st.mode = .ground) (hc : Printable c) :
    feedChar readString st c = putChar st c := by
  obtain ⟨hlow, h127⟩ := hc
  unfold feedChar
  rw [hmode]
  show groundChar st c = _
  unfold groundChar
  dsimp only
  rw [if_neg (by omega), if_neg (by omega), if_neg (by omega), if_neg (by omega), if_neg (by omega),
    if_neg (by omega), if_neg h127]

theorem Margin.Ok.proper (hok : m.Ok) : Proper readString m := by
  refine ⟨fun hwrap => hok.edge.right (hok.edge.wrap ▸ hwrap), fun hmode c hc => ?_⟩
  obtain ⟨g', hrun, -⟩ := (steps_putChar hok.good c).goes.run m.g
  obtain ⟨hplace, hcells, -, -, hpen⟩ := unwrapped_eq hok.good
  rw [hok.edge.wrap] at hplace hcells
  refine ⟨m.st.typed c, g', ?_, ?_⟩
  · rw [feedChar_printable hmode hc]
    exact hrun
  · have hadvanced (st : State) : st.advanced.cells = st.cells := by
      unfold State.advanced
      split_ifs <;> rfl
    unfold State.Lands State.typed
    rw [hadvanced, ← hplace, ← hcells]
    unfold State.withCell State.penCell
    rw [hpen]

theorem run_chars {s : Str} (due : Bool) (h : s.foldlM (feedChar readString) st g = .ok (st', g')) :
    ∃ due', runEvents (step readString) ⟨st, g, due⟩ (s.map .char) = some ⟨st', g', due'⟩ := by
  induction s generalizing st g due with
  | nil =>
      cases h
      exact ⟨due, rfl⟩
  | cons c s ih =>
      rw [List.foldlM_cons] at h
      obtain ⟨st₁, g₁, hfirst, hrest⟩ := Draw.bind_ok h
      obtain ⟨due', hdue⟩ := ih (nextDue st due c) hrest
      have hstep : step readString (.char c) ⟨st, g, due⟩ = some ⟨st₁, g₁, nextDue st due c⟩ := by
        unfold step
        dsimp only
        rw [hfirst]
        rfl
      refine ⟨due', ?_⟩
      rw [List.map_cons, runEvents, hstep]
      exact hdue

/-- `feed` is such a run. -/
theorem run_feed {s : Str} (due : Bool) (h : feed readString st s g = .ok (st', g')) :
    ∃ due', runEvents (step readString) ⟨st, g, due⟩ (.hidden :: (s.map .char ++ [.shown])) = some ⟨st', g', due'⟩ := by
  unfold feed at h
  obtain ⟨st₁, g₁, hhide, h⟩ := Draw.bind_ok h
  obtain ⟨st₂, g₂, hchars, hshow⟩ := Draw.bind_ok h
  obtain ⟨due', hrun⟩ := run_chars due hchars
  have hhidden : step readString .hidden ⟨st, g, due⟩ = some ⟨st₁, g₁, due⟩ := by
    unfold step
    dsimp only
    rw [hhide]
    rfl
  have hshown : step readString .shown ⟨st₂, g₂, due'⟩ = some ⟨st', g', due'⟩ := by
    unfold step
    dsimp only
    rw [hshow]
    rfl
  refine ⟨due', ?_⟩
  rw [runEvents, hhidden, Option.bind_some, Interleave.runEvents_append, hrun, Option.bind_some, runEvents, hshown]
  rfl

/-- In a run where `ESC D`, `ESC E` and `ESC M` come with no wrap pending, a wrap is pending at the right edge only, and
every character goes where it is due. -/
theorem proper_of_run (hread : ReadsDigits readString) {opts : Options} (hcols : 0 < opts.cols) (hrows : 0 < opts.rows)
    (hmake : make opts = .ok st) {es : List Step}
    (h : Run (step readString) (fun e m => Supported e m ∧ Settled e m) ⟨st, g, false⟩ es m) : Proper readString m := by
  rw [make_eq] at hmake
  cases hmake
  have hstart : Margin.Ok ⟨opts.made, g, false⟩ := ⟨good_made hcols hrows, edge_of_false rfl⟩
  exact (h.keeps hstart fun e m m' _ hs hstep hok => ok_step hread hok hs.1 hs.2 hstep).proper

/-- Otherwise the wrap stays pending, though the next character is not due in the following line. -/
theorem pending_of_unsettled (hmode : st.mode = .esc) (hc : c.toNat ∈ [68, 69, 77]) (hwrap : st.wrap = true) :
    nextDue st due c = false ∧ Leaves (fun st' => st'.wrap = true) (feedChar readString st c) := by
  simp only [List.mem_cons, List.not_mem_nil, or_false] at hc
  constructor
  · refine nextDue_of_moves (fun hground => by rw [hmode] at hground; cases hground) ?_
    unfold Moves
    rw [hmode]
    simp only [List.mem_cons, List.not_mem_nil, or_false]
    omega
  · unfold feedChar
    rw [hmode]
    show Leaves _ (escChar st c.toNat)
    unfold escChar
    dsimp only
    rcases hc with h | h | h <;> rw [h]
    · exact (stays_lineFeed _).mono fun _ hs => hs.wrap.trans hwrap
    · exact (stays_lineFeed _).bind fun _ hs => leaves_pure (hs.wrap.trans hwrap)
    · show Leaves _ (if st.cy = 0 then scrollDown _ 1 else pure _)
      refine .ite (fun _ => ?_) fun _ => leaves_pure hwrap
      exact (stays_scrollDown _ 1).mono fun _ hs => hs.wrap.trans hwrap

theorem proper_of_run_oneCell :
    ∃ m, step readDecimal (.char 'A') ⟨oneCell.made, smallScreen, false⟩ = some m ∧ Proper readDecimal m := by
  have hsome : (step readDecimal (.char 'A') ⟨oneCell.made, smallScreen, false⟩).isSome = true := rfl
  obtain ⟨m, hm⟩ := Option.isSome_iff_exists.mp hsome
  have hsupported : Supported (.char 'A') ⟨oneCell.made, smallScreen, false⟩ := by
    intro hmode
    cases hmode
  have hsettled : Settled (.char 'A') ⟨oneCell.made, smallScreen, false⟩ := by
    intro hmode
    cases hmode
  exact ⟨m, hm, proper_of_run readsDigits_decimal (by decide) (by decide) (make_eq oneCell)
    (.snoc .nil ⟨hsupported, hsettled⟩ hm)⟩

/-- Two columns and three rows. -/
def sixCells : Options where
  cols := 2
  rows := 3
  font := emptyFont

/-- After a full row `ESC E` leaves a wrap pending in the first column, and after `ESC D` the next character is not
written at the cursor. -/
theorem not_proper_nextLine :
    ((feed readDecimal sixCells.made ['a', 'b', '\x1b', 'E'] smallScreen).map fun r => (r.1.wrap, r.1.cx, r.1.cols)) =
      .ok (true, 0, 2) ∧
    ((feed readDecimal sixCells.made ['a', 'b', '\x1b', 'D'] smallScreen).map fun r => (r.1.cx, r.1.cy)) =
      .ok (1, 1) ∧
    ((feed readDecimal sixCells.made ['a', 'b', '\x1b', 'D', 'c'] smallScreen).map fun r =>
      (r.1.charAt 1 1, r.1.charAt 2 0)) = .ok (some ' ', some 'c') := by
  decide +kernel

end Beeros.Term
