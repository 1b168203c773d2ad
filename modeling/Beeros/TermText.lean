import Beeros.TermRuns

/-! Texts and the control sequences between them, fed to a terminal: which characters stand on the screen after them,
and where the cursor is. -/

namespace Beeros.Term

open Beerlang State

/-- The character on the screen. -/
def State.charAt (st : State) (row col : Nat) : Option Char := (Grid.cell? st.cells row col).map (·.char)

/-- Outside escape sequences. -/
structure State.Ready (st : State) : Prop extends Good st where
  mode : st.mode = .ground
  params : st.params = []

/-- A character that `put-char` writes. -/
def Printable (c : Char) : Prop := 32 ≤ c.toNat ∧ c.toNat ≠ 127

instance (c : Char) : Decidable (Printable c) := inferInstanceAs (Decidable (_ ∧ _))

theorem printable_of_all {s : Str} (h : s.all fun c => Printable c) : ∀ c ∈ s, Printable c :=
  List.all_iff_forall_prop.mp h

section Reader

variable (readString : Str → Except Error (Option Int))

/-- `read-string` of the text of a natural number. -/
def ReadsDecimal : Prop := ∀ n : Nat, readString (decimal n) = .ok (some (n : Int))

/-- The text leads from one state to another, neither of them inside an escape sequence. -/
def Writes (st : State) (s : Str) (st' : State) : Prop := Steps st (s.foldlM (feedChar readString) st) st'

variable {readString} {st st' st'' : State} {s s' raw : Str} {c : Char}

theorem Writes.ready (h : Writes readString st s st') (hr : st.Ready) : st'.Ready :=
  { toGood := h.good, mode := h.mode.trans hr.mode, params := h.params.trans hr.params }

theorem writes_nil (h : st.Good) : Writes readString st [] st := steps_refl h

theorem Writes.append (h : Writes readString st s st') (h' : Writes readString st' s' st'') :
    Writes readString st (s ++ s') st'' := by
  unfold Writes
  rw [List.foldlM_append]
  exact h.bind h'

theorem writes_of_eq {d : Draw State} (h : s.foldlM (feedChar readString) st = d) (hd : Steps st d st') :
    Writes readString st s st' := by
  unfold Writes
  rw [h]
  exact hd

/-- `feed` writes a text with the cursor hidden, and shows the cursor after it. -/
theorem feed_of_writes (h : st.Good) (hs : Writes readString { st with drawnCursor := none } s st') (g : Gfx.State) :
    ∃ g', feed readString st s g = .ok (st'.withCursor, g') := by
  have hhide := goes_hideCursor h
  have hshow := goes_showCursor hs.good hs.drawn
  have hall : Goes st st.Shows (feed readString st s) st'.withCursor st'.withCursor.Shows :=
    hhide.bind (hs.goes.bind hshow)
  obtain ⟨g', hrun, -⟩ := hall.run g
  exact ⟨g', hrun⟩

theorem State.withCursor_cases (st : State) :
    st.withCursor = { st with drawnCursor := some (st.cx, st.cy) } ∨ st.withCursor = st := by
  unfold State.withCursor
  split_ifs
  · exact .inl rfl
  · exact .inr rfl

theorem sameScreen_withCursor (st : State) : SameScreen st st.withCursor := by
  rcases st.withCursor_cases with h | h <;> rw [h] <;> exact ⟨rfl, rfl, rfl, rfl, rfl, rfl, rfl⟩

theorem charAt_withCursor (st : State) (row col : Nat) : st.withCursor.charAt row col = st.charAt row col := by
  rcases st.withCursor_cases with h | h <;> rw [h] <;> rfl

theorem cx_withCursor (st : State) : st.withCursor.cx = st.cx := by
  rcases st.withCursor_cases with h | h <;> rw [h]

theorem cy_withCursor (st : State) : st.withCursor.cy = st.cy := by
  rcases st.withCursor_cases with h | h <;> rw [h]

theorem ready_withCursor (hr : st.Ready) : st.withCursor.Ready := by
  refine { toGood := hr.toGood.withCursor, mode := ?_, params := ?_ }
  · rcases st.withCursor_cases with h | h <;> rw [h] <;> exact hr.mode
  · rcases st.withCursor_cases with h | h <;> rw [h] <;> exact hr.params

/-! ### Single characters -/

theorem foldlM_one (c : Char) : [c].foldlM (feedChar readString) st = feedChar readString st c := by
  rw [List.foldlM_cons]
  exact bind_pure _

theorem feedChar_ground (hr : st.Ready) (c : Char) : feedChar readString st c = groundChar st c := by
  unfold feedChar
  rw [hr.mode]

theorem writes_char (hr : st.Ready) (hc : Printable c) : Writes readString st [c] (st.typed c) := by
  refine writes_of_eq ((foldlM_one c).trans ((feedChar_ground hr c).trans ?_)) (steps_putChar hr.toGood c)
  unfold groundChar
  obtain ⟨h32, h127⟩ := hc
  dsimp only
  rw [if_neg (by omega), if_neg (by omega), if_neg (by omega), if_neg (by omega), if_neg (by omega), if_neg (by omega),
    if_neg h127]

theorem writes_cr (hr : st.Ready) : Writes readString st ['\r'] { st with cx := 0, wrap := false } :=
  writes_of_eq ((foldlM_one '\r').trans (feedChar_ground hr '\r')) (steps_at hr.toGood 0 st.cy ⟨hr.cols_pos, hr.cursor.2⟩ false)

theorem writes_lf (hr : st.Ready) : Writes readString st ['\n'] { st.lineFed with wrap := false } := by
  have hfed := steps_lineFeed hr.toGood
  exact writes_of_eq ((foldlM_one '\n').trans (feedChar_ground hr '\n')) (hfed.bind (steps_at hfed.good _ _ hfed.good.cursor false))

/-! ### Control sequences -/

theorem foldlM_params (hraw : ∀ c ∈ raw, 32 ≤ c.toNat ∧ c.toNat < 0x40) (s : Str) :
    raw.foldlM (feedChar readString) (st.parsing (.csi, s)) = pure (st.parsing (.csi, s ++ raw)) := by
  induction raw generalizing s with
  | nil => rw [List.foldlM_nil, List.append_nil]
  | cons c raw ih =>
      have hc := hraw c List.mem_cons_self
      have hchar : feedChar readString (st.parsing (.csi, s)) c = pure (st.parsing (.csi, s ++ [c])) := by
        unfold feedChar State.parsing
        dsimp only
        rw [if_neg (by omega), if_neg (by omega), if_neg (by omega)]
      rw [List.foldlM_cons, hchar, pure_bind, ih (fun c' hc' => hraw c' (List.mem_cons_of_mem c hc')),
        List.append_assoc]
      rfl

theorem foldlM_csi (hr : st.Ready) (hraw : ∀ c ∈ raw, 32 ≤ c.toNat ∧ c.toNat < 0x40)
    (hc : 0x40 ≤ c.toNat ∧ c.toNat ≤ 0x7E) :
    (['\x1b', '['] ++ raw ++ [c]).foldlM (feedChar readString) st =
      csi readString (st.parsing (.csi, raw)) c := by
  have hstart : ['\x1b', '['].foldlM (feedChar readString) st = pure (st.parsing (.csi, [])) := by
    have hesc : feedChar readString st '\x1b' = pure { st with mode := .esc } := feedChar_ground hr '\x1b'
    rw [List.foldlM_cons, hesc, pure_bind]
    exact foldlM_one '['
  have hfinal : [c].foldlM (feedChar readString) (st.parsing (.csi, raw)) =
      csi readString (st.parsing (.csi, raw)) c := by
    rw [foldlM_one]
    exact if_pos hc
  rw [List.foldlM_append, List.foldlM_append, hstart, pure_bind, foldlM_params hraw, pure_bind]
  exact hfinal

theorem State.Ready.parsing_parsing (hr : st.Ready) (m : Mode × Str) : (st.parsing m).parsing (.ground, []) = st := by
  obtain ⟨-, hmode, hparams⟩ := hr
  unfold State.parsing
  rw [← hmode, ← hparams]

/-- The text of a control sequence. -/
def csiText (raw : Str) (c : Char) : Str := ['\x1b', '['] ++ raw ++ [c]

theorem writes_csi (hr : st.Ready) (hraw : ∀ c ∈ raw, 32 ≤ c.toNat ∧ c.toNat < 0x40)
    (hc : 0x40 ≤ c.toNat ∧ c.toNat ≤ 0x7E) (hnot : raw.head? ≠ some '?')
    (hpieces : ∀ piece ∈ pieces raw, piece ≠ [] → ∃ v, readString piece = .ok v)
    (h : Steps st (control st ((pieces raw).map (value readString)) c) st') :
    Writes readString st (csiText raw c) st' := by
  refine writes_of_eq (foldlM_csi hr hraw hc) ?_
  rw [csi_eq hpieces]
  show Steps st (if raw.head? = some '?' then _ else control ((st.parsing (.csi, raw)).parsing (.ground, [])) _ c) st'
  rw [if_neg hnot, hr.parsing_parsing]
  exact h

theorem writes_private (hr : st.Ready) (hraw : ∀ c ∈ raw, 32 ≤ c.toNat ∧ c.toNat < 0x40)
    (hc : 0x40 ≤ c.toNat ∧ c.toNat ≤ 0x7E) (hpriv : raw.head? = some '?')
    (hpieces : ∀ piece ∈ pieces raw, piece ≠ [] → ∃ v, readString piece = .ok v) :
    Writes readString st (csiText raw c) (privControl st ((pieces raw).map (value readString)) c) := by
  refine writes_of_eq (foldlM_csi hr hraw hc) ?_
  rw [csi_eq hpieces]
  show Steps st (if raw.head? = some '?' then pure (privControl ((st.parsing (.csi, raw)).parsing (.ground, [])) _ c)
    else _) _
  rw [if_pos hpriv, hr.parsing_parsing]
  exact steps_privControl hr.toGood _ c

/-- The parameter text of some numbers. -/
def paramText (ns : List Nat) : Str := [';'].intercalate (ns.map decimal)

theorem mem_paramText {ns : List Nat} (h : c ∈ paramText ns) : 48 ≤ c.toNat ∧ c.toNat < 60 := by
  rcases mem_intercalate_decimal h with hd | rfl
  · have hdigit : 48 ≤ c.toNat ∧ c.toNat ≤ 57 := Char.isDigit_iff_toNat.mp hd
    omega
  · decide

theorem head_paramText (ns : List Nat) : (paramText ns).head? ≠ some '?' := fun h =>
  absurd (mem_paramText (List.mem_of_head? h)) (by decide)

theorem pieces_paramText {ns : List Nat} (hns : ns ≠ []) : pieces (paramText ns) = ns.map decimal := by
  unfold pieces
  rw [if_neg (head_paramText ns)]
  exact splitOn_intercalate_decimal (by decide) hns

theorem value_decimal (hread : ReadsDecimal readString) (n : Nat) : value readString (decimal n) = some (n : Int) := by
  unfold value
  rw [if_neg (show decimal n ≠ [] from Nat.toDigits_ne_nil), hread]
  rfl

/-- A control sequence with numbers. -/
theorem writes_control (hread : ReadsDecimal readString) (hr : st.Ready) {ns : List Nat} (hns : ns ≠ [])
    (hc : 0x40 ≤ c.toNat ∧ c.toNat ≤ 0x7E) (h : Steps st (control st (ns.map fun n : Nat => some (n : Int)) c) st') :
    Writes readString st (csiText (paramText ns) c) st' := by
  have hpieces := pieces_paramText hns
  refine writes_csi hr (fun c hc => ?_) hc (head_paramText ns) (fun piece hpiece _ => ?_) ?_
  · have := mem_paramText hc
    omega
  · rw [hpieces] at hpiece
    obtain ⟨n, -, rfl⟩ := List.mem_map.mp hpiece
    exact ⟨_, hread n⟩
  · rw [hpieces, List.map_map]
    rw [show (value readString ∘ decimal) = fun n : Nat => some (n : Int) from funext (value_decimal hread)]
    exact h

/-- A control sequence without parameters. -/
theorem writes_plain (hr : st.Ready) (hc : 0x40 ≤ c.toNat ∧ c.toNat ≤ 0x7E) (h : Steps st (control st [none] c) st') :
    Writes readString st (csiText [] c) st' :=
  writes_csi hr (List.forall_mem_nil _) hc (Option.some_ne_none _).symm (fun _ hpiece hne => absurd (List.mem_singleton.mp hpiece) hne) h

/-! ### Moves, colours and erasing -/

theorem count_succ {ps : List (Option Int)} {i n : Nat} (dflt : Int) (h : ps.getD i none = some ((n + 1 : Nat) : Int)) :
    count ps i dflt = (n + 1 : Nat) := by
  unfold count
  rw [h]
  exact if_neg (by rw [Option.getD_some]; omega)

theorem moveTo_within {col row : Nat} (hcol : col < st.cols) (hrow : row < st.rows) :
    moveTo st col row = { st with cx := col, cy := row, wrap := false } := by
  unfold moveTo
  congr 1
  · omega
  · omega

/-- `CSI row;col H`. -/
theorem writes_goto (hread : ReadsDecimal readString) (hr : st.Ready) (row col : Nat) :
    Writes readString st (csiText (paramText [row + 1, col + 1]) 'H') (moveTo st col row) := by
  refine writes_control hread hr (List.cons_ne_nil _ _) (by decide) ?_
  have hmove : control st ([row + 1, col + 1].map fun n : Nat => some (n : Int)) 'H' = pure (moveTo st col row) := by
    show pure (moveTo st (count _ 1 1 - 1) (count _ 0 1 - 1)) = _
    rw [count_succ (n := col) 1 rfl, count_succ (n := row) 1 rfl, Int.natCast_add, Int.natCast_add, Int.natCast_one,
      Int.add_sub_cancel, Int.add_sub_cancel]
  rw [hmove]
  exact steps_moveTo hr.toGood col row

/-- `CSI n A`. -/
theorem writes_up (hread : ReadsDecimal readString) (hr : st.Ready) {n : Nat} (hn : 0 < n) (hcy : n ≤ st.cy) :
    Writes readString st (csiText (paramText [n]) 'A') { st with cy := st.cy - n, wrap := false } := by
  obtain ⟨n, rfl⟩ := Nat.exists_eq_succ_of_ne_zero (Nat.ne_of_gt hn)
  refine writes_control hread hr (List.cons_ne_nil _ _) (by decide) ?_
  have hmove : control st ([n + 1].map fun n : Nat => some (n : Int)) 'A' =
      pure { st with cy := st.cy - (n + 1), wrap := false } := by
    show pure (moveTo st st.cx (st.cy - count _ 0 1)) = _
    rw [count_succ (n := n) 1 rfl, ← Int.ofNat_sub hcy]
    rw [moveTo_within hr.cursor.1 (Nat.lt_of_le_of_lt (Nat.sub_le _ _) hr.cursor.2)]
  rw [hmove]
  exact steps_at hr.toGood st.cx (st.cy - (n + 1)) ⟨hr.cursor.1, Nat.lt_of_le_of_lt (Nat.sub_le _ _) hr.cursor.2⟩ false

/-- `CSI n C`. -/
theorem writes_right (hread : ReadsDecimal readString) (hr : st.Ready) {n : Nat} (hn : 0 < n) (hcx : st.cx + n < st.cols) :
    Writes readString st (csiText (paramText [n]) 'C') { st with cx := st.cx + n, wrap := false } := by
  obtain ⟨n, rfl⟩ := Nat.exists_eq_succ_of_ne_zero (Nat.ne_of_gt hn)
  refine writes_control hread hr (List.cons_ne_nil _ _) (by decide) ?_
  have hmove : control st ([n + 1].map fun n : Nat => some (n : Int)) 'C' =
      pure { st with cx := st.cx + (n + 1), wrap := false } := by
    show pure (moveTo st (st.cx + count _ 0 1) st.cy) = _
    rw [count_succ (n := n) 1 rfl, ← Int.natCast_add, moveTo_within hcx hr.cursor.2]
  rw [hmove]
  exact steps_at hr.toGood (st.cx + (n + 1)) st.cy ⟨hcx, hr.cursor.2⟩ false

/-- `CSI 7 m`, `CSI 0 m` and `CSI 4 m`. -/
theorem writes_sgr (hread : ReadsDecimal readString) (hr : st.Ready) {n : Nat} (hn : n = 7 ∨ n = 0 ∨ n = 4) :
    Writes readString st (csiText (paramText [n]) 'm') (sgr1 st n) := by
  refine writes_control hread hr (List.cons_ne_nil _ _) (by decide) ?_
  have hpalette : ∀ m ∈ paletteIndexes [some (n : Int)], 0 ≤ m := by
    rcases hn with rfl | rfl | rfl <;> decide
  have hsgr : sgr st [some (n : Int)] = sgr1 st n := by
    rcases hn with rfl | rfl | rfl <;> rfl
  have h := steps_sgr hr.toGood hpalette
  rw [hsgr] at h
  show Steps st (pure (sgr st [some (n : Int)])) _
  rw [hsgr]
  exact h

/-- `CSI H`. -/
theorem writes_home (hr : st.Ready) : Writes readString st (csiText [] 'H') (moveTo st 0 0) :=
  writes_plain hr (by decide) (steps_moveTo hr.toGood 0 0)

/-- `CSI 2 J`. -/
theorem writes_eraseAll (hread : ReadsDecimal readString) (hr : st.Ready) :
    Writes readString st (csiText (paramText [2]) 'J') (st.erased fun r _ => 0 ≤ r ∧ r < st.rows) :=
  writes_control hread hr (List.cons_ne_nil _ _) (by decide) (steps_eraseRows hr.toGood 0 (Nat.le_refl st.rows))

/-- `CSI K`. -/
theorem writes_eraseRight (hr : st.Ready) : Writes readString st (csiText [] 'K') st.erasedRight :=
  writes_plain hr (by decide) (steps_eraseRight hr.toGood)

/-- `CSI J`. -/
theorem writes_eraseBelow (hr : st.Ready) : Writes readString st (csiText [] 'J') st.erasedBelow :=
  writes_plain hr (by decide) (steps_eraseBelow hr.toGood)

/-- `CSI ? 25 l` and `CSI ? 25 h`. -/
theorem writes_cursor (hread : ReadsDecimal readString) (hr : st.Ready) (hc : c = 'l' ∨ c = 'h') :
    Writes readString st (csiText ('?' :: decimal 25) c) { st with cursor := decide (c = 'h') } := by
  have hpieces : pieces ('?' :: decimal 25) = [decimal 25] := by decide
  have hfinal : 0x40 ≤ c.toNat ∧ c.toNat ≤ 0x7E := by rcases hc with rfl | rfl <;> decide
  have hshown : privControl st ((pieces ('?' :: decimal 25)).map (value readString)) c =
      { st with cursor := decide (c = 'h') } := by
    rw [hpieces, List.map_singleton, value_decimal hread]
    rcases hc with rfl | rfl <;> rfl
  have hraw : ∀ c ∈ '?' :: decimal 25, 32 ≤ c.toNat ∧ c.toNat < 0x40 := List.all_iff_forall_prop.mp (by decide)
  rw [← hshown]
  refine writes_private hr hraw hfinal rfl fun piece hpiece _ => ?_
  rw [hpieces] at hpiece
  exact ⟨_, List.mem_singleton.mp hpiece ▸ hread 25⟩

end Reader

/-! ### Characters on the screen -/

section Chars

variable {st : State} {c : Char} {row col p j k : Nat}

theorem charAt_erased (h : st.Good) (q : Nat → Nat → Bool) (hrow : row < st.rows) (hcol : col < st.cols) :
    (st.erased q).charAt row col = if q row col then some ' ' else st.charAt row col := by
  have hcell := h.shape.cell?_lt hrow hcol st.blankCell
  unfold State.charAt State.erased
  dsimp only
  rw [Grid.cell?_paint, hcell]
  cases q row col with
  | true => rfl
  | false => rfl

theorem charAt_withCell (h : st.Good) (cell : Cell) (hrow : row < st.rows) (hcol : col < st.cols) :
    (st.withCell cell).charAt row col = if row = st.cy ∧ col = st.cx then some cell.char else st.charAt row col := by
  have hcell := h.shape.cell?_lt hrow hcol st.blankCell
  unfold State.charAt State.withCell
  dsimp only
  rw [Grid.cell?_paint, hcell]
  by_cases hat : row = st.cy ∧ col = st.cx
  · rw [if_pos hat, Option.map_some, Option.map_some, if_pos (decide_eq_true hat)]
  · rw [if_neg hat, Option.map_some, if_neg (by rw [decide_eq_false hat]; exact Bool.false_ne_true)]

theorem charAt_advanced (st : State) : st.advanced.charAt row col = st.charAt row col := by
  unfold State.advanced
  split_ifs <;> rfl

theorem unwrapped_of_not_wrap (hwrap : st.wrap = false) : st.unwrapped = st := by
  unfold State.unwrapped
  rw [hwrap]
  exact if_neg Bool.false_ne_true

theorem charAt_typed (h : st.Good) (hwrap : st.wrap = false) (c : Char) (hrow : row < st.rows) (hcol : col < st.cols) :
    (st.typed c).charAt row col = if row = st.cy ∧ col = st.cx then some c else st.charAt row col := by
  unfold State.typed
  rw [unwrapped_of_not_wrap hwrap, charAt_advanced]
  exact charAt_withCell h (st.penCell c) hrow hcol

/-- Where the cursor is after a character. -/
theorem typed_cursor (hwrap : st.wrap = false) (c : Char) :
    (st.typed c).cy = st.cy ∧
      (st.cx + 1 < st.cols → (st.typed c).cx = st.cx + 1 ∧ (st.typed c).wrap = false) ∧
      (st.cols ≤ st.cx + 1 → (st.typed c).cx = st.cx ∧ (st.typed c).wrap = true) := by
  unfold State.typed
  rw [unwrapped_of_not_wrap hwrap]
  unfold State.advanced State.withCell
  dsimp only
  split_ifs with hlast
  · exact ⟨rfl, fun h => by omega, fun _ => ⟨rfl, rfl⟩⟩
  · exact ⟨rfl, fun _ => ⟨rfl, hwrap⟩, fun h => by omega⟩

theorem typed_unwrapped (st : State) (c : Char) : st.unwrapped.typed c = st.typed c := by
  have hidem : st.unwrapped.unwrapped = st.unwrapped := by
    cases hwrap : st.wrap with
    | false => rw [unwrapped_of_not_wrap hwrap, unwrapped_of_not_wrap hwrap]
    | true =>
        apply unwrapped_of_not_wrap
        unfold State.unwrapped
        rw [if_pos hwrap]
  unfold State.typed
  rw [hidem]

/-- A text that fits into the rest of the row. -/
theorem writes_row (readString : Str → Except Error (Option Int)) {s : Str} (hr : st.Ready) (hwrap : st.wrap = false)
    (hs : ∀ c ∈ s, Printable c) (hlen : st.cx + s.length ≤ st.cols) :
    ∃ st', Writes readString st s st' ∧ st'.cy = st.cy ∧
      st'.cx = min (st.cx + s.length) (st.cols - 1) ∧
      ∀ row col, row < st.rows → col < st.cols → st'.charAt row col =
        if row = st.cy ∧ st.cx ≤ col ∧ col < st.cx + s.length then s[col - st.cx]? else st.charAt row col := by
  induction s generalizing st with
  | nil =>
      have := hr.cursor.1
      refine ⟨st, writes_nil hr.toGood, rfl, ?_, fun row col _ _ => ?_⟩
      · dsimp only [List.length_nil] at *
        omega
      · rw [if_neg]
        rw [List.length_nil]
        omega
  | cons c s ih =>
      have hone : Writes readString st [c] (st.typed c) := writes_char hr (hs c List.mem_cons_self)
      have hscreen := hone.goes.screen
      obtain ⟨hcy, hin, hout⟩ := typed_cursor hwrap c
      have htail : ∀ c ∈ s, Printable c := fun c' hc' => hs c' (List.mem_cons_of_mem c hc')
      rw [List.length_cons] at hlen
      by_cases hlast : st.cols ≤ st.cx + 1
      · -- the last column: nothing follows
        obtain rfl : s = [] := List.eq_nil_of_length_eq_zero (by omega)
        refine ⟨st.typed c, hone, hcy, ?_, fun row col hrow hcol => ?_⟩
        · rw [(hout hlast).1, List.length_singleton]
          omega
        · rw [charAt_typed hr.toGood hwrap c hrow hcol, List.length_singleton]
          by_cases hat : row = st.cy ∧ col = st.cx
          · obtain ⟨rfl, rfl⟩ := hat
            rw [if_pos ⟨rfl, rfl⟩, if_pos ⟨rfl, Nat.le_refl _, Nat.lt_succ_self _⟩, Nat.sub_self]
            rfl
          · rw [if_neg hat, if_neg (by omega)]
      · obtain ⟨hcx, hwrap'⟩ := hin (by omega)
        obtain ⟨st', hrest, hcy', hcx', hchars⟩ := ih (hone.ready hr) hwrap' htail (by rw [hcx, hscreen.cols]; omega)
        refine ⟨st', hone.append hrest, hcy'.trans hcy, ?_, fun row col hrow hcol => ?_⟩
        · rw [hcx', hcx, hscreen.cols, List.length_cons]
          omega
        · rw [hchars row col (hscreen.rows ▸ hrow) (hscreen.cols ▸ hcol), charAt_typed hr.toGood hwrap c hrow hcol, hcy,
            hcx, List.length_cons]
          by_cases hat : row = st.cy ∧ col = st.cx
          · obtain ⟨rfl, rfl⟩ := hat
            rw [if_neg (by omega), if_pos ⟨rfl, rfl⟩, if_pos ⟨rfl, Nat.le_refl _, by omega⟩, Nat.sub_self]
            rfl
          · rw [if_neg hat]
            by_cases hin : row = st.cy ∧ st.cx + 1 ≤ col ∧ col < st.cx + 1 + s.length
            · have hnext : col - st.cx = (col - (st.cx + 1)) + 1 := by omega
              rw [if_pos hin, if_pos ⟨hin.1, by omega, by omega⟩, hnext, List.getElem?_cons_succ]
            · rw [if_neg hin, if_neg (by omega)]

end Chars

theorem readsDecimal_readDecimal : ReadsDecimal readDecimal := by
  intro n
  have hall : (decimal n).all Char.isDigit = true := List.all_eq_true.mpr fun c hc => isDigit_of_mem_decimal hc
  have hvalue : Nat.ofDigitChars 10 (decimal n) 0 = n := Nat.ofDigitChars_ten_toDigits
  unfold readDecimal
  rw [if_pos ⟨Nat.toDigits_ne_nil, hall⟩, hvalue]

end Beeros.Term
