import Beeros.BeermacsBuffer

/-! The operations of `beermacs.buffer` on a text that is a flat string with an offset: what each
gives, and that it gives something. -/

namespace Beeros.Beermacs

open Beerlang
open Lines (Pos Valid Le Clean upTo after glue stop between)

/-- A text without newlines in its lines, and a position in it. -/
structure Snapshot.Ok (u : Snapshot) : Prop where
  clean : Clean '\n' u.lines
  point : Valid u.lines (u.row, u.col)

structure Buffer.Ok (b : Buffer) : Prop where
  clean : Clean '\n' b.lines
  point : Valid b.lines b.point
  undo : ∀ u ∈ b.undo, u.Ok

/-- The offset of a position in the text. -/
def Buffer.offsetOf (b : Buffer) (p : Pos) : Nat := Lines.offset '\n' b.lines p

def Buffer.off (b : Buffer) : Nat := b.offsetOf b.point

theorem split_ne_nil (t : Str) : split t ≠ [] := List.splitOn_ne_nil _ _

theorem join_split (t : Str) : join (split t) = t := List.intercalate_splitOn _

theorem clean_split (t : Str) : Clean '\n' (split t) := by
  unfold split
  induction t with
  | nil =>
      intro l hl
      rw [List.splitOn_nil, List.mem_singleton] at hl
      rw [hl]
      exact List.not_mem_nil
  | cons c t ih =>
      rw [List.splitOn_cons_eq_if_modifyHead]
      obtain ⟨v, ys, hv⟩ := List.exists_cons_of_ne_nil (List.splitOn_ne_nil '\n' t)
      rw [hv] at ih ⊢
      by_cases hc : c = '\n'
      · rw [if_pos (beq_iff_eq.mpr hc)]
        intro l hl
        rcases List.mem_cons.mp hl with rfl | hl
        · exact List.not_mem_nil
        · exact ih l hl
      · rw [if_neg (by rwa [beq_iff_eq])]
        intro l hl
        rcases List.mem_cons.mp hl with rfl | hl
        · rw [List.mem_cons, not_or]
          exact ⟨fun h => hc h.symm, ih v List.mem_cons_self⟩
        · exact ih l (List.mem_cons_of_mem _ hl)

/-- What expanding tabs adds are spaces. -/
theorem not_mem_foldl_tabs {l out : Str} (h : '\n' ∉ l) (hout : '\n' ∉ out) :
    '\n' ∉ l.foldl (fun out c =>
      if c = '\t' then out ++ List.replicate (8 - out.length % 8) ' ' else out ++ [c]) out := by
  induction l generalizing out with
  | nil => exact hout
  | cons c l ih =>
      rw [List.mem_cons, not_or] at h
      rw [List.foldl_cons]
      refine ih h.2 ?_
      split_ifs
      · rw [List.mem_append, not_or]
        exact ⟨hout, fun hmem => absurd (List.eq_of_mem_replicate hmem) (by decide)⟩
      · rw [List.mem_append, not_or, List.mem_singleton]
        exact ⟨hout, h.1⟩

theorem not_mem_expandTabs {l : Str} (h : '\n' ∉ l) : '\n' ∉ expandTabs l := by
  unfold expandTabs
  split_ifs
  · exact not_mem_foldl_tabs h List.not_mem_nil
  · exact h

theorem ok_newBuffer (nm text : Str) (file : Option Str) : Buffer.Ok (newBuffer nm text file) := by
  have hclean : Clean '\n' (newBuffer nm text file).lines := by
    intro l hl
    obtain ⟨l', hl', rfl⟩ := List.mem_map.mp hl
    exact not_mem_expandTabs (clean_split text l' hl')
  refine ⟨hclean, ⟨?_, Nat.zero_le _⟩, fun u hu => absurd hu List.not_mem_nil⟩
  show 0 < ((split text).map expandTabs).length
  rw [List.length_map]
  exact List.length_pos_of_ne_nil (split_ne_nil text)

theorem before_iff {p q : Pos} : before p q = true ↔ ¬ Le q p := by
  unfold before Le
  rw [Bool.or_eq_true, Bool.and_eq_true, decide_eq_true_iff, decide_eq_true_iff, beq_iff_eq]
  omega

theorem ordered_of_le {p q : Pos} (h : Le p q) : ordered p q = (p, q) := by
  unfold ordered
  rw [if_neg (by rw [before_iff, not_not]; exact h)]

theorem ordered_comm_of_le {p q : Pos} (h : Le p q) : ordered q p = (p, q) := by
  unfold ordered
  split_ifs with hb
  · rfl
  · rw [before_iff, not_not] at hb
    have hpq : p = q := by
      obtain ⟨r, c⟩ := p
      obtain ⟨r', c'⟩ := q
      unfold Le at h hb
      simp only at h hb
      rw [Prod.mk.injEq]
      omega
    rw [hpq]

/-- The two positions in order. -/
theorem ordered_cases (p q : Pos) :
    (Le p q ∧ ordered p q = (p, q)) ∨ (Le q p ∧ ordered p q = (q, p)) := by
  by_cases h : Le p q
  · exact .inl ⟨h, ordered_of_le h⟩
  · have h' : Le q p := by
      unfold Le at h ⊢
      omega
    exact .inr ⟨h', ordered_comm_of_le h'⟩

namespace Buffer

variable {b : Buffer} {p q : Pos}

theorem line_ok {r : Nat} (h : r < b.lines.length) : b.line r = .ok (b.lines.getD r []) := nth_ok [] h

theorem curLine_ok (h : Valid b.lines b.point) : b.curLine = .ok (b.lines.getD b.row []) := line_ok h.row

theorem lastRow_lt (h : Valid b.lines p) : b.lastRow < b.lines.length := by
  have := h.row
  unfold lastRow
  omega

/-! ### Positions -/

theorem clamp_le (x : Int) (n : Nat) : clamp x n ≤ n := by
  unfold clamp
  omega

theorem clamp_of_le {k n : Nat} (h : k ≤ n) : clamp (k : Int) n = k := by
  unfold clamp
  omega

theorem goto_ok (h : Valid b.lines p) (r c : Int) :
    b.goto r c = .ok { b with
      row := clamp r b.lastRow, col := clamp c (b.lines.getD (clamp r b.lastRow) []).length, goal := none } := by
  have hlt := lastRow_lt h
  have hle := clamp_le r b.lastRow
  show (b.line (clamp r b.lastRow) >>= _) = _
  rw [line_ok (by omega)]
  rfl

theorem goto_valid (h : Valid b.lines p) (r c : Int) :
    Valid b.lines (clamp r b.lastRow, clamp c (b.lines.getD (clamp r b.lastRow) []).length) := by
  have hlt := lastRow_lt h
  exact ⟨Nat.lt_of_le_of_lt (clamp_le _ _) hlt, clamp_le _ _⟩

/-- `goto` a position of the text. -/
theorem goto_of_valid (h : Valid b.lines p) :
    b.goto p.1 p.2 = .ok { b with row := p.1, col := p.2, goal := none } := by
  have hrow := h.row
  rw [goto_ok h, clamp_of_le (by unfold lastRow; omega), clamp_of_le h.col]

/-! ### Text between positions -/

theorem mapM_line {rs : List Nat} (h : ∀ r ∈ rs, r < b.lines.length) :
    rs.mapM b.line = .ok (rs.map fun r => b.lines.getD r []) := by
  induction rs with
  | nil => rfl
  | cons r rs ih =>
      rw [List.mapM_cons, line_ok (h r List.mem_cons_self),
        ih fun r' hr' => h r' (List.mem_cons_of_mem _ hr')]
      rfl

/-- Between two positions of one line. -/
theorem between_same {r c1 c2 : Nat} (hq : Valid b.lines (r, c2)) :
    between b.lines (r, c1) (r, c2) = [((b.lines.getD r []).take c2).drop c1] := by
  have hrow := hq.row
  have hdrop : (upTo b.lines (r, c2)).drop (r + 1) = [] := by
    rw [List.drop_eq_nil_iff]
    unfold upTo
    rw [List.length_append, List.length_take, List.length_singleton]
    omega
  unfold between after
  rw [hdrop]
  show [((upTo b.lines (r, c2)).getD (r, c2).1 []).drop c1] = _
  rw [Lines.getD_upTo_self hq]

/-- Between two positions of different lines. -/
theorem between_rows {r1 c1 r2 c2 : Nat} (hq : Valid b.lines (r2, c2)) (hlt : r1 < r2) :
    between b.lines (r1, c1) (r2, c2) = [(b.lines.getD r1 []).drop c1] ++
      (List.range' (r1 + 1) (r2 - (r1 + 1))).map (fun r => b.lines.getD r []) ++
      [(b.lines.getD r2 []).take c2] := by
  have hrow := hq.row
  simp only at hrow
  have hmid : (b.lines.take r2).drop (r1 + 1) =
      (List.range' (r1 + 1) (r2 - (r1 + 1))).map fun r => b.lines.getD r [] := by
    refine List.ext_getElem ?_ ?_
    · rw [List.length_drop, List.length_take, List.length_map, List.length_range']
      omega
    · intro i h₁ h₂
      rw [List.length_drop, List.length_take] at h₁
      rw [List.getElem_drop, List.getElem_take, List.getElem_map, List.getElem_range', Nat.one_mul,
        List.getD_eq_getElem _ _ (by omega)]
  unfold between after
  rw [Lines.getD_upTo_of_lt hlt hq]
  unfold upTo
  rw [List.drop_append_of_le_length (by rw [List.length_take]; omega), hmid]
  rfl

theorem textBetween_of_le (hp : Valid b.lines p) (hq : Valid b.lines q) (hle : Le p q) :
    b.textBetween p q = .ok (join (between b.lines p q)) := by
  obtain ⟨r1, c1⟩ := p
  obtain ⟨r2, c2⟩ := q
  unfold textBetween
  rw [ordered_of_le hle]
  have hrow := hq.row
  have hcol₂ := hq.col
  have hcol₁ := hp.col
  simp only at hrow hcol₂ hcol₁
  rcases hle with hlt | ⟨heq, hcol⟩
  · simp only at hlt
    show (if r1 = r2 then _ else b.line r1 >>= _) = _
    rw [if_neg (by omega), line_ok (by omega)]
    show (subvecFrom (b.lines.getD r1 []) c1 >>= _) = _
    rw [subvecFrom_ok hcol₁]
    show (List.mapM b.line _ >>= _) = _
    rw [mapM_line fun r hr => by rw [List.mem_range'_1] at hr; omega]
    show (b.line r2 >>= _) = _
    rw [line_ok hrow]
    show (subvec (b.lines.getD r2 []) 0 c2 >>= _) = _
    rw [subvec_zero hcol₂, between_rows hq hlt]
    rfl
  · simp only at heq hcol
    subst heq
    show (if r1 = r1 then b.line r1 >>= _ else _) = _
    rw [if_pos rfl, line_ok hrow]
    show subvec (b.lines.getD r1 []) c1 c2 = _
    rw [subvec_ok hcol hcol₂, between_same hq]
    unfold join Lines.flat
    rw [List.intercalate_singleton]

/-- What is left of a text without what is between two positions. -/
def without (b : Buffer) (p q : Pos) : Buffer :=
  { b with lines := glue (upTo b.lines p) (after b.lines q), row := p.1, col := p.2, goal := none, modified := true }

theorem deleteBetween_of_le (hp : Valid b.lines p) (hq : Valid b.lines q) (hle : Le p q) :
    b.deleteBetween p q = .ok (b.without p q) := by
  obtain ⟨r1, c1⟩ := p
  obtain ⟨r2, c2⟩ := q
  have hp₁ := hp.row
  have hq₁ := hq.row
  have hcol₁ := hp.col
  have hcol₂ := hq.col
  simp only at hp₁ hq₁ hcol₁ hcol₂
  unfold deleteBetween
  rw [ordered_of_le hle]
  show (b.line r1 >>= _) = _
  rw [line_ok hp₁]
  show (subvec (b.lines.getD r1 []) 0 c1 >>= _) = _
  rw [subvec_zero hcol₁]
  show (b.line r2 >>= _) = _
  rw [line_ok hq₁]
  show (subvecFrom (b.lines.getD r2 []) c2 >>= _) = _
  rw [subvecFrom_ok hcol₂]
  show (subvec b.lines 0 r1 >>= _) = _
  rw [subvec_zero (by omega)]
  show (subvecFrom b.lines ((r2 + 1 : Nat) : Int) >>= _) = _
  rw [subvecFrom_ok (by omega)]
  unfold without upTo after
  rw [Lines.glue_append_cons]
  show Except.ok _ = Except.ok _
  rw [List.append_assoc]
  rfl

/-! ### Insertion -/

/-- The text with lines put in at point. -/
def spliced (b : Buffer) (parts : List Str) : Buffer :=
  { b with
    lines := glue (glue (upTo b.lines b.point) parts) (after b.lines b.point)
    row := (stop (glue (upTo b.lines b.point) parts)).1
    col := (stop (glue (upTo b.lines b.point) parts)).2
    goal := none, modified := true }

theorem newRows_ok (before after : Str) {parts : List Str} (h : parts ≠ []) (xs ys : List Str) :
    ∃ rows, newRows before parts after = .ok rows ∧
      glue (glue (xs ++ [before]) parts) (after :: ys) = xs ++ rows ++ ys ∧
      stop (glue (xs ++ [before]) parts) = (xs.length + (parts.length - 1),
        if parts.length = 1 then before.length + (parts.headD []).length else (parts.getLastD []).length) := by
  rcases List.eq_nil_or_concat parts with hparts | ⟨init, v, hparts⟩
  · exact absurd hparts h
  · rw [List.concat_eq_append] at hparts
    subst hparts
    cases init with
    | nil =>
        refine ⟨[before ++ v ++ after], rfl, ?_, ?_⟩
        · rw [List.nil_append, Lines.glue_append_cons, Lines.glue_append_cons, List.append_assoc xs]
          rfl
        · rw [List.nil_append, Lines.glue_append_cons, Lines.stop_append, List.length_append]
          rfl
    | cons u init =>
        have hlen : (u :: init ++ [v]).length = init.length + 2 := by simp
        have hmid : ((u :: init ++ [v]).take (init.length + 1)).drop 1 = init := by simp
        refine ⟨[before ++ u] ++ init ++ [v ++ after], ?_, ?_, ?_⟩
        · unfold newRows
          simp only [hlen]
          rw [if_neg (by omega)]
          show (subvec (u :: init ++ [v]) ((1 : Nat) : Int) ((init.length + 1 : Nat) : Int) >>= _) = _
          rw [subvec_ok (by omega) (by simp), hmid]
          show Except.ok _ = Except.ok _
          rw [List.getLastD_concat]
          rfl
        · rw [List.cons_append, Lines.glue_append_cons, ← List.cons_append, ← List.append_assoc,
            Lines.glue_append_cons]
          simp
        · rw [hlen, if_neg (by omega), List.getLastD_concat, List.cons_append, Lines.glue_append_cons,
            ← List.cons_append, ← List.append_assoc, Lines.stop_append, List.length_append, List.length_cons]
          rfl

theorem insert_ok (h : Valid b.lines b.point) (t : Str) :
    b.insert t = .ok (b.spliced (split (expandTabs t))) := by
  have hrow : b.row < b.lines.length := h.row
  have hcol : b.col ≤ (b.lines.getD b.row []).length := h.col
  obtain ⟨rows, hrows, hglue, hstop⟩ := newRows_ok ((b.lines.getD b.row []).take b.col)
    ((b.lines.getD b.row []).drop b.col) (split_ne_nil (expandTabs t)) (b.lines.take b.row)
    (b.lines.drop (b.row + 1))
  rw [List.length_take, List.length_take, Nat.min_eq_left (Nat.le_of_lt hrow), Nat.min_eq_left hcol] at hstop
  unfold insert spliced upTo after point
  rw [hglue, hstop]
  show (b.curLine >>= _) = _
  rw [curLine_ok h]
  show (subvec (b.lines.getD b.row []) 0 b.col >>= _) = _
  rw [subvec_zero hcol]
  show (subvecFrom (b.lines.getD b.row []) b.col >>= _) = _
  rw [subvecFrom_ok hcol]
  show (newRows _ _ _ >>= _) = _
  rw [hrows]
  show (subvec b.lines 0 b.row >>= _) = _
  rw [subvec_zero (Nat.le_of_lt hrow)]
  show (subvecFrom b.lines ((b.row + 1 : Nat) : Int) >>= _) = _
  rw [subvecFrom_ok hrow]
  rfl

/-! ### Motion -/

/-- Point (and the goal column) went to a position of the text. -/
structure Moved (b b' : Buffer) : Prop where
  frame : b' = { b with row := b'.row, col := b'.col, goal := b'.goal }
  point : Valid b.lines b'.point

theorem Moved.lines {b' : Buffer} (h : Moved b b') : b'.lines = b.lines := by
  rw [h.frame]

theorem Moved.refl (h : Valid b.lines b.point) : Moved b b := ⟨rfl, h⟩

theorem Moved.trans {b' b'' : Buffer} (h : Moved b b') (h' : Moved b' b'') : Moved b b'' := by
  refine ⟨?_, by rw [← h.lines]; exact h'.point⟩
  rw [h'.frame, h.frame]

theorem charAt_ok (h : Valid b.lines p) : ∃ c, b.charAt p = .ok c := by
  unfold charAt
  rw [line_ok h.row]
  show ∃ c, (if p.2 < (b.lines.getD p.1 []).length then _ else _) = _
  split_ifs with hlt
  · exact ⟨_, nth_ok ' ' hlt⟩
  · exact ⟨'\n', rfl⟩

theorem eq_stop_iff (h : Valid b.lines p) :
    p = stop b.lines ↔ p.1 = b.lastRow ∧ p.2 = (b.lines.getD p.1 []).length := by
  obtain ⟨xs, u, hls⟩ :=
    Lines.eq_append_of_ne_nil (List.ne_nil_of_length_pos (Nat.zero_lt_of_lt h.row))
  obtain ⟨r, c⟩ := p
  have hlast : b.lastRow = xs.length := by
    unfold lastRow
    rw [hls, List.length_append]
    rfl
  rw [hls, hlast, Lines.stop_append, Prod.mk.injEq]
  refine and_congr_right fun hr => ?_
  simp only at hr ⊢
  rw [hr]
  simp

theorem atEnd_ok (h : Valid b.lines b.point) : b.atEnd = .ok (b.point = stop b.lines) := by
  have hiff := eq_stop_iff h
  unfold atEnd
  rw [curLine_ok h]
  by_cases hrow : b.row = b.lastRow
  · rw [if_pos hrow]
    refine congrArg Except.ok (Bool.eq_iff_iff.mpr ?_)
    rw [beq_iff_eq, decide_eq_true_iff, hiff]
    exact ⟨fun hcol => ⟨hrow, hcol⟩, fun hp => hp.2⟩
  · rw [if_neg hrow]
    refine congrArg Except.ok (Bool.eq_iff_iff.mpr ?_)
    rw [decide_eq_true_iff, hiff]
    exact ⟨nofun, fun hp => absurd hp.1 hrow⟩

/-- `forward-char` at the end, and before it. -/
theorem forwardChar_cases (h : Valid b.lines b.point) :
    (b.point = stop b.lines ∧ b.forwardChar = .ok b) ∨
    (b.point ≠ stop b.lines ∧ ∃ b', b.forwardChar = .ok b' ∧ Moved b b' ∧ b'.off = b.off + 1 ∧
      Le b.point b'.point) := by
  have hrow : b.row < b.lines.length := h.row
  have hcol : b.col ≤ (b.lines.getD b.row []).length := h.col
  have hiff := eq_stop_iff h
  unfold forwardChar
  rw [curLine_ok h]
  by_cases h₁ : b.col < (b.lines.getD b.row []).length
  · have hv : Valid b.lines (b.row, b.col + 1) := ⟨hrow, h₁⟩
    refine .inr ⟨?_, { b with col := b.col + 1, goal := none }, if_pos h₁, ⟨rfl, hv⟩,
      Lines.offset_col '\n' hv, .inr ⟨rfl, Nat.le_succ _⟩⟩
    rw [ne_eq, hiff]
    exact fun hp => absurd hp.2 (Nat.ne_of_lt h₁)
  · have hlen : b.col = (b.lines.getD b.row []).length := by omega
    by_cases h₂ : b.row < b.lastRow
    · have hlast := lastRow_lt h
      have hv : Valid b.lines (b.row + 1, 0) := ⟨by simp only; omega, Nat.zero_le _⟩
      refine .inr ⟨?_, { b with row := b.row + 1, col := 0, goal := none }, ?_, ⟨rfl, hv⟩, ?_,
        .inl (Nat.lt_succ_self _)⟩
      · rw [ne_eq, hiff]
        exact fun hp => absurd hp.1 (Nat.ne_of_lt h₂)
      · exact (if_neg h₁).trans (if_pos h₂)
      · show Lines.offset '\n' b.lines (b.row + 1, 0) = Lines.offset '\n' b.lines (b.row, b.col) + 1
        rw [Lines.offset_row '\n' hv, hlen]
    · refine .inl ⟨hiff.mpr ⟨?_, hlen⟩, (if_neg h₁).trans (if_neg h₂)⟩
      unfold lastRow at h₂ ⊢
      show b.row = _
      omega

/-- `backward-char` at the start, and after it. -/
theorem backwardChar_cases (h : Valid b.lines b.point) :
    (b.point = (0, 0) ∧ b.backwardChar = .ok b) ∨
    (b.point ≠ (0, 0) ∧ ∃ b', b.backwardChar = .ok b' ∧ Moved b b' ∧ b'.off + 1 = b.off ∧
      Le b'.point b.point) := by
  have hrow : b.row < b.lines.length := h.row
  have hcol : b.col ≤ (b.lines.getD b.row []).length := h.col
  unfold backwardChar
  by_cases h₁ : b.col > 0
  · obtain ⟨c, hc⟩ : ∃ c, b.col = c + 1 := ⟨b.col - 1, by omega⟩
    have hv : Valid b.lines (b.row, c + 1) := by
      rw [← hc]
      exact h
    refine .inr ⟨?_, { b with col := b.col - 1, goal := none }, if_pos h₁, ⟨rfl, hrow, ?_⟩, ?_,
      .inr ⟨rfl, Nat.sub_le _ _⟩⟩
    · intro hp
      exact absurd (congrArg Prod.snd hp) (Nat.ne_of_gt h₁)
    · show b.col - 1 ≤ (b.lines.getD b.row []).length
      omega
    · show Lines.offset '\n' b.lines (b.row, b.col - 1) + 1 = Lines.offset '\n' b.lines (b.row, b.col)
      rw [hc, Lines.offset_col '\n' hv]
      rfl
  · have hc : b.col = 0 := by omega
    by_cases h₂ : b.row > 0
    · obtain ⟨r, hr⟩ : ∃ r, b.row = r + 1 := ⟨b.row - 1, by omega⟩
      have hlt : r < b.lines.length := by omega
      have hv : Valid b.lines (r + 1, 0) := ⟨by rw [← hr]; exact hrow, Nat.zero_le _⟩
      refine .inr ⟨?_, { b with row := r, col := (b.lines.getD r []).length, goal := none }, ?_,
        ⟨rfl, hlt, Nat.le_refl _⟩, ?_, .inl ?_⟩
      · intro hp
        exact absurd (congrArg Prod.fst hp) (Nat.ne_of_gt h₂)
      · rw [if_neg h₁, if_pos h₂, hr, Nat.add_sub_cancel]
        show (b.line r >>= _) = _
        rw [line_ok hlt]
        rfl
      · show Lines.offset '\n' b.lines _ + 1 = Lines.offset '\n' b.lines (b.row, b.col)
        rw [hr, hc, Lines.offset_row '\n' hv]
        rfl
      · show r < b.row
        omega
    · refine .inl ⟨?_, (if_neg h₁).trans (if_neg h₂)⟩
      unfold point
      rw [hc, Nat.eq_zero_of_not_pos h₂]

theorem off_le (h : Valid b.lines b.point) : b.off ≤ b.text.length := Lines.offset_le '\n' h

theorem atStart_iff : b.atStart = true ↔ b.point = (0, 0) := by
  unfold atStart point
  rw [Bool.and_eq_true, beq_iff_eq, beq_iff_eq, Prod.mk.injEq]

/-- The loops of `forward-word` come to an end. -/
theorem skipForward_ok (f : Char → Bool) (h : Valid b.lines b.point) :
    ∃ b', b.skipForward f = .ok b' ∧ Moved b b' ∧ b.off ≤ b'.off := by
  have hle := off_le h
  refine loop_ok (fun b' => Moved b b' ∧ b.off ≤ b'.off) (fun b' => b.text.length - b'.off)
    (fun b' => Moved b b' ∧ b.off ≤ b'.off) ?_ ⟨.refl h, Nat.le_refl _⟩ (by unfold rounds; omega)
  intro s hs
  have hv : Valid s.lines s.point := by
    rw [hs.1.lines]
    exact hs.1.point
  have htext : s.text = b.text := by
    unfold text
    rw [hs.1.lines]
  obtain ⟨c, hc⟩ := charAt_ok hv
  rw [atEnd_ok hv]
  rcases forwardChar_cases hv with ⟨hstop, -⟩ | ⟨hstop, s', hs', hmoved, hoff, -⟩
  · rw [decide_eq_true hstop]
    exact .inl ⟨s, rfl, hs⟩
  · have hle' := off_le (b := s') (by rw [hmoved.lines]; exact hmoved.point)
    have htext' : s'.text = b.text := by
      rw [← htext]
      unfold text
      rw [hmoved.lines]
    rw [htext'] at hle'
    rw [decide_eq_false hstop, hc]
    by_cases hf : f c = true
    · exact .inl ⟨s, if_pos hf, hs⟩
    · refine .inr ⟨s', ?_, ⟨hs.1.trans hmoved, by omega⟩, by omega⟩
      refine (if_neg hf).trans ?_
      rw [hs']
      rfl

/-- The loops of `backward-word` come to an end. -/
theorem skipBackward_ok (f : Char → Bool) (h : Valid b.lines b.point) :
    ∃ b', b.skipBackward f = .ok b' ∧ Moved b b' ∧ b'.off ≤ b.off := by
  have hle := off_le h
  refine loop_ok (fun b' => Moved b b' ∧ b'.off ≤ b.off) off
    (fun b' => Moved b b' ∧ b'.off ≤ b.off) ?_ ⟨.refl h, Nat.le_refl _⟩ (by unfold rounds; omega)
  intro s hs
  have hv : Valid s.lines s.point := by
    rw [hs.1.lines]
    exact hs.1.point
  rcases backwardChar_cases hv with ⟨hstart, -⟩ | ⟨hstart, s', hs', hmoved, hoff, -⟩
  · rw [if_pos (atStart_iff.mpr hstart)]
    exact .inl ⟨s, rfl, hs⟩
  · obtain ⟨c, hc⟩ := charAt_ok (b := s') (p := s'.point) (by rw [hmoved.lines]; exact hmoved.point)
    rw [if_neg (by rwa [atStart_iff]), hs']
    show (∃ a, (s'.charAt s'.point >>= _) = _ ∧ _) ∨ ∃ a, (s'.charAt s'.point >>= _) = _ ∧ _
    rw [hc]
    by_cases hf : f c = true
    · exact .inl ⟨s, if_pos hf, hs⟩
    · exact .inr ⟨s', if_neg hf, ⟨hs.1.trans hmoved, by omega⟩, by omega⟩

theorem forwardWord_ok (h : Valid b.lines b.point) :
    ∃ b', b.forwardWord = .ok b' ∧ Moved b b' ∧ b.off ≤ b'.off := by
  obtain ⟨b₁, h₁, hm₁, ho₁⟩ := skipForward_ok wordChar h
  obtain ⟨b₂, h₂, hm₂, ho₂⟩ :=
    skipForward_ok (b := b₁) (fun c => !wordChar c) (by rw [hm₁.lines]; exact hm₁.point)
  refine ⟨b₂, ?_, hm₁.trans hm₂, Nat.le_trans ho₁ ho₂⟩
  unfold forwardWord
  rw [h₁]
  exact h₂

theorem backwardWord_ok (h : Valid b.lines b.point) :
    ∃ b', b.backwardWord = .ok b' ∧ Moved b b' ∧ b'.off ≤ b.off := by
  obtain ⟨b₁, h₁, hm₁, ho₁⟩ := skipBackward_ok wordChar h
  obtain ⟨b₂, h₂, hm₂, ho₂⟩ :=
    skipBackward_ok (b := b₁) (fun c => !wordChar c) (by rw [hm₁.lines]; exact hm₁.point)
  refine ⟨b₂, ?_, hm₁.trans hm₂, Nat.le_trans ho₂ ho₁⟩
  unfold backwardWord
  rw [h₁]
  exact h₂

theorem vertical_ok (h : Valid b.lines b.point) (dr : Int) : ∃ b', b.vertical dr = .ok b' ∧ Moved b b' := by
  have hlast := lastRow_lt h
  have hlt : (max 0 (min (b.row + dr) b.lastRow)).toNat < b.lines.length := by omega
  unfold vertical
  simp only
  rw [line_ok hlt]
  exact ⟨_, rfl, rfl, hlt, Nat.min_le_right _ _⟩

theorem goto_moved (h : Valid b.lines b.point) (r c : Int) : ∃ b', b.goto r c = .ok b' ∧ Moved b b' :=
  ⟨_, goto_ok h r c, rfl, goto_valid h r c⟩

theorem endOfBuffer_ok (h : Valid b.lines b.point) : ∃ b', b.endOfBuffer = .ok b' ∧ Moved b b' := by
  unfold endOfBuffer
  rw [line_ok (lastRow_lt h)]
  exact goto_moved h _ _

theorem endOfLine_ok (h : Valid b.lines b.point) : ∃ b', b.endOfLine = .ok b' ∧ Moved b b' := by
  unfold endOfLine
  rw [curLine_ok h]
  exact ⟨_, rfl, rfl, h.row, Nat.le_refl _⟩

theorem beginningOfLine_ok (h : Valid b.lines b.point) : ∃ b', b.beginningOfLine = .ok b' ∧ Moved b b' :=
  ⟨_, rfl, rfl, h.row, Nat.zero_le _⟩

theorem forwardChar_ok (h : Valid b.lines b.point) :
    ∃ b', b.forwardChar = .ok b' ∧ Moved b b' ∧ Le b.point b'.point := by
  rcases forwardChar_cases h with ⟨-, hb⟩ | ⟨-, b', hb, hm, -, hle⟩
  · exact ⟨b, hb, .refl h, .inr ⟨rfl, Nat.le_refl _⟩⟩
  · exact ⟨b', hb, hm, hle⟩

theorem backwardChar_ok (h : Valid b.lines b.point) :
    ∃ b', b.backwardChar = .ok b' ∧ Moved b b' ∧ Le b'.point b.point := by
  rcases backwardChar_cases h with ⟨-, hb⟩ | ⟨-, b', hb, hm, -, hle⟩
  · exact ⟨b, hb, .refl h, .inr ⟨rfl, Nat.le_refl _⟩⟩
  · exact ⟨b', hb, hm, hle⟩

end Buffer

end Beeros.Beermacs
