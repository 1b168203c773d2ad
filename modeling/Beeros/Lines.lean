import Mathlib.Data.List.Basic
import Mathlib.Data.List.GetD

/-! Text as a list of lines. A position cuts the text in two; `glue` puts texts together, the last
line of the one and the first line of the other becoming one line. Joined with a separator, gluing is
concatenation. -/

namespace Lines

variable {α : Type}

abbrev Pos := Nat × Nat

/-- The lines joined with `sep`. -/
def flat (sep : α) (ls : List (List α)) : List α := [sep].intercalate ls

def glue : List (List α) → List (List α) → List (List α)
  | [], ls => ls
  | [u], [] => [u]
  | [u], v :: ls => (u ++ v) :: ls
  | x :: y :: ls, ls' => x :: glue (y :: ls) ls'

/-- The text before a position. -/
def upTo (ls : List (List α)) (p : Pos) : List (List α) := ls.take p.1 ++ [(ls.getD p.1 []).take p.2]

/-- The text after a position. -/
def after (ls : List (List α)) (p : Pos) : List (List α) :=
  (ls.getD p.1 []).drop p.2 :: ls.drop (p.1 + 1)

structure Valid (ls : List (List α)) (p : Pos) : Prop where
  row : p.1 < ls.length
  col : p.2 ≤ (ls.getD p.1 []).length

/-- Where the text before a position ends in the joined text. -/
def offset (sep : α) (ls : List (List α)) (p : Pos) : Nat := (flat sep (upTo ls p)).length

/-- The position at the end. -/
def stop (ls : List (List α)) : Pos := (ls.length - 1, (ls.getLastD []).length)

/-- No line holds the separator. -/
def Clean (sep : α) (ls : List (List α)) : Prop := ∀ l ∈ ls, sep ∉ l

/-- `p` is not after `q`. -/
def Le (p q : Pos) : Prop := p.1 < q.1 ∨ (p.1 = q.1 ∧ p.2 ≤ q.2)

instance (ls : List (List α)) (p : Pos) : Decidable (Valid ls p) :=
  decidable_of_iff (p.1 < ls.length ∧ p.2 ≤ (ls.getD p.1 []).length)
    ⟨fun h => ⟨h.1, h.2⟩, fun h => ⟨h.row, h.col⟩⟩

instance (p q : Pos) : Decidable (Le p q) := inferInstanceAs (Decidable (_ ∨ _))

/-! ### Glueing -/

theorem glue_append_cons (xs : List (List α)) (u v : List α) (ys : List (List α)) :
    glue (xs ++ [u]) (v :: ys) = xs ++ (u ++ v) :: ys := by
  induction xs with
  | nil => rfl
  | cons x xs ih =>
      cases xs with
      | nil => rfl
      | cons y xs =>
          show x :: glue (y :: xs ++ [u]) (v :: ys) = _
          rw [ih]
          rfl

/-- A text that is not empty has a last line. -/
theorem eq_append_of_ne_nil {ls : List (List α)} (h : ls ≠ []) : ∃ xs u, ls = xs ++ [u] := by
  rcases List.eq_nil_or_concat ls with rfl | ⟨xs, u, rfl⟩
  · exact absurd rfl h
  · exact ⟨xs, u, List.concat_eq_append⟩

theorem glue_ne_nil {a b : List (List α)} (ha : a ≠ []) (hb : b ≠ []) : glue a b ≠ [] := by
  obtain ⟨xs, u, rfl⟩ := eq_append_of_ne_nil ha
  obtain ⟨v, ys, rfl⟩ := List.exists_cons_of_ne_nil hb
  rw [glue_append_cons]
  exact List.append_ne_nil_of_right_ne_nil _ (List.cons_ne_nil _ _)

theorem glue_assoc {a b c : List (List α)} (ha : a ≠ []) (hb : b ≠ []) (hc : c ≠ []) :
    glue (glue a b) c = glue a (glue b c) := by
  obtain ⟨xs, u, rfl⟩ := eq_append_of_ne_nil ha
  obtain ⟨v, ys, rfl⟩ := List.exists_cons_of_ne_nil hb
  obtain ⟨w, zs, rfl⟩ := List.exists_cons_of_ne_nil hc
  rcases List.eq_nil_or_concat ys with rfl | ⟨ys, t, rfl⟩
  · rw [glue_append_cons, glue_append_cons]
    show _ = glue (xs ++ [u]) ((v ++ w) :: zs)
    rw [glue_append_cons, List.append_assoc]
  · rw [List.concat_eq_append, glue_append_cons, ← List.cons_append, ← List.append_assoc, glue_append_cons,
      ← List.cons_append, glue_append_cons, List.cons_append, glue_append_cons, List.append_assoc,
      List.cons_append]

/-- Joined, glueing is concatenation. -/
theorem flat_glue (sep : α) {a b : List (List α)} (ha : a ≠ []) (hb : b ≠ []) :
    flat sep (glue a b) = flat sep a ++ flat sep b := by
  obtain ⟨v, ys, rfl⟩ := List.exists_cons_of_ne_nil hb
  obtain ⟨xs, u, rfl⟩ := eq_append_of_ne_nil ha
  rw [glue_append_cons]
  unfold flat
  induction xs with
  | nil =>
      rw [List.nil_append, List.nil_append, List.intercalate_singleton]
      cases ys with
      | nil => rw [List.intercalate_singleton, List.intercalate_singleton]
      | cons y ys =>
          rw [List.intercalate_cons_cons, List.intercalate_cons_cons, List.append_assoc, List.append_assoc,
            List.append_assoc]
  | cons x xs ih =>
      have hl : xs ++ (u ++ v) :: ys ≠ [] := List.append_ne_nil_of_right_ne_nil _ (List.cons_ne_nil _ _)
      have hr : xs ++ [u] ≠ [] := List.append_ne_nil_of_right_ne_nil _ (List.cons_ne_nil _ _)
      rw [List.cons_append, List.cons_append, List.intercalate_cons_of_ne_nil hl,
        List.intercalate_cons_of_ne_nil hr, ih hr]
      simp only [List.append_assoc]

theorem clean_glue {sep : α} {a b : List (List α)} (ha : Clean sep a) (hb : Clean sep b) :
    Clean sep (glue a b) := by
  rcases List.eq_nil_or_concat a with rfl | ⟨xs, u, rfl⟩
  · exact hb
  · cases b with
    | nil =>
        rw [List.concat_eq_append] at ha ⊢
        have hnil : glue (xs ++ [u]) [] = xs ++ [u] := by
          clear ha
          induction xs with
          | nil => rfl
          | cons x xs ih => cases xs <;> simp_all [glue]
        rwa [hnil]
    | cons v ys =>
        rw [List.concat_eq_append] at ha ⊢
        rw [glue_append_cons]
        intro l hl
        rw [List.mem_append, List.mem_cons] at hl
        rcases hl with hl | rfl | hl
        · exact ha l (List.mem_append_left _ hl)
        · rw [List.mem_append, not_or]
          exact ⟨ha u (List.mem_append_right _ List.mem_cons_self), hb v List.mem_cons_self⟩
        · exact hb l (List.mem_cons_of_mem _ hl)

/-! ### Positions -/

theorem upTo_ne_nil (ls : List (List α)) (p : Pos) : upTo ls p ≠ [] :=
  List.append_ne_nil_of_right_ne_nil _ (List.cons_ne_nil _ _)

theorem after_ne_nil (ls : List (List α)) (p : Pos) : after ls p ≠ [] := List.cons_ne_nil _ _

theorem getD_mem {ls : List (List α)} {r : Nat} (h : r < ls.length) : ls.getD r [] ∈ ls := by
  rw [List.getD_eq_getElem _ _ h]
  exact List.getElem_mem h

/-- A position cuts the text in two. -/
theorem glue_upTo_after {ls : List (List α)} {p : Pos} (h : Valid ls p) : glue (upTo ls p) (after ls p) = ls := by
  unfold upTo after
  rw [glue_append_cons, List.take_append_drop, List.getD_eq_getElem _ _ h.row, ← List.drop_eq_getElem_cons h.row,
    List.take_append_drop]

theorem flat_upTo_after (sep : α) {ls : List (List α)} {p : Pos} (h : Valid ls p) :
    flat sep (upTo ls p) ++ flat sep (after ls p) = flat sep ls := by
  rw [← flat_glue sep (upTo_ne_nil ls p) (after_ne_nil ls p), glue_upTo_after h]

theorem clean_upTo {sep : α} {ls : List (List α)} {p : Pos} (hc : Clean sep ls) : Clean sep (upTo ls p) := by
  intro l hl
  rcases List.mem_append.mp hl with hl | hl
  · exact hc l (List.mem_of_mem_take hl)
  · rw [List.mem_singleton] at hl
    intro hmem
    rw [hl] at hmem
    by_cases hp : p.1 < ls.length
    · exact hc _ (getD_mem hp) (List.mem_of_mem_take hmem)
    · rw [List.getD_eq_default _ _ (by omega)] at hmem
      simp at hmem

theorem clean_after {sep : α} {ls : List (List α)} {p : Pos} (hc : Clean sep ls) : Clean sep (after ls p) := by
  intro l hl
  rcases List.mem_cons.mp hl with rfl | hl
  · intro hmem
    by_cases hp : p.1 < ls.length
    · exact hc _ (getD_mem hp) (List.mem_of_mem_drop hmem)
    · rw [List.getD_eq_default _ _ (by omega)] at hmem
      simp at hmem
  · exact hc l (List.mem_of_mem_drop hl)

theorem stop_append (xs : List (List α)) (u : List α) : stop (xs ++ [u]) = (xs.length, u.length) := by
  unfold stop
  rw [List.length_append, List.length_singleton, Nat.add_sub_cancel, List.getLastD_concat]

theorem stop_upTo {ls : List (List α)} {p : Pos} (h : Valid ls p) : stop (upTo ls p) = p := by
  have hrow := h.row
  unfold upTo
  rw [stop_append, List.length_take, List.length_take, Nat.min_eq_left (by omega), Nat.min_eq_left h.col]

section Glued

variable {a b : List (List α)}

theorem upTo_glue_stop (ha : a ≠ []) (hb : b ≠ []) : upTo (glue a b) (stop a) = a := by
  obtain ⟨xs, u, rfl⟩ := eq_append_of_ne_nil ha
  obtain ⟨v, ys, rfl⟩ := List.exists_cons_of_ne_nil hb
  rw [glue_append_cons, stop_append]
  unfold upTo
  simp

theorem after_glue_stop (ha : a ≠ []) (hb : b ≠ []) : after (glue a b) (stop a) = b := by
  obtain ⟨xs, u, rfl⟩ := eq_append_of_ne_nil ha
  obtain ⟨v, ys, rfl⟩ := List.exists_cons_of_ne_nil hb
  rw [glue_append_cons, stop_append]
  unfold after
  simp

theorem valid_stop (ha : a ≠ []) (hb : b ≠ []) : Valid (glue a b) (stop a) := by
  obtain ⟨xs, u, rfl⟩ := eq_append_of_ne_nil ha
  obtain ⟨v, ys, rfl⟩ := List.exists_cons_of_ne_nil hb
  rw [glue_append_cons, stop_append]
  constructor
  · simp
  · simp

theorem le_stop_glue (ha : a ≠ []) (hb : b ≠ []) : Le (stop a) (stop (glue a b)) := by
  obtain ⟨xs, u, rfl⟩ := eq_append_of_ne_nil ha
  obtain ⟨v, ys, rfl⟩ := List.exists_cons_of_ne_nil hb
  rw [glue_append_cons, stop_append]
  rcases List.eq_nil_or_concat ys with rfl | ⟨ys, w, rfl⟩
  · rw [stop_append]
    exact .inr ⟨rfl, by simp⟩
  · rw [List.concat_eq_append, ← List.cons_append, ← List.append_assoc, stop_append]
    exact .inl (by simp)

end Glued

section Between

variable {ls : List (List α)} {p q : Pos}

theorem getD_upTo_of_lt {r : Nat} (h : r < q.1) (hq : Valid ls q) : (upTo ls q).getD r [] = ls.getD r [] := by
  have hrow := hq.row
  unfold upTo
  rw [List.getD_append _ _ _ _ (by rw [List.length_take]; omega), List.getD_eq_getElem _ _ (by simp; omega),
    List.getD_eq_getElem _ _ (by omega), List.getElem_take]

theorem getD_upTo_self (hq : Valid ls q) : (upTo ls q).getD q.1 [] = (ls.getD q.1 []).take q.2 := by
  have hrow := hq.row
  unfold upTo
  rw [List.getD_append_right _ _ _ _ (by rw [List.length_take]; omega), List.length_take,
    Nat.min_eq_left (by omega), Nat.sub_self, List.getD_cons_zero]

/-- What is before `p` in the text before a later position. -/
theorem upTo_upTo (hq : Valid ls q) (hle : Le p q) : upTo (upTo ls q) p = upTo ls p := by
  have hrow := hq.row
  rcases hle with hlt | ⟨heq, hcol⟩
  · show (upTo ls q).take p.1 ++ [((upTo ls q).getD p.1 []).take p.2] = _
    rw [getD_upTo_of_lt hlt hq]
    unfold upTo
    rw [List.take_append_of_le_length (by rw [List.length_take]; omega), List.take_take,
      Nat.min_eq_left (by omega)]
  · show (upTo ls q).take p.1 ++ [((upTo ls q).getD p.1 []).take p.2] = _
    rw [heq, getD_upTo_self hq, List.take_take, Nat.min_eq_left hcol]
    unfold upTo
    rw [List.take_append_of_le_length (by rw [List.length_take]; omega), List.take_take, Nat.min_self, heq]

theorem valid_upTo (hp : Valid ls p) (hq : Valid ls q) (hle : Le p q) : Valid (upTo ls q) p := by
  have hrow := hq.row
  have hlen : (upTo ls q).length = q.1 + 1 := by
    unfold upTo
    rw [List.length_append, List.length_take, List.length_singleton, Nat.min_eq_left (by omega)]
  rcases hle with hlt | ⟨heq, hcol⟩
  · exact ⟨by omega, by rw [getD_upTo_of_lt hlt hq]; exact hp.col⟩
  · refine ⟨by omega, ?_⟩
    have := hp.col
    rw [heq, getD_upTo_self hq, List.length_take]
    rw [heq] at this
    omega

/-- The text between two positions, as lines. -/
def between (ls : List (List α)) (p q : Pos) : List (List α) := after (upTo ls q) p

theorem glue_between (hp : Valid ls p) (hq : Valid ls q) (hle : Le p q) :
    glue (upTo ls p) (between ls p q) = upTo ls q := by
  rw [← upTo_upTo hq hle]
  exact glue_upTo_after (valid_upTo hp hq hle)

/-- The joined text is what is before, between and after two positions. -/
theorem flat_eq_between (sep : α) (hp : Valid ls p) (hq : Valid ls q) (hle : Le p q) :
    flat sep ls = flat sep (upTo ls p) ++ flat sep (between ls p q) ++ flat sep (after ls q) := by
  have hglue := flat_glue sep (upTo_ne_nil ls p) (after_ne_nil (upTo ls q) p)
  have hsplit := glue_between hp hq hle
  unfold between at hsplit ⊢
  rw [← hglue, hsplit, flat_upTo_after sep hq]

theorem offset_mono (sep : α) (hp : Valid ls p) (hq : Valid ls q) (hle : Le p q) :
    offset sep ls p ≤ offset sep ls q := by
  unfold offset
  rw [← glue_between hp hq hle]
  unfold between
  rw [flat_glue sep (upTo_ne_nil _ _) (after_ne_nil _ _), List.length_append]
  exact Nat.le_add_right _ _

end Between

/-! ### Offsets -/

theorem flat_append_singleton (sep : α) (xs : List (List α)) (u : List α) :
    flat sep (xs ++ [u]) = xs.flatMap (· ++ [sep]) ++ u := by
  unfold flat
  induction xs with
  | nil => rw [List.nil_append, List.intercalate_singleton, List.flatMap_nil, List.nil_append]
  | cons x xs ih =>
      rw [List.cons_append, List.intercalate_cons_of_ne_nil (by simp), ih, List.flatMap_cons]
      simp only [List.append_assoc]

section Offset

variable (sep : α) {ls : List (List α)} {p : Pos} {r c : Nat}

theorem offset_eq (h : Valid ls p) :
    offset sep ls p = ((ls.take p.1).flatMap (· ++ [sep])).length + p.2 := by
  unfold offset upTo
  rw [flat_append_singleton, List.length_append, List.length_take, Nat.min_eq_left h.col]

theorem offset_le (h : Valid ls p) : offset sep ls p ≤ (flat sep ls).length := by
  rw [← flat_upTo_after sep h, List.length_append]
  exact Nat.le_add_right _ _

theorem offset_col (h : Valid ls (r, c + 1)) : offset sep ls (r, c + 1) = offset sep ls (r, c) + 1 := by
  have h' : Valid ls (r, c) := ⟨h.row, Nat.le_of_succ_le h.col⟩
  rw [offset_eq sep h, offset_eq sep h', Nat.add_assoc]

theorem offset_row (h : Valid ls (r + 1, 0)) :
    offset sep ls (r + 1, 0) = offset sep ls (r, (ls.getD r []).length) + 1 := by
  have hr : r < ls.length := Nat.lt_of_succ_lt h.row
  have h' : Valid ls (r, (ls.getD r []).length) := ⟨hr, Nat.le_refl _⟩
  rw [offset_eq sep h, offset_eq sep h', List.take_succ_eq_append_getElem hr, List.flatMap_append,
    List.length_append, List.flatMap_singleton, List.length_append, List.length_singleton,
    List.getD_eq_getElem _ _ hr]
  rfl

theorem offset_zero (h : Valid ls (0, 0)) : offset sep ls (0, 0) = 0 := by
  rw [offset_eq sep h]
  rfl

theorem offset_stop (h : ls ≠ []) : offset sep ls (stop ls) = (flat sep ls).length := by
  obtain ⟨xs, u, rfl⟩ := eq_append_of_ne_nil h
  unfold offset
  rw [stop_append]
  unfold upTo
  simp

end Offset

/-! ### Positions after a change -/

section Change

variable {α : Type} {a b ls parts : List (List α)} {lo hi m p : Pos}

theorem valid_glue (ha : a ≠ []) (hb : b ≠ []) :
    Valid (glue a b) m ↔
      if m.1 < (stop a).1 then Valid a m
      else if m.1 = (stop a).1 then m.2 ≤ (stop a).2 + (b.headD []).length
      else Valid b (m.1 - (stop a).1, m.2) := by
  obtain ⟨xs, u, rfl⟩ := eq_append_of_ne_nil ha
  obtain ⟨v, ys, rfl⟩ := List.exists_cons_of_ne_nil hb
  obtain ⟨r, c⟩ := m
  rw [glue_append_cons, stop_append]
  have hiff {zs : List (List α)} {r : Nat} :
      Valid zs (r, c) ↔ r < zs.length ∧ c ≤ (zs.getD r []).length := ⟨fun h => ⟨h.row, h.col⟩, fun h => ⟨h.1, h.2⟩⟩
  simp only [hiff, List.headD_cons]
  split_ifs with hlt heq
  · rw [List.getD_append _ _ _ _ hlt, List.getD_append _ _ _ _ hlt, List.length_append, List.length_append]
    simp only [List.length_cons, List.length_nil]
    exact ⟨fun h => ⟨by omega, h.2⟩, fun h => ⟨by omega, h.2⟩⟩
  · subst heq
    rw [List.getD_append_right _ _ _ _ (Nat.le_refl _), Nat.sub_self, List.getD_cons_zero, List.length_append,
      List.length_append, List.length_cons]
    exact ⟨fun h => h.2, fun h => ⟨by omega, h⟩⟩
  · obtain ⟨k, rfl⟩ : ∃ k, r = xs.length + (k + 1) := ⟨r - xs.length - 1, by omega⟩
    rw [List.getD_append_right _ _ _ _ (by omega), Nat.add_sub_cancel_left, List.getD_cons_succ, List.getD_cons_succ,
      List.length_append, List.length_cons, List.length_cons]
    exact ⟨fun h => ⟨by omega, h.2⟩, fun h => ⟨by omega, h.2⟩⟩

theorem valid_after {k c : Nat} (hp : Valid ls p) (hk : k ≠ 0) : Valid (after ls p) (k, c) ↔ Valid ls (p.1 + k, c) := by
  obtain ⟨k, rfl⟩ := Nat.exists_eq_succ_of_ne_zero hk
  have hget : (after ls p).getD (k + 1) [] = ls.getD (p.1 + (k + 1)) [] := by
    unfold after
    rw [List.getD_cons_succ, List.getD_eq_getElem?_getD, List.getElem?_drop, ← List.getD_eq_getElem?_getD]
    congr 1
    omega
  have hlen : k + 1 < (after ls p).length ↔ p.1 + (k + 1) < ls.length := by
    unfold after
    rw [List.length_cons, List.length_drop]
    have := hp.row
    omega
  exact ⟨fun h => ⟨hlen.mp h.row, hget ▸ h.col⟩, fun h => ⟨hlen.mpr h.row, hget.symm ▸ h.col⟩⟩

/-- The position is still one after the text from `lo` to `hi` is taken out. -/
def CutKeeps (ls : List (List α)) (lo hi m : Pos) : Prop :=
  m.1 < lo.1 ∨
  (m.1 = lo.1 ∧ m.2 ≤ lo.2 + ((ls.getD hi.1 []).length - hi.2)) ∨
  (lo.1 < m.1 ∧ Valid ls (m.1 + (hi.1 - lo.1), m.2))

theorem valid_cut (hlo : Valid ls lo) (hhi : Valid ls hi) (hle : Le lo hi) (hm : Valid ls m) :
    Valid (glue (upTo ls lo) (after ls hi)) m ↔ CutKeeps ls lo hi m := by
  have hrow : lo.1 ≤ hi.1 := by
    rcases hle with h | h <;> omega
  rw [valid_glue (upTo_ne_nil _ _) (after_ne_nil _ _), stop_upTo hlo]
  unfold CutKeeps
  split_ifs with hlt heq
  · refine ⟨fun _ => .inl hlt, fun _ => valid_upTo hm hlo (.inl hlt)⟩
  · have hhead : ((after ls hi).headD []).length = (ls.getD hi.1 []).length - hi.2 := List.length_drop
    rw [hhead]
    exact ⟨fun h => .inr (.inl ⟨heq, h⟩), fun h => by rcases h with h | h | h <;> omega⟩
  · rw [valid_after hhi (by omega)]
    have hidx : hi.1 + (m.1 - lo.1) = m.1 + (hi.1 - lo.1) := by omega
    rw [hidx]
    exact ⟨fun h => .inr (.inr ⟨by omega, h⟩), fun h => by
      rcases h with h | h | h
      · omega
      · omega
      · exact h.2⟩

/-- The position is still one after `parts` are put in at `p`. -/
def PasteKeeps (ls : List (List α)) (p : Pos) (parts : List (List α)) (m : Pos) : Prop :=
  let n := parts.length - 1
  m.1 < p.1 ∨
  (m.1 = p.1 ∧ m.2 ≤ p.2 + (parts.headD []).length + (if n = 0 then (ls.getD p.1 []).length - p.2 else 0)) ∨
  (p.1 < m.1 ∧ m.1 < p.1 + n ∧ m.2 ≤ (parts.getD (m.1 - p.1) []).length) ∨
  (p.1 < m.1 ∧ m.1 = p.1 + n ∧ m.2 ≤ (parts.getLastD []).length + ((ls.getD p.1 []).length - p.2)) ∨
  (p.1 + n < m.1 ∧ Valid ls (m.1 - n, m.2))

/-- The first line of a text put before another. -/
theorem headD_glue (hb : b ≠ []) (h : parts ≠ []) : ((glue parts b).headD []).length =
    (parts.headD []).length + (if parts.length - 1 = 0 then (b.headD []).length else 0) := by
  obtain ⟨v, ys, rfl⟩ := List.exists_cons_of_ne_nil hb
  cases parts with
  | nil => exact absurd rfl h
  | cons x xs =>
      cases xs with
      | nil => exact List.length_append
      | cons y xs => rfl

/-- A row below the one where `parts` are put in. -/
theorem valid_below {k c : Nat} (hp : Valid ls p) (hne : parts ≠ []) :
    Valid (glue parts (after ls p)) (k, c) ↔
      (k < parts.length - 1 ∧ c ≤ (parts.getD k []).length) ∨
      (k = parts.length - 1 ∧ c ≤ (parts.getLastD []).length + ((ls.getD p.1 []).length - p.2)) ∨
      (parts.length - 1 < k ∧ Valid ls (p.1 + (k - (parts.length - 1)), c)) := by
  have hhead : ((after ls p).headD []).length = (ls.getD p.1 []).length - p.2 := List.length_drop
  rw [valid_glue hne (after_ne_nil ls p)]
  change (if k < parts.length - 1 then _ else if k = parts.length - 1 then
    c ≤ (parts.getLastD []).length + _ else Valid _ (k - (parts.length - 1), c)) ↔ _
  rw [hhead]
  split_ifs with hlt heq
  · have hrow : k < parts.length := by omega
    refine ⟨fun h => .inl ⟨hlt, h.col⟩, fun h => ⟨hrow, ?_⟩⟩
    show c ≤ (parts.getD k []).length
    omega
  · omega
  · rw [valid_after hp (by omega)]
    exact ⟨fun h => .inr (.inr ⟨by omega, h⟩), fun h => by
      rcases h with h | h | h
      · omega
      · omega
      · exact h.2⟩

theorem valid_paste (hp : Valid ls p) (hne : parts ≠ []) (hm : Valid ls m) :
    Valid (glue (glue (upTo ls p) parts) (after ls p)) m ↔ PasteKeeps ls p parts m := by
  have hafter := after_ne_nil ls p
  have hhead : ((after ls p).headD []).length = (ls.getD p.1 []).length - p.2 := List.length_drop
  rw [glue_assoc (upTo_ne_nil _ _) hne hafter, valid_glue (upTo_ne_nil _ _) (glue_ne_nil hne hafter), stop_upTo hp]
  unfold PasteKeeps
  by_cases hlt : m.1 < p.1
  · rw [if_pos hlt]
    exact ⟨fun _ => .inl hlt, fun _ => valid_upTo hm hp (.inl hlt)⟩
  rw [if_neg hlt]
  by_cases heq : m.1 = p.1
  · rw [if_pos heq, headD_glue hafter hne, hhead]
    dsimp only
    omega
  rw [if_neg heq, valid_below hp hne]
  dsimp only
  constructor
  · rintro (h | h | ⟨h, hv⟩)
    · exact .inr (.inr (.inl ⟨by omega, by omega, h.2⟩))
    · exact .inr (.inr (.inr (.inl ⟨by omega, by omega, h.2⟩)))
    · have hrow : p.1 + (m.1 - p.1 - (parts.length - 1)) = m.1 - (parts.length - 1) := by omega
      rw [hrow] at hv
      exact .inr (.inr (.inr (.inr ⟨by omega, hv⟩)))
  · rintro (h | h | h | h | ⟨h, hv⟩)
    · omega
    · omega
    · exact .inl ⟨by omega, h.2.2⟩
    · exact .inr (.inl ⟨by omega, h.2.2⟩)
    · have hrow : m.1 - (parts.length - 1) = p.1 + (m.1 - p.1 - (parts.length - 1)) := by omega
      rw [hrow] at hv
      exact .inr (.inr ⟨by omega, hv⟩)

end Change

end Lines
