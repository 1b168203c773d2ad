import Beeros.BeermacsText

/-! Tabs in a text that is loaded and in one that is inserted. `new-buffer` expands them line by line, `insert` in the
whole text at once: there the columns are counted from the start of the text, over its newlines. -/

namespace Beeros.Beermacs

open Beerlang
open Lines (Clean)

/-- What `expand-tabs` makes of the rest of a line behind `n` characters. -/
def expandFrom : Nat → Str → Str
  | _, [] => []
  | n, c :: l =>
      if c = '\t' then List.replicate (8 - n % 8) ' ' ++ expandFrom (n + (8 - n % 8)) l else c :: expandFrom (n + 1) l

/-- Every line with a tab begins at a tab stop, when the lines are expanded one by one and `n` characters come before
them. -/
def Aligned : Nat → List Str → Prop
  | _, [] => True
  | n, l :: ls => ('\t' ∈ l → n % 8 = 0) ∧ Aligned (n + (expandTabs l).length + 1) ls

instance : DecidableRel Aligned := fun n ls => by
  induction ls generalizing n with
  | nil => exact isTrue trivial
  | cons l ls ih => exact @instDecidableAnd _ _ _ (ih _)

variable {n : Nat} {l m : Str} {c : Char}

/-! ### One line -/

theorem expandFrom_tab : expandFrom n ('\t' :: l) =
    List.replicate (8 - n % 8) ' ' ++ expandFrom (n + (8 - n % 8)) l := if_pos rfl

theorem expandFrom_cons (h : c ≠ '\t') : expandFrom n (c :: l) = c :: expandFrom (n + 1) l := if_neg h

theorem foldl_eq_expandFrom (l out : Str) : l.foldl (fun out c =>
    if c = '\t' then out ++ List.replicate (8 - out.length % 8) ' ' else out ++ [c]) out =
      out ++ expandFrom out.length l := by
  induction l generalizing out with
  | nil => exact (List.append_nil out).symm
  | cons c l ih =>
      rw [List.foldl_cons, ih]
      by_cases hc : c = '\t'
      · rw [if_pos hc, hc, expandFrom_tab, List.length_append, List.length_replicate, List.append_assoc]
      · rw [if_neg hc, expandFrom_cons hc, List.length_append, List.append_assoc]
        rfl

theorem expandFrom_of_not_mem (h : '\t' ∉ l) : expandFrom n l = l := by
  induction l generalizing n with
  | nil => rfl
  | cons c l ih =>
      rw [List.mem_cons, not_or] at h
      rw [expandFrom_cons (Ne.symm h.1), ih h.2]

theorem expandTabs_eq : expandTabs l = expandFrom 0 l := by
  unfold expandTabs
  split_ifs with htab
  · exact foldl_eq_expandFrom l []
  · exact (expandFrom_of_not_mem htab).symm

theorem expandFrom_append : expandFrom n (l ++ m) = expandFrom n l ++ expandFrom (n + (expandFrom n l).length) m := by
  induction l generalizing n with
  | nil => rfl
  | cons c l ih =>
      rw [List.cons_append]
      by_cases hc : c = '\t'
      · rw [hc, expandFrom_tab, expandFrom_tab, ih, List.append_assoc, List.length_append, List.length_replicate,
          Nat.add_assoc]
      · rw [expandFrom_cons hc, expandFrom_cons hc, ih, List.length_cons, List.cons_append,
          show n + 1 + (expandFrom (n + 1) l).length = n + ((expandFrom (n + 1) l).length + 1) by omega]

/-- Only the place between two tab stops counts. -/
theorem expandFrom_congr {n' : Nat} (h : n % 8 = n' % 8) : expandFrom n l = expandFrom n' l := by
  induction l generalizing n n' with
  | nil => rfl
  | cons c l ih =>
      by_cases hc : c = '\t'
      · rw [hc, expandFrom_tab, expandFrom_tab, h, ih (by omega : (n + (8 - n' % 8)) % 8 = (n' + (8 - n' % 8)) % 8)]
      · rw [expandFrom_cons hc, expandFrom_cons hc, ih (by omega : (n + 1) % 8 = (n' + 1) % 8)]

/-- Behind `n` characters a line is expanded as at the start of a line. -/
theorem expandFrom_eq_iff : expandFrom n l = expandTabs l ↔ ('\t' ∈ l → n % 8 = 0) := by
  rw [expandTabs_eq]
  have hgen : ∀ {k n : Nat} {l : Str}, expandFrom (n + k) l = expandFrom k l ↔ ('\t' ∈ l → n % 8 = 0) := by
    intro k n l
    induction l generalizing k with
    | nil => exact ⟨fun _ h => absurd h List.not_mem_nil, fun _ => rfl⟩
    | cons c l ih =>
        by_cases hc : c = '\t'
        · subst hc
          rw [expandFrom_tab, expandFrom_tab]
          have hrest : expandFrom (n + k + (8 - (n + k) % 8)) l = expandFrom (k + (8 - k % 8)) l :=
            expandFrom_congr (by omega)
          rw [hrest, List.append_left_inj]
          constructor
          · intro heq _
            have hlen := congrArg List.length heq
            rw [List.length_replicate, List.length_replicate] at hlen
            omega
          · intro h
            have := h List.mem_cons_self
            rw [show (n + k) % 8 = k % 8 by omega]
        · rw [expandFrom_cons hc, expandFrom_cons hc, List.cons.injEq, and_iff_right rfl, Nat.add_assoc, ih,
            List.mem_cons, or_iff_right (Ne.symm hc)]
  exact hgen (k := 0)

/-! ### The lines -/

theorem newline_not_mem_expandFrom (h : '\n' ∉ l) : '\n' ∉ expandFrom n l := by
  have hfold := @not_mem_foldl_tabs l (List.replicate n ' ') h fun hmem =>
    absurd (List.eq_of_mem_replicate hmem) (by decide)
  rw [foldl_eq_expandFrom, List.length_replicate, List.mem_append, not_or] at hfold
  exact hfold.2

/-- Expanded at once, each line is as if expanded on its own when those with tabs begin at tab stops. -/
theorem split_expandFrom {ls : List Str} (hl : '\n' ∉ l) (hls : Clean '\n' ls) :
    split (expandFrom n (join (l :: ls))) = (l :: ls).map expandTabs ↔ Aligned n (l :: ls) := by
  induction ls generalizing n l with
  | nil =>
      have hjoin : join [l] = l := by
        unfold join Lines.flat
        exact List.intercalate_singleton
      rw [hjoin, split, List.splitOn_eq_singleton (newline_not_mem_expandFrom hl), List.map_singleton,
        List.cons.injEq, and_iff_left rfl, expandFrom_eq_iff]
      exact (and_iff_left trivial).symm
  | cons l' ls ih =>
      have hjoin : join (l :: l' :: ls) = l ++ '\n' :: join (l' :: ls) := by
        unfold join Lines.flat
        rw [List.intercalate_cons_cons, List.append_assoc]
        rfl
      rw [hjoin, expandFrom_append, expandFrom_cons (by decide), split,
        List.splitOn_append_cons_self_of_not_mem (newline_not_mem_expandFrom hl), List.map_cons, List.cons.injEq,
        expandFrom_eq_iff]
      refine and_congr_right fun htab => ?_
      rw [expandFrom_eq_iff.mpr htab]
      exact ih (hls l' List.mem_cons_self) fun k hk => hls k (List.mem_cons_of_mem _ hk)

/-! ### Insertion -/

namespace Buffer

variable {b : Buffer}

/-- A text inserted into an empty buffer. -/
theorem insert_empty (h : b.Ok) (he : b.lines = [[]]) (t : Str) :
    ∃ b', b.insert t = .ok b' ∧ b'.lines = split (expandTabs t) := by
  refine ⟨_, insert_ok h.point t, ?_⟩
  have hv := h.point
  rw [he] at hv
  have hrow : b.row = 0 := Nat.lt_one_iff.mp hv.row
  obtain ⟨v, ys, hsplit⟩ := List.exists_cons_of_ne_nil (split_ne_nil (expandTabs t))
  obtain ⟨xs, u, hlast⟩ := Lines.eq_append_of_ne_nil (split_ne_nil (expandTabs t))
  have hup : Lines.upTo b.lines b.point = [[]] := by
    unfold Lines.upTo point
    rw [he, hrow]
    exact congrArg (fun l : Str => [l]) List.take_nil
  have hafter : Lines.after b.lines b.point = [[]] := by
    unfold Lines.after point
    rw [he, hrow]
    exact congrArg (fun l : Str => [l]) List.drop_nil
  unfold spliced
  rw [hup, hafter]
  dsimp only
  have hfirst : Lines.glue [[]] (split (expandTabs t)) = split (expandTabs t) := by
    rw [hsplit]
    rfl
  rw [hfirst, hlast, Lines.glue_append_cons, List.append_nil]

/-- A tab inserted at point is eight spaces. -/
theorem insert_tab (h : b.Ok) : ∃ b', b.insert ['\t'] = .ok b' ∧ b'.row = b.row ∧ b'.col = b.col + 8 := by
  have hcol : b.col ≤ (b.lines.getD b.row []).length := h.point.col
  have hsplit : split (expandTabs ['\t']) = [List.replicate 8 ' '] := by decide
  have hstop : Lines.stop (Lines.glue (Lines.upTo b.lines b.point) [List.replicate 8 ' ']) = (b.row, b.col + 8) := by
    unfold Lines.upTo point
    dsimp only
    rw [Lines.glue_append_cons, Lines.stop_append, List.length_append, List.length_take_of_le hcol,
      List.length_take_of_le (show b.row ≤ b.lines.length from Nat.le_of_lt h.point.row)]
    rfl
  refine ⟨_, insert_ok h.point ['\t'], ?_⟩
  unfold spliced
  rw [hsplit, hstop]
  exact ⟨rfl, rfl⟩

end Buffer

/-- A text inserted into an empty buffer gives the lines of the buffer that is made of it exactly when each line with a
tab begins, all lines expanded, a multiple of eight characters after the start of the text. A tab inserted in a line
goes to the next tab stop exactly at a tab stop. -/
theorem insert_eq_newBuffer_iff (b : Buffer) (h : b.Ok) :
    (b.lines = [[]] → ∀ nm t file, ∃ b', b.insert t = .ok b' ∧
      (b'.lines = (newBuffer nm t file).lines ↔ Aligned 0 (split t))) ∧
      ∃ b', b.insert ['\t'] = .ok b' ∧ (b'.point = (b.row, 8 * (b.col / 8 + 1)) ↔ b.col % 8 = 0) := by
  refine ⟨fun he nm t file => ?_, ?_⟩
  · obtain ⟨b', hb', hlines⟩ := Buffer.insert_empty h he t
    refine ⟨b', hb', ?_⟩
    have hclean := clean_split t
    have hjoin := join_split t
    obtain ⟨l, ls, hsplit⟩ := List.exists_cons_of_ne_nil (split_ne_nil t)
    show b'.lines = (split t).map expandTabs ↔ _
    rw [hsplit] at hclean hjoin ⊢
    rw [hlines, ← hjoin, expandTabs_eq]
    exact split_expandFrom (hclean l List.mem_cons_self) fun k hk => hclean k (List.mem_cons_of_mem _ hk)
  · obtain ⟨b', hb', hrow, hcol⟩ := Buffer.insert_tab h
    refine ⟨b', hb', ?_⟩
    unfold Buffer.point
    rw [hrow, hcol, Prod.mk.injEq, and_iff_right rfl]
    omega

theorem insert_eq_newBuffer_iff_empty :
    ((newBuffer ['x'] [] none).lines = [[]] → ∀ nm t file, ∃ b', (newBuffer ['x'] [] none).insert t = .ok b' ∧
      (b'.lines = (newBuffer nm t file).lines ↔ Aligned 0 (split t))) ∧
      ∃ b', (newBuffer ['x'] [] none).insert ['\t'] = .ok b' ∧
        (b'.point = ((newBuffer ['x'] [] none).row, 8 * ((newBuffer ['x'] [] none).col / 8 + 1)) ↔
          (newBuffer ['x'] [] none).col % 8 = 0) :=
  insert_eq_newBuffer_iff _ (ok_newBuffer ['x'] [] none)

/-- A tab on the second line. -/
theorem not_insert_eq_newBuffer : ∃ b', (newBuffer ['x'] [] none).insert ['a', '\n', '\t', 'b'] = .ok b' ∧
    b'.lines ≠ (newBuffer ['x'] ['a', '\n', '\t', 'b'] none).lines ∧
      b'.lines = [['a'], List.replicate 6 ' ' ++ ['b']] :=
  ⟨_, rfl, by decide, by decide⟩

end Beeros.Beermacs
