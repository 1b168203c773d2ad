import Beeros.BeermacsUndo

/-! Kills in a row and a yank in the command loop: the pieces that are cut out at one place come back as one text.
A yank expands tabs, but no buffer has any. -/

namespace Beeros.Beermacs

open Beerlang
open Lines (Pos Valid Le Clean upTo after glue between)

/-! ### Tabs -/

theorem tab_not_mem_expandTabs (l : Str) : '\t' ∉ expandTabs l := by
  have hfold : ∀ l out : Str, '\t' ∉ out → '\t' ∉ l.foldl (fun out c =>
      if c = '\t' then out ++ List.replicate (8 - out.length % 8) ' ' else out ++ [c]) out := by
    intro l
    induction l with
    | nil => exact fun out hout => hout
    | cons c l ih =>
        intro out hout
        rw [List.foldl_cons]
        refine ih _ ?_
        split_ifs with hc
        · rw [List.mem_append, not_or]
          exact ⟨hout, fun hmem => absurd (List.eq_of_mem_replicate hmem) (by decide)⟩
        · rw [List.mem_append, not_or, List.mem_singleton]
          exact ⟨hout, fun heq => hc heq.symm⟩
  unfold expandTabs
  split_ifs with htab
  · exact hfold l [] List.not_mem_nil
  · exact htab

theorem expandTabs_of_not_mem {l : Str} (h : '\t' ∉ l) : expandTabs l = l := if_neg h

theorem mem_join {c : Char} {ls : List Str} (h : c ∈ join ls) : c = '\n' ∨ ∃ l ∈ ls, c ∈ l := by
  unfold join Lines.flat at h
  induction ls with
  | nil => cases h
  | cons l ls ih =>
      cases ls with
      | nil =>
          rw [List.intercalate_singleton] at h
          exact .inr ⟨l, List.mem_cons_self, h⟩
      | cons l' ls =>
          rw [List.intercalate_cons_cons, List.append_assoc, List.mem_append, List.mem_append, List.mem_singleton] at h
          rcases h with h | h | h
          · exact .inr ⟨l, List.mem_cons_self, h⟩
          · exact .inl h
          · rcases ih h with heq | ⟨l₁, hl₁, hmem⟩
            · exact .inl heq
            · exact .inr ⟨l₁, List.mem_cons_of_mem _ hl₁, hmem⟩

theorem mem_join_of_mem {c : Char} {l : Str} {ls : List Str} (hl : l ∈ ls) (hc : c ∈ l) : c ∈ join ls := by
  unfold join Lines.flat
  induction ls with
  | nil => cases hl
  | cons l' ls ih =>
      cases ls with
      | nil =>
          rw [List.intercalate_singleton, ← List.mem_singleton.mp hl]
          exact hc
      | cons l'' ls =>
          rw [List.intercalate_cons_cons]
          rcases List.mem_cons.mp hl with rfl | hl
          · exact List.mem_append_left _ (List.mem_append_left _ hc)
          · exact List.mem_append_right _ (ih hl)

theorem clean_split_of_not_mem {c : Char} {t : Str} (h : c ∉ t) : Clean c (split t) := by
  intro l hl hmem
  refine h ?_
  rw [← join_split t]
  exact mem_join_of_mem hl hmem

namespace Buffer

variable {b b' b₀ : Buffer} {p q : Pos}

/-- No tab is in the text or in an earlier one. -/
structure Spaced (b : Buffer) : Prop where
  lines : Clean '\t' b.lines
  undo : ∀ u ∈ b.undo, Clean '\t' u.lines

theorem Spaced.of_edited (hs : b.Spaced) (h : Edited b b') (hl : Clean '\t' b'.lines) : b'.Spaced := by
  refine ⟨hl, ?_⟩
  rw [h.frame]
  exact hs.undo

theorem Spaced.of_moved (hs : b.Spaced) (hb : b.Ok) (h : Moved b b') : b'.Spaced :=
  hs.of_edited (h.edited hb) (h.lines ▸ hs.lines)

theorem Spaced.of_cut (hs : b.Spaced) (h : Cut b b' p q) : b'.Spaced := by
  refine hs.of_edited h.toEdited ?_
  rw [h.lines]
  exact Lines.clean_glue (Lines.clean_upTo hs.lines) (Lines.clean_after hs.lines)

theorem Spaced.of_pasted {t : Str} (hs : b.Spaced) (h : Pasted b b' t) : b'.Spaced := by
  refine hs.of_edited h.toEdited ?_
  rw [h.lines]
  exact Lines.clean_glue (Lines.clean_glue (Lines.clean_upTo hs.lines)
    (clean_split_of_not_mem (tab_not_mem_expandTabs t))) (Lines.clean_after hs.lines)

theorem spaced_newBuffer (nm text : Str) (file : Option Str) : (newBuffer nm text file).Spaced := by
  refine ⟨fun l hl => ?_, fun u hu => absurd hu List.not_mem_nil⟩
  obtain ⟨l', -, rfl⟩ := List.mem_map.mp hl
  exact tab_not_mem_expandTabs l'

theorem Op.keeps_spaced (hb : b.Ok) (hs : b.Spaced) (o : Op) (ha : o.Allowed b) (ho : o.apply b = .ok b') :
    b'.Spaced := by
  have moved {x : Except Error Buffer} (hx : ∃ b₁, x = .ok b₁ ∧ Moved b b₁) (h : x = .ok b') : b'.Spaced := by
    obtain ⟨b₁, h₁, hm⟩ := hx
    rw [h] at h₁
    cases h₁
    exact hs.of_moved hb hm
  cases o with
  | goto r c => exact moved (goto_moved hb.point r c) ho
  | snapshot =>
      cases ho
      refine ⟨hs.lines, fun u hu => ?_⟩
      rcases List.mem_cons.mp (List.mem_of_mem_take hu) with rfl | hu
      · exact hs.lines
      · exact hs.undo u hu
  | undo =>
      cases ho
      unfold undoOnce
      split
      · rename_i u rest hu
        exact ⟨hs.undo u (by rw [hu]; exact List.mem_cons_self), fun u' hu' =>
          hs.undo u' (by rw [hu]; exact List.mem_cons_of_mem _ hu')⟩
      · exact hs
  | deleteBetween p q =>
      obtain ⟨b₁, h₁, hcut⟩ := deleteBetween_cut hb ha.1 ha.2
      cases h₁.symm.trans ho
      exact hs.of_cut hcut
  | insert t =>
      obtain ⟨b₁, h₁, hp⟩ := insert_pasted hb t
      cases h₁.symm.trans ho
      exact hs.of_pasted hp
  | forwardChar =>
      obtain ⟨b₁, h₁, hm, -⟩ := forwardChar_ok hb.point
      exact moved ⟨b₁, h₁, hm⟩ ho
  | backwardChar =>
      obtain ⟨b₁, h₁, hm, -⟩ := backwardChar_ok hb.point
      exact moved ⟨b₁, h₁, hm⟩ ho
  | vertical dr => exact moved (vertical_ok hb.point dr) ho
  | beginningOfLine => exact moved (beginningOfLine_ok hb.point) ho
  | endOfLine => exact moved (endOfLine_ok hb.point) ho
  | beginningOfBuffer => exact moved (goto_moved hb.point 0 0) ho
  | endOfBuffer => exact moved (endOfBuffer_ok hb.point) ho
  | forwardWord =>
      obtain ⟨b₁, h₁, hm, -⟩ := forwardWord_ok hb.point
      exact moved ⟨b₁, h₁, hm⟩ ho
  | backwardWord =>
      obtain ⟨b₁, h₁, hm, -⟩ := backwardWord_ok hb.point
      exact moved ⟨b₁, h₁, hm⟩ ho
  | deleteChar =>
      obtain ⟨_, b₁, -, h₁, hcut⟩ := deleteChar_cut hb
      cases h₁.symm.trans ho
      exact hs.of_cut hcut
  | deleteBackwardChar =>
      obtain ⟨_, b₁, -, h₁, hcut⟩ := deleteBackwardChar_cut hb
      cases h₁.symm.trans ho
      exact hs.of_cut hcut
  | newlineAndIndent =>
      obtain ⟨b₁, h₁, hp⟩ := newlineAndIndent_pasted hb
      cases h₁.symm.trans ho
      exact hs.of_pasted hp
  | killLine =>
      obtain ⟨q, -, hv, -, hkill⟩ := killLineText_ok hb
      obtain ⟨⟨t, b₁⟩, h₁, h₂⟩ := bind_eq_ok.mp ho
      rw [hkill] at h₁
      cases h₁
      cases h₂
      refine hs.of_edited (edited_without hb hb.point) ?_
      exact Lines.clean_glue (Lines.clean_upTo hs.lines) (Lines.clean_after hs.lines)

/-- Made by `new-buffer` and operations, under any name and file, with any mark and view. -/
inductive Made : Buffer → Prop
  | new (nm text : Str) (file : Option Str) : Made (newBuffer nm text file)
  | op {b b' : Buffer} (o : Op) (h : Made b) (ha : o.Allowed b) (ho : o.apply b = .ok b') : Made b'
  | named {b b' : Buffer} (h : Made b) (hf : b' = { b with
      name := b'.name, file := b'.file, mark := b'.mark, top := b'.top, left := b'.left, modified := b'.modified,
      helpMode := b'.helpMode, prev := b'.prev }) : Made b'

theorem Made.ok (h : b.Made) : b.Ok ∧ b.Spaced := by
  induction h with
  | new nm text file => exact ⟨ok_newBuffer nm text file, spaced_newBuffer nm text file⟩
  | op o h ha ho ih =>
      obtain ⟨b₁, h₁, hok⟩ := Op.apply_ok ih.1 o ha
      rw [ho] at h₁
      cases h₁
      exact ⟨hok, Op.keeps_spaced ih.1 ih.2 o ha ho⟩
  | named h hf ih =>
      rw [hf]
      exact ⟨⟨ih.1.clean, ih.1.point, ih.1.undo⟩, ih.2.lines, ih.2.undo⟩

theorem Spaced.text (h : b.Spaced) : '\t' ∉ b.text := by
  intro hmem
  rcases mem_join hmem with heq | ⟨l, hl, hmem⟩
  · exact absurd heq (by decide)
  · exact h.lines l hl hmem

/-! ### Kills in a row -/

/-- The pieces that so many kills of `kill-line` cut out one after the other, and what is left. -/
def killPieces : Nat → Buffer → Except Error (List Str × Buffer)
  | 0, b => pure ([], b)
  | n + 1, b => do
      let (t, b) ← b.snapshot.killLineText
      let (ts, b) ← killPieces n b
      pure (t :: ts, b)

/-- The text `t` was cut out at point. -/
structure Lost (b₀ : Buffer) (t : Str) (b : Buffer) : Prop where
  ok : b.Ok
  off : b.off = b₀.off
  text : b₀.text = b.text.take b.off ++ t ++ b.text.drop b.off

theorem lost_killLine (hb : b.Ok) : ∃ t b', b.snapshot.killLineText = .ok (t, b') ∧ Lost b t b' := by
  have hs := ok_snapshot hb
  obtain ⟨q, -, hv, hle, hkill⟩ := killLineText_ok hs
  exact ⟨_, _, hkill, (edited_without hs hs.point).ok hs, off_without hs.point, text_eq_without hs.point hv hle⟩

/-- What is cut out next comes behind what was cut out before. -/
theorem Lost.append {t t' : Str} (h : Lost b₀ t b) (h' : Lost b t' b') : Lost b₀ (t ++ t') b' := by
  refine ⟨h'.ok, h'.off.trans h.off, ?_⟩
  have hlen : (b'.text.take b'.off).length = b.off := by
    rw [List.length_take, h'.off]
    exact Nat.min_eq_left (h'.off ▸ off_le h'.ok.point)
  have htake : b.text.take b.off = b'.text.take b'.off := by
    rw [h'.text, List.append_assoc, List.take_left' hlen]
  have hdrop : b.text.drop b.off = t' ++ b'.text.drop b'.off := by
    conv_lhs => rw [h'.text, List.append_assoc, List.drop_left' hlen]
  rw [h.text, htake, hdrop]
  simp only [List.append_assoc]

/-- Putting back at point what was cut out there gives the text again. -/
theorem Lost.insert {t : Str} (h : Lost b₀ t b) (hs : b₀.Spaced) (b₁ : Buffer) (hl : b₁.lines = b.lines)
    (hp : b₁.point = b.point) : ∃ b₂, b₁.insert t = .ok b₂ ∧ b₂.text = b₀.text := by
  have htab : '\t' ∉ t := fun hmem =>
    hs.text (h.text ▸ List.mem_append_left _ (List.mem_append_right _ hmem))
  have hv : Valid b₁.lines b₁.point := by
    rw [hl, hp]
    exact h.ok.point
  have htext : b₁.text = b.text := congrArg join hl
  have hoff : b₁.off = b.off := by
    unfold Buffer.off offsetOf
    rw [hl, hp]
  refine ⟨_, insert_ok hv t, ?_⟩
  rw [text_spliced hv (split_ne_nil _), expandTabs_of_not_mem htab, join_split, htext, hoff, h.text]

end Buffer

namespace Editor

variable {ed : Editor} {b : Buffer}

/-- The commands, one after the other in the command loop. -/
def performAll (env : Env) : List Command → Editor → M Editor
  | [], ed => pure ed
  | c :: cs, ed => do performAll env cs (← ed.perform env [] (some (.command c)))

theorem perform_killLine (env : Env) (s : Tty) (hb : ed.buf = some b) {t : Str} {b' : Buffer}
    (hkill : b.snapshot.killLineText = .ok (t, b')) :
    ∃ e, ed.perform env [] (some (.command .killLine)) s = .ok e s ∧ e.buf = some b' ∧ e.last = some .kill ∧
      e.kill = if ed.last = some .kill then ed.kill ++ t else t := by
  have hb₀ : ed.cleared.buf = some b := hb
  have hbang : ed.cleared.buf! = .ok b := by
    unfold buf!
    rw [hb₀]
  have hrun : ∃ e, ed.cleared.killLine = .ok e ∧ e.buf = some b' ∧ e.this = some .kill ∧
      e.kill = if ed.last = some .kill then ed.kill ++ t else t := by
    unfold killLine
    rw [hbang, ok_bind, hkill, ok_bind]
    dsimp only
    rw [updateBuf_of_buf hb₀ (f := fun _ => pure b') rfl, ok_bind]
    exact ⟨_, rfl, buf_setBuf ed.cleared b', rfl, rfl⟩
  obtain ⟨e, he, hbuf, hthis, hk⟩ := hrun
  have hact : ed.cleared.act env [] (some (.command .killLine)) = lift (.ok e) := congrArg lift he
  refine ⟨_, perform_of_ok hact s, (settle_buf e).trans hbuf, (settle_last e).trans hthis, ?_⟩
  rw [← hk]
  unfold settle
  simp only
  split_ifs <;> rfl

/-- After a kill, more of them add to what was killed. -/
theorem performAll_kills (env : Env) (s : Tty) (n : Nat) (hb : ed.buf = some b) (hok : b.Ok)
    (hlast : ed.last = some .kill) : ∃ ts b' e, b.killPieces n = .ok (ts, b') ∧ ts.length = n ∧
      ed.performAll env (List.replicate n .killLine) s = .ok e s ∧ e.buf = some b' ∧ e.kill = ed.kill ++ ts.flatten ∧
      b.Lost ts.flatten b' := by
  induction n generalizing ed b with
  | zero =>
      refine ⟨[], b, ed, rfl, rfl, rfl, hb, (List.append_nil _).symm, hok, rfl, ?_⟩
      rw [List.flatten_nil, List.append_nil, List.take_append_drop]
  | succ n ih =>
      obtain ⟨t, b₁, hkill, hlost⟩ := Buffer.lost_killLine hok
      obtain ⟨e₁, he₁, hb₁, hlast₁, hk₁⟩ := perform_killLine env s hb hkill
      obtain ⟨ts, b', e, hpieces, hlen, hrun, hbuf, hk, hlost'⟩ := ih hb₁ hlost.ok hlast₁
      refine ⟨t :: ts, b', e, ?_, congrArg (· + 1) hlen, ?_, hbuf, ?_, hlost.append hlost'⟩
      · rw [Buffer.killPieces, hkill, ok_bind]
        dsimp only
        rw [hpieces, ok_bind]
        rfl
      · rw [List.replicate_succ, performAll]
        exact (Exec.bind_apply he₁).trans hrun
      · rw [hk, hk₁, if_pos hlast, List.append_assoc]
        rfl

theorem perform_yank (env : Env) (s : Tty) {b₀ b₁ : Buffer} (hb : ed.buf = some b₁) (hs : b₀.Spaced)
    (h : b₀.Lost ed.kill b₁) : ∃ e b₂, ed.perform env [] (some (.command .yank)) s = .ok e s ∧ e.buf = some b₂ ∧
      b₂.text = b₀.text := by
  have hb₀ : ed.cleared.buf = some b₁ := hb
  obtain ⟨b₂, hb₂, htext⟩ := h.insert hs { b₁.snapshot with mark := some b₁.point } rfl rfl
  have hrun : ed.cleared.yank = .ok (ed.cleared.setBuf b₂) := updateBuf_of_buf hb₀ hb₂
  have hact : ed.cleared.act env [] (some (.command .yank)) = lift (.ok (ed.cleared.setBuf b₂)) := congrArg lift hrun
  exact ⟨_, b₂, perform_of_ok hact s, (settle_buf _).trans (buf_setBuf ed.cleared b₂), htext⟩

end Editor

/-- In the command loop, `n` kills in a row cut out `n` pieces at point; they make up `:kill`, and a yank gives the
text back. -/
theorem yank_killLines (env : Env) (s : Tty) (ed : Editor) (b : Buffer) (hb : ed.buf = some b) (hm : b.Made)
    (hlast : ed.last ≠ some .kill) (n : Nat) (hn : 0 < n) :
    ∃ ts b₁ ed₁ b₂ ed₂, b.killPieces n = .ok (ts, b₁) ∧ ts.length = n ∧
      ed.performAll env (List.replicate n .killLine) s = .ok ed₁ s ∧ ed₁.buf = some b₁ ∧ ed₁.kill = ts.flatten ∧
      b.text = b₁.text.take b₁.off ++ ts.flatten ++ b₁.text.drop b₁.off ∧
      ed₁.performAll env [.yank] s = .ok ed₂ s ∧ ed₂.buf = some b₂ ∧ b₂.text = b.text := by
  obtain ⟨hok, hs⟩ := hm.ok
  obtain ⟨n, rfl⟩ := Nat.exists_eq_succ_of_ne_zero (Nat.ne_of_gt hn)
  obtain ⟨t, b', hkill, hlost⟩ := Buffer.lost_killLine hok
  obtain ⟨e, he, hbuf, hlast', hk⟩ := Editor.perform_killLine env s hb hkill
  rw [if_neg hlast] at hk
  obtain ⟨ts, b₁, ed₁, hpieces, hlen, hrun, hb₁, hk₁, hlost₁⟩ :=
    Editor.performAll_kills env s n hbuf hlost.ok hlast'
  have hall := hlost.append hlost₁
  rw [hk] at hk₁
  obtain ⟨ed₂, b₂, hyank, hb₂, htext⟩ := Editor.perform_yank env s hb₁ hs (hk₁ ▸ hall)
  refine ⟨t :: ts, b₁, ed₁, b₂, ed₂, ?_, congrArg (· + 1) hlen, ?_, hb₁, hk₁, hall.text, ?_, hb₂, htext⟩
  · rw [Buffer.killPieces, hkill, ok_bind]
    dsimp only
    rw [hpieces, ok_bind]
    rfl
  · rw [List.replicate_succ, Editor.performAll]
    exact (Exec.bind_apply he).trans hrun
  · exact Exec.bind_apply hyank

/-- An editor with one buffer of the text. -/
def editing (text : Str) : Editor :=
  Editor.setBuf { buffers := ∅, current := ['x'], size := (80, 24) } (newBuffer ['x'] text none)

theorem yank_killLines_two :
    ∃ ts b₁ ed₁ b₂ ed₂, (newBuffer ['x'] ['a', '\n', 'b'] none).killPieces 2 = .ok (ts, b₁) ∧ ts.length = 2 ∧
      (editing ['a', '\n', 'b']).performAll bareEnv (List.replicate 2 .killLine) ⟨[], []⟩ = .ok ed₁ ⟨[], []⟩ ∧
      ed₁.buf = some b₁ ∧ ed₁.kill = ts.flatten ∧
      (newBuffer ['x'] ['a', '\n', 'b'] none).text =
        b₁.text.take b₁.off ++ ts.flatten ++ b₁.text.drop b₁.off ∧
      ed₁.performAll bareEnv [.yank] ⟨[], []⟩ = .ok ed₂ ⟨[], []⟩ ∧ ed₂.buf = some b₂ ∧
      b₂.text = (newBuffer ['x'] ['a', '\n', 'b'] none).text :=
  yank_killLines bareEnv ⟨[], []⟩ (editing ['a', '\n', 'b']) _ (Editor.buf_setBuf _ _) (.new _ _ _) nofun 2 (by decide)

end Beeros.Beermacs
