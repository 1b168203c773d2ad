import Beeros.BeermacsNames

/-! The mark is a row and a column that no change of the text adjusts: which changes leave it a
position of the text, and what `kill-region` and `copy-region` do when it is one. -/

namespace Beeros.Beermacs

open Beerlang
open Exec
open Lines (Pos Valid Le CutKeeps PasteKeeps)

namespace Buffer

variable {b b' : Buffer} {p q m : Pos} {t : Str}

/-- The mark, when set, is a position of the text. -/
structure MarkOk (b : Buffer) : Prop extends Buffer.Ok b where
  mark : ∀ m, b.mark = some m → Valid b.lines m

/-- The position after point, and the one before it. -/
def nextOf (b : Buffer) : Pos :=
  if b.col < (b.lines.getD b.row []).length then (b.row, b.col + 1)
  else if b.row < b.lastRow then (b.row + 1, 0)
  else b.point

def prevOf (b : Buffer) : Pos :=
  if 0 < b.col then (b.row, b.col - 1)
  else if 0 < b.row then (b.row - 1, (b.lines.getD (b.row - 1) []).length)
  else b.point

/-- Where `kill-line` kills to. -/
def lineEndOf (b : Buffer) : Pos :=
  if b.col = (b.lines.getD b.row []).length then b.nextOf else (b.row, (b.lines.getD b.row []).length)

theorem forwardChar_point {x : Buffer} (h : Valid b.lines b.point) (hx : b.forwardChar = .ok x) :
    x.point = b.nextOf := by
  unfold forwardChar at hx
  rw [curLine_ok h, ok_bind] at hx
  unfold nextOf
  split_ifs at hx ⊢ <;> cases hx <;> rfl

theorem backwardChar_point {x : Buffer} (h : Valid b.lines b.point) (hx : b.backwardChar = .ok x) :
    x.point = b.prevOf := by
  have hrow : b.row < b.lines.length := h.row
  unfold backwardChar at hx
  simp only [line_ok (show b.row - 1 < b.lines.length by omega), ok_bind] at hx
  unfold prevOf
  split_ifs at hx ⊢ <;> cases hx <;> rfl

theorem killTo_eq (h : Valid b.lines b.point) (hq : b.killTo = .ok q) : q = b.lineEndOf := by
  obtain ⟨x, hx, -⟩ := forwardChar_ok h
  unfold killTo at hq
  rw [curLine_ok h, ok_bind, hx] at hq
  unfold lineEndOf
  split_ifs at hq ⊢
  · cases hq
    exact forwardChar_point h hx
  · cases hq
    rfl

/-- Without the text between two positions, in either order, the mark is still a position. -/
def CutKeepsMark (b : Buffer) (p q m : Pos) : Prop := CutKeeps b.lines (ordered p q).1 (ordered p q).2 m

/-- With a text put in at point, the mark is still a position. -/
def PasteKeepsMark (b : Buffer) (t : Str) (m : Pos) : Prop :=
  PasteKeeps b.lines b.point (split (expandTabs t)) m

theorem MarkOk.moved (h : MarkOk b) (hm : Moved b b') : MarkOk b' := by
  refine ⟨(hm.edited h.toOk).ok h.toOk, fun m hmark => ?_⟩
  rw [hm.frame] at hmark
  rw [hm.lines]
  exact h.mark m hmark

theorem MarkOk.snapshot (h : MarkOk b) : MarkOk b.snapshot := ⟨ok_snapshot h.toOk, h.mark⟩

theorem MarkOk.unmarked (h : b.Ok) : MarkOk { b with mark := none } := ⟨⟨h.clean, h.point, h.undo⟩, nofun⟩

theorem MarkOk.marked (h : b.Ok) (hp : Valid b.lines p) : MarkOk { b with mark := some p } :=
  ⟨⟨h.clean, h.point, h.undo⟩, fun m hm => by cases hm; exact hp⟩

theorem MarkOk.cut (h : MarkOk b) (hcut : Cut b b' p q) (hkeep : ∀ m, b.mark = some m → b.CutKeepsMark p q m) :
    MarkOk b' := by
  refine ⟨hcut.ok h.toOk, fun m hm => ?_⟩
  rw [hcut.frame] at hm
  have hkm := hkeep m hm
  unfold CutKeepsMark at hkm
  rw [hcut.lines]
  rcases ordered_cases p q with ⟨hle, ho⟩ | ⟨hle, ho⟩
  · rw [ho] at hkm ⊢
    exact (Lines.valid_cut hcut.here hcut.there hle (h.mark m hm)).mpr hkm
  · rw [ho] at hkm ⊢
    exact (Lines.valid_cut hcut.there hcut.here hle (h.mark m hm)).mpr hkm

theorem MarkOk.pasted (h : MarkOk b) (hp : Pasted b b' t) (hkeep : ∀ m, b.mark = some m → b.PasteKeepsMark t m) :
    MarkOk b' := by
  refine ⟨hp.ok h.toOk, fun m hm => ?_⟩
  rw [hp.frame] at hm
  rw [hp.lines]
  exact (Lines.valid_paste h.point (split_ne_nil _) (h.mark m hm)).mpr (hkeep m hm)

theorem MarkOk.undoOnce (h : MarkOk b) (hkeep : ∀ m u, b.mark = some m → b.undo.head? = some u → Valid u.lines m) :
    MarkOk b.undoOnce := by
  refine ⟨ok_undoOnce h.toOk, fun m hm => ?_⟩
  unfold Buffer.undoOnce at hm ⊢
  cases hu : b.undo with
  | nil =>
      rw [hu] at hm
      exact h.mark m hm
  | cons u rest =>
      rw [hu] at hm
      exact hkeep m u hm (by rw [hu]; rfl)

/-- A position of the text is still one after text is put in there. -/
theorem pasteKeepsMark_point (h : Valid b.lines b.point) : b.PasteKeepsMark t b.point := by
  have hcol : b.point.2 ≤ (b.lines.getD b.point.1 []).length := h.col
  exact .inr (.inl ⟨rfl, by omega⟩)

end Buffer

open Buffer (MarkOk Moved)

theorem lasting_markOk : Editor.Lasting MarkOk where
  fresh nm text file := ⟨ok_newBuffer nm text file, nofun⟩
  alike hb hl hp hm hu := by
    refine ⟨Editor.lasting_ok.alike hb.toOk hl hp hm hu, fun m h => ?_⟩
    rw [hm] at h
    rw [hl]
    exact hb.mark m h

namespace Editor

variable {ed ed' : Editor}

/-- What a command does to the text of buffer `b` leaves the mark `m` a position. -/
def KeepsMark (env : Env) (ed : Editor) (b : Buffer) (m : Pos) : Action → Prop
  | .selfInsert k => b.PasteKeepsMark k m
  | .command .deleteChar => b.CutKeepsMark b.point b.nextOf m
  | .command .deleteBackwardChar => b.CutKeepsMark b.prevOf b.point m
  | .command .newline => b.PasteKeepsMark b.newlineText m
  | .command .openLine => b.PasteKeepsMark ['\n'] m
  | .command .indent => b.PasteKeepsMark [' ', ' '] m
  | .command .killLine => b.CutKeepsMark b.point b.lineEndOf m
  | .command .killWord => ∀ x, b.forwardWord = .ok x → b.CutKeepsMark b.point x.point m
  | .command .backwardKillWord => ∀ x, b.backwardWord = .ok x → b.CutKeepsMark x.point b.point m
  | .command .undo => ∀ u, b.undo.head? = some u → Valid u.lines m
  | .command .evalLastSexp => ed.arg = true → ∀ form, ed.lastSexp = .ok (some form) →
      b.PasteKeepsMark (' ' :: (env.evalString form).1) m
  | .command .evalPrintLastSexp => ∀ form, ed.lastSexp = .ok (some form) →
      b.PasteKeepsMark ('\n' :: (env.evalString form).2.filter (· ≠ '\r') ++ (env.evalString form).1 ++ ['\n']) m
  | _ => True

theorem markOk_motion {f : Buffer → Except Error Buffer} (hall : All MarkOk ed)
    (hf : ∀ b : Buffer, Valid b.lines b.point → ∃ b', f b = .ok b' ∧ Moved b b') (h : motion f ed = .ok ed') :
    All MarkOk ed' := by
  refine all_updateBuf hall h fun b b' _ hb hb' => ?_
  obtain ⟨b₁, h₁, hm⟩ := hf b hb.point
  rw [hb'] at h₁
  cases h₁
  exact hb.moved hm

theorem markOk_marking {f : Buffer → Except Error Buffer} (hall : All MarkOk ed)
    (hf : ∀ b : Buffer, Valid b.lines b.point → ∃ b', f b = .ok b' ∧ Moved b b')
    (h : motion (marking f) ed = .ok ed') : All MarkOk ed' := by
  refine all_updateBuf hall h fun b b' _ hb hb' => ?_
  have hmark := MarkOk.marked hb.toOk hb.point
  obtain ⟨b₁, h₁, hm⟩ := hf _ hmark.point
  unfold marking at hb'
  rw [hb'] at h₁
  cases h₁
  exact hmark.moved hm

/-- `edit` with a function that does to a buffer and to its snapshot the same. -/
theorem markOk_edit {f : Buffer → Except Error Buffer} (hall : All MarkOk ed)
    (hf : ∀ b x b', ed.buf = some b → (x = b ∨ x = b.snapshot) → MarkOk x → f x = .ok b' → MarkOk b')
    (h : edit f ed = .ok ed') : All MarkOk ed' := by
  refine all_updateBuf hall h fun b b' hbuf hb hb' => ?_
  split_ifs at hb'
  · exact hf b b b' hbuf (.inl rfl) hb hb'
  · exact hf b b.snapshot b' hbuf (.inr rfl) hb.snapshot hb'

theorem deleteChar_markOk {b b' : Buffer} (h : MarkOk b) (hb' : b.deleteChar = .ok b')
    (hkeep : ∀ m, b.mark = some m → b.CutKeepsMark b.point b.nextOf m) : MarkOk b' := by
  obtain ⟨x, b₁, hx, h₁, hcut⟩ := Buffer.deleteChar_cut h.toOk
  rw [hb'] at h₁
  cases h₁
  rw [Buffer.forwardChar_point h.point hx] at hcut
  exact h.cut hcut hkeep

theorem deleteBackwardChar_markOk {b b' : Buffer} (h : MarkOk b) (hb' : b.deleteBackwardChar = .ok b')
    (hkeep : ∀ m, b.mark = some m → b.CutKeepsMark b.prevOf b.point m) : MarkOk b' := by
  obtain ⟨x, b₁, hx, h₁, hcut⟩ := Buffer.deleteBackwardChar_cut h.toOk
  rw [hb'] at h₁
  cases h₁
  rw [Buffer.backwardChar_point h.point hx] at hcut
  exact h.cut hcut hkeep

theorem insert_markOk {b b' : Buffer} {t : Str} (h : MarkOk b) (hb' : b.insert t = .ok b')
    (hkeep : ∀ m, b.mark = some m → b.PasteKeepsMark t m) : MarkOk b' := by
  obtain ⟨b₁, h₁, hp⟩ := Buffer.insert_pasted h.toOk t
  rw [hb'] at h₁
  cases h₁
  exact h.pasted hp hkeep

theorem deleteBetween_markOk {b b' : Buffer} {p q : Pos} (h : MarkOk b) (hb' : b.deleteBetween p q = .ok b')
    (hkeep : ∀ m, b.mark = some m → b.CutKeepsMark p q m) : MarkOk b' := by
  obtain ⟨hp, hq⟩ := Buffer.valid_of_deleteBetween hb'
  obtain ⟨b₁, h₁, hcut⟩ := Buffer.deleteBetween_cut h.toOk hp hq
  rw [hb'] at h₁
  cases h₁
  exact h.cut hcut hkeep

theorem openLine_markOk {b b' : Buffer} (h : MarkOk b) (hb' : openLine b = .ok b')
    (hkeep : ∀ m, b.mark = some m → b.PasteKeepsMark ['\n'] m) : MarkOk b' := by
  unfold openLine at hb'
  obtain ⟨b₁, h₁, hb'⟩ := bind_eq_ok.mp hb'
  have hm₁ := insert_markOk h h₁ hkeep
  obtain ⟨b₂, h₂, hm⟩ := Buffer.goto_moved hm₁.point b.row b.col
  rw [hb'] at h₂
  cases h₂
  exact hm₁.moved hm

/-- The current buffer becomes one made of it. -/
theorem all_updateBuf_const {Q : Buffer → Prop} {x : Except Error Buffer} {b : Buffer} (hall : All Q ed)
    (hb : ed.buf = some b) (h : ed.updateBuf (fun _ => x) = .ok ed') (hx : ∀ b', Q b → x = .ok b' → Q b') :
    All Q ed' := by
  refine all_updateBuf hall h fun b₁ b' hb₁ hq hb' => ?_
  rw [hb] at hb₁
  cases hb₁
  exact hx b' hq hb'

theorem markOk_killLine (hall : All MarkOk ed)
    (hkeep : ∀ b m, ed.buf = some b → b.mark = some m → b.CutKeepsMark b.point b.lineEndOf m)
    (h : ed.killLine = .ok ed') : All MarkOk ed' := by
  unfold killLine at h
  obtain ⟨b, hb, h⟩ := bind_eq_ok.mp h
  rw [buf!_ok] at hb
  obtain ⟨⟨killed, nb⟩, hk, h⟩ := bind_eq_ok.mp h
  obtain ⟨ed₁, h₁, h⟩ := bind_eq_ok.mp h
  cases h
  unfold Buffer.killLineText at hk
  obtain ⟨dest, hdest, hk⟩ := bind_eq_ok.mp hk
  obtain ⟨t, -, hk⟩ := bind_eq_ok.mp hk
  obtain ⟨b₂, hb₂, hk⟩ := bind_eq_ok.mp hk
  cases hk
  have hall₁ : All MarkOk ed₁ := by
    refine all_updateBuf_const hall hb h₁ fun b' hq hb' => ?_
    cases hb'
    rw [Buffer.killTo_eq hq.snapshot.point hdest] at hb₂
    exact deleteBetween_markOk hq.snapshot hb₂ fun m hm => hkeep b m hb hm
  exact hall₁

/-- The words that `kill-word` and `backward-kill-word` go over. -/
theorem markOk_deleteTo {b : Buffer} {p q : Pos} (hall : All MarkOk ed) (hb : ed.buf = some b)
    (h : ed.updateBuf (fun _ => b.snapshot.deleteBetween p q) = .ok ed')
    (hkeep : ∀ m, b.mark = some m → b.CutKeepsMark p q m) : All MarkOk ed' :=
  all_updateBuf_const hall hb h fun _ hq hb' => deleteBetween_markOk hq.snapshot hb' hkeep

theorem markOk_killWord (hall : All MarkOk ed)
    (hkeep : ∀ b m, ed.buf = some b → b.mark = some m → ∀ x, b.forwardWord = .ok x → b.CutKeepsMark b.point x.point m)
    (h : ed.killWord = .ok ed') : All MarkOk ed' := by
  unfold killWord at h
  obtain ⟨b, hb, h⟩ := bind_eq_ok.mp h
  rw [buf!_ok] at hb
  obtain ⟨x, hx, h⟩ := bind_eq_ok.mp h
  obtain ⟨ed₁, h₁, h⟩ := bind_eq_ok.mp h
  obtain ⟨t, -, h⟩ := bind_eq_ok.mp h
  cases h
  have hall₁ : All MarkOk ed₁ := markOk_deleteTo hall hb h₁ fun m hm => hkeep b m hb hm x hx
  exact hall₁

theorem markOk_backwardKillWord (hall : All MarkOk ed)
    (hkeep : ∀ b m, ed.buf = some b → b.mark = some m → ∀ x, b.backwardWord = .ok x → b.CutKeepsMark x.point b.point m)
    (h : ed.backwardKillWord = .ok ed') : All MarkOk ed' := by
  unfold backwardKillWord at h
  obtain ⟨b, hb, h⟩ := bind_eq_ok.mp h
  rw [buf!_ok] at hb
  obtain ⟨x, hx, h⟩ := bind_eq_ok.mp h
  obtain ⟨ed₁, h₁, h⟩ := bind_eq_ok.mp h
  obtain ⟨t, -, h⟩ := bind_eq_ok.mp h
  cases h
  have hall₁ : All MarkOk ed₁ := markOk_deleteTo hall hb h₁ fun m hm => hkeep b m hb hm x hx
  exact hall₁

/-- The mark is unset where the region was. -/
theorem markOk_killRegion (hall : All MarkOk ed) (h : ed.killRegion = .ok ed') : All MarkOk ed' := by
  unfold killRegion withRegion at h
  obtain ⟨b, hb, h⟩ := bind_eq_ok.mp h
  rw [buf!_ok] at hb
  cases hm : b.mark with
  | none =>
      rw [hm] at h
      cases h
      exact hall
  | some m =>
      rw [hm] at h
      obtain ⟨ed₁, h₁, h⟩ := bind_eq_ok.mp h
      obtain ⟨t, -, h⟩ := bind_eq_ok.mp h
      cases h
      have hall₁ : All MarkOk ed₁ := by
        refine all_updateBuf_const hall hb h₁ fun b' hq hb' => ?_
        obtain ⟨b₁, hb₁, hb'⟩ := bind_eq_ok.mp hb'
        cases hb'
        obtain ⟨hp, hv⟩ := Buffer.valid_of_deleteBetween hb₁
        obtain ⟨b₂, h₂, hed⟩ := Buffer.deleteBetween_edited hq.snapshot.toOk hp hv
        rw [hb₁] at h₂
        cases h₂
        exact .unmarked (hed.ok hq.snapshot.toOk)
      exact hall₁

theorem markOk_copyRegion (hall : All MarkOk ed) (h : ed.copyRegion = .ok ed') : All MarkOk ed' := by
  unfold copyRegion withRegion at h
  obtain ⟨b, -, h⟩ := bind_eq_ok.mp h
  cases hm : b.mark with
  | none =>
      rw [hm] at h
      cases h
      exact hall
  | some m =>
      rw [hm] at h
      obtain ⟨t, -, h⟩ := bind_eq_ok.mp h
      cases h
      exact hall

/-- `yank` marks where it inserts. -/
theorem markOk_yank (hall : All MarkOk ed) (h : ed.yank = .ok ed') : All MarkOk ed' := by
  refine all_updateBuf hall h fun b b' _ hb hb' => ?_
  refine insert_markOk (MarkOk.marked hb.snapshot.toOk hb.point) hb' fun m hm => ?_
  cases hm
  exact Buffer.pasteKeepsMark_point hb.point

theorem markOk_goto {p : Pos} (hall : All MarkOk ed) (h : ed.updateBuf (fun x => x.goto p.1 p.2) = .ok ed') :
    All MarkOk ed' :=
  markOk_motion hall (fun _ hb => Buffer.goto_moved hb _ _) h

theorem markOk_insert {t : Str} (hall : All MarkOk ed)
    (hkeep : ∀ b m, ed.buf = some b → b.mark = some m → b.PasteKeepsMark t m)
    (h : ed.updateBuf (fun x => x.snapshot.insert t) = .ok ed') : All MarkOk ed' :=
  all_updateBuf hall h fun b _ hbuf hb hb' => insert_markOk hb.snapshot hb' fun m hm => hkeep b m hbuf hm

/-- `isearch-forward` marks where it started, in the same text. -/
structure Searching (start : Pos) (ed : Editor) : Prop where
  all : All MarkOk ed
  start : ∀ b, ed.buf = some b → Valid b.lines start

theorem Searching.still {start : Pos} (h : Searching start ed) (hs : Still ed ed') : Searching start ed' := by
  refine ⟨hs.all lasting_markOk h.all, fun b' hb' => ?_⟩
  unfold buf at hb'
  rw [hs.current] at hb'
  obtain ⟨b, hb, hsc⟩ := hs.back hb'
  rw [hsc]
  exact h.start b hb

theorem Searching.goto {start p : Pos} (h : Searching start ed) (hg : ed.updateBuf (fun x => x.goto p.1 p.2) = .ok ed') :
    Searching start ed' := by
  refine ⟨markOk_goto h.all hg, fun b₁ hb₁ => ?_⟩
  obtain ⟨b, b', hb, hb', rfl⟩ := updateBuf_ok.mp hg
  obtain ⟨b₂, hb₂, hm⟩ := Buffer.goto_moved (h.all _ _ hb).point p.1 p.2
  rw [hb'] at hb₂
  cases hb₂
  unfold buf at hb₁
  rw [show (ed.setBuf b').current = ed.current from rfl, lookup_setBuf, if_pos rfl] at hb₁
  cases hb₁
  rw [hm.lines]
  exact h.start b hb

theorem markOk_isearchLoop (env : Env) (start : Pos) (n : Nat) (h : Searching start ed) (pat : Str) (origin : Pos)
    (stack : List (Str × Pos)) : Gives (All MarkOk) (isearchLoop env start n ed pat origin stack) := by
  induction n generalizing ed pat origin stack with
  | zero => exact gives_throw _
  | succ n ih =>
      unfold isearchLoop
      refine gives_bind fun found => ?_
      refine Gives.bind (P := Searching start) ?_ fun ed₁ h₁ => ?_
      · refine gives_lift fun ed₁ h₁ => ?_
        cases found with
        | none => cases h₁; exact h
        | some f => exact h.goto (p := (f.1, f.2 + pat.length)) h₁
      refine Gives.bind (gives_redisplay _) fun ed₂ h₂ => gives_bind fun k => ?_
      have hs₂ : Searching start ed₂ := h₁.still ((still_prompt ed₁ _).trans h₂)
      refine Gives.ite (fun _ => ?_) fun _ => Gives.ite (fun _ => ih hs₂ _ _ _) fun _ =>
        Gives.ite (fun _ => ?_) fun _ => Gives.ite (fun _ => ih hs₂ _ _ _) fun _ =>
        Gives.ite (fun _ => ih hs₂ _ _ _) fun _ => ?_
      · exact Gives.bind (P := All MarkOk) (gives_lift fun ed₃ h₃ => markOk_goto hs₂.all h₃) fun _ h₃ => gives_pure h₃
      · cases stack.getLast? with
        | none => exact ih hs₂ _ _ _
        | some pf => exact ih hs₂ _ _ _
      · refine Gives.bind (P := All MarkOk) (gives_lift fun ed₃ h₃ => ?_) fun _ h₃ => gives_pure h₃
        refine all_updateBuf hs₂.all h₃ fun b b' hbuf hb hb' => ?_
        cases hb'
        exact .marked hb.toOk (hs₂.start b hbuf)

theorem markOk_exec (env : Env) (hall : All MarkOk ed) (c : Command)
    (hkeep : ∀ b m, ed.buf = some b → b.mark = some m → KeepsMark env ed b m (.command c)) :
    Gives (All MarkOk) (ed.exec env c) := by
  by_cases ht : c.onText = true
  swap
  · exact lasting_markOk.exec env hall c ht
  by_cases hmv : c.moves = true
  · obtain ⟨f, hf, he⟩ := exec_moves env ed hmv
    rw [he]
    exact gives_lift fun _ => markOk_motion hall hf
  have edited {f : Buffer → Except Error Buffer}
      (hf : ∀ b x b', ed.buf = some b → (x = b ∨ x = b.snapshot) → MarkOk x → f x = .ok b' → MarkOk b') :
      Gives (All MarkOk) (lift (edit f ed)) := gives_lift fun _ => markOk_edit hall hf
  cases c with
  | beginningOfBuffer => exact gives_lift fun _ => markOk_marking hall fun b hb => Buffer.goto_moved hb 0 0
  | endOfBuffer => exact gives_lift fun _ => markOk_marking hall fun b hb => Buffer.endOfBuffer_ok hb
  | deleteChar =>
      refine edited fun b x b' hbuf hx hm hb' => deleteChar_markOk hm hb' ?_
      rcases hx with hx | hx <;> rw [hx] <;> exact fun m => hkeep b m hbuf
  | deleteBackwardChar =>
      refine edited fun b x b' hbuf hx hm hb' => deleteBackwardChar_markOk hm hb' ?_
      rcases hx with hx | hx <;> rw [hx] <;> exact fun m => hkeep b m hbuf
  | openLine =>
      refine edited fun b x b' hbuf hx hm hb' => openLine_markOk hm hb' ?_
      rcases hx with hx | hx <;> rw [hx] <;> exact fun m => hkeep b m hbuf
  | indent =>
      refine edited fun b x b' hbuf hx hm hb' => insert_markOk hm hb' ?_
      rcases hx with hx | hx <;> rw [hx] <;> exact fun m => hkeep b m hbuf
  | newline =>
      refine edited fun b x b' hbuf hx hm hb' => ?_
      obtain ⟨b₁, h₁, hp⟩ := Buffer.newlineAndIndent_pasted hm.toOk
      rw [hb'] at h₁
      cases h₁
      refine hm.pasted hp ?_
      rcases hx with hx | hx <;> rw [hx] <;> exact fun m => hkeep b m hbuf
  | killLine => exact gives_lift fun _ => markOk_killLine hall hkeep
  | killWord => exact gives_lift fun _ => markOk_killWord hall hkeep
  | backwardKillWord => exact gives_lift fun _ => markOk_backwardKillWord hall hkeep
  | killRegion => exact gives_lift fun _ => markOk_killRegion hall
  | copyRegion => exact gives_lift fun _ => markOk_copyRegion hall
  | yank => exact gives_lift fun _ => markOk_yank hall
  | undo =>
      refine gives_lift fun _ h => all_updateBuf hall h fun b b' hb hm hb' => ?_
      cases hb'
      exact hm.undoOnce fun m u hmark hu => hkeep b m hb hmark u hu
  | setMark =>
      refine gives_lift fun ed' h => ?_
      obtain ⟨ed₁, h₁, h⟩ := bind_eq_ok.mp h
      cases h
      have hall₁ : All MarkOk ed₁ := all_updateBuf hall h₁ fun b b' _ hm hb' => by
        cases hb'
        exact .marked hm.toOk hm.point
      exact hall₁
  | keyboardQuit =>
      refine gives_lift fun ed' h => ?_
      obtain ⟨ed₁, h₁, h⟩ := bind_eq_ok.mp h
      cases h
      have hall₁ : All MarkOk ed₁ := all_updateBuf hall h₁ fun b b' _ hm hb' => by
        cases hb'
        exact .unmarked hm.toOk
      exact hall₁
  | recenter =>
      refine gives_lift fun ed' h => ?_
      obtain ⟨ed₁, h₁, h⟩ := bind_eq_ok.mp h
      cases h
      have hall₁ : All MarkOk ed₁ := all_updateBuf hall h₁ fun b b' _ hm hb' => by
        cases hb'
        exact lasting_markOk.alike hm rfl rfl rfl rfl
      exact hall₁
  | isearchForward =>
      refine Gives.bind (P := fun b => ed.buf = some b) (gives_lift fun b hb => buf!_ok.mp hb) fun b hb => ?_
      refine gives_bind fun t => markOk_isearchLoop env b.point _ ⟨hall, fun b₁ hb₁ => ?_⟩ _ _ _
      rw [hb] at hb₁
      cases hb₁
      exact (hall _ _ hb).point
  | evalLastSexp =>
      refine gives_lift fun ed' h => ?_
      obtain ⟨form, hform, h⟩ := bind_eq_ok.mp h
      cases form with
      | none =>
          cases h
          exact hall
      | some form =>
          change (if ed.arg = true then _ else _) = _ at h
          split_ifs at h with harg
          · exact markOk_insert hall (fun b m hb hm => hkeep b m hb hm harg form hform) h
          · cases h
            exact hall
  | evalPrintLastSexp =>
      refine gives_lift fun ed' h => ?_
      obtain ⟨form, hform, h⟩ := bind_eq_ok.mp h
      cases form with
      | none =>
          cases h
          exact hall
      | some form => exact markOk_insert hall (fun b m hb hm => hkeep b m hb hm form hform) h
  | evalExpression =>
      refine Gives.bind (gives_readMinibuffer_then lasting_markOk.kept.still hall _ _) fun r hr => ?_
      obtain ⟨ed₁, text⟩ := r
      cases text with
      | none => exact gives_pure hr
      | some t => exact gives_pure (by split_ifs <;> exact hr)
  | universalArgument => exact gives_pure hall
  | listBuffers => exact gives_pure hall
  | quit =>
      refine Gives.ite (fun _ => gives_pure hall) fun _ => ?_
      refine Gives.bind (gives_bind fun t => gives_yOrNLoop _ _ ed) fun r hr => gives_pure ?_
      have hr' := hr.all lasting_markOk hall
      split_ifs <;> exact hr'
  | findFile | saveBuffer | writeFile | switchToBuffer | killBuffer | describeFunction | aproposCommand
  | describeKey | helpQuit | helpFollow => cases ht
  | _ => exact absurd rfl hmv

theorem markOk_selfInsert {k : Str} (hall : All MarkOk ed)
    (hkeep : ∀ b m, ed.buf = some b → b.mark = some m → b.PasteKeepsMark k m) (h : ed.selfInsert k = .ok ed') :
    All MarkOk ed' := by
  unfold selfInsert at h
  obtain ⟨ed₁, h₁, h⟩ := bind_eq_ok.mp h
  cases h
  have hall₁ : All MarkOk ed₁ := by
    refine markOk_edit hall (fun b x b' hbuf hx hm hb' => insert_markOk hm hb' ?_) h₁
    rcases hx with hx | hx <;> rw [hx] <;> exact fun m => hkeep b m hbuf
  exact hall₁

/-! ### The region -/

/-- The mark of every buffer is a position of its text when set, and the region commands do with the
text between mark and point what they say. -/
structure RegionOk (ed : Editor) : Prop where
  mark : ∀ k b m, ed.buffers.lookup k = some b → b.mark = some m → Valid b.lines m
  unset : ∀ b, ed.buf = some b → b.mark = none →
    ed.killRegion = .ok (ed.message (str "The mark is not set now")) ∧
    ed.copyRegion = .ok (ed.message (str "The mark is not set now"))
  copy : ∀ b m, ed.buf = some b → b.mark = some m → ∃ t, b.textBetween m b.point = .ok t ∧
    ed.copyRegion = .ok (message { ed with kill := t } (str "Copied"))
  kill : ∀ b m, ed.buf = some b → b.mark = some m → ∃ t b', b.textBetween m b.point = .ok t ∧
    ed.killRegion = .ok { ed.setBuf b' with kill := t } ∧ b'.mark = none ∧
    b.text = b'.text.take b'.off ++ t ++ b'.text.drop b'.off ∧ b'.off = min (b.offsetOf m) b.off

theorem regionOk_of_all (hall : All MarkOk ed) : RegionOk ed := by
  refine ⟨fun k b m hb hm => (hall k b hb).mark m hm, fun b hb hm => ?_, fun b m hb hm => ?_, fun b m hb hm => ?_⟩
  · unfold killRegion copyRegion withRegion
    rw [buf!_ok.mpr hb, ok_bind, ok_bind, hm]
    exact ⟨rfl, rfl⟩
  · have hok := hall _ _ hb
    obtain ⟨lo, hi, -, -, -, -, htext, -⟩ := Buffer.between_ok (hok.mark m hm) hok.point
    refine ⟨_, htext, ?_⟩
    unfold copyRegion withRegion
    rw [buf!_ok.mpr hb, ok_bind, hm]
    show (b.textBetween m b.point >>= _) = _
    rw [htext]
    rfl
  · have hok := hall _ _ hb
    obtain ⟨lo, hi, hord, hle, hlo, hhi, htext, -⟩ := Buffer.between_ok (hok.mark m hm) hok.point
    obtain ⟨lo', hi', hord', -, -, -, -, hdel⟩ :=
      Buffer.between_ok (b := b.snapshot) (hok.mark m hm) hok.point
    rw [hord] at hord'
    cases hord'
    refine ⟨_, { b.snapshot.without lo hi with mark := none }, htext, ?_, rfl, ?_, ?_⟩
    · unfold killRegion withRegion updateBuf
      rw [buf!_ok.mpr hb, ok_bind, hm]
      simp only [ok_bind, hdel, htext]
      rfl
    · exact Buffer.text_eq_without hlo hhi hle
    · exact (Buffer.off_without hlo).trans (Buffer.offsetOf_ordered (hok.mark m hm) hok.point hord)

end Editor

/-- What the command of a round does to the text leaves the mark a position. -/
def MarkKept (env : Env) (ed : Editor) (s : Tty) : Prop :=
  ∀ ed₁ k a s₁, ed.nextCommand env s = .ok (ed₁, k, some a) s₁ →
    ∀ b m, ed₁.buf = some b → b.mark = some m → Editor.KeepsMark env ed₁.cleared b m a

theorem markOk_start {env : Env} {files : List Str} {ed : Editor} (h : start env files = .ok ed) :
    Editor.All MarkOk ed := by
  unfold start at h
  obtain ⟨b, hb, h⟩ := bind_eq_ok.mp h
  obtain ⟨ed₁, h₁, h⟩ := bind_eq_ok.mp h
  have hnew := lasting_markOk.fresh (str "*scratch*") scratchText none
  obtain ⟨b', hb', hm⟩ := Buffer.endOfBuffer_ok hnew.point
  rw [hb] at hb'
  cases hb'
  have hall : Editor.All MarkOk ed₁ := lasting_markOk.addBuffer h₁ nofun (hnew.moved hm)
  exact lasting_markOk.findFiles hall h

/-- In a run whose edits keep the mark the region is usable in every state. -/
theorem regionOk_of_reached (ed : Editor) (h : Reached MarkKept ed) : ed.RegionOk := by
  have hall : Editor.All MarkOk ed := by
    induction h with
    | start h => exact markOk_start h
    | round h hq hP hr ih =>
        obtain ⟨⟨ed₁, k, cmd⟩, s₁, hnext, hr⟩ := bind_ok.mp hr
        have hall₁ : Editor.All MarkOk ed₁ := (Editor.gives_nextCommand _ _ _ _ _ hnext).all lasting_markOk ih
        refine Editor.all_perform hall₁ (fun a ed₂ s₂ ha hact => ?_) hr
        subst ha
        have hkeep := hP ed₁ k a s₁ hnext
        have hall₂ : Editor.All MarkOk ed₁.cleared := hall₁
        cases a with
        | selfInsert t => exact Editor.markOk_selfInsert hall₂ hkeep (Editor.lift_ok hact).1
        | command c => exact Editor.markOk_exec _ hall₂ c hkeep _ _ _ hact
  exact Editor.regionOk_of_all hall

/-- The mark set in `*scratch*`. -/
theorem regionOk_marked : ∃ ed : Editor, afterRounds bareEnv [] [⟨[str "C-@"], []⟩] = some ed ∧
    ed.buf.any (fun b => b.mark.isSome) = true ∧ ed.RegionOk := by
  have hrun : (afterRounds bareEnv [] [⟨[str "C-@"], []⟩]).any (fun ed => ed.buf.any fun b => b.mark.isSome) = true ∧
      (afterRounds bareEnv [] []).all (fun ed => ed.buf.all fun b => b.mark.isNone) = true := by decide +kernel
  obtain ⟨ed, hed, hmark⟩ := Option.any_eq_true .. |>.mp hrun.1
  refine ⟨ed, hed, hmark, regionOk_of_reached ed (reached_afterRound hed ?_)⟩
  intro ed₀ hs ed₁ k a s₁ hnext b m hb hm
  have hstill := Editor.gives_nextCommand _ _ _ _ _ hnext
  unfold Editor.buf at hb
  rw [hstill.current] at hb
  obtain ⟨b₀, hb₀, hsc⟩ := hstill.back hb
  have hnone := hrun.2
  unfold afterRounds at hnone
  rw [hs] at hnone
  change ed₀.buf.all (fun b => b.mark.isNone) = true at hnone
  unfold Editor.buf at hnone
  rw [hb₀] at hnone
  rw [hsc] at hm
  change b₀.mark = some m at hm
  change b₀.mark.isNone = true at hnone
  rw [hm] at hnone
  cases hnone

/-- A letter typed, the mark set after it, and the letter deleted. -/
theorem not_regionOk_deleted : ∃ ed : Editor, Reached (fun _ _ _ => True) ed ∧ ¬ ed.RegionOk ∧
    ed.killRegion.toOption = none ∧ ed.copyRegion.toOption = none := by
  obtain ⟨ed, hed, hbad⟩ := Option.any_eq_true .. |>.mp
    (show (afterRounds bareEnv [] [⟨[['a']], []⟩, ⟨[str "C-@"], []⟩, ⟨[str "DEL"], []⟩]).any (fun ed =>
      ed.buf.any (fun b => b.mark.any fun m => !decide (Valid b.lines m)) && ed.killRegion.toOption.isNone &&
        ed.copyRegion.toOption.isNone) = true by decide +kernel)
  rw [Bool.and_eq_true, Bool.and_eq_true] at hbad
  obtain ⟨⟨hmark, hkill⟩, hcopy⟩ := hbad
  refine ⟨ed, reached_afterRounds hed, fun h => ?_, Option.isNone_iff_eq_none.mp hkill, Option.isNone_iff_eq_none.mp hcopy⟩
  obtain ⟨b, hb, hmark⟩ := Option.any_eq_true .. |>.mp hmark
  obtain ⟨m, hm, hv⟩ := Option.any_eq_true .. |>.mp hmark
  rw [decide_eq_true (h.mark _ b m hb hm)] at hv
  cases hv

end Beeros.Beermacs
