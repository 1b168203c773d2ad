import Beeros.BeermacsText

/-! The line-vector buffer refines a flat string with an offset. -/

namespace Beeros.Beermacs

open Beerlang
open Lines (Pos Valid Le Clean upTo after glue stop between)

namespace Buffer

variable {b : Buffer} {p q : Pos}

/-! ### S-expressions -/

theorem prevPos_ok (h : Valid b.lines p) :
    ∃ q, b.prevPos p = .ok q ∧ Valid b.lines q ∧ (p ≠ (0, 0) → b.offsetOf q + 1 = b.offsetOf p) := by
  have hv : Valid ({ b with row := p.1, col := p.2, goal := none } : Buffer).lines (p.1, p.2) := h
  unfold prevPos
  rw [goto_of_valid h]
  rcases backwardChar_cases hv with ⟨hp, hb⟩ | ⟨-, b', hb, hm, hoff, -⟩
  · refine ⟨p, ?_, h, fun hne => absurd hp hne⟩
    show (backwardChar _ >>= _) = _
    rw [hb]
    rfl
  · refine ⟨b'.point, ?_, hm.point, fun _ => ?_⟩
    · show (backwardChar _ >>= _) = _
      rw [hb]
      rfl
    · have hlines := hm.lines
      simp only at hlines
      unfold off offsetOf at hoff
      rw [hlines] at hoff
      exact hoff

/-- A loop that goes back one character a round comes to an end. -/
theorem backLoop_ok {σ α : Type} {round : σ → Except Error (α ⊕ σ)} (at' : σ → Pos) (Q : α → Prop)
    (hround : ∀ s, Valid b.lines (at' s) → (∃ a, round s = .ok (.inl a) ∧ Q a) ∨
      at' s ≠ (0, 0) ∧ ∃ s', round s = .ok (.inr s') ∧ b.prevPos (at' s) = .ok (at' s'))
    {s : σ} (h : Valid b.lines (at' s)) : ∃ a, loop round b.rounds s = .ok a ∧ Q a := by
  have hle : b.offsetOf (at' s) ≤ b.text.length := Lines.offset_le '\n' h
  refine loop_ok (fun s => Valid b.lines (at' s)) (fun s => b.offsetOf (at' s)) Q ?_ h
    (by unfold rounds; omega)
  intro s hs
  rcases hround s hs with hdone | ⟨hne, s', hs', hprev⟩
  · exact .inl hdone
  · obtain ⟨q, hq, hv, hoff⟩ := prevPos_ok hs
    rw [hprev] at hq
    cases hq
    have := hoff hne
    exact .inr ⟨s', hs', hv, by omega⟩

theorem skipBlanks_ok (h : Valid b.lines p) : ∃ q, b.skipBlanks p = .ok q ∧ Valid b.lines q := by
  refine backLoop_ok id (Valid b.lines) ?_ h
  intro p hp
  rw [id] at hp
  obtain ⟨q, hq, hv, -⟩ := prevPos_ok hp
  obtain ⟨c, hc⟩ := charAt_ok hv
  by_cases h0 : p = (0, 0)
  · rw [if_pos h0]
    exact .inl ⟨p, rfl, hp⟩
  · simp only [id, if_neg h0, hq, hc, ok_bind]
    by_cases hblank : [' ', '\n'].contains c = true
    · exact .inr ⟨h0, q, if_pos hblank, rfl⟩
    · exact .inl ⟨p, if_neg hblank, hp⟩

theorem openerOf_ok (h : Valid b.lines q) :
    ∃ r, b.openerOf q = .ok r ∧ ∀ p ∈ r, Valid b.lines p := by
  refine backLoop_ok Prod.fst (fun r => ∀ p ∈ r, Valid b.lines p) ?_ h
  rintro ⟨q, d⟩ hq
  obtain ⟨c, hc⟩ := charAt_ok hq
  obtain ⟨q', hq', -, -⟩ := prevPos_ok hq
  simp only at hc hq'
  simp only [hc, hq', ok_bind]
  generalize (if (closers c).isSome then d + 1 else if ['(', '[', '\x7b'].contains c then d - 1 else d) = e
  by_cases he : e = 0
  · exact .inl ⟨some q, if_pos he, fun p hp => by cases hp; exact hq⟩
  · by_cases h0 : q = (0, 0)
    · exact .inl ⟨none, (if_neg he).trans (if_pos h0), fun p hp => by cases hp⟩
    · exact .inr ⟨h0, (q', e), (if_neg he).trans (if_neg h0), rfl⟩

theorem quoteBefore_ok (h : Valid b.lines q) :
    ∃ r, b.quoteBefore q = .ok r ∧ ∀ p ∈ r, Valid b.lines p := by
  refine backLoop_ok id (fun r => ∀ p ∈ r, Valid b.lines p) ?_ h
  intro q hq
  obtain ⟨c, hc⟩ := charAt_ok hq
  obtain ⟨q', hq', -, -⟩ := prevPos_ok hq
  simp only [id] at hc hq' ⊢
  rw [hc]
  by_cases hquote : c = '"'
  · exact .inl ⟨some q, if_pos hquote, fun p hp => by cases hp; exact hq⟩
  · by_cases h0 : q = (0, 0)
    · exact .inl ⟨none, (if_neg hquote).trans (if_pos h0), fun p hp => by cases hp⟩
    · refine .inr ⟨h0, q', (if_neg hquote).trans ((if_neg h0).trans ?_), hq'⟩
      rw [hq']
      rfl

theorem wordStart_ok (h : Valid b.lines q) :
    ∃ r, b.wordStart q = .ok r ∧ ∀ p ∈ r, Valid b.lines p := by
  refine backLoop_ok id (fun r => ∀ p ∈ r, Valid b.lines p) ?_ h
  intro q hq
  rw [id] at hq
  obtain ⟨q', hq', hv', -⟩ := prevPos_ok hq
  obtain ⟨c, hc⟩ := charAt_ok hv'
  by_cases h0 : q = (0, 0)
  · rw [if_pos h0]
    exact .inl ⟨some q, rfl, fun p hp => by cases hp; exact hq⟩
  · simp only [id, if_neg h0, hq', hc, ok_bind]
    by_cases hw : (!wordChar c) = true
    · exact .inl ⟨some q, if_pos hw, fun p hp => by cases hp; exact hq⟩
    · exact .inr ⟨h0, q', if_neg hw, rfl⟩

theorem sexpBefore_ok (h : Valid b.lines b.point) :
    ∃ r, b.sexpBefore = .ok r ∧ ∀ p ∈ r, Valid b.lines p := by
  obtain ⟨p, hp, hv⟩ := skipBlanks_ok h
  obtain ⟨q, hq, hvq, -⟩ := prevPos_ok hv
  obtain ⟨c, hc⟩ := charAt_ok hvq
  obtain ⟨q', hq', hvq', -⟩ := prevPos_ok hvq
  unfold sexpBefore
  rw [hp]
  show ∃ r, (if p = (0, 0) then _ else b.prevPos p >>= _) = _ ∧ _
  by_cases h0 : p = (0, 0)
  · exact ⟨none, if_pos h0, fun p hp => by cases hp⟩
  · rw [if_neg h0, hq]
    show ∃ r, (b.charAt q >>= _) = _ ∧ _
    rw [hc]
    by_cases hcl : (closers c).isSome = true
    · obtain ⟨r, hr, hrv⟩ := openerOf_ok hvq
      exact ⟨r, (if_pos hcl).trans hr, hrv⟩
    · by_cases hquote : c = '"'
      · obtain ⟨r, hr, hrv⟩ := quoteBefore_ok hvq'
        refine ⟨r, (if_neg hcl).trans ((if_pos hquote).trans ?_), hrv⟩
        rw [hq']
        exact hr
      · obtain ⟨r, hr, hrv⟩ := wordStart_ok hvq
        exact ⟨r, (if_neg hcl).trans ((if_neg hquote).trans hr), hrv⟩

/-! ### Editing -/

/-- Only the text, point, the goal column and the flag are not as before. -/
structure Edited (b b' : Buffer) : Prop where
  frame : b' = { b with
    lines := b'.lines, row := b'.row, col := b'.col, goal := b'.goal, modified := b'.modified }
  clean : Clean '\n' b'.lines
  point : Valid b'.lines b'.point

theorem Edited.ok {b' : Buffer} (h : Edited b b') (hb : b.Ok) : b'.Ok := by
  refine ⟨h.clean, h.point, ?_⟩
  rw [h.frame]
  exact hb.undo

theorem Moved.edited {b' : Buffer} (h : Moved b b') (hb : b.Ok) : Edited b b' := by
  refine ⟨?_, ?_, ?_⟩
  · rw [h.frame]
  · rw [h.lines]
    exact hb.clean
  · rw [h.lines]
    exact h.point

theorem edited_without (hb : b.Ok) (hp : Valid b.lines p) : Edited b (b.without p q) := by
  refine ⟨rfl, Lines.clean_glue (Lines.clean_upTo hb.clean) (Lines.clean_after hb.clean), ?_⟩
  have hv := Lines.valid_stop (Lines.upTo_ne_nil b.lines p) (Lines.after_ne_nil b.lines q)
  rwa [Lines.stop_upTo hp] at hv

theorem edited_spliced {parts : List Str} (hb : b.Ok) (hne : parts ≠ []) (hparts : Clean '\n' parts) :
    Edited b (b.spliced parts) :=
  ⟨rfl, Lines.clean_glue (Lines.clean_glue (Lines.clean_upTo hb.clean) hparts) (Lines.clean_after hb.clean),
    Lines.valid_stop (Lines.glue_ne_nil (Lines.upTo_ne_nil _ _) hne) (Lines.after_ne_nil _ _)⟩

theorem ordered_ordered (p q : Pos) : ordered (ordered p q).1 (ordered p q).2 = ordered p q := by
  rcases ordered_cases p q with ⟨hle, ho⟩ | ⟨hle, ho⟩
  · rw [ho]
    exact ordered_of_le hle
  · rw [ho]
    exact ordered_of_le hle

/-- What is between two positions of the text, and what is left without it. -/
theorem between_ok (hp : Valid b.lines p) (hq : Valid b.lines q) :
    ∃ lo hi, ordered p q = (lo, hi) ∧ Le lo hi ∧ Valid b.lines lo ∧ Valid b.lines hi ∧
      b.textBetween p q = .ok (join (between b.lines lo hi)) ∧
      b.deleteBetween p q = .ok (b.without lo hi) := by
  have htext : b.textBetween p q = b.textBetween (ordered p q).1 (ordered p q).2 := by
    unfold textBetween
    rw [ordered_ordered]
  have hdel : b.deleteBetween p q = b.deleteBetween (ordered p q).1 (ordered p q).2 := by
    unfold deleteBetween
    rw [ordered_ordered]
  rw [htext, hdel]
  rcases ordered_cases p q with ⟨hle, ho⟩ | ⟨hle, ho⟩
  · rw [ho]
    exact ⟨p, q, rfl, hle, hp, hq, textBetween_of_le hp hq hle, deleteBetween_of_le hp hq hle⟩
  · rw [ho]
    exact ⟨q, p, rfl, hle, hq, hp, textBetween_of_le hq hp hle, deleteBetween_of_le hq hp hle⟩

/-- The text between two positions is taken out. -/
structure Cut (b b' : Buffer) (p q : Pos) : Prop extends Edited b b' where
  here : Valid b.lines p
  there : Valid b.lines q
  lines : b'.lines = glue (upTo b.lines (ordered p q).1) (after b.lines (ordered p q).2)

/-- A text is put in at point. -/
structure Pasted (b b' : Buffer) (t : Str) : Prop extends Edited b b' where
  lines : b'.lines = glue (glue (upTo b.lines b.point) (split (expandTabs t))) (after b.lines b.point)

theorem insert_pasted (hb : b.Ok) (t : Str) : ∃ b', b.insert t = .ok b' ∧ Pasted b b' t :=
  ⟨_, insert_ok hb.point t, edited_spliced hb (split_ne_nil _) (clean_split _), rfl⟩

theorem insert_edited (hb : b.Ok) (t : Str) : ∃ b', b.insert t = .ok b' ∧ Edited b b' := by
  obtain ⟨b', hb', hpaste⟩ := insert_pasted hb t
  exact ⟨b', hb', hpaste.toEdited⟩

theorem deleteBetween_cut (hb : b.Ok) (hp : Valid b.lines p) (hq : Valid b.lines q) :
    ∃ b', b.deleteBetween p q = .ok b' ∧ Cut b b' p q := by
  obtain ⟨lo, hi, hord, -, hlo, -, -, hdel⟩ := between_ok hp hq
  refine ⟨_, hdel, edited_without hb hlo, hp, hq, ?_⟩
  rw [hord]
  rfl

/-- Nothing is between a position and itself. -/
theorem cut_self (hb : b.Ok) : Cut b b b.point b.point := by
  refine ⟨(Moved.refl hb.point).edited hb, hb.point, hb.point, ?_⟩
  rw [ordered_of_le (.inr ⟨rfl, Nat.le_refl _⟩), Lines.glue_upTo_after hb.point]

theorem deleteChar_cut (hb : b.Ok) :
    ∃ b₁ b', b.forwardChar = .ok b₁ ∧ b.deleteChar = .ok b' ∧ Cut b b' b.point b₁.point := by
  unfold deleteChar
  rw [atEnd_ok hb.point, ok_bind]
  rcases forwardChar_cases hb.point with ⟨hend, h₁⟩ | ⟨hend, b₁, h₁, hm, -, -⟩
  · exact ⟨b, b, h₁, if_pos (decide_eq_true hend), cut_self hb⟩
  · obtain ⟨b', hb', hcut⟩ := deleteBetween_cut hb hb.point hm.point
    refine ⟨b₁, b', h₁, ?_, hcut⟩
    rw [if_neg (by rw [decide_eq_false hend]; exact Bool.false_ne_true), h₁]
    exact hb'

theorem deleteBackwardChar_cut (hb : b.Ok) :
    ∃ b₁ b', b.backwardChar = .ok b₁ ∧ b.deleteBackwardChar = .ok b' ∧ Cut b b' b₁.point b.point := by
  unfold deleteBackwardChar
  rcases backwardChar_cases hb.point with ⟨hstart, h₁⟩ | ⟨hstart, b₁, h₁, hm, -, -⟩
  · exact ⟨b, b, h₁, if_pos (atStart_iff.mpr hstart), cut_self hb⟩
  · obtain ⟨b', hb', hcut⟩ := deleteBetween_cut hb hm.point hb.point
    refine ⟨b₁, b', h₁, ?_, hcut⟩
    rw [if_neg (atStart_iff.not.mpr hstart), h₁]
    exact hb'

theorem deleteBetween_edited (hb : b.Ok) (hp : Valid b.lines p) (hq : Valid b.lines q) :
    ∃ b', b.deleteBetween p q = .ok b' ∧ Edited b b' := by
  obtain ⟨b', hb', hcut⟩ := deleteBetween_cut hb hp hq
  exact ⟨b', hb', hcut.toEdited⟩

theorem deleteChar_edited (hb : b.Ok) : ∃ b', b.deleteChar = .ok b' ∧ Edited b b' := by
  obtain ⟨b₁, b', -, hb', hcut⟩ := deleteChar_cut hb
  exact ⟨b', hb', hcut.toEdited⟩

theorem deleteBackwardChar_edited (hb : b.Ok) : ∃ b', b.deleteBackwardChar = .ok b' ∧ Edited b b' := by
  obtain ⟨b₁, b', -, hb', hcut⟩ := deleteBackwardChar_cut hb
  exact ⟨b', hb', hcut.toEdited⟩

/-- What `newline-and-indent` inserts. -/
def newlineText (b : Buffer) : Str :=
  '\n' :: List.replicate (indentation ((b.lines.getD b.row []).take b.col)) ' '

theorem newlineAndIndent_pasted (hb : b.Ok) : ∃ b', b.newlineAndIndent = .ok b' ∧ Pasted b b' b.newlineText := by
  have hcol : b.col ≤ (b.lines.getD b.row []).length := hb.point.col
  unfold newlineAndIndent
  rw [curLine_ok hb.point, ok_bind, subvec_zero hcol, ok_bind]
  exact insert_pasted hb _

theorem newlineAndIndent_edited (hb : b.Ok) : ∃ b', b.newlineAndIndent = .ok b' ∧ Edited b b' := by
  obtain ⟨b', hb', hpaste⟩ := newlineAndIndent_pasted hb
  exact ⟨b', hb', hpaste.toEdited⟩

theorem killTo_ok (hb : b.Ok) : ∃ q, b.killTo = .ok q ∧ Valid b.lines q ∧ Le b.point q := by
  obtain ⟨b₁, h₁, hm, hle⟩ := forwardChar_ok hb.point
  have hcol : b.col ≤ (b.lines.getD b.row []).length := hb.point.col
  unfold killTo
  rw [curLine_ok hb.point, ok_bind, h₁]
  by_cases hend : b.col = (b.lines.getD b.row []).length
  · exact ⟨b₁.point, if_pos hend, hm.point, hle⟩
  · exact ⟨(b.row, (b.lines.getD b.row []).length), if_neg hend, ⟨hb.point.row, Nat.le_refl _⟩,
      .inr ⟨rfl, hcol⟩⟩

/-- `kill-line-text`: the killed text is what is between point and where it kills to. -/
theorem killLineText_ok (hb : b.Ok) : ∃ q, b.killTo = .ok q ∧ Valid b.lines q ∧ Le b.point q ∧
    b.killLineText = .ok (join (between b.lines b.point q), b.without b.point q) := by
  obtain ⟨q, hq, hv, hle⟩ := killTo_ok hb
  refine ⟨q, hq, hv, hle, ?_⟩
  unfold killLineText
  simp only [hq, ok_bind, textBetween_of_le hb.point hv hle, deleteBetween_of_le hb.point hv hle]
  rfl

theorem ok_snapshot (hb : b.Ok) : b.snapshot.Ok := by
  refine ⟨hb.clean, hb.point, fun u hu => ?_⟩
  rcases List.mem_cons.mp (List.mem_of_mem_take hu) with rfl | hu
  · exact ⟨hb.clean, hb.point⟩
  · exact hb.undo u hu

theorem ok_undoOnce (hb : b.Ok) : b.undoOnce.Ok := by
  unfold undoOnce
  split
  · rename_i u rest hu
    have hok := hb.undo u (by rw [hu]; exact List.mem_cons_self)
    exact ⟨hok.clean, hok.point, fun u' hu' => hb.undo u' (by rw [hu]; exact List.mem_cons_of_mem _ hu')⟩
  · exact hb

/-! ### Runs of operations -/

/-- The functions from a buffer to a buffer. -/
inductive Op
  | goto (r c : Int)
  | snapshot
  | undo
  | deleteBetween (p q : Pos)
  | insert (t : Str)
  | forwardChar
  | backwardChar
  | vertical (dr : Int)
  | beginningOfLine
  | endOfLine
  | beginningOfBuffer
  | endOfBuffer
  | forwardWord
  | backwardWord
  | deleteChar
  | deleteBackwardChar
  | newlineAndIndent
  | killLine

def Op.apply : Op → Buffer → Except Error Buffer
  | .goto r c, b => b.goto r c
  | .snapshot, b => pure b.snapshot
  | .undo, b => pure b.undoOnce
  | .deleteBetween p q, b => b.deleteBetween p q
  | .insert t, b => b.insert t
  | .forwardChar, b => b.forwardChar
  | .backwardChar, b => b.backwardChar
  | .vertical dr, b => b.vertical dr
  | .beginningOfLine, b => b.beginningOfLine
  | .endOfLine, b => b.endOfLine
  | .beginningOfBuffer, b => b.beginningOfBuffer
  | .endOfBuffer, b => b.endOfBuffer
  | .forwardWord, b => b.forwardWord
  | .backwardWord, b => b.backwardWord
  | .deleteChar, b => b.deleteChar
  | .deleteBackwardChar, b => b.deleteBackwardChar
  | .newlineAndIndent, b => b.newlineAndIndent
  | .killLine, b => do pure (← b.killLineText).2

/-- `delete-between` is given positions of the text. -/
def Op.Allowed (b : Buffer) : Op → Prop
  | .deleteBetween p q => Valid b.lines p ∧ Valid b.lines q
  | _ => True

/-- Made by `new-buffer` and operations. -/
inductive Built : Buffer → Prop
  | new (nm text : Str) (file : Option Str) : Built (newBuffer nm text file)
  | op {b b' : Buffer} (o : Op) (h : Built b) (ha : o.Allowed b) (ho : o.apply b = .ok b') : Built b'

theorem Op.apply_ok (hb : b.Ok) (o : Op) (ha : o.Allowed b) : ∃ b', o.apply b = .ok b' ∧ b'.Ok := by
  have moved {x : Except Error Buffer} (hx : ∃ b', x = .ok b' ∧ Moved b b') : ∃ b', x = .ok b' ∧ b'.Ok := by
    obtain ⟨b', hb', hm⟩ := hx
    exact ⟨b', hb', (hm.edited hb).ok hb⟩
  have edited {x : Except Error Buffer} (hx : ∃ b', x = .ok b' ∧ Edited b b') : ∃ b', x = .ok b' ∧ b'.Ok := by
    obtain ⟨b', hb', he⟩ := hx
    exact ⟨b', hb', he.ok hb⟩
  cases o with
  | goto r c => exact moved (goto_moved hb.point r c)
  | snapshot => exact ⟨_, rfl, ok_snapshot hb⟩
  | undo => exact ⟨_, rfl, ok_undoOnce hb⟩
  | deleteBetween p q => exact edited (deleteBetween_edited hb ha.1 ha.2)
  | insert t => exact edited (insert_edited hb t)
  | forwardChar =>
      obtain ⟨b', hb', hm, -⟩ := forwardChar_ok hb.point
      exact moved ⟨b', hb', hm⟩
  | backwardChar =>
      obtain ⟨b', hb', hm, -⟩ := backwardChar_ok hb.point
      exact moved ⟨b', hb', hm⟩
  | vertical dr => exact moved (vertical_ok hb.point dr)
  | beginningOfLine => exact moved (beginningOfLine_ok hb.point)
  | endOfLine => exact moved (endOfLine_ok hb.point)
  | beginningOfBuffer => exact moved (goto_moved hb.point 0 0)
  | endOfBuffer => exact moved (endOfBuffer_ok hb.point)
  | forwardWord =>
      obtain ⟨b', hb', hm, -⟩ := forwardWord_ok hb.point
      exact moved ⟨b', hb', hm⟩
  | backwardWord =>
      obtain ⟨b', hb', hm, -⟩ := backwardWord_ok hb.point
      exact moved ⟨b', hb', hm⟩
  | deleteChar => exact edited (deleteChar_edited hb)
  | deleteBackwardChar => exact edited (deleteBackwardChar_edited hb)
  | newlineAndIndent => exact edited (newlineAndIndent_edited hb)
  | killLine =>
      obtain ⟨q, -, hv, hle, hkill⟩ := killLineText_ok hb
      refine ⟨b.without b.point q, ?_, (edited_without hb hb.point).ok hb⟩
      show (b.killLineText >>= _) = _
      rw [hkill]
      rfl

theorem Built.ok (h : Built b) : b.Ok := by
  induction h with
  | new nm text file => exact ok_newBuffer nm text file
  | op o h ha ho ih =>
      obtain ⟨b', hb', hok⟩ := Op.apply_ok ih o ha
      rw [ho] at hb'
      cases hb'
      exact hok

/-! ### The flat string -/

theorem text_upTo (h : Valid b.lines p) : join (upTo b.lines p) = b.text.take (b.offsetOf p) := by
  unfold text join offsetOf Lines.offset
  rw [← Lines.flat_upTo_after '\n' h, List.take_left]

theorem text_after (h : Valid b.lines p) : join (after b.lines p) = b.text.drop (b.offsetOf p) := by
  unfold text join offsetOf Lines.offset
  rw [← Lines.flat_upTo_after '\n' h, List.drop_left]

theorem off_without (hp : Valid b.lines p) : (b.without p q).off = b.offsetOf p := by
  unfold off offsetOf Lines.offset
  show (Lines.flat '\n' (upTo (glue (upTo b.lines p) (after b.lines q)) p)).length = _
  have hstop := Lines.upTo_glue_stop (Lines.upTo_ne_nil b.lines p) (Lines.after_ne_nil b.lines q)
  rw [Lines.stop_upTo hp] at hstop
  rw [hstop]

theorem text_without (hp : Valid b.lines p) (hq : Valid b.lines q) :
    (b.without p q).text = b.text.take (b.offsetOf p) ++ b.text.drop (b.offsetOf q) := by
  rw [← text_upTo hp, ← text_after hq]
  exact Lines.flat_glue '\n' (Lines.upTo_ne_nil _ _) (Lines.after_ne_nil _ _)

/-- The text is what `without` leaves with what it takes out between. -/
theorem text_eq_without (hp : Valid b.lines p) (hq : Valid b.lines q) (hle : Le p q) :
    b.text = (b.without p q).text.take (b.without p q).off ++ join (between b.lines p q) ++
      (b.without p q).text.drop (b.without p q).off := by
  have hlen : (b.text.take (b.offsetOf p)).length = b.offsetOf p := by
    rw [List.length_take]
    exact Nat.min_eq_left (Lines.offset_le '\n' hp)
  rw [text_without hp hq, off_without hp, List.take_left' hlen, List.drop_left' hlen, ← text_upTo hp, ← text_after hq]
  exact Lines.flat_eq_between '\n' hp hq hle

theorem offsetOf_ordered {lo hi : Pos} (hp : Valid b.lines p) (hq : Valid b.lines q) (hord : ordered p q = (lo, hi)) :
    b.offsetOf lo = min (b.offsetOf p) (b.offsetOf q) := by
  rcases ordered_cases p q with ⟨hle, ho⟩ | ⟨hle, ho⟩
  · rw [hord] at ho
    cases ho
    exact (Nat.min_eq_left (Lines.offset_mono '\n' hp hq hle)).symm
  · rw [hord] at ho
    cases ho
    exact (Nat.min_eq_right (Lines.offset_mono '\n' hq hp hle)).symm

theorem off_spliced {parts : List Str} (hne : parts ≠ []) :
    (b.spliced parts).off = b.off + (join parts).length := by
  unfold off offsetOf Lines.offset
  show (Lines.flat '\n' (upTo (glue (glue (upTo b.lines b.point) parts) (after b.lines b.point))
    (stop (glue (upTo b.lines b.point) parts)))).length = _
  rw [Lines.upTo_glue_stop (Lines.glue_ne_nil (Lines.upTo_ne_nil _ _) hne) (Lines.after_ne_nil _ _),
    Lines.flat_glue '\n' (Lines.upTo_ne_nil _ _) hne, List.length_append]
  rfl

theorem text_spliced {parts : List Str} (h : Valid b.lines b.point) (hne : parts ≠ []) :
    (b.spliced parts).text = b.text.take b.off ++ join parts ++ b.text.drop b.off := by
  unfold off
  rw [← text_upTo h, ← text_after h]
  show Lines.flat '\n' (glue (glue _ parts) _) = _
  rw [Lines.flat_glue '\n' (Lines.glue_ne_nil (Lines.upTo_ne_nil _ _) hne) (Lines.after_ne_nil _ _),
    Lines.flat_glue '\n' (Lines.upTo_ne_nil _ _) hne]
  rfl

/-- Deleting what was put in at point gives back the text and point. -/
theorem without_spliced {parts : List Str} (h : Valid b.lines b.point) (hne : parts ≠ []) :
    Valid (b.spliced parts).lines b.point ∧ Le b.point (b.spliced parts).point ∧
      ((b.spliced parts).without b.point (b.spliced parts).point).lines = b.lines := by
  have hA := Lines.upTo_ne_nil b.lines b.point
  have hB := Lines.after_ne_nil b.lines b.point
  have hlines : (b.spliced parts).lines =
      glue (upTo b.lines b.point) (glue parts (after b.lines b.point)) := Lines.glue_assoc hA hne hB
  have hstop : stop (upTo b.lines b.point) = b.point := Lines.stop_upTo h
  have hv := Lines.valid_stop hA (Lines.glue_ne_nil hne hB)
  have hup := Lines.upTo_glue_stop hA (Lines.glue_ne_nil hne hB)
  rw [hstop, ← hlines] at hv hup
  refine ⟨hv, ?_, ?_⟩
  · have hle := Lines.le_stop_glue hA hne
    rwa [hstop] at hle
  · show glue (upTo (b.spliced parts).lines b.point) (after (glue (glue _ parts) _) (stop (glue _ parts))) = _
    rw [hup, Lines.after_glue_stop (Lines.glue_ne_nil hA hne) hB, Lines.glue_upTo_after h]

end Buffer

/-- The buffer is the flat string `b.text` with the offset `b.off`. -/
structure Refines (b : Buffer) : Prop where
  lines : b.lines ≠ []
  row : b.row ≤ b.lastRow
  col : ∃ l, b.curLine = .ok l ∧ b.col ≤ l.length
  clean : ∀ l ∈ b.lines, '\n' ∉ l
  returns : ∀ o : Buffer.Op, o.Allowed b → ∃ b', o.apply b = .ok b'
  insert : ∀ t, ∃ b', b.insert t = .ok b' ∧
    b'.text = b.text.take b.off ++ expandTabs t ++ b.text.drop b.off ∧
    b'.off = b.off + (expandTabs t).length
  deleteBetween : ∀ p q, Valid b.lines p → Valid b.lines q → ∃ b' t,
    b.deleteBetween p q = .ok b' ∧ b.textBetween p q = .ok t ∧
    b.text = b'.text.take b'.off ++ t ++ b'.text.drop b'.off ∧
    b'.off = min (b.offsetOf p) (b.offsetOf q) ∧ (b'.point = p ∨ b'.point = q)
  forwardChar : ∃ b', b.forwardChar = .ok b' ∧ (b.off = b.text.length ∧ b' = b ∨ b'.off = b.off + 1)
  backwardChar : ∃ b', b.backwardChar = .ok b' ∧ (b.off = 0 ∧ b' = b ∨ b'.off + 1 = b.off)
  forwardWord : ∃ b', b.forwardWord = .ok b'
  backwardWord : ∃ b', b.backwardWord = .ok b'
  sexpBefore : ∃ r, b.sexpBefore = .ok r
  deleteInserted : ∀ t, ∃ b' b'', b.insert t = .ok b' ∧ b'.deleteBetween b.point b'.point = .ok b'' ∧
    b''.lines = b.lines ∧ b''.point = b.point

theorem refines_of_built (b : Buffer) (h : b.Built) : Refines b := by
  have hb := h.ok
  refine
    { lines := List.ne_nil_of_length_pos (Nat.zero_lt_of_lt hb.point.row)
      row := ?row, col := ⟨_, Buffer.curLine_ok hb.point, hb.point.col⟩, clean := hb.clean
      returns := ?returns, insert := ?insert, deleteBetween := ?deleteBetween
      forwardChar := ?forwardChar, backwardChar := ?backwardChar, forwardWord := ?forwardWord
      backwardWord := ?backwardWord, sexpBefore := ?sexpBefore, deleteInserted := ?deleteInserted }
  case row =>
    have hrow : b.row < b.lines.length := hb.point.row
    unfold Buffer.lastRow
    omega
  case returns =>
    intro o ha
    obtain ⟨b', hb', -⟩ := Buffer.Op.apply_ok hb o ha
    exact ⟨b', hb'⟩
  case insert =>
    intro t
    have htext := Buffer.text_spliced hb.point (split_ne_nil (expandTabs t))
    have hoff := Buffer.off_spliced (b := b) (split_ne_nil (expandTabs t))
    rw [join_split] at htext hoff
    exact ⟨_, Buffer.insert_ok hb.point t, htext, hoff⟩
  case deleteBetween =>
    intro p q hp hq
    obtain ⟨lo, hi, hord, hle, hlo, hhi, htext, hdel⟩ := Buffer.between_ok hp hq
    refine ⟨_, _, hdel, htext, Buffer.text_eq_without hlo hhi hle, ?_, ?_⟩
    · rw [Buffer.off_without hlo]
      exact Buffer.offsetOf_ordered hp hq hord
    · rcases ordered_cases p q with ⟨-, ho⟩ | ⟨-, ho⟩
      · rw [hord] at ho
        cases ho
        exact .inl rfl
      · rw [hord] at ho
        cases ho
        exact .inr rfl
  case forwardChar =>
    rcases Buffer.forwardChar_cases hb.point with ⟨hstop, hb'⟩ | ⟨-, b', hb', -, hoff, -⟩
    · refine ⟨b, hb', .inl ⟨?_, rfl⟩⟩
      unfold Buffer.off Buffer.offsetOf
      rw [hstop]
      exact Lines.offset_stop '\n' (List.ne_nil_of_length_pos (Nat.zero_lt_of_lt hb.point.row))
    · exact ⟨b', hb', .inr hoff⟩
  case backwardChar =>
    rcases Buffer.backwardChar_cases hb.point with ⟨hstart, hb'⟩ | ⟨-, b', hb', -, hoff, -⟩
    · refine ⟨b, hb', .inl ⟨?_, rfl⟩⟩
      have hv := hb.point
      unfold Buffer.off Buffer.offsetOf
      rw [hstart] at hv ⊢
      exact Lines.offset_zero '\n' hv
    · exact ⟨b', hb', .inr hoff⟩
  case forwardWord =>
    obtain ⟨b', hb', -⟩ := Buffer.forwardWord_ok hb.point
    exact ⟨b', hb'⟩
  case backwardWord =>
    obtain ⟨b', hb', -⟩ := Buffer.backwardWord_ok hb.point
    exact ⟨b', hb'⟩
  case sexpBefore =>
    obtain ⟨r, hr, -⟩ := Buffer.sexpBefore_ok hb.point
    exact ⟨r, hr⟩
  case deleteInserted =>
    intro t
    obtain ⟨hv, hle, hlines⟩ := Buffer.without_spliced hb.point (split_ne_nil (expandTabs t))
    have hpoint := (Buffer.edited_spliced hb (split_ne_nil (expandTabs t)) (clean_split _)).point
    exact ⟨_, _, Buffer.insert_ok hb.point t, Buffer.deleteBetween_of_le hv hpoint hle, hlines, rfl⟩

theorem refines_typed : ∃ b, (newBuffer ['x'] ['a', '\n', 'b'] none).insert ['c', '\n', 'd'] = .ok b ∧ Refines b :=
  ⟨_, rfl, refines_of_built _ (.op (.insert ['c', '\n', 'd']) (.new ['x'] ['a', '\n', 'b'] none) trivial rfl)⟩

end Beeros.Beermacs
