import Beeros.BeermacsCommands
import Beeros.BeermacsRefine

/-! What the commands that only work on the text leave alone: which buffers there are, their names
and files, and which one is current. -/

namespace Beeros.Beermacs

open Beerlang
open Exec
open Lines (Pos Valid)

/-- The same name and file, and the text well-formed if it was. -/
structure Buffer.Sib (b b' : Buffer) : Prop where
  name : b'.name = b.name
  file : b'.file = b.file
  ok : b.Ok → b'.Ok

/-- Another part of the same buffer is shown. -/
def Buffer.Scrolled (b b' : Buffer) : Prop := b' = { b with top := b'.top, left := b'.left }

namespace Buffer

variable {b b' b'' : Buffer}

theorem Sib.refl (b : Buffer) : b.Sib b := ⟨rfl, rfl, id⟩

theorem Sib.trans (h : b.Sib b') (h' : b'.Sib b'') : b.Sib b'' :=
  ⟨h'.name.trans h.name, h'.file.trans h.file, fun hb => h'.ok (h.ok hb)⟩

theorem Scrolled.refl (b : Buffer) : b.Scrolled b := rfl

theorem Scrolled.trans (h : b.Scrolled b') (h' : b'.Scrolled b'') : b.Scrolled b'' := by
  unfold Scrolled
  rw [h', h]

theorem Scrolled.sib (h : b.Scrolled b') : b.Sib b' := by
  rw [h]
  exact ⟨rfl, rfl, fun hb => ⟨hb.clean, hb.point, hb.undo⟩⟩

end Buffer

namespace Editor

open Buffer (Sib Scrolled)

/-- The same buffers, but for their text. -/
structure Kin (ed ed' : Editor) : Prop where
  current : ed'.current = ed.current
  same : ∀ k, Option.Rel Buffer.Sib (ed.buffers.lookup k) (ed'.buffers.lookup k)

/-- The same state, but for what is shown. -/
structure Still (ed ed' : Editor) : Prop where
  current : ed'.current = ed.current
  last : ed'.last = ed.last
  same : ∀ k, Option.Rel Buffer.Scrolled (ed.buffers.lookup k) (ed'.buffers.lookup k)

/-- Every buffer is one of a kind. -/
def All (Q : Buffer → Prop) (ed : Editor) : Prop := ∀ k b, ed.buffers.lookup k = some b → Q b

abbrev AllOk : Editor → Prop := All Buffer.Ok

variable {ed ed' ed'' : Editor}

/-! ### Relations between optional buffers -/

variable {R : Buffer → Buffer → Prop} {o o' o'' : Option Buffer}

theorem rel_refl (hR : ∀ b, R b b) (o : Option Buffer) : Option.Rel R o o := by
  cases o with
  | none => exact .none
  | some b => exact .some (hR b)

theorem rel_trans (hR : ∀ {b b' b''}, R b b' → R b' b'' → R b b'') (h : Option.Rel R o o')
    (h' : Option.Rel R o' o'') : Option.Rel R o o'' := by
  cases h with
  | none => exact h'
  | some h₁ =>
      cases h' with
      | some h₂ => exact .some (hR h₁ h₂)

theorem rel_mono {S : Buffer → Buffer → Prop} (hRS : ∀ {b b'}, R b b' → S b b') (h : Option.Rel R o o') :
    Option.Rel S o o' := by
  cases h with
  | none => exact .none
  | some h => exact .some (hRS h)

theorem rel_some {b' : Buffer} (h : Option.Rel R o (some b')) : ∃ b, o = some b ∧ R b b' := by
  cases h with
  | some h => exact ⟨_, rfl, h⟩

/-! ### The buffers of two states -/

theorem Kin.of_eq (hb : ed'.buffers = ed.buffers) (hc : ed'.current = ed.current) : Kin ed ed' :=
  ⟨hc, fun k => by rw [hb]; exact rel_refl Sib.refl _⟩

theorem Kin.refl (ed : Editor) : Kin ed ed := .of_eq rfl rfl

theorem kin_message (ed : Editor) (m : Str) : Kin ed (ed.message m) := .of_eq rfl rfl

theorem Kin.trans (h : Kin ed ed') (h' : Kin ed' ed'') : Kin ed ed'' :=
  ⟨h'.current.trans h.current, fun k => rel_trans Sib.trans (h.same k) (h'.same k)⟩

theorem Still.kin (h : Still ed ed') : Kin ed ed' := ⟨h.current, fun k => rel_mono Scrolled.sib (h.same k)⟩

theorem Still.of_eq (hb : ed'.buffers = ed.buffers) (hc : ed'.current = ed.current) (hl : ed'.last = ed.last) :
    Still ed ed' :=
  ⟨hc, hl, fun k => by rw [hb]; exact rel_refl Scrolled.refl _⟩

theorem Still.trans (h : Still ed ed') (h' : Still ed' ed'') : Still ed ed'' :=
  ⟨h'.current.trans h.current, h'.last.trans h.last, fun k => rel_trans Scrolled.trans (h.same k) (h'.same k)⟩

theorem Kin.allOk (h : Kin ed ed') (hok : AllOk ed) : AllOk ed' := by
  intro k b' hb'
  have hk := h.same k
  rw [hb'] at hk
  obtain ⟨b, hb, hs⟩ := rel_some hk
  exact hs.ok (hok k b hb)

theorem updateBuf_ok {f : Buffer → Except Error Buffer} :
    ed.updateBuf f = .ok ed' ↔ ∃ b b', ed.buf = some b ∧ f b = .ok b' ∧ ed' = ed.setBuf b' := by
  unfold updateBuf buf!
  cases ed.buf with
  | none => exact ⟨nofun, fun ⟨_, _, h, _⟩ => by cases h⟩
  | some b =>
      show (f b >>= fun b' => pure (ed.setBuf b')) = .ok ed' ↔ _
      rw [bind_eq_ok]
      exact ⟨fun ⟨b', hb', h⟩ => ⟨b, b', rfl, hb', (Except.ok.inj h).symm⟩,
        fun ⟨_, b', hb, hb', h⟩ => by cases hb; exact ⟨b', hb', by rw [h]; rfl⟩⟩

theorem lookup_setBuf {b : Buffer} (k : Str) :
    (ed.setBuf b).buffers.lookup k = if k = ed.current then some b else ed.buffers.lookup k := by
  unfold setBuf
  split_ifs with hk
  · rw [hk]
    exact AList.lookup_insert _
  · exact AList.lookup_insert_ne hk

theorem rel_setBuf (hR : ∀ b, R b b) {b b' : Buffer} (hb : ed.buf = some b) (h : R b b') (k : Str) :
    Option.Rel R (ed.buffers.lookup k) ((ed.setBuf b').buffers.lookup k) := by
  rw [lookup_setBuf]
  split_ifs with hk
  · unfold buf at hb
    rw [hk, hb]
    exact .some h
  · exact rel_refl hR _

theorem kin_setBuf {b b' : Buffer} (hb : ed.buf = some b) (hs : b.Sib b') : Kin ed (ed.setBuf b') :=
  ⟨rfl, rel_setBuf Sib.refl hb hs⟩

theorem kin_updateBuf {f : Buffer → Except Error Buffer} (h : ed.updateBuf f = .ok ed')
    (hf : ∀ b b', ed.buf = some b → f b = .ok b' → b.Sib b') : Kin ed ed' := by
  obtain ⟨b, b', hb, hfb, rfl⟩ := updateBuf_ok.mp h
  exact kin_setBuf hb (hf b b' hb hfb)

/-- The text of the current buffer is well-formed. -/
theorem AllOk.buf {b : Buffer} (hok : AllOk ed) (hb : ed.buf = some b) : b.Ok := hok _ _ hb

end Editor

namespace Buffer

variable {b b' : Buffer}

theorem sib_of_edited (hb : b.Ok) {x : Except Error Buffer} (hx : ∃ b', x = .ok b' ∧ Edited b b')
    (h : x = .ok b') : b.Sib b' := by
  obtain ⟨b₁, h₁, hed⟩ := hx
  rw [h] at h₁
  cases h₁
  exact ⟨by rw [hed.frame], by rw [hed.frame], fun _ => hed.ok hb⟩

theorem sib_of_moved (hb : b.Ok) {x : Except Error Buffer} (hx : ∃ b', x = .ok b' ∧ Moved b b')
    (h : x = .ok b') : b.Sib b' := by
  obtain ⟨b₁, h₁, hm⟩ := hx
  exact sib_of_edited hb ⟨b₁, h₁, hm.edited hb⟩ h

/-- Point, the goal column and what is not text may go anywhere valid. -/
theorem sib_mark (p : Option Pos) : b.Sib { b with mark := p } :=
  ⟨rfl, rfl, fun hb => ⟨hb.clean, hb.point, hb.undo⟩⟩

theorem sib_snapshot : b.Sib b.snapshot := ⟨rfl, rfl, ok_snapshot⟩

theorem sib_undoOnce : b.Sib b.undoOnce := by
  refine ⟨?_, ?_, ok_undoOnce⟩
  · unfold undoOnce
    split <;> rfl
  · unfold undoOnce
    split <;> rfl

theorem openLine_edited (hb : b.Ok) : ∃ b', Editor.openLine b = .ok b' ∧ Edited b b' := by
  obtain ⟨b₁, h₁, hed⟩ := insert_edited hb ['\n']
  have hb₁ := hed.ok hb
  unfold Editor.openLine
  rw [h₁, ok_bind, goto_ok hb₁.point]
  refine ⟨_, rfl, ?_, hed.clean, goto_valid hb₁.point b.row b.col⟩
  rw [hed.frame]

end Buffer

namespace Editor

variable {ed ed' : Editor}

theorem gives_lift {α : Type} {P : α → Prop} {x : Except Error α} (h : ∀ a, x = .ok a → P a) :
    Gives P (lift x) := by
  cases x with
  | ok a => exact gives_pure (h a rfl)
  | error e => exact gives_throw _

/-! ### Display and minibuffer -/

theorem still_scrollToPoint (h : ed.scrollToPoint = .ok ed') : Still ed ed' := by
  unfold scrollToPoint at h
  obtain ⟨bf, -, h⟩ := bind_eq_ok.mp h
  obtain ⟨b, b', hb, hb', rfl⟩ := updateBuf_ok.mp h
  cases hb'
  exact ⟨rfl, rfl, rel_setBuf Buffer.Scrolled.refl hb rfl⟩

theorem still_redisplay {r : Str × Editor} (h : ed.redisplay = .ok r) : Still ed r.2 := by
  unfold redisplay at h
  obtain ⟨ed₁, h₁, h⟩ := bind_eq_ok.mp h
  obtain ⟨new, -, h⟩ := bind_eq_ok.mp h
  obtain ⟨bf, -, h⟩ := bind_eq_ok.mp h
  cases h
  exact (still_scrollToPoint h₁).trans (.of_eq rfl rfl rfl)

theorem gives_redisplay (ed : Editor) : Gives (Still ed) ed.redisplay! := by
  unfold redisplay!
  refine Gives.bind (P := fun oe => Still ed oe.2) (gives_lift fun _ => still_redisplay) ?_
  exact fun oe h => gives_bind fun _ => gives_pure h

theorem still_prompt (ed : Editor) (p : Option Str) : Still ed { ed with prompt := p } := .of_eq rfl rfl rfl

theorem gives_readMinibufferLoop (prompt : Str) (n : Nat) (ed : Editor) (input : Str) :
    Gives (fun r => Still ed r.1) (readMinibufferLoop prompt n ed input) := by
  induction n generalizing ed input with
  | zero => exact gives_throw _
  | succ n ih =>
      have next (ed₁ : Editor) (h : Still ed ed₁) (input' : Str) :
          Gives (fun r => Still ed r.1) (readMinibufferLoop prompt n ed₁ input') :=
        fun s r s' hr => h.trans (ih ed₁ input' s r s' hr)
      unfold readMinibufferLoop
      refine Gives.bind (gives_redisplay _) fun ed₁ h₁ => gives_bind fun k => ?_
      replace h₁ := (still_prompt ed _).trans h₁
      refine Gives.ite (fun _ => gives_pure (h₁.trans (.of_eq rfl rfl rfl))) fun _ =>
        Gives.ite (fun _ => gives_pure (h₁.trans (.of_eq rfl rfl rfl))) fun _ =>
        Gives.ite (fun _ => next ed₁ h₁ _) fun _ => Gives.ite (fun _ => next ed₁ h₁ _) fun _ =>
        Gives.ite (fun _ => next ed₁ h₁ _) fun _ => next ed₁ h₁ _

theorem gives_readMinibuffer (ed : Editor) (prompt initial : Str) :
    Gives (fun r => Still ed r.1) (ed.readMinibuffer prompt initial) :=
  gives_bind fun _ => gives_readMinibufferLoop _ _ _ _

theorem gives_yOrNLoop (question : Str) (n : Nat) (ed : Editor) :
    Gives (fun r => Still ed r.1) (yOrNLoop question n ed) := by
  induction n generalizing ed with
  | zero => exact gives_throw _
  | succ n ih =>
      unfold yOrNLoop
      refine Gives.bind (gives_redisplay _) fun ed₁ h₁ => gives_bind fun k => ?_
      replace h₁ := (still_prompt ed _).trans h₁
      refine Gives.ite (fun _ => gives_pure (h₁.trans (.of_eq rfl rfl rfl))) fun _ =>
        Gives.ite (fun _ => gives_pure (h₁.trans (.of_eq rfl rfl rfl))) fun _ => ?_
      exact fun s r s' hr => h₁.trans (ih ed₁ s r s' hr)

/-! ### Commands on the text -/

theorem kin_motion {f : Buffer → Except Error Buffer} (hok : AllOk ed)
    (hf : ∀ b : Buffer, b.Ok → ∃ b', f b = .ok b' ∧ Buffer.Edited b b') (h : motion f ed = .ok ed') : Kin ed ed' :=
  kin_updateBuf h fun b _ hb hfb => Buffer.sib_of_edited (hok.buf hb) (hf b (hok.buf hb)) hfb

theorem kin_edit {f : Buffer → Except Error Buffer} (hok : AllOk ed)
    (hf : ∀ b : Buffer, b.Ok → ∃ b', f b = .ok b' ∧ Buffer.Edited b b') (h : edit f ed = .ok ed') : Kin ed ed' := by
  refine kin_updateBuf h fun b b' hb hfb => ?_
  split_ifs at hfb
  · exact Buffer.sib_of_edited (hok.buf hb) (hf b (hok.buf hb)) hfb
  · have hs := Buffer.ok_snapshot (hok.buf hb)
    exact Buffer.sib_snapshot.trans (Buffer.sib_of_edited hs (hf _ hs) hfb)

theorem edited_of_moved {f : Buffer → Except Error Buffer}
    (hf : ∀ b : Buffer, Valid b.lines b.point → ∃ b', f b = .ok b' ∧ Buffer.Moved b b') (b : Buffer) (hb : b.Ok) :
    ∃ b', f b = .ok b' ∧ Buffer.Edited b b' := by
  obtain ⟨b', hb', hm⟩ := hf b hb.point
  exact ⟨b', hb', hm.edited hb⟩

theorem kin_selfInsert {k : Str} (hok : AllOk ed) (h : ed.selfInsert k = .ok ed') : Kin ed ed' := by
  unfold selfInsert at h
  obtain ⟨ed₁, h₁, h⟩ := bind_eq_ok.mp h
  cases h
  exact (kin_edit hok (fun b hb => Buffer.insert_edited hb k) h₁).trans (.of_eq rfl rfl)

theorem kin_marking {f : Buffer → Except Error Buffer} (hok : AllOk ed)
    (hf : ∀ b : Buffer, Valid b.lines b.point → ∃ b', f b = .ok b' ∧ Buffer.Moved b b')
    (h : motion (marking f) ed = .ok ed') : Kin ed ed' := by
  refine kin_updateBuf h fun b b' hb hfb => ?_
  have hm := (Buffer.sib_mark (b := b) (some b.point)).ok (hok.buf hb)
  exact (Buffer.sib_mark (some b.point)).trans (Buffer.sib_of_moved hm (hf _ hm.point) hfb)

theorem kin_recenter (h : ed.recenter = .ok ed') : Kin ed ed' := by
  unfold recenter at h
  obtain ⟨ed₁, h₁, h⟩ := bind_eq_ok.mp h
  cases h
  refine (kin_updateBuf h₁ fun b b' _ hb' => ?_).trans (.of_eq rfl rfl)
  cases hb'
  exact ⟨rfl, rfl, fun hb => ⟨hb.clean, hb.point, hb.undo⟩⟩

theorem buf!_ok {b : Buffer} : ed.buf! = .ok b ↔ ed.buf = some b := by
  unfold buf!
  cases ed.buf with
  | none => exact ⟨nofun, nofun⟩
  | some b' =>
      show Except.ok b' = _ ↔ _
      rw [Except.ok.injEq, Option.some.injEq]

/-- The current buffer becomes one made of it. -/
theorem kin_updateBuf_const {x : Except Error Buffer} {b : Buffer} (hb : ed.buf = some b)
    (h : ed.updateBuf (fun _ => x) = .ok ed') (hx : ∀ b', x = .ok b' → b.Sib b') : Kin ed ed' := by
  refine kin_updateBuf h fun b₁ b' hb₁ hb' => ?_
  rw [hb] at hb₁
  cases hb₁
  exact hx b' hb'

theorem sib_deleteBetween {b b' : Buffer} {p q : Pos} (hb : b.Ok) (hp : Valid b.lines p) (hq : Valid b.lines q)
    (h : b.snapshot.deleteBetween p q = .ok b') : b.Sib b' :=
  Buffer.sib_snapshot.trans (Buffer.sib_of_edited (Buffer.ok_snapshot hb)
    (Buffer.deleteBetween_edited (Buffer.ok_snapshot hb) hp hq) h)

theorem kin_killLine (hok : AllOk ed) (h : ed.killLine = .ok ed') : Kin ed ed' := by
  unfold killLine at h
  obtain ⟨b, hb, h⟩ := bind_eq_ok.mp h
  rw [buf!_ok] at hb
  obtain ⟨⟨killed, nb⟩, hk, h⟩ := bind_eq_ok.mp h
  obtain ⟨ed₁, h₁, h⟩ := bind_eq_ok.mp h
  cases h
  have hs := Buffer.ok_snapshot (hok.buf hb)
  obtain ⟨q, -, hv, hle, hkill⟩ := Buffer.killLineText_ok hs
  rw [hkill] at hk
  cases hk
  refine (kin_updateBuf_const hb h₁ fun b' hb' => ?_).trans (.of_eq rfl rfl)
  cases hb'
  exact Buffer.sib_snapshot.trans
    (Buffer.sib_of_edited hs ⟨_, rfl, Buffer.edited_without hs hs.point⟩ rfl)

theorem kin_killWord (hok : AllOk ed) (h : ed.killWord = .ok ed') : Kin ed ed' := by
  unfold killWord at h
  obtain ⟨b, hb, h⟩ := bind_eq_ok.mp h
  rw [buf!_ok] at hb
  obtain ⟨b₁, hb₁, h⟩ := bind_eq_ok.mp h
  obtain ⟨ed₁, h₁, h⟩ := bind_eq_ok.mp h
  obtain ⟨t, -, h⟩ := bind_eq_ok.mp h
  cases h
  have hbok := hok.buf hb
  obtain ⟨b₂, hb₂, hm, -⟩ := Buffer.forwardWord_ok hbok.point
  rw [hb₁] at hb₂
  cases hb₂
  exact (kin_updateBuf_const hb h₁ fun b' hb' => sib_deleteBetween hbok hbok.point hm.point hb').trans
    (.of_eq rfl rfl)

theorem kin_backwardKillWord (hok : AllOk ed) (h : ed.backwardKillWord = .ok ed') : Kin ed ed' := by
  unfold backwardKillWord at h
  obtain ⟨b, hb, h⟩ := bind_eq_ok.mp h
  rw [buf!_ok] at hb
  obtain ⟨b₁, hb₁, h⟩ := bind_eq_ok.mp h
  obtain ⟨ed₁, h₁, h⟩ := bind_eq_ok.mp h
  obtain ⟨t, -, h⟩ := bind_eq_ok.mp h
  cases h
  have hbok := hok.buf hb
  obtain ⟨b₂, hb₂, hm, -⟩ := Buffer.backwardWord_ok hbok.point
  rw [hb₁] at hb₂
  cases hb₂
  exact (kin_updateBuf_const hb h₁ fun b' hb' => sib_deleteBetween hbok hm.point hbok.point hb').trans
    (.of_eq rfl rfl)

end Editor

namespace Buffer

variable {b b' : Buffer} {p q : Pos}

theorem valid_of_line {r c : Nat} {l : Str} (hl : b.line r = .ok l) (hc : c ≤ l.length) :
    Valid b.lines (r, c) := by
  have hr := lt_of_nth hl
  rw [line_ok hr] at hl
  cases hl
  exact ⟨hr, hc⟩

/-- What is deleted lies between positions of the text. -/
theorem valid_of_deleteBetween (h : b.deleteBetween p q = .ok b') : Valid b.lines p ∧ Valid b.lines q := by
  have hord : Valid b.lines (ordered p q).1 ∧ Valid b.lines (ordered p q).2 := by
    unfold deleteBetween at h
    generalize ordered p q = o at h
    obtain ⟨⟨r1, c1⟩, ⟨r2, c2⟩⟩ := o
    obtain ⟨l₁, hl₁, h⟩ := bind_eq_ok.mp h
    obtain ⟨s₁, hs₁, h⟩ := bind_eq_ok.mp h
    obtain ⟨l₂, hl₂, h⟩ := bind_eq_ok.mp h
    obtain ⟨s₂, hs₂, -⟩ := bind_eq_ok.mp h
    have h₁ := le_of_subvec hs₁
    have h₂ := le_of_subvec hs₂
    exact ⟨valid_of_line hl₁ (by omega), valid_of_line hl₂ (by omega)⟩
  rcases ordered_cases p q with ⟨-, ho⟩ | ⟨-, ho⟩
  · rw [ho] at hord
    exact hord
  · rw [ho] at hord
    exact hord.symm

end Buffer

namespace Editor

variable {ed ed' : Editor}

theorem kin_withRegion {f : Buffer → Pos → Pos → Except Error Editor} (h : ed.withRegion f = .ok ed')
    (hf : ∀ b m, ed.buf = some b → f b m b.point = .ok ed' → Kin ed ed') : Kin ed ed' := by
  unfold withRegion at h
  obtain ⟨b, hb, h⟩ := bind_eq_ok.mp h
  rw [buf!_ok] at hb
  cases hm : b.mark with
  | none =>
      rw [hm] at h
      cases h
      exact .of_eq rfl rfl
  | some m =>
      rw [hm] at h
      exact hf b m hb h

theorem kin_killRegion (hok : AllOk ed) (h : ed.killRegion = .ok ed') : Kin ed ed' := by
  refine kin_withRegion h fun b m hb h => ?_
  obtain ⟨ed₁, h₁, h⟩ := bind_eq_ok.mp h
  obtain ⟨t, -, h⟩ := bind_eq_ok.mp h
  cases h
  refine (kin_updateBuf_const hb h₁ fun b' hb' => ?_).trans (.of_eq rfl rfl)
  obtain ⟨b₁, hb₁, hb'⟩ := bind_eq_ok.mp hb'
  cases hb'
  have hv := Buffer.valid_of_deleteBetween hb₁
  exact (sib_deleteBetween (hok.buf hb) hv.1 hv.2 hb₁).trans (Buffer.sib_mark none)

theorem kin_copyRegion (h : ed.copyRegion = .ok ed') : Kin ed ed' := by
  refine kin_withRegion h fun b m hb h => ?_
  obtain ⟨t, -, h⟩ := bind_eq_ok.mp h
  cases h
  exact .of_eq rfl rfl

theorem kin_yank (hok : AllOk ed) (h : ed.yank = .ok ed') : Kin ed ed' := by
  refine kin_updateBuf h fun b b' hb hb' => ?_
  have hs : b.Sib { b.snapshot with mark := some b.point } :=
    Buffer.sib_snapshot.trans (Buffer.sib_mark (some b.point))
  exact hs.trans (Buffer.sib_of_edited (hs.ok (hok.buf hb)) (Buffer.insert_edited (hs.ok (hok.buf hb)) _) hb')

theorem kin_setMark (h : ed.setMark = .ok ed') : Kin ed ed' := by
  unfold setMark at h
  obtain ⟨ed₁, h₁, h⟩ := bind_eq_ok.mp h
  cases h
  refine (kin_updateBuf h₁ fun b b' _ hb' => ?_).trans (.of_eq rfl rfl)
  cases hb'
  exact Buffer.sib_mark _

theorem kin_keyboardQuit (h : ed.keyboardQuit = .ok ed') : Kin ed ed' := by
  unfold keyboardQuit at h
  obtain ⟨ed₁, h₁, h⟩ := bind_eq_ok.mp h
  cases h
  refine (kin_updateBuf h₁ fun b b' _ hb' => ?_).trans (.of_eq rfl rfl)
  cases hb'
  exact Buffer.sib_mark _

theorem kin_goto {p : Pos} (hok : AllOk ed) (h : ed.updateBuf (fun x => x.goto p.1 p.2) = .ok ed') :
    Kin ed ed' :=
  kin_updateBuf h fun _ _ hb hb' =>
    Buffer.sib_of_moved (hok.buf hb) (Buffer.goto_moved (hok.buf hb).point _ _) hb'

theorem gives_isearchLoop (env : Env) (start : Pos) (n : Nat) (hok : AllOk ed) (pat : Str) (origin : Pos)
    (stack : List (Str × Pos)) : Gives (Kin ed) (isearchLoop env start n ed pat origin stack) := by
  induction n generalizing ed pat origin stack with
  | zero => exact gives_throw _
  | succ n ih =>
      unfold isearchLoop
      refine gives_bind fun found => ?_
      refine Gives.bind (P := Kin ed) ?_ fun ed₁ h₁ => ?_
      · refine gives_lift fun ed₁ h₁ => ?_
        cases found with
        | none => cases h₁; exact .refl ed
        | some f => exact kin_goto (p := (f.1, f.2 + pat.length)) hok h₁
      refine Gives.bind (gives_redisplay _) fun ed₂ h₂ => gives_bind fun k => ?_
      replace h₂ : Kin ed ed₂ := h₁.trans ((still_prompt ed₁ _).trans h₂).kin
      have hok₂ := h₂.allOk hok
      have next (pat' : Str) (origin' : Pos) (stack' : List (Str × Pos)) :
          Gives (Kin ed) (isearchLoop env start n ed₂ pat' origin' stack') :=
        fun s r s' hr => h₂.trans (ih hok₂ pat' origin' stack' s r s' hr)
      refine Gives.ite (fun _ => ?_) fun _ => Gives.ite (fun _ => next _ _ _) fun _ =>
        Gives.ite (fun _ => ?_) fun _ => Gives.ite (fun _ => next _ _ _) fun _ =>
        Gives.ite (fun _ => next _ _ _) fun _ => ?_
      · refine Gives.bind (P := Kin ed) (gives_lift fun ed₃ h₃ => h₂.trans (kin_goto hok₂ h₃)) fun ed₃ h₃ => ?_
        exact gives_pure (h₃.trans (.of_eq rfl rfl))
      · cases stack.getLast? with
        | none => exact next _ _ _
        | some pf => exact next _ _ _
      · refine Gives.bind (P := Kin ed) (gives_lift fun ed₃ h₃ => ?_) fun ed₃ h₃ => ?_
        · refine h₂.trans (kin_updateBuf h₃ fun b b' _ hb' => ?_)
          cases hb'
          exact Buffer.sib_mark _
        · exact gives_pure (h₃.trans (.of_eq rfl rfl))

/-- An insertion with a snapshot before it. -/
theorem kin_insert {t : Str} (hok : AllOk ed) (h : ed.updateBuf (fun x => x.snapshot.insert t) = .ok ed') :
    Kin ed ed' :=
  kin_updateBuf h fun _ _ hb hb' => Buffer.sib_snapshot.trans
    (Buffer.sib_of_edited (Buffer.ok_snapshot (hok.buf hb))
      (Buffer.insert_edited (Buffer.ok_snapshot (hok.buf hb)) t) hb')

theorem kin_evalLastSexp {env : Env} (hok : AllOk ed) (h : ed.evalLastSexp env = .ok ed') : Kin ed ed' := by
  unfold evalLastSexp at h
  obtain ⟨text, -, h⟩ := bind_eq_ok.mp h
  cases text with
  | none => cases h; exact .of_eq rfl rfl
  | some text =>
      change (if ed.arg = true then _ else _) = _ at h
      split_ifs at h
      · exact kin_insert hok h
      · cases h
        exact .of_eq rfl rfl

theorem kin_evalPrintLastSexp {env : Env} (hok : AllOk ed) (h : ed.evalPrintLastSexp env = .ok ed') :
    Kin ed ed' := by
  unfold evalPrintLastSexp at h
  obtain ⟨text, -, h⟩ := bind_eq_ok.mp h
  cases text with
  | none => cases h; exact .of_eq rfl rfl
  | some text => exact kin_insert hok h

end Editor

/-- Commands that make, name, save or leave no buffer. -/
def Command.onText : Command → Bool
  | .findFile | .saveBuffer | .writeFile | .switchToBuffer | .killBuffer | .describeFunction | .aproposCommand
  | .describeKey | .helpQuit | .helpFollow => false
  | _ => true

/-- Commands that only move point. -/
def Command.moves : Command → Bool
  | .forwardChar | .backwardChar | .nextLine | .previousLine | .beginningOfLine | .endOfLine | .forwardWord
  | .backwardWord | .scrollUp | .scrollDown => true
  | _ => false

namespace Editor

variable {ed : Editor}

theorem exec_moves (env : Env) (ed : Editor) {c : Command} (hc : c.moves = true) :
    ∃ f, (∀ b : Buffer, Valid b.lines b.point → ∃ b', f b = .ok b' ∧ Buffer.Moved b b') ∧
      ed.exec env c = lift (motion f ed) := by
  have of {f : Buffer → Except Error Buffer} {R : Buffer → Buffer → Prop}
      (hf : ∀ b : Buffer, Valid b.lines b.point → ∃ b', f b = .ok b' ∧ Buffer.Moved b b' ∧ R b b') (b : Buffer)
      (hb : Valid b.lines b.point) : ∃ b', f b = .ok b' ∧ Buffer.Moved b b' := by
    obtain ⟨b', hb', hm, -⟩ := hf b hb
    exact ⟨b', hb', hm⟩
  cases c with
  | forwardChar => exact ⟨_, of fun _ hb => Buffer.forwardChar_ok hb, rfl⟩
  | backwardChar => exact ⟨_, of fun _ hb => Buffer.backwardChar_ok hb, rfl⟩
  | nextLine => exact ⟨_, fun _ hb => Buffer.vertical_ok hb 1, rfl⟩
  | previousLine => exact ⟨_, fun _ hb => Buffer.vertical_ok hb (-1), rfl⟩
  | beginningOfLine => exact ⟨_, fun _ hb => Buffer.beginningOfLine_ok hb, rfl⟩
  | endOfLine => exact ⟨_, fun _ hb => Buffer.endOfLine_ok hb, rfl⟩
  | forwardWord => exact ⟨_, of fun _ hb => Buffer.forwardWord_ok hb, rfl⟩
  | backwardWord => exact ⟨_, of fun _ hb => Buffer.backwardWord_ok hb, rfl⟩
  | scrollUp => exact ⟨_, fun _ hb => Buffer.vertical_ok hb _, rfl⟩
  | scrollDown => exact ⟨_, fun _ hb => Buffer.vertical_ok hb _, rfl⟩
  | _ => cases hc

theorem kin_exec (env : Env) (hok : AllOk ed) (c : Command) (hc : c.onText = true) :
    Gives (Kin ed) (ed.exec env c) := by
  by_cases hmv : c.moves = true
  · obtain ⟨f, hf, he⟩ := exec_moves env ed hmv
    rw [he]
    exact gives_lift fun _ h => kin_motion hok (edited_of_moved hf) h
  have edited {f : Buffer → Except Error Buffer}
      (hf : ∀ b : Buffer, b.Ok → ∃ b', f b = .ok b' ∧ Buffer.Edited b b') :
      Gives (Kin ed) (lift (edit f ed)) := gives_lift fun _ h => kin_edit hok hf h
  cases c with
  | beginningOfBuffer => exact gives_lift fun _ => kin_marking hok fun b hb => Buffer.goto_moved hb 0 0
  | endOfBuffer => exact gives_lift fun _ => kin_marking hok fun b hb => Buffer.endOfBuffer_ok hb
  | recenter => exact gives_lift fun _ => kin_recenter
  | deleteChar => exact edited fun b hb => Buffer.deleteChar_edited hb
  | deleteBackwardChar => exact edited fun b hb => Buffer.deleteBackwardChar_edited hb
  | newline => exact edited fun b hb => Buffer.newlineAndIndent_edited hb
  | openLine => exact edited fun b hb => Buffer.openLine_edited hb
  | indent => exact edited fun b hb => Buffer.insert_edited hb _
  | killLine => exact gives_lift fun _ => kin_killLine hok
  | killWord => exact gives_lift fun _ => kin_killWord hok
  | backwardKillWord => exact gives_lift fun _ => kin_backwardKillWord hok
  | setMark => exact gives_lift fun _ => kin_setMark
  | killRegion => exact gives_lift fun _ => kin_killRegion hok
  | copyRegion => exact gives_lift fun _ => kin_copyRegion
  | yank => exact gives_lift fun _ => kin_yank hok
  | undo =>
      refine gives_lift fun _ h => kin_updateBuf h fun b b' _ hb' => ?_
      cases hb'
      exact Buffer.sib_undoOnce
  | keyboardQuit => exact gives_lift fun _ => kin_keyboardQuit
  | isearchForward => exact gives_bind fun b => gives_bind fun t => gives_isearchLoop env _ _ hok _ _ _
  | evalLastSexp => exact gives_lift fun _ => kin_evalLastSexp hok
  | evalPrintLastSexp => exact gives_lift fun _ => kin_evalPrintLastSexp hok
  | evalExpression =>
      refine Gives.bind (gives_readMinibuffer ed _ _) fun r hr => ?_
      obtain ⟨ed₁, text⟩ := r
      cases text with
      | none => exact gives_pure hr.kin
      | some t => exact gives_pure (by split_ifs; exacts [hr.kin, hr.kin.trans (kin_message _ _)])
  | universalArgument => exact gives_pure (.of_eq rfl rfl)
  | listBuffers => exact gives_pure (kin_message _ _)
  | quit =>
      refine Gives.ite (fun _ => gives_pure (.of_eq rfl rfl)) fun _ => ?_
      refine Gives.bind (gives_bind fun t => gives_yOrNLoop _ _ ed) fun r hr => gives_pure ?_
      split_ifs
      · exact hr.kin.trans (.of_eq rfl rfl)
      · exact hr.kin
  | findFile | saveBuffer | writeFile | switchToBuffer | killBuffer | describeFunction | aproposCommand
  | describeKey | helpQuit | helpFollow => cases hc
  | _ => exact absurd rfl hmv

end Editor

end Beeros.Beermacs
