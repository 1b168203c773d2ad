import Beeros.BeermacsNames

/-! Undo in the command loop: a command that changes the text puts a snapshot of the buffer before it
on the history, and as many undos as snapshots lead back. -/

namespace Beeros.Beermacs

open Beerlang
open Exec
open Lines (Pos Valid)

namespace Buffer

variable {b₀ b b' : Buffer} {n : Nat}

/-- `n` undos lead from `b` back to the text and point of `b₀`. -/
def Behind (b₀ : Buffer) : Nat → Buffer → Prop
  | 0, b => b.lines = b₀.lines ∧ b.point = b₀.point
  | n + 1, b => b.undo[n]? = some ⟨b₀.lines, b₀.row, b₀.col⟩

theorem Behind.pushed (h : Behind b₀ n b) (hn : n < undoMax) (hu : b'.undo = b.snapshot.undo) :
    Behind b₀ (n + 1) b' := by
  show b'.undo[n]? = _
  rw [hu]
  show ((⟨b.lines, b.row, b.col⟩ :: b.undo).take undoMax)[n]? = _
  rw [List.getElem?_take_of_lt hn]
  cases n with
  | zero =>
      obtain ⟨hl, hp⟩ := h
      obtain ⟨hr, hc⟩ := Prod.mk.inj hp
      rw [List.getElem?_cons_zero, hl, hr, hc]
  | succ n => exact h

theorem Behind.kept (h : Behind b₀ (n + 1) b) (hu : b'.undo = b.undo) : Behind b₀ (n + 1) b' := by
  show b'.undo[n]? = _
  rw [hu]
  exact h

theorem Behind.undoOnce (h : Behind b₀ (n + 1) b) : Behind b₀ n b.undoOnce := by
  change b.undo[n]? = _ at h
  unfold Buffer.undoOnce
  cases hu : b.undo with
  | nil =>
      rw [hu] at h
      cases h
  | cons u rest =>
      rw [hu] at h
      cases n with
      | zero =>
          cases h
          exact ⟨rfl, rfl⟩
      | succ n => exact h

theorem Behind.scrolled (h : Behind b₀ n b) (hs : b.Scrolled b') : Behind b₀ n b' := by
  rw [hs]
  cases n with
  | zero => exact h
  | succ n => exact h

end Buffer

/-- The commands made with `edit`. -/
def Command.edits : Command → Bool
  | .deleteChar | .deleteBackwardChar | .newline | .openLine | .indent => true
  | _ => false

/-- Those, and the other commands that change the text with a snapshot first. -/
def Command.changes (c : Command) : Bool :=
  c.edits || match c with
    | .killLine | .killWord | .backwardKillWord | .killRegion | .yank => true
    | _ => false

/-- How many undos a run of actions takes: one for a command, and one for a run of typing. -/
def undosFor : Bool → List Action → Nat
  | _, [] => 0
  | typing, .selfInsert _ :: as => (if typing then 0 else 1) + undosFor true as
  | _, .command _ :: as => 1 + undosFor false as

namespace Editor

variable {ed ed' e : Editor} {b b' : Buffer}

/-- The text and point of the current buffer. -/
def spot (ed : Editor) : Option (List Str × Pos) := ed.buf.map fun b => (b.lines, b.point)

/-- The command takes a snapshot: it is not one of `edit` right after typing, and the region is there. -/
def TakesSnapshot (ed : Editor) : Action → Prop
  | .selfInsert _ => True
  | .command c => c.changes = true ∧ (c.edits = true → ed.last ≠ some .selfInsert) ∧
      (c = .killRegion → ∀ b, ed.buf = some b → ∃ m, b.mark = some m ∧ Valid b.lines m)

/-- The current buffer is changed with a snapshot of it before. -/
structure Pushed (b : Buffer) (ed e : Editor) : Prop where
  buf : ∃ b', e.buf = some b' ∧ b'.undo = b.snapshot.undo
  this : e.this ≠ some .selfInsert

theorem buf_setBuf (ed : Editor) (b : Buffer) : (ed.setBuf b).buf = some b := by
  unfold buf
  rw [show (ed.setBuf b).current = ed.current from rfl, lookup_setBuf, if_pos rfl]

theorem pushed_of_buffers (b' : Buffer) (hbuf : e.buffers = (ed.setBuf b').buffers) (hcur : e.current = ed.current)
    (hu : b'.undo = b.snapshot.undo) (hthis : e.this ≠ some .selfInsert) : Pushed b ed e := by
  refine ⟨⟨b', ?_, hu⟩, hthis⟩
  unfold buf
  rw [hbuf, hcur]
  exact buf_setBuf ed b'

theorem updateBuf_of_buf {f : Buffer → Except Error Buffer} (hb : ed.buf = some b) (hf : f b = .ok b') :
    ed.updateBuf f = .ok (ed.setBuf b') := updateBuf_ok.mpr ⟨b, b', hb, hf, rfl⟩

theorem exec_edits (hb : ed.buf = some b) (hok : b.Ok) (hthis : ed.this = none) (hlast : ed.last ≠ some .selfInsert)
    {f : Buffer → Except Error Buffer} (hf : ∀ b : Buffer, b.Ok → ∃ b', f b = .ok b' ∧ Buffer.Edited b b') :
    ∃ e, edit f ed = .ok e ∧ Pushed b ed e := by
  obtain ⟨b', hb', hed⟩ := hf b.snapshot (Buffer.ok_snapshot hok)
  refine ⟨ed.setBuf b', updateBuf_of_buf hb ?_, pushed_of_buffers b' rfl rfl (by rw [hed.frame]) ?_⟩
  · rw [if_neg hlast, hb']
  · show ed.this ≠ _
    rw [hthis]
    exact nofun

theorem exec_pushed (env : Env) (hb : ed.buf = some b) (hok : b.Ok) (hthis : ed.this = none) {c : Command}
    (ht : ed.TakesSnapshot (.command c)) : ∃ e, ed.exec env c = lift (.ok e) ∧ Pushed b ed e := by
  obtain ⟨hc, hlast, hregion⟩ := ht
  have hs := Buffer.ok_snapshot hok
  have noThis : ed.this ≠ some .selfInsert := by
    rw [hthis]
    exact nofun
  have ofEdit {f : Buffer → Except Error Buffer} (hl : ed.last ≠ some .selfInsert)
      (hf : ∀ b : Buffer, b.Ok → ∃ b', f b = .ok b' ∧ Buffer.Edited b b')
      (hx : ed.exec env c = lift (edit f ed)) : ∃ e, ed.exec env c = lift (.ok e) ∧ Pushed b ed e := by
    obtain ⟨e, he, hp⟩ := exec_edits hb hok hthis hl hf
    exact ⟨e, by rw [hx, he], hp⟩
  cases c with
  | deleteChar => exact ofEdit (hlast rfl) (fun _ => Buffer.deleteChar_edited) rfl
  | deleteBackwardChar => exact ofEdit (hlast rfl) (fun _ => Buffer.deleteBackwardChar_edited) rfl
  | newline => exact ofEdit (hlast rfl) (fun _ => Buffer.newlineAndIndent_edited) rfl
  | openLine => exact ofEdit (hlast rfl) (fun _ => Buffer.openLine_edited) rfl
  | indent => exact ofEdit (hlast rfl) (fun _ hb => Buffer.insert_edited hb _) rfl
  | killLine =>
      obtain ⟨q, -, -, -, hkill⟩ := Buffer.killLineText_ok hs
      have he : ∃ t, ed.killLine =
          .ok { ed.setBuf (b.snapshot.without b.snapshot.point q) with kill := t, this := some .kill } := by
        have hup : ed.updateBuf (fun _ => pure (b.snapshot.without b.snapshot.point q)) =
            .ok (ed.setBuf (b.snapshot.without b.snapshot.point q)) := updateBuf_of_buf hb rfl
        unfold killLine
        simp only [buf!_ok.mpr hb, ok_bind, hkill]
        rw [hup]
        exact ⟨_, rfl⟩
      obtain ⟨t, he⟩ := he
      exact ⟨_, congrArg lift he, pushed_of_buffers _ rfl rfl rfl nofun⟩
  | killWord =>
      obtain ⟨x, hx, hm, -⟩ := Buffer.forwardWord_ok hok.point
      obtain ⟨b', hb', hed⟩ := Buffer.deleteBetween_edited hs hok.point hm.point
      obtain ⟨lo, hi, -, -, -, -, htext, -⟩ := Buffer.between_ok hok.point hm.point
      have he : ∃ t, ed.killWord = .ok { ed.setBuf b' with kill := t } := by
        unfold killWord
        simp only [buf!_ok.mpr hb, ok_bind, hx]
        rw [updateBuf_of_buf hb hb', ok_bind, htext]
        exact ⟨_, rfl⟩
      obtain ⟨t, he⟩ := he
      exact ⟨_, congrArg lift he, pushed_of_buffers b' rfl rfl (by rw [hed.frame]) noThis⟩
  | backwardKillWord =>
      obtain ⟨x, hx, hm, -⟩ := Buffer.backwardWord_ok hok.point
      obtain ⟨b', hb', hed⟩ := Buffer.deleteBetween_edited hs hm.point hok.point
      obtain ⟨lo, hi, -, -, -, -, htext, -⟩ := Buffer.between_ok hm.point hok.point
      have he : ∃ t, ed.backwardKillWord = .ok { ed.setBuf b' with kill := t } := by
        unfold backwardKillWord
        simp only [buf!_ok.mpr hb, ok_bind, hx]
        rw [updateBuf_of_buf hb hb', ok_bind, htext]
        exact ⟨_, rfl⟩
      obtain ⟨t, he⟩ := he
      exact ⟨_, congrArg lift he, pushed_of_buffers b' rfl rfl (by rw [hed.frame]) noThis⟩
  | killRegion =>
      obtain ⟨m, hm, hv⟩ := hregion rfl b hb
      obtain ⟨b', hb', hed⟩ := Buffer.deleteBetween_edited hs hv hok.point
      obtain ⟨lo, hi, -, -, -, -, htext, -⟩ := Buffer.between_ok hv hok.point
      have he : ∃ t, ed.killRegion = .ok { ed.setBuf { b' with mark := none } with kill := t } := by
        unfold killRegion withRegion
        simp only [buf!_ok.mpr hb, ok_bind, hm]
        rw [updateBuf_of_buf hb (by rw [hb', ok_bind]; rfl), ok_bind, htext]
        exact ⟨_, rfl⟩
      obtain ⟨t, he⟩ := he
      exact ⟨_, congrArg lift he, pushed_of_buffers { b' with mark := none } rfl rfl (by rw [hed.frame]) noThis⟩
  | yank =>
      have hmark : Buffer.Ok { b.snapshot with mark := some b.point } := ⟨hs.clean, hs.point, hs.undo⟩
      obtain ⟨b', hb', hed⟩ := Buffer.insert_edited hmark ed.kill
      exact ⟨_, congrArg lift (updateBuf_of_buf hb hb'), pushed_of_buffers b' rfl rfl (by rw [hed.frame]) noThis⟩
  | _ => cases hc

/-- Typing takes a snapshot unless it goes on. -/
theorem selfInsert_ok (hb : ed.buf = some b) (hok : b.Ok) (k : Str) : ∃ e b', ed.selfInsert k = .ok e ∧
    e.buf = some b' ∧ b'.undo = (if ed.last = some .selfInsert then b else b.snapshot).undo ∧
    e.this = some .selfInsert := by
  have hx : Buffer.Ok (if ed.last = some .selfInsert then b else b.snapshot) := by
    split_ifs
    · exact hok
    · exact Buffer.ok_snapshot hok
  obtain ⟨b', hb', hed⟩ := Buffer.insert_edited hx k
  refine ⟨{ ed.setBuf b' with this := some .selfInsert }, b', ?_, buf_setBuf ed b', by rw [hed.frame], rfl⟩
  unfold selfInsert edit
  rw [updateBuf_of_buf hb hb']
  rfl

theorem updateBuf_none {f : Buffer → Except Error Buffer} (h : ed.buf = none) :
    ed.updateBuf f = .error .outOfRange := by
  unfold updateBuf buf!
  rw [h]
  rfl

/-- Without a current buffer there is nothing to change. -/
theorem act_none (env : Env) (k : Str) (h : ed.buf = none) {a : Action}
    (ha : ed.TakesSnapshot a ∨ a = .command .undo) : ed.act env k (some a) = lift (.error .outOfRange) := by
  have hbang : ed.buf! = .error .outOfRange := by
    unfold buf!
    rw [h]
  cases a with
  | selfInsert t =>
      show lift (edit _ ed >>= _) = _
      unfold edit
      rw [updateBuf_none h]
      rfl
  | command c =>
      have hup {f : Buffer → Except Error Buffer} : lift (ed.updateBuf f) = lift (.error .outOfRange) := by
        rw [updateBuf_none h]
      have hbuf {f : Buffer → Except Error Editor} : lift (ed.buf! >>= f) = lift (.error .outOfRange) := by
        rw [hbang]
        rfl
      have hc : c.changes = true ∨ c = .undo := by
        rcases ha with ha | ha
        · exact .inl ha.1
        · cases ha
          exact .inr rfl
      cases c with
      | deleteChar | deleteBackwardChar | newline | openLine | indent | yank | undo => exact hup
      | killLine | killWord | backwardKillWord | killRegion => exact hbuf
      | _ => rcases hc with hc | hc <;> cases hc

theorem perform_of_ok {env : Env} {k : Str} {a : Action} (h : ed.cleared.act env k (some a) = lift (.ok e)) (s : Tty) :
    ed.perform env k (some a) s = .ok e.settle s := by
  unfold perform
  rw [h]
  rfl

theorem perform_of_error {env : Env} {k : Str} {a : Action}
    (h : ed.cleared.act env k (some a) = lift (.error .outOfRange)) (s : Tty) :
    ed.perform env k (some a) s =
      .ok (ed.cleared.message (str "Error: " ++ env.errorText .outOfRange)).settle s := by
  unfold perform
  rw [h]
  rfl

theorem settle_buf (ed : Editor) : ed.settle.buf = ed.buf := by
  unfold settle
  simp only
  split_ifs <;> rfl

theorem settle_last (ed : Editor) : ed.settle.last = ed.this := by
  unfold settle
  simp only
  split_ifs <;> rfl

/-- What a round of typing or of a command that takes a snapshot does. -/
theorem perform_takes (env : Env) (k : Str) (s : Tty) (hok : AllOk ed) (hb : ed.buf = some b) {a : Action}
    (ht : ed.TakesSnapshot a) : ∃ e b', ed.perform env k (some a) s = .ok e s ∧ e.buf = some b' ∧
      match a with
      | .selfInsert _ => e.last = some .selfInsert ∧
          b'.undo = (if ed.last = some .selfInsert then b else b.snapshot).undo
      | .command _ => e.last ≠ some .selfInsert ∧ b'.undo = b.snapshot.undo := by
  have hbok := hok.buf hb
  have hb₀ : ed.cleared.buf = some b := hb
  cases a with
  | selfInsert t =>
      obtain ⟨e, b', he, hbuf, hu, hthis⟩ := selfInsert_ok hb₀ hbok t
      have hact : ed.cleared.act env k (some (.selfInsert t)) = lift (.ok e) := congrArg lift he
      exact ⟨_, b', perform_of_ok hact s, (settle_buf e).trans hbuf, (settle_last e).trans hthis, hu⟩
  | command c =>
      obtain ⟨e, he, ⟨b', hbuf, hu⟩, hthis⟩ := exec_pushed env hb₀ hbok rfl ht
      have hact : ed.cleared.act env k (some (.command c)) = lift (.ok e) := he
      exact ⟨_, b', perform_of_ok hact s, (settle_buf e).trans hbuf, by rw [settle_last]; exact hthis, hu⟩

theorem perform_undo (env : Env) (k : Str) (s : Tty) (hb : ed.buf = some b) :
    ∃ e, ed.perform env k (some (.command .undo)) s = .ok e s ∧ e.buf = some b.undoOnce := by
  have hup : ed.cleared.undo = .ok (ed.cleared.setBuf b.undoOnce) := updateBuf_of_buf hb rfl
  have hact : ed.cleared.act env k (some (.command .undo)) = lift (.ok (ed.cleared.setBuf b.undoOnce)) :=
    congrArg lift hup
  exact ⟨_, perform_of_ok hact s, (settle_buf _).trans (buf_setBuf _ _)⟩

theorem perform_none (env : Env) (k : Str) (s : Tty) (h : ed.buf = none) {a : Action}
    (ha : ed.TakesSnapshot a ∨ a = .command .undo) :
    ∃ e, ed.perform env k (some a) s = .ok e s ∧ e.buf = none := by
  have h₀ : ed.cleared.buf = none := h
  have ha₀ : ed.cleared.TakesSnapshot a ∨ a = .command .undo := ha
  exact ⟨_, perform_of_error (act_none env k h₀ ha₀) s, (settle_buf _).trans h⟩

end Editor

/-- Rounds of the command loop with the actions `as`, each taken in a state where `P` allows it. -/
inductive Rounds (P : Editor → Action → Prop) : Editor → List Action → Editor → Prop
  | nil (ed : Editor) : Rounds P ed [] ed
  | cons {env : Env} {ed ed₁ ed₂ ed' : Editor} {k : Str} {a : Action} {as : List Action} {s s₁ s₂ : Tty}
      (hP : P ed a) (hnext : ed.nextCommand env s = .ok (ed₁, k, some a) s₁)
      (hr : ed₁.perform env k (some a) s₁ = .ok ed₂ s₂) (h : Rounds P ed₂ as ed') : Rounds P ed (a :: as) ed'

namespace Editor

variable {ed ed' e : Editor} {b b' b₀ : Buffer}

theorem Still.buf_rel (h : Still ed e) : Option.Rel Buffer.Scrolled ed.buf e.buf := by
  unfold buf
  rw [h.current]
  exact h.same ed.current

theorem Still.buf_some (h : Still ed e) (hb : ed.buf = some b) : ∃ b', e.buf = some b' ∧ b.Scrolled b' := by
  have hs := h.buf_rel
  rw [hb] at hs
  cases he : e.buf with
  | none =>
      rw [he] at hs
      cases hs
  | some b' =>
      rw [he] at hs
      cases hs with
      | some hsc => exact ⟨b', rfl, hsc⟩

theorem Still.buf_none (h : Still ed e) (hb : ed.buf = none) : e.buf = none := by
  have hs := h.buf_rel
  rw [hb] at hs
  cases he : e.buf with
  | none => rfl
  | some b' =>
      rw [he] at hs
      cases hs

theorem Still.takes (h : Still ed e) {a : Action} (ht : ed.TakesSnapshot a) : e.TakesSnapshot a := by
  cases a with
  | selfInsert t => trivial
  | command c =>
      obtain ⟨hc, hlast, hregion⟩ := ht
      refine ⟨hc, fun hed => h.last ▸ hlast hed, fun hk b' hb' => ?_⟩
      have hs := h.buf_rel
      rw [hb'] at hs
      obtain ⟨b, hb, hsc⟩ := rel_some hs
      obtain ⟨m, hm, hv⟩ := hregion hk b hb
      rw [hsc]
      exact ⟨m, hm, hv⟩

/-- A run of snapshots from `b₀` keeps the way back, one undo longer with each. -/
theorem behind_of_rounds {as : List Action} (h : Rounds TakesSnapshot ed as ed') (hok : AllOk ed)
    (hb : ed.buf = some b) (n : Nat) (typing : Bool) (hbehind : b₀.Behind n b)
    (hlast : ∀ t as', as = .selfInsert t :: as' → (typing = true ↔ ed.last = some .selfInsert))
    (hn : typing = true → n ≠ 0) (hmax : n + undosFor typing as ≤ Buffer.undoMax) :
    AllOk ed' ∧ ∃ b', ed'.buf = some b' ∧ b₀.Behind (n + undosFor typing as) b' := by
  induction h generalizing b n typing with
  | nil ed => exact ⟨hok, b, hb, hbehind⟩
  | @cons env ed ed₁ ed₂ ed' k a as s s₁ s₂ ht hnext hr h ih =>
      have hstill := gives_nextCommand _ _ _ _ _ hnext
      obtain ⟨b₁, hb₁, hsc⟩ := hstill.buf_some hb
      have hbehind₁ := hbehind.scrolled hsc
      have hok₁ := hstill.kin.allOk hok
      obtain ⟨e, b₂, he, hb₂, hpush⟩ := perform_takes env k s₁ hok₁ hb₁ (hstill.takes ht)
      rw [he] at hr
      cases hr
      have hok₂ := allOk_perform hok₁ he
      cases a with
      | selfInsert t =>
          obtain ⟨hlast₂, hu⟩ := hpush
          rw [hstill.last] at hu
          have hiff := hlast t as rfl
          unfold undosFor at hmax ⊢
          cases typing with
          | true =>
              obtain ⟨m, rfl⟩ := Nat.exists_eq_succ_of_ne_zero (hn rfl)
              rw [if_pos (hiff.mp rfl)] at hu
              rw [if_pos rfl, Nat.zero_add] at hmax ⊢
              exact ih hok₂ hb₂ (m + 1) true (hbehind₁.kept hu) (fun _ _ _ => ⟨fun _ => hlast₂, fun _ => rfl⟩)
                (fun _ => Nat.succ_ne_zero m) hmax
          | false =>
              rw [if_neg (fun hl => Bool.false_ne_true (hiff.mpr hl))] at hu
              rw [if_neg Bool.false_ne_true, ← Nat.add_assoc] at hmax ⊢
              exact ih hok₂ hb₂ (n + 1) true (hbehind₁.pushed (by omega) hu)
                (fun _ _ _ => ⟨fun _ => hlast₂, fun _ => rfl⟩) (fun _ => Nat.succ_ne_zero n) hmax
      | command c =>
          obtain ⟨hlast₂, hu⟩ := hpush
          unfold undosFor at hmax ⊢
          rw [← Nat.add_assoc] at hmax ⊢
          exact ih hok₂ hb₂ (n + 1) false (hbehind₁.pushed (by omega) hu)
            (fun _ _ _ => ⟨nofun, fun hl => absurd hl hlast₂⟩) nofun hmax

/-- Undos go the way back. -/
theorem spot_of_undos {P : Editor → Action → Prop} {n : Nat}
    (h : Rounds P ed (List.replicate n (.command .undo)) ed') (hb : ed.buf = some b) (hbehind : b₀.Behind n b) :
    ed'.spot = some (b₀.lines, b₀.point) := by
  induction n generalizing ed b with
  | zero =>
      cases h
      obtain ⟨hl, hp⟩ := hbehind
      unfold spot
      rw [hb, Option.map_some, hl, hp]
  | succ n ih =>
      rw [List.replicate_succ] at h
      cases h with
      | cons _ hnext hr h =>
          obtain ⟨b₁, hb₁, hsc⟩ := (gives_nextCommand _ _ _ _ _ hnext).buf_some hb
          obtain ⟨e, he, hb₂⟩ := perform_undo _ _ _ hb₁
          rw [he] at hr
          cases hr
          exact ih h hb₂ (hbehind.scrolled hsc).undoOnce

/-- Without a current buffer nothing happens. -/
theorem rounds_none {P : Editor → Action → Prop} {as : List Action} (h : Rounds P ed as ed') (hb : ed.buf = none)
    (hP : ∀ ed a, a ∈ as → P ed a → ed.TakesSnapshot a ∨ a = .command .undo) : ed'.buf = none := by
  induction h with
  | nil ed => exact hb
  | cons ht hnext hr h ih =>
      have hstill := gives_nextCommand _ _ _ _ _ hnext
      have ht₁ := (hP _ _ List.mem_cons_self ht).imp_left hstill.takes
      obtain ⟨e, he, hb₂⟩ := perform_none _ _ _ (hstill.buf_none hb) ht₁
      rw [he] at hr
      cases hr
      exact ih hb₂ fun ed a ha => hP ed a (List.mem_cons_of_mem _ ha)

end Editor

/-- Commands that take a snapshot come to their end, and as many undos as they and the runs of typing
among them, up to 200, bring back the text and point from before them. -/
theorem undone_of_reached (ed : Editor) (h : Reached (fun _ _ _ => True) ed) :
    (∀ a, ed.TakesSnapshot a ∨ a = .command .undo → ∀ env k s, ∃ e, ed.perform env k (some a) s = .ok e s) ∧
    ∀ as ed' ed'', Rounds Editor.TakesSnapshot ed as ed' →
      (∀ t as', as = .selfInsert t :: as' → ed.last ≠ some .selfInsert) → undosFor false as ≤ Buffer.undoMax →
      Rounds (fun _ _ => True) ed' (List.replicate (undosFor false as) (.command .undo)) ed'' →
      ed''.spot = ed.spot := by
  have hok : ed.AllOk := h.allOk
  refine ⟨fun a ha env k s => ?_, fun as ed' ed'' hrun hfirst hmax hundo => ?_⟩
  · cases hb : ed.buf with
    | none =>
        obtain ⟨e, he, -⟩ := Editor.perform_none env k s hb ha
        exact ⟨e, he⟩
    | some b =>
        rcases ha with ha | rfl
        · obtain ⟨e, b', he, -⟩ := Editor.perform_takes env k s hok hb ha
          exact ⟨e, he⟩
        · obtain ⟨e, he, -⟩ := Editor.perform_undo env k s hb
          exact ⟨e, he⟩
  · cases hb : ed.buf with
    | none =>
        have h₁ := Editor.rounds_none hrun hb fun _ _ _ ht => .inl ht
        have h₂ := Editor.rounds_none hundo h₁ fun _ a ha _ => .inr (List.eq_of_mem_replicate ha)
        unfold Editor.spot
        rw [hb, h₂]
    | some b =>
        have hzero : b.Behind 0 b := ⟨rfl, rfl⟩
        obtain ⟨-, b', hb', hbehind⟩ := Editor.behind_of_rounds hrun hok hb 0 false hzero
          (fun t as' has => ⟨nofun, fun hl => absurd hl (hfirst t as' has)⟩) nofun (by omega)
        rw [Nat.zero_add] at hbehind
        rw [Editor.spot_of_undos hundo hb' hbehind]
        unfold Editor.spot
        rw [hb]
        rfl

/-! ### Two runs -/

/-- The action of a round, and the state after it. -/
def Editor.step (env : Env) (ed : Editor) (s : Tty) : Option (Action × Editor) :=
  match ed.nextCommand env s with
  | .ok (ed₁, k, some a) s₁ =>
      match ed₁.perform env k (some a) s₁ with
      | .ok ed₂ _ => some (a, ed₂)
      | .error _ _ => none
  | _ => none

theorem Rounds.of_step {P : Editor → Action → Prop} {env : Env} {ed ed₁ ed' : Editor} {s : Tty} {a : Action}
    {as : List Action} (h : ed.step env s = some (a, ed₁)) (hP : P ed a) (hr : Rounds P ed₁ as ed') :
    Rounds P ed (a :: as) ed' := by
  unfold Editor.step at h
  split at h
  next ed₀ k a₀ s₁ hnext =>
    split at h
    next ed₂ s₂ hperform =>
      cases h
      exact .cons hP hnext hperform hr
    next => cases h
  next => cases h

/-- A round, an undo, and whether the text and point are back. -/
def backAfterUndo (env : Env) (ed : Editor) (s s' : Tty) : Option (Action × Action × Bool) := do
  let (a, ed') ← ed.step env s
  let (u, ed'') ← ed'.step env s'
  pure (a, u, decide (ed''.spot = ed.spot))

theorem backAfterUndo_some {env : Env} {ed : Editor} {s s' : Tty} {a u : Action} {back : Bool}
    (h : backAfterUndo env ed s s' = some (a, u, back)) : ∃ ed' ed'', ed.step env s = some (a, ed') ∧
      ed'.step env s' = some (u, ed'') ∧ back = decide (ed''.spot = ed.spot) := by
  unfold backAfterUndo at h
  obtain ⟨⟨a₁, ed'⟩, h₁, h⟩ := Option.bind_eq_some_iff.mp h
  obtain ⟨⟨u₁, ed''⟩, h₂, h⟩ := Option.bind_eq_some_iff.mp h
  cases h
  exact ⟨ed', ed'', h₁, h₂, rfl⟩

/-- A line killed in `*scratch*`, and the undo. -/
theorem undone_killLine : ∃ ed ed' ed'' : Editor, afterRounds bareEnv [] [] = some ed ∧
    Rounds Editor.TakesSnapshot ed [.command .killLine] ed' ∧
    Rounds (fun _ _ => True) ed' [.command .undo] ed'' ∧ ed''.spot = ed.spot := by
  obtain ⟨ed, hed, hrun⟩ := Option.any_eq_true .. |>.mp
    (show (afterRounds bareEnv [] []).any (fun ed => decide ((backAfterUndo bareEnv ed ⟨[str "C-k"], []⟩ ⟨[str "C-/"], []⟩).map
      (fun r => (r.1, r.2.1)) = some (.command .killLine, .command .undo))) = true by decide +kernel)
  obtain ⟨⟨a, u, back⟩, hback, heq⟩ := Option.map_eq_some_iff.mp (of_decide_eq_true hrun)
  cases heq
  obtain ⟨ed', ed'', h₁, h₂, -⟩ := backAfterUndo_some hback
  have hkill : Rounds Editor.TakesSnapshot ed [.command .killLine] ed' := .of_step h₁ ⟨rfl, nofun, nofun⟩ (.nil ed')
  have hundo : Rounds (fun _ _ => True) ed' [.command .undo] ed'' := .of_step h₂ trivial (.nil ed'')
  exact ⟨ed, ed', ed'', hed, hkill, hundo,
    (undone_of_reached ed (reached_afterRounds hed)).2 [.command .killLine] ed' ed'' hkill nofun (by decide) hundo⟩

/-- `indent` right after typing takes no snapshot: the undo takes back what was typed too. -/
theorem not_undone_indent : ∃ ed ed' ed'' : Editor, Reached (fun _ _ _ => True) ed ∧
    Rounds (fun _ _ => True) ed [.command .indent] ed' ∧
    Rounds (fun _ _ => True) ed' [.command .undo] ed'' ∧ ed''.spot ≠ ed.spot := by
  obtain ⟨ed, hed, hrun⟩ := Option.any_eq_true .. |>.mp
    (show (afterRounds bareEnv [] [⟨[['a']], []⟩]).any (fun ed => decide (backAfterUndo bareEnv ed ⟨[str "TAB"], []⟩
      ⟨[str "C-/"], []⟩ = some (.command .indent, .command .undo, false))) = true by decide +kernel)
  obtain ⟨ed', ed'', h₁, h₂, hback⟩ := backAfterUndo_some (of_decide_eq_true hrun)
  exact ⟨ed, ed', ed'', reached_afterRounds hed, .of_step h₁ trivial (.nil ed'), .of_step h₂ trivial (.nil ed''),
    of_decide_eq_false hback.symm⟩

end Beeros.Beermacs
