import Beeros.WmInput

/-! Dragging windows by their tabs in `beer.wm`. -/

namespace Beeros.Wm

open Gfx (Pos)
open Input (Event)

variable {font : Font} {scaled : Nat → Nat → Int → Int} {s s' s'' : State} {d : Desktop} {m : Manager} {w : Window}
  {c : Content} {op : Op}

/-- Between two states only window `i` may have moved, and what is dragged is the same. -/
structure Steady (i : Nat) (s s' : State) : Prop where
  drag : s'.drag = s.drag
  next : s.next ≤ s'.next
  windows : ∀ w' ∈ s'.windows, w'.id < s.next →
    ∃ w ∈ s.windows, w' = w ∨ w.id = i ∧ ∃ x y, w' = { w with x := x, y := y }

/-- The left button goes down or up. -/
def Act.Left : Act → Prop
  | .handle (.button _ b _) _ => b = .left
  | _ => False

/-- The point is on the tab of the window, beside the close box. -/
structure OnTab (w : Window) (p : Pos) : Prop where
  frame : w.frame = true
  tab : p.2 - w.y < border + tabH
  box : ¬((closeBox w).1 ≤ p.1 - w.x ∧ p.1 - w.x < (closeBox w).1 + (closeBox w).2.2 ∧
    (closeBox w).2.1 ≤ p.2 - w.y ∧ p.2 - w.y < (closeBox w).2.1 + (closeBox w).2.2)

section Drag

variable {i : Nat} {m' : Manager}

theorem Steady.refl (i : Nat) (s : State) : Steady i s s :=
  ⟨rfl, Nat.le_refl _, fun w hw _ => ⟨w, hw, Or.inl rfl⟩⟩

theorem Steady.trans (h : Steady i s s') (h' : Steady i s' s'') : Steady i s s'' := by
  refine ⟨h'.drag.trans h.drag, h.next.trans h'.next, fun w'' hw'' hid => ?_⟩
  obtain ⟨w', hw', hsame'⟩ := h'.windows w'' hw'' (hid.trans_le h.next)
  have hid' : w'.id = w''.id := by
    rcases hsame' with rfl | ⟨-, x, y, rfl⟩
    · rfl
    · rfl
  obtain ⟨w, hw, hsame⟩ := h.windows w' hw' (hid'.trans_lt hid)
  refine ⟨w, hw, ?_⟩
  rcases hsame' with rfl | ⟨hi, x, y, rfl⟩
  · exact hsame
  · rcases hsame with rfl | ⟨hi', x', y', rfl⟩
    · exact Or.inr ⟨hi, x, y, rfl⟩
    · exact Or.inr ⟨hi', x, y, rfl⟩

theorem Grown.steady {content content' : Nat → Option Content} (h : Grown s content s' content') (i : Nat) :
    Steady i s s' := by
  refine ⟨h.drag, h.next, fun w hw hid => ⟨w, ?_, Or.inl rfl⟩⟩
  rcases h.windows w hw with hold | ⟨hnew, -⟩
  · exact hold
  · exact absurd (hnew.1.trans_lt hid) (Nat.lt_irrefl _)

theorem steady_dragTo {o : Int × Int} (hdrag : s.drag = some (i, o)) : Steady i s (dragTo s) := by
  obtain ⟨-, hsame, -, -, hnext⟩ := Manager.dragTo_rest s
  refine ⟨hsame, Nat.le_of_eq hnext.symm, fun w hw _ => ?_⟩
  rcases Manager.mem_dragTo hw with ⟨hold, -⟩ | ⟨w', hw', o', ho', rfl⟩
  · exact ⟨w, hold, Or.inl rfl⟩
  · rw [hdrag, Option.some.injEq, Prod.mk.injEq] at ho'
    exact ⟨w', hw', Or.inr ⟨ho'.1.symm, _, _, rfl⟩⟩

namespace Manager

theorem steady_openWindow (h : m.desktop.Good) (o : OpenOpts) (granted : Bool) :
    Steady i m.wm (m.openWindow font o granted).wm := by
  have hgrown := (h.grown font (.openWindow o granted) (fun p drag heq => by cases heq) trivial).steady i
  unfold openWindow
  split
  · exact hgrown
  · exact hgrown

theorem steady_wmKeyDo (h : m.desktop.Good) (granted : Bool) (k : WmKey) :
    Steady i m.wm (m.wmKeyDo font granted k).wm := by
  cases k with
  | help =>
      show Steady i m.wm (m.raiseHelp font granted).wm
      unfold raiseHelp
      split
      · exact (grown_focus font _ m.wm m.desktop.content).steady i
      · dsimp only
        split_ifs
        · exact steady_openWindow h _ granted
        · exact steady_openWindow h _ granted
  | enter => exact steady_openWindow h _ granted
  | tab => exact (h.grown font .nextWindow (fun p drag heq => by cases heq) trivial).steady i
  | w => exact (h.grown font .closeFocused (fun p drag heq => by cases heq) trivial).steady i

theorem offer_wm (j : Nat) (t : Sent) (m : Manager) : (m.offer j t).wm = m.wm :=
  congrArg (fun d : Desktop => d.sys.wm) (offer_rest j t m).1

theorem canvasEvent_wm (w : Window) (ev : Int → Int → Sent) (m : Manager) : (m.canvasEvent w ev).wm = m.wm := by
  unfold canvasEvent
  split
  · exact offer_wm ..
  · rfl

theorem pointerMoved_wm (m : Manager) : m.pointerMoved.wm = m.wm := by
  unfold pointerMoved
  split
  · split_ifs
    · exact canvasEvent_wm ..
    · rfl
  · rfl

theorem steady_handle (h : m.desktop.Good) (ev : Event) (granted : Bool) (hleft : ¬(Act.handle ev granted).Left) :
    Steady i m.wm (m.handle font scaled ev granted).wm := by
  have hmoved (x y : Int) : Steady i m.wm (m.pointer x y).pointerMoved.wm := by
    rw [pointerMoved_wm]
    exact ⟨rfl, Nat.le_refl _, fun w hw _ => ⟨w, hw, Or.inl rfl⟩⟩
  have hsame {m' : Manager} (heq : m'.wm = m.wm) : Steady i m.wm m'.wm := by
    rw [heq]
    exact .refl i m.wm
  unfold handle
  cases ev with
  | key dev k code down repeated mods =>
      dsimp only
      split
      · exact steady_wmKeyDo h granted _
      · split
        · exact hsame (offer_wm ..)
        · exact .refl i m.wm
  | motion dev dx dy => exact hmoved _ _
  | abs dev x y mx my => exact hmoved _ _
  | button dev b down =>
      have hb : b ≠ .left := hleft
      dsimp only
      rw [if_neg fun hpress => hb hpress.1, if_neg fun hend => hb hend.1]
      split
      · split_ifs
        · exact hsame (canvasEvent_wm ..)
        · exact .refl i m.wm
      · exact .refl i m.wm
  | wheel dev delta =>
      dsimp only
      split
      · split_ifs
        · exact hsame (canvasEvent_wm ..)
        · exact .refl i m.wm
      · exact .refl i m.wm

theorem steady_step (h : m.desktop.Good) {o : Int × Int} (hdrag : m.wm.drag = some (i, o)) (a : Act)
    (ha : a.Careful m) (hleft : ¬a.Left) : Steady i m.wm (m.step font scaled a).wm := by
  cases a with
  | handle ev granted =>
      unfold step
      dsimp only
      split_ifs
      · exact .refl i m.wm
      · exact steady_handle h ev granted hleft
  | repaint =>
      unfold step
      dsimp only
      split_ifs
      · exact .refl i m.wm
      · exact steady_dragTo hdrag
  | call op =>
      rcases step_call font scaled op m with hsame | ⟨hop, hcall⟩
      · rw [hsame]
        exact .refl i m.wm
      · rw [hcall]
        unfold wm
        rw [(call_rest font op m).1]
        exact (h.grown font op hop ha.2).steady i
  | take id => exact .refl i m.wm

theorem steady_run (h : Sound m.desktop m.help) {o : Int × Int} (hdrag : m.wm.drag = some (i, o)) (acts : List Act)
    (hcareful : AllCareful font scaled m acts) (hleft : ∀ a ∈ acts, ¬a.Left) :
    Steady i m.wm (m.run font scaled acts).wm := by
  induction acts generalizing m with
  | nil => exact .refl i m.wm
  | cons a acts ih =>
      rw [List.forall_mem_cons] at hleft
      have hstep : Steady i m.wm (m.step font scaled a).wm := steady_step h.good hdrag a hcareful.1 hleft.1
      exact hstep.trans (ih (sound_step h a hcareful.1) (hstep.drag.trans hdrag) hcareful.2 hleft.2)

theorem ended_step (h : m.ended = true) (a : Act) : (m.step font scaled a).ended = true := by
  cases a with
  | handle ev granted =>
      unfold step
      dsimp only
      rw [if_pos h]
      exact h
  | repaint =>
      unfold step
      dsimp only
      split_ifs
      · exact h
      · exact h
  | call op =>
      rcases step_call font scaled op m with hsame | ⟨-, hcall⟩
      · rw [hsame]
        exact h
      · rw [hcall, (call_rest font op m).2.2.2]
        exact h
  | take id => exact h

theorem ended_run (h : m.ended = true) (acts : List Act) : (m.run font scaled acts).ended = true := by
  induction acts generalizing m with
  | nil => exact h
  | cons a acts ih => exact ih (ended_step h a)

theorem allCareful_append {acts acts' : List Act} (h : AllCareful font scaled m (acts ++ acts')) :
    AllCareful font scaled m acts ∧ AllCareful font scaled (m.run font scaled acts) acts' := by
  induction acts generalizing m with
  | nil => exact ⟨trivial, h⟩
  | cons a acts ih => exact ⟨⟨h.1, (ih h.2).1⟩, (ih h.2).2⟩

theorem onPress_tab (hat : m.wm.windowAt m.wm.pointer.1 m.wm.pointer.2 = some w) (htab : OnTab w m.wm.pointer)
    (granted : Bool) : m.onPress font granted =
      (m.call font (.focus w.id)).setDrag (some (w.id, m.wm.pointer.1 - w.x, m.wm.pointer.2 - w.y)) := by
  unfold onPress
  dsimp only
  rw [hat]
  dsimp only
  rw [if_neg fun hbox => htab.box hbox.2, if_pos ⟨htab.frame, htab.tab⟩]

end Manager

end Drag

/-- Where the window of `tiny` opens. -/
def tinyWindow : Window := ⟨1, 1, 18, 0, 2, 15, "repl 1", true⟩

end Beeros.Wm
