import Beeros.WmAgree
import Beeros.Interleave

/-! The calls of `beer.wm` made by several tasks. The atom `beer.wm/state` is read and swapped in single
steps; between two of them a task holds what it has read, and any other task may go on. -/

namespace Beeros.Wm

def OpenOpts.width (o : OpenOpts) : Int := 2 * border + o.cols * (o.scale * fontSize)
def OpenOpts.height (o : OpenOpts) : Int := border + tabH + border + o.rows * (o.scale * fontSize) + border

/-- `win` of `open!`. -/
def OpenOpts.window (o : OpenOpts) (n : Nat) (surf : Int) (s : State) : Window :=
  ⟨n, surf, place o.x n o.width s.width, place o.y n o.height s.height, o.width, o.height,
    o.title.getD ("repl " ++ toString n), true⟩

/-- `win` of `canvas!`. -/
def CanvasOpts.window (o : CanvasOpts) (n : Nat) (r : Gfx.Rect) (surf : Int) : Window :=
  ⟨n, surf, r.x, r.y, r.w, r.h, o.title.getD ("canvas " ++ toString n), !o.fullscreen⟩

namespace Tasks

open Interleave
open Gfx (SameMap gfxSurfaceFree gfxSurfaces)

inductive Call
  | focus (id : Nat)
  | openWindow (o : OpenOpts) (granted : Bool)
  | canvas (o : CanvasOpts) (granted granted' : Bool)
  | closeFocused
  | close (id : Nat)
  | move (id : Nat) (x y : Int)

/-- How far a task is in a call, and what it has read of the state. -/
inductive Stage
  | idle
  /-- `focus!`, before the read of `:focus` in `(focused)`. -/
  | focusStart (id : Nat)
  | focusOld (id : Nat) (focus : Option Nat)
  | focusWindow (id : Nat) (old : Option Window)
  | focusSwap (old : Option Window) (w : Window)
  | focusDraw (old : Option Window) (w : Window)
  /-- `restack!`, before the read of `:windows`. -/
  | restack
  | repaint (ws : List Window)
  /-- `open!`, before the read of `:next`. -/
  | openNext (o : OpenOpts) (granted : Bool)
  | openSurface (o : OpenOpts) (granted : Bool) (n : Nat)
  /-- `canvas!`, before the read of `:next`. -/
  | canvasNext (o : CanvasOpts) (granted granted' : Bool)
  | canvasSurface (o : CanvasOpts) (granted granted' : Bool) (n : Nat)
  | canvasDrawn (o : CanvasOpts) (granted' : Bool) (n : Nat) (r : Gfx.Rect) (scale : Int) (ws : Option Int)
  /-- `open!` and `canvas!`, before the `swap!` that adds the window. -/
  | addWindow (w : Window) (c : Option Canvas)
  /-- `(close!)`, before the read of `:focus` in `(focused)`. -/
  | closeFocused
  | closeFound (focus : Option Nat)
  /-- `(close! id)`, before the read of `:windows`. -/
  | closeWindow (id : Nat)
  | closeSwap (w : Window)
  | closeFree (w : Window)
  | closeTop
  | closeEmpty (top : Option Window)
  | moveSwap (id : Nat) (x y : Int)

def Call.start : Call → Stage
  | .focus id => .focusStart id
  | .openWindow o granted => .openNext o granted
  | .canvas o granted granted' => .canvasNext o granted granted'
  | .closeFocused => .closeFocused
  | .close id => .closeWindow id
  | .move id x y => .moveSwap id x y

/-- What a `swap!` did to the windows. -/
inductive Entry
  | opened (w : Window) (c : Option Canvas)
  | closed (w : Window)
  | moved (id : Nat) (x y : Int)

/-- The next step of a call: the rest of the call, the state and what happened to the windows. -/
def advance (font : Font) : Stage → State → Option (Stage × State × List Entry)
  | .idle, _ => none
  | .focusStart id, s => some (.focusOld id s.focus, s, [])
  | .focusOld id focus, s => some (.focusWindow id (focus.bind s.window), s, [])
  | .focusWindow id old, s =>
      match s.window id with
      | none => some (.idle, s, [])
      | some w => some (.focusSwap old w, s, [])
  | .focusSwap old w, s =>
      some (.focusDraw old w, { s with
        focus := some w.id
        windows := (s.windows.filter fun x => x.id ≠ w.id) ++ [w] }, [])
  | .focusDraw old w, s =>
      let g := match old with
        | some old => if old.id ≠ w.id then drawFrame font old false s.gfx else s.gfx
        | none => s.gfx
      some (.restack, { s with gfx := drawFrame font w true g }, [])
  | .restack, s => some (.repaint s.windows, s, [])
  | .repaint ws, s => some (.idle, { s with gfx := (Wm.restack { s with windows := ws }).gfx }, [])
  | .openNext o granted, s => some (.openSurface o granted s.next, s, [])
  | .openSurface o granted n, s =>
      match surface granted o.width o.height s.gfx with
      -- `wm: no free surface`
      | (none, g) => some (.idle, { s with gfx := g }, [])
      | (some surf, g) => some (.addWindow (o.window n surf s) none, { s with gfx := g }, [])
  | .canvasNext o granted granted', s =>
      -- a fullscreen canvas without size: the division by zero is thrown
      if o.fullscreen ∧ (o.w = 0 ∨ o.h = 0) then some (.idle, s, [])
      else some (.canvasSurface o granted granted' s.next, s, [])
  | .canvasSurface o granted granted' n, s =>
      let (r, scale) := canvasLayout o { s with next := n }
      let (ws, g) := surface granted r.w r.h s.gfx
      some (.canvasDrawn o granted' n r scale ws, { s with gfx := g }, [])
  | .canvasDrawn o granted' n r scale ws, s =>
      let (us, g) := surface granted' o.w o.h s.gfx
      match ws, us with
      | some ws, some us =>
          some (.addWindow (o.window n r ws) (some ⟨n, us, o.w, o.h, scale⟩), { s with gfx := g }, [])
      -- `wm: no free surface`; the other surface stays in use
      | _, _ => some (.idle, { s with gfx := g }, [])
  | .addWindow w c, s =>
      some (.focusStart w.id, { s with next := w.id + 1, windows := s.windows ++ [w] }, [.opened w c])
  | .closeFocused, s => some (.closeFound s.focus, s, [])
  | .closeFound focus, s =>
      match focus.bind s.window with
      | none => some (.idle, s, [])
      | some w => some (.closeWindow w.id, s, [])
  | .closeWindow id, s =>
      match s.window id with
      | none => some (.idle, s, [])
      | some w => some (.closeSwap w, s, [])
  | .closeSwap w, s =>
      some (.closeFree w, { s with
        windows := s.windows.filter fun x => x.id ≠ w.id
        focus := if s.focus ≠ some w.id then s.focus else none },
        (s.windows.filter fun x => x.id = w.id).map .closed)
  | .closeFree w, s => some (.closeTop, { s with gfx := gfxSurfaceFree w.surf s.gfx }, [])
  | .closeTop, s => some (.closeEmpty s.windows.getLast?, s, [])
  | .closeEmpty top, s =>
      match top, s.focus with
      | some top, none => some (.focusStart top.id, s, [])
      | _, _ => some (.restack, s, [])
  | .moveSwap id x y, s =>
      some (.idle, move id x y s, if s.windows.any fun w => w.id = id then [.moved id x y] else [])

section Advance

variable (font : Font) (s : State)

theorem advance_focusWindow (id : Nat) (old : Option Window) :
    advance font (.focusWindow id old) s =
      match s.window id with
      | none => some (.idle, s, [])
      | some w => some (.focusSwap old w, s, []) := rfl

theorem advance_openSurface (o : OpenOpts) (granted : Bool) (n : Nat) :
    advance font (.openSurface o granted n) s =
      match surface granted o.width o.height s.gfx with
      | (none, g) => some (.idle, { s with gfx := g }, [])
      | (some surf, g) => some (.addWindow (o.window n surf s) none, { s with gfx := g }, []) := rfl

theorem advance_canvasNext (o : CanvasOpts) (granted granted' : Bool) :
    advance font (.canvasNext o granted granted') s =
      if o.fullscreen ∧ (o.w = 0 ∨ o.h = 0) then some (.idle, s, [])
      else some (.canvasSurface o granted granted' s.next, s, []) := rfl

theorem advance_canvasSurface (o : CanvasOpts) (granted granted' : Bool) (n : Nat) :
    advance font (.canvasSurface o granted granted' n) s =
      let (r, scale) := canvasLayout o { s with next := n }
      let (ws, g) := surface granted r.w r.h s.gfx
      some (.canvasDrawn o granted' n r scale ws, { s with gfx := g }, []) := rfl

theorem advance_canvasDrawn (o : CanvasOpts) (granted' : Bool) (n : Nat) (r : Gfx.Rect) (scale : Int)
    (ws : Option Int) :
    advance font (.canvasDrawn o granted' n r scale ws) s =
      let (us, g) := surface granted' o.w o.h s.gfx
      match ws, us with
      | some ws, some us =>
          some (.addWindow (o.window n r ws) (some ⟨n, us, o.w, o.h, scale⟩), { s with gfx := g }, [])
      | _, _ => some (.idle, { s with gfx := g }, []) := rfl

theorem advance_closeFound (focus : Option Nat) :
    advance font (.closeFound focus) s =
      match focus.bind s.window with
      | none => some (.idle, s, [])
      | some w => some (.closeWindow w.id, s, []) := rfl

theorem advance_closeWindow (id : Nat) :
    advance font (.closeWindow id) s =
      match s.window id with
      | none => some (.idle, s, [])
      | some w => some (.closeSwap w, s, []) := rfl

theorem advance_closeEmpty (top : Option Window) :
    advance font (.closeEmpty top) s =
      match top, s.focus with
      | some top, none => some (.focusStart top.id, s, [])
      | _, _ => some (.restack, s, []) := rfl

end Advance

/-! ### A call without interruption -/

/-- The rest of a call, when no other task goes on. -/
inductive Ends (font : Font) : Stage → State → State → Prop
  | idle (s : State) : Ends font .idle s s
  | step {st st' : Stage} {s s' s'' : State} {es : List Entry} (h : advance font st s = some (st', s', es))
      (hrest : Ends font st' s' s'') : Ends font st s s''

def Call.exec (font : Font) : Call → State → State
  | .focus id => Wm.focus font id
  | .openWindow o granted => fun s => (Wm.openWindow font o granted s).2
  | .canvas o granted granted' => fun s => (openCanvas font o granted granted' s).2
  | .closeFocused => Wm.closeFocused font
  | .close id => Wm.close font id
  | .move id x y => Wm.move id x y

variable {font : Font}

theorem ends_restack (s : State) : Ends font .restack s (Wm.restack s) :=
  .step rfl (.step rfl (.idle _))

theorem ends_focus (id : Nat) (s : State) : Ends font (.focusStart id) s (Wm.focus font id s) := by
  refine .step rfl (.step rfl ?_)
  unfold Wm.focus
  cases hw : s.window id with
  | none =>
      have hstep : advance font (.focusWindow id s.focused) s = some (.idle, s, []) := by simp only [advance_focusWindow, hw]
      exact .step hstep (.idle s)
  | some w =>
      obtain ⟨-, rfl⟩ := mem_of_window hw
      have hstep : advance font (.focusWindow w.id s.focused) s = some (.focusSwap s.focused w, s, []) := by
        simp only [advance_focusWindow, hw]
      exact .step hstep (.step rfl (.step rfl (ends_restack _)))

theorem ends_close (id : Nat) (s : State) : Ends font (.closeWindow id) s (Wm.close font id s) := by
  unfold Wm.close
  cases hw : s.window id with
  | none =>
      have hstep : advance font (.closeWindow id) s = some (.idle, s, []) := by simp only [advance_closeWindow, hw]
      exact .step hstep (.idle s)
  | some w =>
      obtain ⟨-, rfl⟩ := mem_of_window hw
      have hstep : advance font (.closeWindow w.id) s = some (.closeSwap w, s, []) := by simp only [advance_closeWindow, hw]
      refine .step hstep (.step rfl (.step rfl (.step rfl ?_)))
      simp only
      generalize (if s.focus ≠ some w.id then s.focus else none) = focus
      cases htop : (s.windows.filter fun x => x.id ≠ w.id).getLast? with
      | none => exact .step rfl (ends_restack _)
      | some top =>
          cases focus with
          | none => exact .step rfl (ends_focus _ _)
          | some id => exact .step rfl (ends_restack _)

theorem ends_openWindow (o : OpenOpts) (granted : Bool) (s : State) :
    Ends font (.openNext o granted) s (Wm.openWindow font o granted s).2 := by
  refine .step rfl ?_
  unfold Wm.openWindow
  simp only
  split
  · rename_i g hnew
    have hstep : advance font (.openSurface o granted s.next) s = some (.idle, { s with gfx := g }, []) := by
      simp only [advance_openSurface, OpenOpts.width, OpenOpts.height, hnew]
    exact .step hstep (.idle _)
  · rename_i surf g hnew
    have hstep : advance font (.openSurface o granted s.next) s =
        some (.addWindow (o.window s.next surf s) none, { s with gfx := g }, []) := by
      simp only [advance_openSurface, OpenOpts.width, OpenOpts.height, hnew]
    exact .step hstep (.step rfl (ends_focus _ _))

theorem ends_canvas (o : CanvasOpts) (granted granted' : Bool) (s : State) :
    Ends font (.canvasNext o granted granted') s (openCanvas font o granted granted' s).2 := by
  unfold openCanvas
  by_cases hzero : o.fullscreen ∧ (o.w = 0 ∨ o.h = 0)
  · rw [if_pos hzero]
    have hstep : advance font (.canvasNext o granted granted') s = some (.idle, s, []) := if_pos hzero
    exact .step hstep (.idle _)
  · rw [if_neg hzero]
    have hstep : advance font (.canvasNext o granted granted') s =
        some (.canvasSurface o granted granted' s.next, s, []) := if_neg hzero
    refine .step hstep ?_
    rcases hlayout : canvasLayout o s with ⟨r, scale⟩
    rcases hws : surface granted r.w r.h s.gfx with ⟨ws, g⟩
    rcases hus : surface granted' o.w o.h g with ⟨us, g'⟩
    have hfirst : advance font (.canvasSurface o granted granted' s.next) s =
        some (.canvasDrawn o granted' s.next r scale ws, { s with gfx := g }, []) := by
      simp only [advance_canvasSurface, hlayout, hws]
    simp only [hws, hus]
    refine .step hfirst ?_
    cases ws with
    | none =>
        have hsecond : advance font (.canvasDrawn o granted' s.next r scale none) { s with gfx := g } =
            some (.idle, { s with gfx := g' }, []) := by simp only [advance_canvasDrawn, hus]
        exact .step hsecond (.idle _)
    | some ws =>
        cases us with
        | none =>
            have hsecond : advance font (.canvasDrawn o granted' s.next r scale (some ws)) { s with gfx := g } =
                some (.idle, { s with gfx := g' }, []) := by simp only [advance_canvasDrawn, hus]
            exact .step hsecond (.idle _)
        | some us =>
            have hsecond : advance font (.canvasDrawn o granted' s.next r scale (some ws)) { s with gfx := g } =
                some (.addWindow (o.window s.next r ws) (some ⟨s.next, us, o.w, o.h, scale⟩),
                  { s with gfx := g' }, []) := by
              simp only [advance_canvasDrawn, hus]
            exact .step hsecond (.step rfl (ends_focus _ _))

/-- A call that no other task comes between does what the call does alone. -/
theorem ends_exec (c : Call) (s : State) : Ends font c.start s (c.exec font s) := by
  cases c with
  | focus id => exact ends_focus id s
  | openWindow o granted => exact ends_openWindow o granted s
  | canvas o granted granted' => exact ends_canvas o granted granted' s
  | closeFocused =>
      refine .step rfl ?_
      show Ends font _ s (Wm.closeFocused font s)
      unfold Wm.closeFocused
      cases hw : s.focused with
      | none =>
          have hstep : advance font (.closeFound s.focus) s = some (.idle, s, []) := by
            unfold State.focused at hw
            simp only [advance_closeFound, hw]
          exact .step hstep (.idle s)
      | some w =>
          have hstep : advance font (.closeFound s.focus) s = some (.closeWindow w.id, s, []) := by
            unfold State.focused at hw
            simp only [advance_closeFound, hw]
          exact .step hstep (ends_close w.id s)
  | close id => exact ends_close id s
  | move id x y => exact .step rfl (.idle _)

/-! ### The kinds of steps -/

/-- The surfaces that a task has for the window it opens. -/
def Stage.held : Stage → List Int
  | .canvasDrawn _ _ _ _ _ ws => ws.toList
  | .addWindow w c => w.surf :: (c.map Canvas.surface).toList
  | _ => []

/-- The id that a task has read for the window it opens. -/
def Stage.number : Stage → Option Nat
  | .openSurface _ _ n => some n
  | .canvasSurface _ _ _ n => some n
  | .canvasDrawn _ _ n _ _ _ => some n
  | .addWindow w _ => some w.id
  | _ => none

/-- The window that a task is about to raise. -/
def Stage.found : Stage → Option Window
  | .focusSwap _ w => some w
  | _ => none

/-- What a step can do. -/
inductive Does (s : State) (st : Stage) : Stage → State → List Entry → Prop
  | read {st' : Stage} (hheld : st'.held = [])
      (hnumber : ∀ n, st'.number = some n → n = s.next ∨ st.number = some n)
      (hfound : ∀ w, st'.found = some w → s.window w.id = some w) : Does s st st' s []
  | draw {st' : Stage} {g : Gfx.State} (hheld : st'.held = []) (hnumber : st'.number = none)
      (hfound : st'.found = none)
      (hsame : ∀ i, (g.canvas.surfaces i).isSome = (s.gfx.canvas.surfaces i).isSome) :
      Does s st st' { s with gfx := g } []
  | surface {st' : Stage} {granted : Bool} {w h : Int} {us : Option Int} {g : Gfx.State}
      (hnew : surface granted w h s.gfx = (us, g))
      (hnodup : (∀ i, us = some i → i ∉ st.held) → st'.held.Nodup)
      (hheld : ∀ i ∈ st'.held, i ∈ st.held ∨ us = some i)
      (hnumber : ∀ n, st'.number = some n → st.number = some n) (hfound : st'.found = none) :
      Does s st st' { s with gfx := g } []
  | add {w : Window} {c : Option Canvas} (hst : st = .addWindow w c) :
      Does s st (.focusStart w.id) { s with next := w.id + 1, windows := s.windows ++ [w] } [.opened w c]
  | raise {old : Option Window} {w : Window} (hst : st = .focusSwap old w) :
      Does s st (.focusDraw old w) { s with
        focus := some w.id
        windows := (s.windows.filter fun x => x.id ≠ w.id) ++ [w] } []
  | remove (w : Window) : Does s st (.closeFree w) { s with
      windows := s.windows.filter fun x => x.id ≠ w.id
      focus := if s.focus ≠ some w.id then s.focus else none }
      ((s.windows.filter fun x => x.id = w.id).map .closed)
  | free {w : Window} (hst : st = .closeFree w) :
      Does s st .closeTop { s with gfx := gfxSurfaceFree w.surf s.gfx } []
  | move (id : Nat) (x y : Int) :
      Does s st .idle (move id x y s) (if s.windows.any fun w => w.id = id then [.moved id x y] else [])

/-- A step that knows nothing new. -/
theorem Does.nothing {s : State} {st st' : Stage} (hheld : st'.held = []) (hnumber : st'.number = none)
    (hfound : st'.found = none) : Does s st st' s [] := by
  refine .read hheld (fun n hn => ?_) fun w hw => ?_
  · rw [hnumber] at hn
    cases hn
  · rw [hfound] at hw
    cases hw

theorem own_surfaces (id : Int) (r : Gfx.Rect) (g : Gfx.State) :
    (Gfx.gfxOwn id r g).canvas.surfaces = g.canvas.surfaces := by
  unfold Gfx.gfxOwn Gfx.Canvas.own
  cases g.canvas.owner with
  | none => rfl
  | some own =>
      simp only
      split_ifs
      · rfl
      · split <;> rfl

theorem repaint_surfaces (ws : List Window) (s : State) (i : Int) :
    ((Wm.restack { s with windows := ws }).gfx.canvas.surfaces i).isSome = (s.gfx.canvas.surfaces i).isSome := by
  have hown : ∀ g : Gfx.State,
      (ws.foldl (fun g w => Gfx.gfxOwn w.surf w.rect g) g).canvas.surfaces = g.canvas.surfaces := by
    intro g
    induction ws generalizing g with
    | nil => rfl
    | cons w ws ih =>
        rw [List.foldl_cons, ih, own_surfaces]
  have hpaint := (sameMap_repaint { s with windows := ws } (ws.foldl (fun g w => Gfx.gfxOwn w.surf w.rect g)
    (Gfx.gfxOwn 0 ⟨0, 0, s.width, s.height⟩ s.gfx))).exists_iff i
  rw [hown, own_surfaces] at hpaint
  exact hpaint

theorem does_of_advance {st st' : Stage} {s s' : State} {es : List Entry}
    (h : advance font st s = some (st', s', es)) : Does s st st' s' es := by
  cases st with
  | idle => cases h
  | focusStart id =>
      cases h
      exact .nothing rfl rfl rfl
  | focusOld id focus =>
      cases h
      exact .nothing rfl rfl rfl
  | focusWindow id old =>
      cases hw : s.window id with
      | none =>
          simp only [advance_focusWindow, hw] at h
          cases h
          exact .nothing rfl rfl rfl
      | some w =>
          simp only [advance_focusWindow, hw] at h
          cases h
          refine .read rfl nofun fun w' hw' => ?_
          cases hw'
          rw [(mem_of_window hw).2]
          exact hw
  | focusSwap old w =>
      cases h
      exact .raise rfl
  | focusDraw old w =>
      cases h
      refine .draw rfl rfl rfl fun i => ?_
      refine ((sameMap_drawFrame font w true _).exists_iff i).trans ?_
      cases old with
      | none => rfl
      | some old =>
          simp only
          split_ifs
          · exact (sameMap_drawFrame font old false _).exists_iff i
          · rfl
  | restack =>
      cases h
      exact .nothing rfl rfl rfl
  | repaint ws =>
      cases h
      exact .draw rfl rfl rfl (repaint_surfaces ws s)
  | openNext o granted =>
      cases h
      exact .read rfl (fun n hn => Or.inl (Option.some.inj hn).symm) nofun
  | openSurface o granted n =>
      rcases hnew : surface granted o.width o.height s.gfx with ⟨us, g⟩
      cases us with
      | none =>
          simp only [advance_openSurface, hnew] at h
          cases h
          exact .surface hnew (fun _ => List.nodup_nil) nofun nofun rfl
      | some surf =>
          simp only [advance_openSurface, hnew] at h
          cases h
          refine .surface hnew (fun _ => List.nodup_singleton _) (fun i hi => ?_) (fun _ hn => hn) rfl
          rw [List.mem_singleton.mp hi]
          exact Or.inr rfl
  | canvasNext o granted granted' =>
      simp only [advance_canvasNext] at h
      split_ifs at h
      · cases h
        exact .nothing rfl rfl rfl
      · cases h
        exact .read rfl (fun n hn => Or.inl (Option.some.inj hn).symm) nofun
  | canvasSurface o granted granted' n =>
      rcases hlayout : canvasLayout o { s with next := n } with ⟨r, scale⟩
      rcases hnew : surface granted r.w r.h s.gfx with ⟨us, g⟩
      simp only [advance_canvasSurface, hlayout, hnew] at h
      cases h
      refine .surface hnew (fun _ => ?_) (fun i hi => Or.inr (Option.mem_toList.mp hi)) (fun _ hn => hn) rfl
      cases us with
      | none => exact List.nodup_nil
      | some i => exact List.nodup_singleton i
  | canvasDrawn o granted' n r scale ws =>
      rcases hnew : surface granted' o.w o.h s.gfx with ⟨us, g⟩
      cases ws with
      | none =>
          simp only [advance_canvasDrawn, hnew] at h
          cases h
          exact .surface hnew (fun _ => List.nodup_nil) nofun nofun rfl
      | some ws =>
          cases us with
          | none =>
              simp only [advance_canvasDrawn, hnew] at h
              cases h
              exact .surface hnew (fun _ => List.nodup_nil) nofun nofun rfl
          | some us =>
              simp only [advance_canvasDrawn, hnew] at h
              cases h
              refine .surface hnew (fun hfree => ?_) (fun i hi => ?_) (fun _ hn => hn) rfl
              · refine List.nodup_cons.mpr ⟨?_, List.nodup_singleton us⟩
                intro hmem
                exact hfree us rfl (List.mem_singleton.mpr (List.mem_singleton.mp hmem).symm)
              · rcases List.mem_cons.mp hi with rfl | hi
                · exact Or.inl List.mem_cons_self
                · exact Or.inr (congrArg some (List.mem_singleton.mp hi).symm)
  | addWindow w c =>
      cases h
      exact .add rfl
  | closeFocused =>
      cases h
      exact .nothing rfl rfl rfl
  | closeFound focus =>
      cases hw : focus.bind s.window with
      | none =>
          simp only [advance_closeFound, hw] at h
          cases h
          exact .nothing rfl rfl rfl
      | some w =>
          simp only [advance_closeFound, hw] at h
          cases h
          exact .nothing rfl rfl rfl
  | closeWindow id =>
      cases hw : s.window id with
      | none =>
          simp only [advance_closeWindow, hw] at h
          cases h
          exact .nothing rfl rfl rfl
      | some w =>
          simp only [advance_closeWindow, hw] at h
          cases h
          exact .nothing rfl rfl rfl
  | closeSwap w =>
      cases h
      exact .remove w
  | closeFree w =>
      cases h
      exact .free rfl
  | closeTop =>
      cases h
      exact .nothing rfl rfl rfl
  | closeEmpty top =>
      simp only [advance_closeEmpty] at h
      split at h
      · cases h
        exact .nothing rfl rfl rfl
      · cases h
        exact .nothing rfl rfl rfl
  | moveSwap id x y =>
      cases h
      exact .move id x y

/-! ### Several tasks -/

structure System where
  wm : State
  stage : Nat → Stage
  /-- What the `swap!`s did to the windows, the last one first. -/
  log : List Entry

inductive Event
  | call (task : Nat) (c : Call)
  /-- A task goes on by one step. -/
  | go (task : Nat)

def System.set (sys : System) (t : Nat) (r : Stage × State × List Entry) : System :=
  ⟨r.2.1, Function.update sys.stage t r.1, r.2.2 ++ sys.log⟩

def step (font : Font) : Event → System → Option System
  | .call t c, sys =>
      match sys.stage t with
      | .idle => some (sys.set t (c.start, sys.wm, []))
      | _ => none
  | .go t, sys => (advance font (sys.stage t) sys.wm).map (sys.set t)

/-- `beer.wm` loaded. -/
structure Booted (sys : System) : Prop where
  windows : sys.wm.windows = []
  stage : ∀ t, sys.stage t = .idle
  log : sys.log = []

def openedIds (log : List Entry) : List Nat :=
  log.filterMap fun | .opened w _ => some w.id | _ => none

def closedIds (log : List Entry) : List Nat :=
  log.filterMap fun | .closed w => some w.id | _ => none

/-- The canvases that were made. -/
def canvases (log : List Entry) : List Canvas :=
  log.filterMap fun | .opened _ c => c | _ => none

/-- Where an entry puts a window. -/
def Entry.place (id : Nat) : Entry → Option (Int × Int)
  | .opened w _ => if w.id = id then some (w.x, w.y) else none
  | .moved id' x y => if id' = id then some (x, y) else none
  | .closed _ => none

/-- Where a window was opened or last moved to. -/
def placeOf (id : Nat) (log : List Entry) : Option (Int × Int) := log.findSome? (Entry.place id)

/-- The surfaces of the windows, and those that canvases draw on. -/
def System.surfaces (sys : System) : List Int :=
  sys.wm.windows.map Window.surf ++ (canvases sys.log).map Canvas.surface

/-- The window list survives: ids are given once, what `close!` removes stays away, no surface is shared
and every window is where the last `move!` put it. -/
structure Sound (sys : System) : Prop where
  ids : (openedIds sys.log).Nodup
  gone : ∀ w ∈ sys.wm.windows, w.id ∉ closedIds sys.log
  surfs : sys.surfaces.Nodup
  placed : ∀ w ∈ sys.wm.windows, placeOf w.id sys.log = some (w.x, w.y)

/-- A window, a canvas or a task that opens a window has the surface. -/
def System.Holds (sys : System) (i : Int) : Prop :=
  i ∈ sys.surfaces ∨ ∃ t, i ∈ (sys.stage t).held

/-- What a task has read is still so when it changes something by it. -/
def Stage.Fresh (sys : System) : Stage → Prop
  | .addWindow w _ => w.id = sys.wm.next
  | .focusSwap _ w => sys.wm.window w.id = some w
  | .closeFree w => ¬ sys.Holds w.surf
  | _ => True

def Fresh : Event → System → Prop
  | .call _ _, _ => True
  | .go t, sys => (sys.stage t).Fresh sys

/-! ### The invariant -/

/-- The windows and what happened to them. -/
structure Listed (s : State) (log : List Entry) : Prop where
  ids : (openedIds log).Nodup
  id_lt : ∀ id ∈ openedIds log, id < s.next
  opened : ∀ w ∈ s.windows, w.id ∈ openedIds log
  nodup : (s.windows.map Window.id).Nodup
  closed : ∀ id ∈ closedIds log, id ∈ openedIds log
  gone : ∀ w ∈ s.windows, w.id ∉ closedIds log
  placed : ∀ w ∈ s.windows, placeOf w.id log = some (w.x, w.y)

/-- Every surface is that of one window, canvas or task. -/
structure Owned (sys : System) : Prop where
  surfs : sys.surfaces.Nodup
  inUse : ∀ i, sys.Holds i → InUse sys.wm.gfx.canvas i
  held : ∀ t, (sys.stage t).held.Nodup
  free : ∀ t, ∀ i ∈ (sys.stage t).held, i ∉ sys.surfaces
  apart : ∀ t t' i, i ∈ (sys.stage t).held → i ∈ (sys.stage t').held → t = t'

structure Inv (sys : System) : Prop where
  listed : Listed sys.wm sys.log
  owned : Owned sys

theorem Inv.sound {sys : System} (h : Inv sys) : Sound sys :=
  ⟨h.listed.ids, h.listed.gone, h.owned.surfs, h.listed.placed⟩

theorem inv_booted {sys : System} (h : Booted sys) : Inv sys := by
  have hheld : ∀ t i, i ∉ (sys.stage t).held := by
    intro t i
    rw [h.stage t]
    exact List.not_mem_nil
  have hsurfaces : sys.surfaces = [] := by
    unfold System.surfaces
    rw [h.windows, h.log]
    rfl
  have hwindows : ∀ w, w ∉ sys.wm.windows := by
    intro w
    rw [h.windows]
    exact List.not_mem_nil
  refine ⟨⟨?_, ?_, fun w hw => absurd hw (hwindows w), ?_, ?_, fun w hw => absurd hw (hwindows w),
    fun w hw => absurd hw (hwindows w)⟩, ?_, ?_, ?_, ?_, ?_⟩
  · rw [h.log]
    exact List.nodup_nil
  · rw [h.log]
    exact fun _ hid => absurd hid List.not_mem_nil
  · rw [h.windows]
    exact List.nodup_nil
  · rw [h.log]
    exact fun _ hid => absurd hid List.not_mem_nil
  · rw [hsurfaces]
    exact List.nodup_nil
  · rintro i (hi | ⟨t, hi⟩)
    · rw [hsurfaces] at hi
      exact absurd hi List.not_mem_nil
    · exact absurd hi (hheld t i)
  · intro t
    rw [h.stage t]
    exact List.nodup_nil
  · exact fun t i hi => absurd hi (hheld t i)
  · exact fun t _ i hi => absurd hi (hheld t i)

variable {sys sys' : System} {t : Nat} {st : Stage} {s : State} {es : List Entry}

theorem mem_held_set {t' : Nat} {i : Int} (hi : i ∈ ((sys.set t (st, s, es)).stage t').held) :
    t' = t ∧ i ∈ st.held ∨ t' ≠ t ∧ i ∈ (sys.stage t').held := by
  change i ∈ (Function.update sys.stage t st t').held at hi
  by_cases heq : t' = t
  · rw [heq, Function.update_self] at hi
    exact Or.inl ⟨heq, hi⟩
  · rw [Function.update_of_ne heq] at hi
    exact Or.inr ⟨heq, hi⟩

/-- A step after which the surfaces are those of before and perhaps some that the task had, or that are
new to it. -/
theorem Owned.set (h : Owned sys) (hsurfs : (sys.set t (st, s, es)).surfaces.Nodup)
    (hsub : ∀ i ∈ (sys.set t (st, s, es)).surfaces, i ∈ sys.surfaces ∨ i ∈ (sys.stage t).held ∧ i ∉ st.held)
    (huse : ∀ i, sys.Holds i → InUse s.gfx.canvas i) (hnodup : st.held.Nodup)
    (hheld : ∀ i ∈ st.held, i ∈ (sys.stage t).held ∨ ¬ sys.Holds i ∧ InUse s.gfx.canvas i) :
    Owned (sys.set t (st, s, es)) := by
  have hnot : ∀ i ∈ st.held, i ∉ sys.surfaces ∧ ∀ t' ≠ t, i ∉ (sys.stage t').held := by
    intro i hi
    rcases hheld i hi with hold | ⟨hnew, -⟩
    · exact ⟨h.free t i hold, fun t' hne hi' => hne (h.apart t' t i hi' hold)⟩
    · exact ⟨fun hi' => hnew (Or.inl hi'), fun t' _ hi' => hnew (Or.inr ⟨t', hi'⟩)⟩
  refine ⟨hsurfs, ?_, ?_, ?_, ?_⟩
  · rintro i (hi | ⟨t', hi⟩)
    · rcases hsub i hi with hold | ⟨hold, -⟩
      · exact huse i (Or.inl hold)
      · exact huse i (Or.inr ⟨t, hold⟩)
    · rcases mem_held_set hi with ⟨-, hi⟩ | ⟨-, hi⟩
      · rcases hheld i hi with hold | ⟨-, hnew⟩
        · exact huse i (Or.inr ⟨t, hold⟩)
        · exact hnew
      · exact huse i (Or.inr ⟨t', hi⟩)
  · intro t'
    show (Function.update sys.stage t st t').held.Nodup
    by_cases heq : t' = t
    · rw [heq, Function.update_self]
      exact hnodup
    · rw [Function.update_of_ne heq]
      exact h.held t'
  · intro t' i hi hsurf
    rcases mem_held_set hi with ⟨-, hi⟩ | ⟨hne, hi⟩
    · rcases hsub i hsurf with hold | ⟨-, hnew⟩
      · exact (hnot i hi).1 hold
      · exact hnew hi
    · rcases hsub i hsurf with hold | ⟨hold, -⟩
      · exact h.free t' i hi hold
      · exact hne (h.apart t' t i hi hold)
  · intro t₁ t₂ i h₁ h₂
    rcases mem_held_set h₁ with ⟨heq₁, hst₁⟩ | ⟨hne₁, hold₁⟩
    · rcases mem_held_set h₂ with ⟨heq₂, -⟩ | ⟨hne₂, hold₂⟩
      · rw [heq₁, heq₂]
      · exact absurd hold₂ ((hnot i hst₁).2 t₂ hne₂)
    · rcases mem_held_set h₂ with ⟨-, hst₂⟩ | ⟨-, hold₂⟩
      · exact absurd hold₁ ((hnot i hst₂).2 t₁ hne₁)
      · exact h.apart t₁ t₂ i hold₁ hold₂

/-- Windows that go or change places. -/
theorem Listed.sub {s s' : State} {log : List Entry} (h : Listed s log) (hnext : s'.next = s.next)
    (hsub : ∀ w ∈ s'.windows, w ∈ s.windows) (hnodup : (s'.windows.map Window.id).Nodup) : Listed s' log where
  ids := h.ids
  id_lt := by
    rw [hnext]
    exact h.id_lt
  opened w hw := h.opened w (hsub w hw)
  nodup := hnodup
  closed := h.closed
  gone w hw := h.gone w (hsub w hw)
  placed w hw := h.placed w (hsub w hw)

/-- A step that changes neither the windows nor what happened to them. -/
theorem Inv.quiet (h : Inv sys) (hwindows : s.windows = sys.wm.windows) (hnext : s.next = sys.wm.next)
    (huse : ∀ i, sys.Holds i → InUse s.gfx.canvas i) (hnodup : st.held.Nodup)
    (hheld : ∀ i ∈ st.held, i ∈ (sys.stage t).held ∨ ¬ sys.Holds i ∧ InUse s.gfx.canvas i) :
    Inv (sys.set t (st, s, [])) := by
  have hsurfaces : (sys.set t (st, s, [])).surfaces = sys.surfaces := by
    show s.windows.map Window.surf ++ _ = _
    rw [hwindows]
    rfl
  refine ⟨h.listed.sub hnext ?_ ?_, h.owned.set ?_ ?_ huse hnodup hheld⟩
  · intro w hw
    rw [← hwindows]
    exact hw
  · show (s.windows.map Window.id).Nodup
    rw [hwindows]
    exact h.listed.nodup
  · rw [hsurfaces]
    exact h.owned.surfs
  · rw [hsurfaces]
    exact fun i hi => Or.inl hi

/-- A read, or the end of a call. -/
theorem Inv.read (h : Inv sys) (hheld : st.held = []) : Inv (sys.set t (st, sys.wm, [])) := by
  refine h.quiet rfl rfl h.owned.inUse ?_ ?_
  · rw [hheld]
    exact List.nodup_nil
  · rw [hheld]
    exact fun i hi => absurd hi List.not_mem_nil

/-- Surfaces stay in use when something is drawn. -/
theorem Inv.drawn (h : Inv sys) (hheld : st.held = []) (hwindows : s.windows = sys.wm.windows)
    (hnext : s.next = sys.wm.next)
    (hdrawn : ∀ i, (s.gfx.canvas.surfaces i).isSome = (sys.wm.gfx.canvas.surfaces i).isSome) :
    Inv (sys.set t (st, s, [])) := by
  refine h.quiet hwindows hnext ?_ ?_ ?_
  · intro i hi
    have huse := h.owned.inUse i hi
    exact ⟨huse.pos, huse.lt, (hdrawn i).trans huse.exists_⟩
  · rw [hheld]
    exact List.nodup_nil
  · rw [hheld]
    exact fun i hi => absurd hi List.not_mem_nil

/-- A step that asks for a surface. -/
theorem Inv.surface (h : Inv sys) {granted : Bool} {w h' : Int} {us : Option Int} {g : Gfx.State}
    (hnew : surface granted w h' sys.wm.gfx = (us, g))
    (hnodup : (∀ i, us = some i → ¬ sys.Holds i) → st.held.Nodup)
    (hheld : ∀ i ∈ st.held, i ∈ (sys.stage t).held ∨ us = some i) :
    Inv (sys.set t (st, { sys.wm with gfx := g }, [])) := by
  rcases surface_cases granted w h' sys.wm.gfx with hnone | ⟨j, k, hlo, hhi, hfree, hsome⟩
  · rw [hnone] at hnew
    cases hnew
    refine h.quiet rfl rfl h.owned.inUse (hnodup (fun _ hi => by cases hi)) ?_
    intro i hi
    rcases hheld i hi with hold | hnew
    · exact Or.inl hold
    · cases hnew
  · rw [hsome] at hnew
    cases hnew
    have hfresh : ∀ i, some j = some i → ¬ sys.Holds i := by
      rintro i heq hi
      cases heq
      exact (h.owned.inUse j hi).ne_of_free hfree rfl
    refine h.quiet rfl rfl (fun i hi => (h.owned.inUse i hi).surfaceNew k) (hnodup hfresh) ?_
    intro i hi
    rcases hheld i hi with hold | hnew
    · exact Or.inl hold
    · refine Or.inr ⟨hfresh i hnew, ?_⟩
      cases hnew
      refine ⟨hlo, hhi, ?_⟩
      show (Function.update sys.wm.gfx.canvas.surfaces j (some k) j).isSome = true
      rw [Function.update_self]
      rfl

/-! ### The swaps -/

theorem Listed.add {log : List Entry} (h : Listed s log) {w : Window} (hid : w.id = s.next) (c : Option Canvas) :
    Listed { s with next := w.id + 1, windows := s.windows ++ [w] } (.opened w c :: log) := by
  have hnot : w.id ∉ openedIds log := by
    intro hmem
    have := h.id_lt _ hmem
    omega
  have hmem : ∀ w' ∈ s.windows ++ [w], w' ∈ s.windows ∧ w'.id ≠ w.id ∨ w' = w := by
    intro w' hw'
    rcases List.mem_append.mp hw' with hw' | hw'
    · refine Or.inl ⟨hw', ?_⟩
      intro heq
      exact hnot (heq ▸ h.opened w' hw')
    · exact Or.inr (List.mem_singleton.mp hw')
  refine ⟨List.nodup_cons.mpr ⟨hnot, h.ids⟩, ?_, ?_, ?_, ?_, ?_, ?_⟩
  · intro id hopened
    rcases List.mem_cons.mp hopened with rfl | hopened
    · exact Nat.lt_succ_self _
    · have := h.id_lt id hopened
      show id < w.id + 1
      omega
  · intro w' hw'
    rcases hmem w' hw' with ⟨hw', -⟩ | rfl
    · exact List.mem_cons_of_mem _ (h.opened w' hw')
    · exact List.mem_cons_self
  · show ((s.windows ++ [w]).map Window.id).Nodup
    rw [List.map_append, List.nodup_append]
    refine ⟨h.nodup, List.nodup_singleton _, ?_⟩
    intro i hi j hj
    obtain ⟨w', hw', rfl⟩ := List.mem_map.mp hi
    rw [List.map_singleton, List.mem_singleton] at hj
    rw [hj]
    intro heq
    exact hnot (heq ▸ h.opened w' hw')
  · exact fun id hid' => List.mem_cons_of_mem _ (h.closed id hid')
  · intro w' hw'
    rcases hmem w' hw' with ⟨hw', -⟩ | rfl
    · exact h.gone w' hw'
    · exact fun hclosed => hnot (h.closed _ hclosed)
  · intro w' hw'
    rcases hmem w' hw' with ⟨hw', hne⟩ | rfl
    · show (List.findSome? (Entry.place w'.id) (_ :: log)) = _
      rw [List.findSome?_cons]
      simp only [Entry.place, if_neg hne.symm]
      exact h.placed w' hw'
    · show (List.findSome? (Entry.place w'.id) (_ :: log)) = _
      rw [List.findSome?_cons]
      simp only [Entry.place, if_pos]

/-- A window is added under the next id. -/
theorem Inv.add (h : Inv sys) {w : Window} {c : Option Canvas} (hst : sys.stage t = .addWindow w c)
    (hid : w.id = sys.wm.next) :
    Inv (sys.set t (.focusStart w.id,
      { sys.wm with next := w.id + 1, windows := sys.wm.windows ++ [w] }, [.opened w c])) := by
  have hheld : (sys.stage t).held = w.surf :: (c.map Canvas.surface).toList := by rw [hst]; rfl
  have hperm : ((sys.wm.windows ++ [w]).map Window.surf ++
      (canvases (.opened w c :: sys.log)).map Canvas.surface).Perm ((sys.stage t).held ++ sys.surfaces) := by
    have hcanvases : (canvases (.opened w c :: sys.log)).map Canvas.surface =
        (c.map Canvas.surface).toList ++ (canvases sys.log).map Canvas.surface := by
      cases c <;> rfl
    rw [hcanvases, hheld, List.map_append, List.append_assoc, List.map_singleton, List.singleton_append,
      List.cons_append]
    refine List.perm_middle.trans (.cons _ ?_)
    unfold System.surfaces
    rw [← List.append_assoc, ← List.append_assoc]
    exact .append_right _ List.perm_append_comm
  refine ⟨h.listed.add hid c, h.owned.set ?_ ?_ h.owned.inUse List.nodup_nil ?_⟩
  · refine hperm.nodup_iff.mpr (List.nodup_append.mpr ⟨h.owned.held t, h.owned.surfs, ?_⟩)
    rintro i hi j hj rfl
    exact h.owned.free t i hi hj
  · intro i hi
    rcases List.mem_append.mp (hperm.mem_iff.mp hi) with hi | hi
    · exact Or.inr ⟨hi, List.not_mem_nil⟩
    · exact Or.inl hi
  · exact fun i hi => absurd hi List.not_mem_nil

/-- A window that is still as it was found is raised. -/
theorem Inv.raise (h : Inv sys) {old : Option Window} {w : Window} (hw : sys.wm.window w.id = some w) :
    Inv (sys.set t (.focusDraw old w, { sys.wm with
      focus := some w.id
      windows := (sys.wm.windows.filter fun x => x.id ≠ w.id) ++ [w] }, [])) := by
  have hperm := raise_perm h.listed.nodup (mem_of_window hw).1
  have hsurfaces : (sys.set t (.focusDraw old w, { sys.wm with
      focus := some w.id
      windows := (sys.wm.windows.filter fun x => x.id ≠ w.id) ++ [w] }, [])).surfaces.Perm sys.surfaces :=
    .append_right _ (hperm.map Window.surf)
  refine ⟨h.listed.sub rfl (fun x hx => hperm.mem_iff.mp hx) ?_,
    h.owned.set ?_ ?_ h.owned.inUse List.nodup_nil ?_⟩
  · exact (hperm.map Window.id).nodup_iff.mpr h.listed.nodup
  · exact hsurfaces.nodup_iff.mpr h.owned.surfs
  · exact fun i hi => Or.inl (hsurfaces.mem_iff.mp hi)
  · exact fun i hi => absurd hi List.not_mem_nil

theorem openedIds_closed (ws : List Window) (log : List Entry) :
    openedIds (ws.map .closed ++ log) = openedIds log := by
  induction ws with
  | nil => rfl
  | cons w ws ih => exact ih

theorem canvases_closed (ws : List Window) (log : List Entry) : canvases (ws.map .closed ++ log) = canvases log := by
  induction ws with
  | nil => rfl
  | cons w ws ih => exact ih

theorem closedIds_closed (ws : List Window) (log : List Entry) :
    closedIds (ws.map .closed ++ log) = ws.map Window.id ++ closedIds log := by
  induction ws with
  | nil => rfl
  | cons w ws ih => exact congrArg (w.id :: ·) ih

theorem placeOf_closed (id : Nat) (ws : List Window) (log : List Entry) :
    placeOf id (ws.map .closed ++ log) = placeOf id log := by
  induction ws with
  | nil => rfl
  | cons w ws ih => exact ih

/-- The windows with an id are removed. -/
theorem Inv.remove (h : Inv sys) (w : Window) :
    Inv (sys.set t (.closeFree w, { sys.wm with
      windows := sys.wm.windows.filter fun x => x.id ≠ w.id
      focus := if sys.wm.focus ≠ some w.id then sys.wm.focus else none },
      (sys.wm.windows.filter fun x => x.id = w.id).map .closed)) := by
  have hsub : (sys.wm.windows.filter fun x => x.id ≠ w.id).Sublist sys.wm.windows := List.filter_sublist
  refine ⟨⟨?_, ?_, ?_, ?_, ?_, ?_, ?_⟩, h.owned.set ?_ ?_ h.owned.inUse List.nodup_nil ?_⟩
  · show (openedIds (_ ++ _)).Nodup
    rw [openedIds_closed]
    exact h.listed.ids
  · show ∀ id ∈ openedIds (_ ++ _), _
    rw [openedIds_closed]
    exact h.listed.id_lt
  · show ∀ x : Window, x ∈ _ → x.id ∈ openedIds (_ ++ _)
    rw [openedIds_closed]
    exact fun x hx => h.listed.opened x (List.mem_of_mem_filter hx)
  · exact h.listed.nodup.sublist (hsub.map Window.id)
  · show ∀ id ∈ closedIds (_ ++ _), id ∈ openedIds (_ ++ _)
    rw [openedIds_closed, closedIds_closed]
    intro id hid
    rcases List.mem_append.mp hid with hid | hid
    · obtain ⟨x, hx, rfl⟩ := List.mem_map.mp hid
      exact h.listed.opened x (List.mem_of_mem_filter hx)
    · exact h.listed.closed id hid
  · show ∀ x : Window, x ∈ _ → x.id ∉ closedIds (_ ++ _)
    rw [closedIds_closed]
    intro x hx hid
    obtain ⟨hmem, hne⟩ := List.mem_filter.mp hx
    rcases List.mem_append.mp hid with hid | hid
    · obtain ⟨y, hy, heq⟩ := List.mem_map.mp hid
      have hyid := of_decide_eq_true (List.mem_filter.mp hy).2
      exact of_decide_eq_true hne (heq.symm.trans hyid)
    · exact h.listed.gone x hmem hid
  · show ∀ x : Window, x ∈ _ → placeOf x.id (_ ++ _) = _
    intro x hx
    rw [placeOf_closed]
    exact h.listed.placed x (List.mem_of_mem_filter hx)
  · show (_ ++ (canvases (_ ++ _)).map _).Nodup
    rw [canvases_closed]
    exact h.owned.surfs.sublist ((hsub.map Window.surf).append (.refl _))
  · show ∀ i ∈ _ ++ (canvases (_ ++ _)).map _, _
    rw [canvases_closed]
    exact fun i hi => Or.inl (((hsub.map Window.surf).append (.refl _)).subset hi)
  · exact fun i hi => absurd hi List.not_mem_nil

/-- What `move!` makes of a window. -/
def moved (id : Nat) (x y : Int) (w : Window) : Window := if w.id = id then { w with x := x, y := y } else w

theorem moved_id (id : Nat) (x y : Int) (w : Window) : (moved id x y w).id = w.id := by
  unfold moved
  split_ifs <;> rfl

theorem moved_surf (id : Nat) (x y : Int) (w : Window) : (moved id x y w).surf = w.surf := by
  unfold moved
  split_ifs <;> rfl

/-- The windows with an id are moved. -/
theorem Inv.move (h : Inv sys) (id : Nat) (x y : Int) :
    Inv (sys.set t (.idle, Wm.move id x y sys.wm,
      if sys.wm.windows.any fun w => w.id = id then [.moved id x y] else [])) := by
  have hids : (Wm.move id x y sys.wm).windows.map Window.id = sys.wm.windows.map Window.id := by
    show ((sys.wm.windows.map (moved id x y)).map Window.id) = _
    rw [List.map_map]
    exact List.map_congr_left fun w _ => moved_id id x y w
  have hsurfs : (Wm.move id x y sys.wm).windows.map Window.surf = sys.wm.windows.map Window.surf := by
    show ((sys.wm.windows.map (moved id x y)).map Window.surf) = _
    rw [List.map_map]
    exact List.map_congr_left fun w _ => moved_surf id x y w
  have hmem : ∀ w ∈ (Wm.move id x y sys.wm).windows, ∃ w' ∈ sys.wm.windows, w = moved id x y w' := by
    intro w hw
    obtain ⟨w', hw', rfl⟩ := List.mem_map.mp hw
    exact ⟨w', hw', rfl⟩
  -- the entry changes only where the windows with this id are
  generalize hes : (if sys.wm.windows.any fun w => w.id = id then [Entry.moved id x y] else []) = es
  have hopened : openedIds (es ++ sys.log) = openedIds sys.log := by
    rw [← hes]
    split_ifs <;> rfl
  have hclosed : closedIds (es ++ sys.log) = closedIds sys.log := by
    rw [← hes]
    split_ifs <;> rfl
  have hcanvases : canvases (es ++ sys.log) = canvases sys.log := by
    rw [← hes]
    split_ifs <;> rfl
  refine ⟨⟨?_, ?_, ?_, ?_, ?_, ?_, ?_⟩, h.owned.set ?_ ?_ h.owned.inUse List.nodup_nil ?_⟩
  · show (openedIds (es ++ sys.log)).Nodup
    rw [hopened]
    exact h.listed.ids
  · show ∀ id ∈ openedIds (es ++ sys.log), _
    rw [hopened]
    exact h.listed.id_lt
  · intro w hw
    obtain ⟨w', hw', rfl⟩ := hmem w hw
    show (moved id x y w').id ∈ openedIds (es ++ sys.log)
    rw [hopened, moved_id]
    exact h.listed.opened w' hw'
  · show ((Wm.move id x y sys.wm).windows.map Window.id).Nodup
    rw [hids]
    exact h.listed.nodup
  · show ∀ id ∈ closedIds (es ++ sys.log), id ∈ openedIds (es ++ sys.log)
    rw [hopened, hclosed]
    exact h.listed.closed
  · intro w hw
    obtain ⟨w', hw', rfl⟩ := hmem w hw
    show (moved id x y w').id ∉ closedIds (es ++ sys.log)
    rw [hclosed, moved_id]
    exact h.listed.gone w' hw'
  · intro w hw
    obtain ⟨w', hw', rfl⟩ := hmem w hw
    show placeOf (moved id x y w').id (es ++ sys.log) = _
    rw [moved_id]
    have hplaced := h.listed.placed w' hw'
    by_cases heq : w'.id = id
    · have hany : (sys.wm.windows.any fun w => w.id = id) = true :=
        List.any_eq_true.mpr ⟨w', hw', decide_eq_true heq⟩
      rw [← hes, if_pos hany]
      show List.findSome? (Entry.place w'.id) (.moved id x y :: sys.log) = _
      rw [List.findSome?_cons]
      unfold moved
      simp only [Entry.place, if_pos heq.symm, if_pos heq]
    · have hsame : placeOf w'.id (es ++ sys.log) = placeOf w'.id sys.log := by
        rw [← hes]
        split_ifs
        · show List.findSome? (Entry.place w'.id) (.moved id x y :: sys.log) = _
          rw [List.findSome?_cons]
          simp only [Entry.place, if_neg (Ne.symm heq)]
          rfl
        · rfl
      rw [hsame, hplaced]
      unfold moved
      rw [if_neg heq]
  · show ((Wm.move id x y sys.wm).windows.map Window.surf ++ (canvases (es ++ sys.log)).map _).Nodup
    rw [hsurfs, hcanvases]
    exact h.owned.surfs
  · show ∀ i ∈ (Wm.move id x y sys.wm).windows.map Window.surf ++ (canvases (es ++ sys.log)).map _, _
    rw [hsurfs, hcanvases]
    exact fun i hi => Or.inl hi
  · exact fun i hi => absurd hi List.not_mem_nil

/-- A surface that nothing has is freed. -/
theorem Inv.free (h : Inv sys) (hheld : st.held = []) {i : Int} (hfree : ¬ sys.Holds i) :
    Inv (sys.set t (st, { sys.wm with gfx := gfxSurfaceFree i sys.wm.gfx }, [])) := by
  refine h.quiet rfl rfl ?_ ?_ ?_
  · intro j hj
    refine (h.owned.inUse j hj).surfaceFree ?_
    rintro rfl
    exact hfree hj
  · rw [hheld]
    exact List.nodup_nil
  · rw [hheld]
    exact fun i hi => absurd hi List.not_mem_nil

/-- One step of a task. -/
theorem Inv.go (h : Inv sys) (hfresh : Fresh (.go t) sys) (hstep : step font (.go t) sys = some sys') :
    Inv sys' := by
  obtain ⟨⟨st', s', es⟩, hadvance, rfl⟩ := Option.map_eq_some_iff.mp hstep
  change (sys.stage t).Fresh sys at hfresh
  cases does_of_advance hadvance with
  | read hheld _ _ => exact h.read hheld
  | draw hheld _ _ hsame => exact h.drawn hheld rfl rfl hsame
  | surface hnew hnodup hheld _ _ =>
      refine h.surface hnew (fun hfree => hnodup fun i hi hmem => ?_) hheld
      exact hfree i hi (Or.inr ⟨t, hmem⟩)
  | add hst =>
      rw [hst] at hfresh
      exact h.add hst hfresh
  | raise hst =>
      rw [hst] at hfresh
      exact h.raise hfresh
  | remove w => exact h.remove w
  | free hst =>
      rw [hst] at hfresh
      exact h.free rfl hfresh
  | move id x y => exact h.move id x y

theorem start_held (c : Call) : c.start.held = [] := by cases c <;> rfl

theorem Inv.step {e : Event} (h : Inv sys) (hfresh : Fresh e sys) (hstep : step font e sys = some sys') :
    Inv sys' := by
  cases e with
  | go t => exact h.go hfresh hstep
  | call t c =>
      simp only [Tasks.step] at hstep
      split at hstep
      · cases hstep
        exact h.read (start_held c)
      · cases hstep

/-- Whatever the tasks' steps come to: as long as each changes the windows by what is still so, the window
list survives. -/
theorem sound_of_fresh_run {events : List Event} (hboot : Booted sys)
    (hrun : Run (step font) Fresh sys events sys') : Sound sys' :=
  (hrun.keeps (inv_booted hboot) fun _ _ _ _ hfresh hstep h => h.step hfresh hstep).sound

/-- A screen of one pixel, and no task in a call. -/
def bootTasks : System := ⟨bootSystem.wm, fun _ => .idle, []⟩

theorem booted_bootTasks : Booted bootTasks := ⟨rfl, fun _ => rfl, rfl⟩

/-- A window without room for text. -/
def smallWindow : Call := .openWindow { cols := 0, rows := 0 } true

theorem sound_moved : ∃ events sys', Run (step blank) Fresh bootTasks events sys' ∧
    sys'.wm.windows.map (fun w => (w.x, w.y)) = [(5, 5)] ∧ Sound sys' := by
  have hnil : Run (step blank) Fresh bootTasks [] bootTasks := .nil
  have hrun := hnil
    |>.snoc (e := Event.call 0 smallWindow) trivial rfl
    |>.snoc (e := Event.go 0) trivial rfl
    |>.snoc (e := Event.go 0) trivial rfl
    |>.snoc (e := Event.go 0) rfl rfl
    |>.snoc (e := Event.call 1 (.move 1 5 5)) trivial rfl
    |>.snoc (e := Event.go 1) trivial rfl
  exact ⟨_, _, hrun, rfl, sound_of_fresh_run booted_bootTasks hrun⟩

def steps (task : Nat) (n : Nat) : List Event := List.replicate n (.go task)

/-- Two tasks read the same next id. -/
def openedTogether : List Event :=
  [.call 0 smallWindow, .call 1 smallWindow] ++ steps 0 2 ++ steps 1 2 ++ steps 0 1 ++ steps 1 1

/-- A window is closed while another task is about to raise it; its surface goes to the next window. -/
def closedMeanwhile : List Event :=
  .call 0 smallWindow :: steps 0 10 ++ .call 0 (.focus 1) :: steps 0 3 ++ .call 1 (.close 1) :: steps 1 3 ++
    steps 0 1 ++ .call 2 smallWindow :: steps 2 3

/-- A window is moved while another task is about to raise it. -/
def movedMeanwhile : List Event :=
  .call 0 smallWindow :: steps 0 10 ++ .call 0 (.focus 1) :: steps 0 3 ++ .call 1 (.move 1 5 5) :: steps 1 1 ++
    steps 0 1

theorem exists_run (events : List Event) {α : Type} (f : System → α) (a : α)
    (h : (runEvents (step blank) bootTasks events).map f = some a) :
    ∃ sys', Run (step blank) (fun _ _ => True) bootTasks events sys' ∧ f sys' = a := by
  obtain ⟨sys', hrun, hf⟩ := Option.map_eq_some_iff.mp h
  exact ⟨sys', run_of_runEvents hrun, hf⟩

/-- Ids given twice; a closed window that is back and shares its surface; a move undone. -/
theorem not_sound_meanwhile :
    (∃ sys', Run (step blank) (fun _ _ => True) bootTasks openedTogether sys' ∧ ¬ (openedIds sys'.log).Nodup) ∧
    (∃ sys', Run (step blank) (fun _ _ => True) bootTasks closedMeanwhile sys' ∧
      (∃ w ∈ sys'.wm.windows, w.id ∈ closedIds sys'.log) ∧ ¬ (sys'.wm.windows.map Window.surf).Nodup) ∧
    ∃ sys', Run (step blank) (fun _ _ => True) bootTasks movedMeanwhile sys' ∧
      ∃ w ∈ sys'.wm.windows, placeOf w.id sys'.log ≠ some (w.x, w.y) := by
  refine ⟨?_, ?_, ?_⟩
  · obtain ⟨sys', hrun, hf⟩ := exists_run openedTogether (fun sys => openedIds sys.log) [1, 1]
      (by decide +kernel)
    refine ⟨sys', hrun, ?_⟩
    rw [hf]
    decide
  · obtain ⟨sys', hrun, hf⟩ := exists_run closedMeanwhile
      (fun sys => (sys.wm.windows.map Window.id, sys.wm.windows.map Window.surf, closedIds sys.log))
      ([1, 2], [1, 1], [1]) (by decide +kernel)
    simp only [Prod.mk.injEq] at hf
    obtain ⟨hids, hsurfs, hclosed⟩ := hf
    refine ⟨sys', hrun, ?_, ?_⟩
    · obtain ⟨w, hw, hid⟩ := List.mem_map.mp (hids ▸ List.mem_cons_self : 1 ∈ sys'.wm.windows.map Window.id)
      refine ⟨w, hw, ?_⟩
      rw [hid, hclosed]
      exact List.mem_cons_self
    · rw [hsurfs]
      decide
  · obtain ⟨sys', hrun, hf⟩ := exists_run movedMeanwhile
      (fun sys => sys.wm.windows.map fun w => (w.id, w.x, placeOf w.id sys.log)) [(1, 0, some (5, 5))]
      (by decide +kernel)
    obtain ⟨w, hw, heq⟩ := List.mem_map.mp (hf ▸ List.mem_cons_self :
      (1, 0, some (5, 5)) ∈ sys'.wm.windows.map fun w => (w.id, w.x, placeOf w.id sys'.log))
    simp only [Prod.mk.injEq] at heq
    obtain ⟨-, hx, hplace⟩ := heq
    refine ⟨sys', hrun, w, hw, ?_⟩
    rw [hplace, hx]
    simp

/-! ### What a stale step does -/

/-- What the tasks have read, and how it has aged. -/
structure Seen (sys : System) : Prop where
  number : ∀ t n, (sys.stage t).number = some n → n = sys.wm.next ∨ n ∈ openedIds sys.log
  found : ∀ t w, (sys.stage t).found = some w → w.id ∈ closedIds sys.log ∨
    ∃ w' ∈ sys.wm.windows, w'.id = w.id ∧ w = { w' with x := w.x, y := w.y }

theorem seen_booted (h : Booted sys) : Seen sys := by
  refine ⟨fun t n hn => ?_, fun t w hw => ?_⟩
  · rw [h.stage t] at hn
    cases hn
  · rw [h.stage t] at hw
    cases hw

theorem Seen.set (h : Seen sys)
    (hnext : ∀ n, n = sys.wm.next → n = s.next ∨ n ∈ openedIds (es ++ sys.log))
    (hopened : ∀ n ∈ openedIds sys.log, n ∈ openedIds (es ++ sys.log))
    (hclosed : ∀ n ∈ closedIds sys.log, n ∈ closedIds (es ++ sys.log))
    (hwindows : ∀ w ∈ sys.wm.windows, w.id ∈ closedIds (es ++ sys.log) ∨
      ∃ w' ∈ s.windows, w'.id = w.id ∧ w = { w' with x := w.x, y := w.y })
    (hnumber : ∀ n, st.number = some n → n = sys.wm.next ∨ (sys.stage t).number = some n)
    (hfound : ∀ w, st.found = some w → sys.wm.window w.id = some w) : Seen (sys.set t (st, s, es)) := by
  have hold : ∀ n, n = sys.wm.next ∨ n ∈ openedIds sys.log → n = s.next ∨ n ∈ openedIds (es ++ sys.log) := by
    rintro n (hn | hn)
    · exact hnext n hn
    · exact Or.inr (hopened n hn)
  refine ⟨?_, ?_⟩
  · intro t' n hn
    change (Function.update sys.stage t st t').number = some n at hn
    by_cases heq : t' = t
    · rw [heq, Function.update_self] at hn
      rcases hnumber n hn with hn | hn
      · exact hold n (Or.inl hn)
      · exact hold n (h.number t n hn)
    · rw [Function.update_of_ne heq] at hn
      exact hold n (h.number t' n hn)
  · intro t' w hw
    change (Function.update sys.stage t st t').found = some w at hw
    by_cases heq : t' = t
    · rw [heq, Function.update_self] at hw
      exact hwindows w (mem_of_window (hfound w hw)).1
    · rw [Function.update_of_ne heq] at hw
      rcases h.found t' w hw with hclosed' | ⟨w', hw', hid, hsame⟩
      · exact Or.inl (hclosed _ hclosed')
      · rcases hwindows w' hw' with hclosed' | ⟨w'', hw'', hid', hsame'⟩
        · rw [hid] at hclosed'
          exact Or.inl hclosed'
        · refine Or.inr ⟨w'', hw'', hid'.trans hid, ?_⟩
          rw [hsame, hsame']

theorem Seen.go (h : Seen sys) (hinv : Inv sys) (hfresh : Fresh (.go t) sys)
    (hstep : step font (.go t) sys = some sys') : Seen sys' := by
  obtain ⟨⟨st', s', es⟩, hadvance, rfl⟩ := Option.map_eq_some_iff.mp hstep
  change (sys.stage t).Fresh sys at hfresh
  have hsame : ∀ w ∈ sys.wm.windows, ∃ w' ∈ sys.wm.windows, w'.id = w.id ∧ w = { w' with x := w.x, y := w.y } :=
    fun w hw => ⟨w, hw, rfl, rfl⟩
  cases does_of_advance hadvance with
  | read _ hnumber hfound =>
      exact h.set (fun _ hn => Or.inl hn) (fun _ hn => hn) (fun _ hn => hn) (fun w hw => Or.inr (hsame w hw))
        hnumber hfound
  | draw _ hnumber hfound _ =>
      refine h.set (fun _ hn => Or.inl hn) (fun _ hn => hn) (fun _ hn => hn) (fun w hw => Or.inr (hsame w hw)) ?_ ?_
      · rw [hnumber]
        nofun
      · rw [hfound]
        nofun
  | surface _ _ _ hnumber hfound =>
      refine h.set (fun _ hn => Or.inl hn) (fun _ hn => hn) (fun _ hn => hn) (fun w hw => Or.inr (hsame w hw))
        (fun n hn => Or.inr (hnumber n hn)) ?_
      rw [hfound]
      nofun
  | @add w c hst =>
      rw [hst] at hfresh
      refine h.set ?_ (fun n hn => List.mem_cons_of_mem _ hn) (fun _ hn => hn) ?_ nofun nofun
      · rintro n rfl
        exact Or.inr (List.mem_cons.mpr (Or.inl hfresh.symm))
      · exact fun w' hw' => Or.inr ⟨w', List.mem_append_left _ hw', rfl, rfl⟩
  | @raise old w hst =>
      rw [hst] at hfresh
      have hperm := raise_perm hinv.listed.nodup (mem_of_window hfresh).1
      refine h.set (fun _ hn => Or.inl hn) (fun _ hn => hn) (fun _ hn => hn) ?_ nofun nofun
      exact fun w' hw' => Or.inr ⟨w', hperm.mem_iff.mpr hw', rfl, rfl⟩
  | remove w =>
      refine h.set (fun _ hn => Or.inl hn) ?_ ?_ ?_ nofun nofun
      · intro n hn
        rw [openedIds_closed]
        exact hn
      · intro n hn
        rw [closedIds_closed]
        exact List.mem_append_right _ hn
      · intro w' hw'
        by_cases heq : w'.id = w.id
        · left
          rw [closedIds_closed]
          exact List.mem_append_left _ (List.mem_map.mpr ⟨w', List.mem_filter.mpr ⟨hw', decide_eq_true heq⟩, rfl⟩)
        · exact Or.inr ⟨w', List.mem_filter.mpr ⟨hw', decide_eq_true heq⟩, rfl, rfl⟩
  | free hst =>
      exact h.set (fun _ hn => Or.inl hn) (fun _ hn => hn) (fun _ hn => hn) (fun w hw => Or.inr (hsame w hw))
        nofun nofun
  | move id x y =>
      refine h.set (fun _ hn => Or.inl hn) ?_ ?_ ?_ nofun nofun
      · intro n hn
        split_ifs <;> exact hn
      · intro n hn
        split_ifs <;> exact hn
      · intro w' hw'
        refine Or.inr ⟨moved id x y w', List.mem_map.mpr ⟨w', hw', rfl⟩, moved_id id x y w', ?_⟩
        unfold moved
        split_ifs <;> rfl

theorem start_number (c : Call) : c.start.number = none := by cases c <;> rfl

theorem start_found (c : Call) : c.start.found = none := by cases c <;> rfl

theorem Seen.step {e : Event} (h : Seen sys) (hinv : Inv sys) (hfresh : Fresh e sys)
    (hstep : step font e sys = some sys') : Seen sys' := by
  cases e with
  | go t => exact h.go hinv hfresh hstep
  | call t c =>
      simp only [Tasks.step] at hstep
      split at hstep
      · cases hstep
        refine h.set (fun _ hn => Or.inl hn) (fun _ hn => hn) (fun _ hn => hn)
          (fun w hw => Or.inr ⟨w, hw, rfl, rfl⟩) ?_ ?_
        · rw [start_number]
          nofun
        · rw [start_found]
          nofun
      · cases hstep

/-- An id that is no longer the next one is given twice. -/
theorem not_sound_add (h : Seen sys) {w : Window} {c : Option Canvas} (hst : sys.stage t = .addWindow w c)
    (hstale : w.id ≠ sys.wm.next) (hstep : step font (.go t) sys = some sys') : ¬ Sound sys' := by
  simp only [Tasks.step, hst] at hstep
  cases hstep
  intro hsound
  have hnumber : (sys.stage t).number = some w.id := by rw [hst]; rfl
  rcases h.number t w.id hnumber with heq | hopened
  · exact hstale heq
  · exact (List.nodup_cons.mp hsound.ids).1 hopened

/-- A window that was closed or moved since it was found comes back, or goes back. -/
theorem not_sound_raise (h : Seen sys) (hinv : Inv sys) {old : Option Window} {w : Window}
    (hst : sys.stage t = .focusSwap old w) (hstale : sys.wm.window w.id ≠ some w)
    (hstep : step font (.go t) sys = some sys') : ¬ Sound sys' := by
  simp only [Tasks.step, hst] at hstep
  cases hstep
  intro hsound
  have hmem : w ∈ (sys.wm.windows.filter fun x => x.id ≠ w.id) ++ [w] :=
    List.mem_append_right _ (List.mem_singleton_self w)
  have hfound : (sys.stage t).found = some w := by rw [hst]; rfl
  rcases h.found t w hfound with hclosed | ⟨w', hw', hid, hsame⟩
  · exact hsound.gone w hmem hclosed
  · have hplaced := hinv.listed.placed w' hw'
    have hplaced' : placeOf w.id sys.log = some (w.x, w.y) := hsound.placed w hmem
    rw [hid, hplaced'] at hplaced
    obtain ⟨hx, hy⟩ := Prod.mk.inj (Option.some.inj hplaced)
    have heq : w = w' := by rw [hsame, hx, hy]
    apply hstale
    rw [heq]
    exact window_of_mem hinv.listed.nodup hw'

/-- After a run in which nothing was stale, a `swap!` that adds or raises a window leaves the list sound
exactly when what the task has read is still so. -/
theorem sound_iff_fresh {events : List Event} (hboot : Booted sys) {sys₁ : System}
    (hrun : Run (step font) Fresh sys events sys₁) (hnotFree : ∀ w, sys₁.stage t ≠ .closeFree w)
    (hstep : step font (.go t) sys₁ = some sys') : Sound sys' ↔ Fresh (.go t) sys₁ := by
  have hboth : Inv sys₁ ∧ Seen sys₁ := by
    refine hrun.keeps (I := fun s => Inv s ∧ Seen s) ⟨inv_booted hboot, seen_booted hboot⟩ ?_
    exact fun _ _ _ _ hfresh hstep h => ⟨h.1.step hfresh hstep, h.2.step h.1 hfresh hstep⟩
  obtain ⟨hinv, hseen⟩ := hboth
  refine ⟨fun hsound => ?_, fun hfresh => (hinv.step hfresh hstep).sound⟩
  show (sys₁.stage t).Fresh sys₁
  cases hst : sys₁.stage t with
  | addWindow w c =>
      by_contra hstale
      exact not_sound_add hseen hst hstale hstep hsound
  | focusSwap old w =>
      by_contra hstale
      exact not_sound_raise hseen hinv hst hstale hstep hsound
  | closeFree w => exact absurd hst (hnotFree w)
  | _ => trivial

end Tasks

end Beeros.Wm
