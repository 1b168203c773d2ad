import Beeros.CInt
import Beeros.GfxOwner

/-! The window manager `beer.wm` (`rootfs/lib/beer/wm.beer`), run in one task: the vector of windows,
back to front, the focus, and the calls of `beer.gfx` that keep the owner map. Channels, terminals and
tasks are left out; they hold no window or surface. -/

namespace Beeros.Wm

open Gfx (Rect Color gfxOwn gfxOwnerAt gfxPresent gfxFillOwned gfxFillRectOn gfxBlitBitsOn gfxSurfaceNew
  gfxSurfaceFree)

def desktopColor : Color := 0x2E3440
def borderColor : Color := 0x000000
def tabFocused : Color := 0xE5C07B
def tabPlain : Color := 0x9097A0
def tabText : Color := 0x000000
def border : Int := 1
/-- Title tab: the 8x8 font plus 2 px above and below. -/
def tabH : Int := 12
/-- `(:width font)` and `(:height font)` of the built-in font. -/
def fontSize : Int := 8

structure Window where
  id : Nat
  surf : Int
  x : Int
  y : Int
  w : Int
  h : Int
  title : String
  frame : Bool

def Window.rect (w : Window) : Rect := ⟨w.x, w.y, w.w, w.h⟩

structure State where
  windows : List Window
  focus : Option Nat
  pointer : Int × Int
  drag : Option (Nat × Int × Int)
  next : Nat
  gfx : Gfx.State

def State.width (s : State) : Int := s.gfx.canvas.w
def State.height (s : State) : Int := s.gfx.canvas.h

/-- The rows of the glyph for a character. -/
abbrev Font := Char → Nat → UInt8

/-! ### Drawing a window's frame -/

def textOn (font : Font) (surf x y : Int) (text : String) (color : Color) (g : Gfx.State) : Gfx.State :=
  (text.toList.foldl (fun (gx : Gfx.State × Int) ch =>
    (gfxBlitBitsOn surf gx.2 y (font ch) 8 8 1 1 color (-1) gx.1, gx.2 + 8)) (g, x)).1

/-- `[x y size]` in window coordinates. -/
def closeBox (w : Window) : Int × Int × Int := (w.w - border - tabH, border, tabH)

def drawFrame (font : Font) (w : Window) (focused : Bool) (g : Gfx.State) : Gfx.State :=
  if w.frame = false then g
  else
    let (bx, by', bs) := closeBox w
    let tab := if focused then tabFocused else tabPlain
    let g := gfxFillRectOn w.surf ⟨0, 0, w.w, border⟩ borderColor g
    let g := gfxFillRectOn w.surf ⟨0, w.h - border, w.w, border⟩ borderColor g
    let g := gfxFillRectOn w.surf ⟨0, 0, border, w.h⟩ borderColor g
    let g := gfxFillRectOn w.surf ⟨w.w - border, 0, border, w.h⟩ borderColor g
    let g := gfxFillRectOn w.surf ⟨border, border, w.w - 2 * border, tabH⟩ tab g
    let g := gfxFillRectOn w.surf ⟨border, border + tabH, w.w - 2 * border, border⟩ borderColor g
    let g := textOn font w.surf (border + 4) (border + 2) w.title tabText g
    -- close box: a framed square with an x
    let g := gfxFillRectOn w.surf ⟨bx + 2, by' + 2, bs - 4, bs - 4⟩ tabText g
    let g := gfxFillRectOn w.surf ⟨bx + 3, by' + 3, bs - 6, bs - 6⟩ tab g
    Loop.forRange 0 (bs - 8) (fun i g =>
      let g := gfxFillRectOn w.surf ⟨bx + 4 + i, by' + 4 + i, 1, 1⟩ tabText g
      gfxFillRectOn w.surf ⟨bx + bs - 5 - i, by' + 4 + i, 1, 1⟩ tabText g) g

/-! ### Compositing -/

def State.window (s : State) (id : Nat) : Option Window := s.windows.find? fun w => w.id == id

def present (w : Window) (g : Gfx.State) : Gfx.State := gfxPresent w.surf 0 0 w.w w.h w.x w.y g

/-- Owner map back to front, then repaint the desktop and every window. -/
def restack (s : State) : State :=
  let g := gfxOwn 0 ⟨0, 0, s.width, s.height⟩ s.gfx
  let g := s.windows.foldl (fun g w => gfxOwn w.surf w.rect g) g
  let g := gfxFillOwned 0 ⟨0, 0, s.width, s.height⟩ desktopColor g
  let g := s.windows.foldl (fun g w => present w g) g
  { s with gfx := g }

/-! ### Windows -/

def State.focused (s : State) : Option Window := s.focus.bind s.window

/-- Raise window `id` to the top and give it the keyboard. -/
def focus (font : Font) (id : Nat) (s : State) : State :=
  match s.window id with
  | none => s
  | some w =>
      let g := match s.focused with
        | some old => if old.id ≠ id then drawFrame font old false s.gfx else s.gfx
        | none => s.gfx
      restack { s with
        focus := some id
        windows := (s.windows.filter fun x => x.id ≠ id) ++ [w]
        gfx := drawFrame font w true g }

/-- `(beer.gfx/surface w h)`, which passes the sizes on as `uint32_t`. -/
def surface (granted : Bool) (w h : Int) (g : Gfx.State) : Option Int × Gfx.State :=
  if w ≤ 0 ∨ h ≤ 0 then (none, g)
  else
    let (i, g) := gfxSurfaceNew granted (CInt.uint32 w) (CInt.uint32 h) g
    (if i < 0 then none else some i, g)

/-- What `open!` and `canvas!` throw: `wm: no free surface`, and the division by zero of a fullscreen
canvas without size. -/
inductive Thrown
  | noSurface
  | divideByZero

/-- The options of `open!` with those of `start!` merged in. -/
structure OpenOpts where
  scale : Int := 2
  cols : Int := 48
  rows : Int := 14
  x : Option Int := none
  y : Option Int := none
  title : Option String := none

/-- Where a window goes along one side of the screen. -/
def place (opt : Option Int) (n : Nat) (size room : Int) : Int :=
  max 0 (min (opt.getD (40 + 24 * ((n % 10 : Nat) : Int))) (room - size))

/-- `open!`; `granted`: does the heap have room for the surface. -/
def openWindow (font : Font) (o : OpenOpts) (granted : Bool) (s : State) : Except Thrown Nat × State :=
  let cw := o.scale * fontSize
  let ch := o.scale * fontSize
  let w := 2 * border + o.cols * cw
  let h := border + tabH + border + o.rows * ch + border
  let n := s.next
  match surface granted w h s.gfx with
  | (none, g) => (.error .noSurface, { s with gfx := g })
  | (some surf, g) =>
      let win : Window := ⟨n, surf, place o.x n w s.width, place o.y n h s.height, w, h,
        o.title.getD ("repl " ++ toString n), true⟩
      (.ok n, focus font n { s with next := n + 1, windows := s.windows ++ [win], gfx := g })

/-- `(close! id)`. -/
def close (font : Font) (id : Nat) (s : State) : State :=
  match s.window id with
  | none => s
  | some w =>
      let s := { s with
        windows := s.windows.filter fun x => x.id ≠ id
        focus := if s.focus ≠ some id then s.focus else none
        gfx := gfxSurfaceFree w.surf s.gfx }
      match s.windows.getLast?, s.focus with
      | some top, none => focus font top.id s
      | _, _ => restack s

/-- `(close!)`. -/
def closeFocused (font : Font) (s : State) : State :=
  match s.focused with
  | none => s
  | some w => close font w.id s

def nextWindow (font : Font) (s : State) : State :=
  match s.windows with
  | w :: _ :: _ => focus font w.id s
  | _ => s

def move (id : Nat) (x y : Int) (s : State) : State :=
  { s with windows := s.windows.map fun w => if w.id = id then { w with x := x, y := y } else w }

def dragTo (s : State) : State :=
  match s.drag with
  | none => s
  | some (id, ox, oy) => restack (move id (s.pointer.1 - ox) (s.pointer.2 - oy) s)

/-- The topmost window under `(x, y)`. -/
def State.windowAt (s : State) (x y : Int) : Option Window :=
  (s.windows.filter fun w => w.x ≤ x ∧ x < w.x + w.w ∧ w.y ≤ y ∧ y < w.y + w.h).getLast?

/-! ### Canvases: windows you draw in -/

/-- What `canvas!` returns. -/
structure Canvas where
  id : Nat
  surface : Int
  w : Int
  h : Int
  scale : Int

structure CanvasOpts where
  w : Int := 320
  h : Int := 200
  scale : Int := 2
  fullscreen : Bool := false
  x : Option Int := none
  y : Option Int := none
  title : Option String := none

/-- The rectangle of a canvas's window and the scale of its content. -/
def canvasLayout (o : CanvasOpts) (s : State) : Rect × Int :=
  if o.fullscreen then
    (⟨0, 0, s.width, s.height⟩, max 1 (min (s.width.tdiv o.w) (s.height.tdiv o.h)))
  else
    let w := 2 * border + o.scale * o.w
    let h := border + tabH + border + o.scale * o.h + border
    (⟨place o.x s.next w s.width, place o.y s.next h s.height, w, h⟩, o.scale)

/-- `canvas!`; `granted` and `granted'`: does the heap have room for the window's surface and for the one
to draw on. -/
def openCanvas (font : Font) (o : CanvasOpts) (granted granted' : Bool) (s : State) :
    Except Thrown Canvas × State :=
  if o.fullscreen ∧ (o.w = 0 ∨ o.h = 0) then (.error .divideByZero, s)
  else
    let (r, scale) := canvasLayout o s
    let n := s.next
    let (ws, g) := surface granted r.w r.h s.gfx
    let (us, g) := surface granted' o.w o.h g
    match ws, us with
    | some ws, some us =>
        let win : Window := ⟨n, ws, r.x, r.y, r.w, r.h, o.title.getD ("canvas " ++ toString n), !o.fullscreen⟩
        (.ok ⟨n, us, o.w, o.h, scale⟩,
          focus font n { s with next := n + 1, windows := s.windows ++ [win], gfx := g })
    | _, _ => (.error .noSurface, { s with gfx := g })

/-- Close canvas `c` (its window, if the WM hasn't already) and free its surface. -/
def closeCanvas (font : Font) (c : Canvas) (s : State) : State :=
  let s := if (s.window c.id).isSome then close font c.id s else s
  { s with gfx := gfxSurfaceFree c.surface s.gfx }

/-! ### Runs -/

/-- The window manager with the canvases it has returned, and which of them (by number) have been given
to `close-canvas!`. -/
structure System where
  wm : State
  canvases : List Canvas
  closed : List Nat

inductive Op
  | openWindow (o : OpenOpts) (granted : Bool)
  | canvas (o : CanvasOpts) (granted granted' : Bool)
  | close (id : Nat)
  | closeFocused
  | closeCanvas (k : Nat)
  | focus (id : Nat)
  | nextWindow
  | dragTo (pointer : Int × Int) (drag : Option (Nat × Int × Int))

def System.step (font : Font) (sys : System) : Op → System
  | .openWindow o granted => { sys with wm := (Wm.openWindow font o granted sys.wm).2 }
  | .canvas o granted granted' =>
      match openCanvas font o granted granted' sys.wm with
      | (.ok c, wm) => ⟨wm, sys.canvases ++ [c], sys.closed⟩
      | (.error _, wm) => { sys with wm := wm }
  | .close id => { sys with wm := Wm.close font id sys.wm }
  | .closeFocused => { sys with wm := Wm.closeFocused font sys.wm }
  | .closeCanvas k =>
      match sys.canvases[k]? with
      | none => sys
      | some c => ⟨Wm.closeCanvas font c sys.wm, sys.canvases, k :: sys.closed⟩
  | .focus id => { sys with wm := Wm.focus font id sys.wm }
  | .nextWindow => { sys with wm := Wm.nextWindow font sys.wm }
  -- where the pointer is and what it drags is up to the input
  | .dragTo pointer drag => { sys with wm := Wm.dragTo { sys.wm with pointer := pointer, drag := drag } }

def System.run (font : Font) (sys : System) (ops : List Op) : System := ops.foldl (System.step font) sys

/-- `beer.wm` loaded, on a screen without owners. -/
structure Booted (sys : System) : Prop where
  windows : sys.wm.windows = []
  focus : sys.wm.focus = none
  owner : sys.wm.gfx.canvas.owner = some fun _ => 0
  canvases : sys.canvases = []
  closed : sys.closed = []

/-- Stacking, focus and owner map agree. -/
structure Agrees (s : State) : Prop where
  owner : ∀ x y, 0 ≤ x → x < s.width → 0 ≤ y → y < s.height →
    gfxOwnerAt x y s.gfx = ((s.windowAt x y).map Window.surf).getD 0
  focus_none : s.focus = none ↔ s.windows = []
  focus_last : ∀ w, s.windows.getLast? = some w → s.focus = some w.id
  ids : (s.windows.map Window.id).Nodup
  surfs : (s.windows.map Window.surf).Nodup

/-- `close-canvas!` on a canvas that has its surface still, or whose surface number is not in use. -/
def OwnSurface (sys : System) : Op → Prop
  | .closeCanvas k => ∀ c, sys.canvases[k]? = some c →
      k ∉ sys.closed ∨ sys.wm.gfx.canvas.surfaces c.surface = none
  | _ => True

/-- Every operation of the run meets `P` in the state before it. -/
def Along (font : Font) (P : System → Op → Prop) : System → List Op → Prop
  | _, [] => True
  | sys, op :: ops => P sys op ∧ Along font P (sys.step font op) ops

end Beeros.Wm
