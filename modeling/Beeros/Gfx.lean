import Beeros.Loop

/-! `kernel/gfx.c` after `gfx_init`: the framebuffer, the off-screen surfaces, the owner map and the
software cursor. A pixel array is a function of the coordinates `(x, y)`; arguments are in range, so the
integers are exact. `calloc` may fail. -/

namespace Beeros.Gfx

open Loop

/-- `GFX_SURFACES`. -/
def gfxSurfaces : Int := 64

abbrev Pos := Int × Int
abbrev Color := UInt32

structure Target where
  px : Pos → Color
  w : Nat
  h : Nat

/-- What is drawn on: the framebuffer `g_fb` (surface 0, `g_w` times `g_h`), the other surfaces and the
owner map. -/
structure Canvas where
  fb : Pos → Color
  w : Nat
  h : Nat
  surfaces : Int → Option Target
  owner : Option (Pos → Int)

structure State where
  canvas : Canvas
  curX : Int
  curY : Int
  curShown : Bool
  curSaved : Int × Int → Color

/-! ### Pixels -/

/-- `target`: the size of a surface. -/
def Canvas.target (k : Canvas) (id : Int) : Option (Nat × Nat) :=
  if id < 0 ∨ gfxSurfaces ≤ id then none
  else if id = 0 then some (k.w, k.h)
  else (k.surfaces id).map fun t => (t.w, t.h)

def Canvas.get (k : Canvas) (id : Int) (p : Pos) : Color :=
  if id = 0 then k.fb p else ((k.surfaces id).map fun t => t.px p).getD 0

def Canvas.put (id : Int) (p : Pos) (c : Color) (k : Canvas) : Canvas :=
  if id = 0 then { k with fb := Function.update k.fb p c }
  else
    { k with
      surfaces := Function.update k.surfaces id
        ((k.surfaces id).map fun t => { t with px := Function.update t.px p c }) }

structure Rect where
  x : Int
  y : Int
  w : Int
  h : Int
deriving DecidableEq, Repr

/-- Clip to a `wMax` times `hMax` area; `none` if nothing is left. -/
def clip (r : Rect) (wMax hMax : Nat) : Option Rect :=
  let r := if r.x < 0 then { r with x := 0, w := r.w + r.x } else r
  let r := if r.y < 0 then { r with y := 0, h := r.h + r.y } else r
  let r := if r.x + r.w > wMax then { r with w := wMax - r.x } else r
  let r := if r.y + r.h > hMax then { r with h := hMax - r.y } else r
  if r.w > 0 ∧ r.h > 0 then some r else none

/-! ### The cursor -/

/-- `CUR_W`. -/
def curW : Int := 11
/-- `CUR_H`. -/
def curH : Int := 16

def cursorArt : List String := [
  "#          ",
  "##         ",
  "#.#        ",
  "#..#       ",
  "#...#      ",
  "#....#     ",
  "#.....#    ",
  "#......#   ",
  "#.......#  ",
  "#........# ",
  "#.....#####",
  "#..#..#    ",
  "#.# #..#   ",
  "##  #..#   ",
  "#    #..#  ",
  "      ##   "]

def art (r c : Int) : Char := ((cursorArt.getD r.toNat "").toList).getD c.toNat ' '

/-- A pixel under a character of the art. -/
def paint (a : Char) (old : Color) : Color := if a = '#' then 0x000000 else if a = '.' then 0xFFFFFF else old

def onScreen (k : Canvas) (p : Pos) : Prop := ¬ (p.1 < 0 ∨ p.2 < 0 ∨ p.1 ≥ k.w ∨ p.2 ≥ k.h)

instance (k : Canvas) (p : Pos) : Decidable (onScreen k p) := inferInstanceAs (Decidable (¬ _))

/-- The cells of the two loops over the rows and columns of the cursor. -/
def cells : List (Int × Int) :=
  (List.range curH.toNat).flatMap fun (r : Nat) =>
    (List.range curW.toNat).map fun (c : Nat) => ((r : Int), (c : Int))

def State.cellPos (g : State) (cell : Int × Int) : Pos := (g.curX + cell.2, g.curY + cell.1)

def cursorDraw (g : State) : State :=
  cells.foldl (fun g cell =>
    let p := g.cellPos cell
    if onScreen g.canvas p then
      { g with
        curSaved := Function.update g.curSaved cell (g.canvas.fb p)
        canvas := g.canvas.put 0 p (paint (art cell.1 cell.2) (g.canvas.fb p)) }
    else g) g

def cursorRestore (g : State) : State :=
  cells.foldl (fun g cell =>
    let p := g.cellPos cell
    if onScreen g.canvas p then { g with canvas := g.canvas.put 0 p (g.curSaved cell) } else g) g

/-- Whether a screen write to the rectangle overlaps the cursor. -/
def State.meets (g : State) (r : Rect) : Bool :=
  g.curShown && !(r.x ≥ g.curX + curW || r.y ≥ g.curY + curH || r.x + r.w ≤ g.curX || r.y + r.h ≤ g.curY)

def cursorHideFor (r : Rect) (g : State) : Bool × State :=
  if g.meets r then (true, cursorRestore g) else (false, g)

def cursorShowAgain (hidden : Bool) (g : State) : State := if hidden then cursorDraw g else g

def gfxCursor (x y : Int) (shown : Bool) (g : State) : State :=
  let g := if g.curShown then cursorRestore g else g
  let g := { g with curX := x, curY := y, curShown := shown }
  if shown then cursorDraw g else g

/-- `id == 0 && cursor_hide_for(r)`. -/
def hideOn (id : Int) (r : Rect) (g : State) : Bool × State :=
  if id = 0 then cursorHideFor r g else (false, g)

/-- Draw on surface `id` inside `r`, the cursor out of the way if `id` is the screen. -/
def drawOn (id : Int) (r : Rect) (draw : Canvas → Canvas) (g : State) : State :=
  let (hid, g) := hideOn id r g
  cursorShowAgain hid { g with canvas := draw g.canvas }

/-! ### Surfaces and the owner map -/

def Canvas.surfaceNew (granted : Bool) (w h : Nat) (k : Canvas) : Int × Canvas :=
  if w = 0 ∨ h = 0 then (-1, k)
  else
    match (List.range gfxSurfaces.toNat).find? fun (i : Nat) => 1 ≤ i && (k.surfaces i).isNone with
    | none => (-1, k)
    | some i =>
        if granted then
          (i, { k with surfaces := Function.update k.surfaces i (some ⟨fun _ => 0, w, h⟩) })
        else (-1, k)

/-- `gfx_surface_new`; `granted`: does `calloc` find the memory. -/
def gfxSurfaceNew (granted : Bool) (w h : Nat) (g : State) : Int × State :=
  ((g.canvas.surfaceNew granted w h).1, { g with canvas := (g.canvas.surfaceNew granted w h).2 })

def Canvas.surfaceFree (id : Int) (k : Canvas) : Canvas :=
  if id ≤ 0 ∨ id ≥ gfxSurfaces ∨ (k.surfaces id).isNone then k
  else
    { k with
      surfaces := Function.update k.surfaces id none
      owner := k.owner.map fun own p => if onScreen k p ∧ own p = id then 0 else own p }

def gfxSurfaceFree (id : Int) (g : State) : State := { g with canvas := g.canvas.surfaceFree id }

/-- `memset` of the row `y` from `x` on. -/
def ownRow (id x y w : Int) (own : Pos → Int) : Pos → Int :=
  forRange 0 w (fun c own => Function.update own (x + c, y) id) own

def Canvas.own (id : Int) (r : Rect) (k : Canvas) : Canvas :=
  match k.owner with
  | none => k
  | some own =>
      if id < 0 ∨ id ≥ gfxSurfaces then k
      else
        match clip r k.w k.h with
        | none => k
        | some r =>
            { k with owner := some (forRange r.y (r.y + r.h) (fun row own => ownRow id r.x row r.w own) own) }

def gfxOwn (id : Int) (r : Rect) (g : State) : State := { g with canvas := g.canvas.own id r }

def Canvas.ownerAt (x y : Int) (k : Canvas) : Int :=
  match k.owner with
  | none => -1
  | some own => if x < 0 ∨ y < 0 ∨ x ≥ k.w ∨ y ≥ k.h then -1 else own (x, y)

def gfxOwnerAt (x y : Int) (g : State) : Int := g.canvas.ownerAt x y

/-! ### Drawing -/

def gfxFillRectOn (id : Int) (r : Rect) (color : Color) (g : State) : State :=
  match g.canvas.target id with
  | none => g
  | some (tw, th) =>
      match clip r tw th with
      | none => g
      | some r =>
          drawOn id r (forRange r.y (r.y + r.h) fun row =>
            forRange 0 r.w fun col => Canvas.put id (r.x + col, row) color) g

/-- The bit of a bitmap whose rows are `stride` bytes long, the leftmost pixel first. -/
def bitAt (bits : Nat → UInt8) (stride r c : Nat) : Bool :=
  bits (r * stride + c / 8) &&& (0x80 >>> UInt8.ofNat (c % 8)) != 0

def gfxBlitBitsOn (id x y : Int) (bits : Nat → UInt8) (w h stride scale : Nat) (fg : Color) (bg : Int)
    (g : State) : State :=
  match g.canvas.target id with
  | none => g
  | some (tw, th) =>
      if scale = 0 then g
      else
        drawOn id ⟨x, y, w * scale, h * scale⟩ (forRange 0 h fun r => forRange 0 scale fun sy k =>
          let py := y + r * scale + sy
          if py < 0 ∨ py ≥ th then k
          else
            forRange 0 w (fun c k =>
              let on := bitAt bits stride r.toNat c.toNat
              if !on && bg < 0 then k
              else
                forRange 0 scale (fun sx k =>
                  let px := x + c * scale + sx
                  if px ≥ 0 ∧ px < tw then k.put id (px, py) (if on then fg else UInt32.ofInt bg) else k) k)
              k) g

/-- `memmove` of `w` pixels inside a surface: all are read before the first is written. -/
def moveRow (id sx sy dx dy : Int) (w : Nat) (k : Canvas) : Canvas :=
  let row := (List.range w).map fun (i : Nat) => k.get id (sx + i, sy)
  forRange 0 w (fun i => Canvas.put id (dx + i, dy) (row.getD i.toNat 0)) k

def gfxCopyRectOn (id : Int) (sx sy w h dx dy : Nat) (g : State) : State :=
  match g.canvas.target id with
  | none => g
  | some (tw, th) =>
      if sx ≥ tw ∨ sy ≥ th ∨ dx ≥ tw ∨ dy ≥ th then g
      else
        let w := if max sx dx + w > tw then tw - max sx dx else w
        let h := if max sy dy + h > th then th - max sy dy else h
        let (hid₁, g) := hideOn id ⟨sx, sy, w, h⟩ g
        let (hid₂, g) := hideOn id ⟨dx, dy, w, h⟩ g
        cursorShowAgain (hid₁ || hid₂) { g with canvas := forRange 0 h (fun i k =>
          -- rows in the order that doesn't overwrite rows still to be copied
          let r := if dy > sy then h - 1 - i else i
          moveRow id sx (sy + r) dx (dy + r) w k) g.canvas }

def gfxSetPixel (x y : Nat) (color : Color) (g : State) : State :=
  if x ≥ g.canvas.w ∨ y ≥ g.canvas.h then g
  else drawOn 0 ⟨x, y, 1, 1⟩ (Canvas.put 0 (x, y) color) g

def gfxPresent (id sx sy w h dx dy : Int) (g : State) : State :=
  match g.canvas.target id, g.canvas.owner with
  | some (sw, sh), some _ =>
      if id = 0 then g
      else
        match clip ⟨sx, sy, w, h⟩ sw sh with
        | none => g
        | some s =>
            let dx := dx + (s.x - sx)
            let dy := dy + (s.y - sy)
            match clip ⟨dx, dy, s.w, s.h⟩ g.canvas.w g.canvas.h with
            | none => g
            | some d =>
                let sx := s.x + (d.x - dx)
                let sy := s.y + (d.y - dy)
                drawOn 0 d (forRange 0 d.h fun r => forRange 0 d.w fun c k =>
                  if k.owner.map (fun own => own (d.x + c, d.y + r)) = some id then
                    k.put 0 (d.x + c, d.y + r) (k.get id (sx + c, sy + r))
                  else k) g
  | _, _ => g

def gfxFillOwned (id : Int) (r : Rect) (color : Color) (g : State) : State :=
  match g.canvas.owner with
  | none => g
  | some _ =>
      match clip r g.canvas.w g.canvas.h with
      | none => g
      | some r =>
          drawOn 0 r (forRange r.y (r.y + r.h) fun row => forRange r.x (r.x + r.w) fun c k =>
            if k.owner.map (fun own => own (c, row)) = some id then k.put 0 (c, row) color else k) g

/-- The 32-bit word at a byte offset, least byte first. -/
def wordAt (px : Int → UInt8) (off : Int) : Color :=
  (px off).toUInt32 ||| (px (off + 1)).toUInt32 <<< 8 ||| (px (off + 2)).toUInt32 <<< 16 |||
    (px (off + 3)).toUInt32 <<< 24

def gfxBlitPixelsOn (id x y : Int) (px : Int → UInt8) (w h stride key : Int) (g : State) : State :=
  match g.canvas.target id with
  | none => g
  | some (tw, th) =>
      match clip ⟨x, y, w, h⟩ tw th with
      | none => g
      | some r =>
          let off := (r.y - y) * stride + (r.x - x) * 4
          drawOn id r (forRange 0 r.h fun row => forRange 0 r.w fun c k =>
            let v := wordAt px (off + row * stride + c * 4)
            if key < 0 ∨ v &&& 0xFFFFFF ≠ UInt32.ofInt key then k.put id (r.x + c, r.y + row) v else k) g

def gfxBlitSurface (src sx sy w h dst dx dy scale : Int) (g : State) : State :=
  match g.canvas.target src, g.canvas.target dst with
  | some (sw, sh), some (dw, dh) =>
      if src = dst ∨ scale < 1 then g
      else
        match clip ⟨sx, sy, w, h⟩ sw sh with
        | none => g
        | some s =>
            drawOn dst ⟨dx, dy, s.w * scale, s.h * scale⟩ (forRange 0 s.h fun r => forRange 0 scale fun m k =>
              let py := dy + r * scale + m
              if py < 0 ∨ py ≥ dh then k
              else if scale = 1 then
                forRange (if dx < 0 then -dx else 0) (if dx + s.w > dw then dw - dx else s.w) (fun c k =>
                  k.put dst (dx + c, py) (k.get src (s.x + c, s.y + r))) k
              else
                forRange 0 s.w (fun c k =>
                  let v := k.get src (s.x + c, s.y + r)
                  forRange 0 scale (fun n k =>
                    let pxx := dx + c * scale + n
                    if pxx ≥ 0 ∧ pxx < dw then k.put dst (pxx, py) v else k) k) k) g
  | _, _ => g

end Beeros.Gfx
