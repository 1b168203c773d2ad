import Beeros.CInt
import Beeros.Gfx

/-! `kernel/gfx.c` on the machine: the pixels of a surface are one array of rows, and coordinates are `int64_t`
(`uint32_t` in `gfx_copy_rect_on`) whose sums wrap around. A function gives `none` when it goes outside an
array. -/

namespace Beeros.Gfx.Flat

open CInt Loop

/-! ### Arrays -/

/-- The pixel at an index of an array of `h` rows of `w` pixels. -/
def cell (w h : Nat) (i : Int) : Option Pos := if 0 ≤ i ∧ i < w * h then some (i % w, i / w) else none

def load (k : Canvas) (id : Int) (w h : Nat) (i : Int) : Option Color := (cell w h i).map (k.get id)

def store (id : Int) (w h : Nat) (i : Int) (c : Color) (k : Canvas) : Option Canvas :=
  (cell w h i).map fun p => k.put id p c

def loadOwner (k : Canvas) (i : Int) : Option Int := (cell k.w k.h i).bind fun p => k.owner.map fun own => own p

/-- `clip`, which works on the caller's variables. -/
def clip (r : Rect) (wMax hMax : Nat) : Option Rect :=
  let r := if r.x < 0 then { r with x := 0, w := int64 (r.w + r.x) } else r
  let r := if r.y < 0 then { r with y := 0, h := int64 (r.h + r.y) } else r
  let r := if int64 (r.x + r.w) > wMax then { r with w := int64 (wMax - r.x) } else r
  let r := if int64 (r.y + r.h) > hMax then { r with h := int64 (hMax - r.y) } else r
  if r.w > 0 ∧ r.h > 0 then some r else none

/-! ### The cursor -/

/-- The test of `cursor_hide_for`. -/
def meets (g : State) (r : Rect) : Bool :=
  g.curShown && !(r.x ≥ g.curX + curW || r.y ≥ g.curY + curH || int64 (r.x + r.w) ≤ g.curX ||
    int64 (r.y + r.h) ≤ g.curY)

def cursorHideFor (r : Rect) (g : State) : Bool × State :=
  if meets g r then (true, cursorRestore g) else (false, g)

def hideOn (id : Int) (r : Rect) (g : State) : Bool × State :=
  if id = 0 then cursorHideFor r g else (false, g)

def drawOn (id : Int) (r : Rect) (draw : Canvas → Option Canvas) (g : State) : Option State :=
  let (hid, g) := hideOn id r g
  (draw g.canvas).map fun k => cursorShowAgain hid { g with canvas := k }

/-! ### Drawing -/

def gfxFillRectOn (id : Int) (r : Rect) (color : Color) (g : State) : Option State :=
  match g.canvas.target id with
  | none => some g
  | some (tw, th) =>
      match clip r tw th with
      | none => some g
      | some r =>
          drawOn id r (forRangeM r.y (int64 (r.y + r.h)) fun row =>
            forRangeM 0 r.w fun col => store id tw th (int64 (row * tw) + r.x + col) color) g

/-- `memmove` of `n` pixels inside a surface: all are read before the first is written. -/
def moveRow (id : Int) (tw th : Nat) (dst src : Int) (n : Nat) (k : Canvas) : Option Canvas :=
  ((List.range n).mapM fun (i : Nat) => load k id tw th (src + i)).bind fun row =>
    forRangeM 0 n (fun i => store id tw th (dst + i) (row.getD i.toNat 0)) k

def gfxCopyRectOn (id : Int) (sx sy w h dx dy : Nat) (g : State) : Option State :=
  match g.canvas.target id with
  | none => some g
  | some (tw, th) =>
      if sx ≥ tw ∨ sy ≥ th ∨ dx ≥ tw ∨ dy ≥ th then some g
      else
        let w := if uint32 (max sx dx + w) > tw then uint32 (tw - max sx dx) else w
        let h := if uint32 (max sy dy + h) > th then uint32 (th - max sy dy) else h
        let (hid₁, g) := hideOn id ⟨sx, sy, w, h⟩ g
        let (hid₂, g) := hideOn id ⟨dx, dy, w, h⟩ g
        (forRangeM 0 h (fun i =>
          -- rows in the order that doesn't overwrite rows still to be copied
          let r := if dy > sy then uint32 (uint32 (h - 1) - i) else uint32 i
          moveRow id tw th (uint32 (uint32 (dy + r) * tw) + dx) (uint32 (uint32 (sy + r) * tw) + sx)
            (uint32 (w * 4) / 4)) g.canvas).map fun k => cursorShowAgain (hid₁ || hid₂) { g with canvas := k }

/-- `memset` of the rows in the owner map. -/
def gfxOwn (id : Int) (r : Rect) (g : State) : Option State :=
  match g.canvas.owner with
  | none => some g
  | some own =>
      if id < 0 ∨ id ≥ gfxSurfaces then some g
      else
        match clip r g.canvas.w g.canvas.h with
        | none => some g
        | some r =>
            (forRangeM r.y (int64 (r.y + r.h)) (fun row => forRangeM 0 r.w fun c own =>
              (cell g.canvas.w g.canvas.h (int64 (row * g.canvas.w) + r.x + c)).map fun p =>
                Function.update own p id) own).map fun own =>
                  { g with canvas := { g.canvas with owner := some own } }

def gfxPresent (id sx sy w h dx dy : Int) (g : State) : Option State :=
  match g.canvas.target id, g.canvas.owner with
  | some (sw, sh), some _ =>
      if id = 0 then some g
      else
        match clip ⟨sx, sy, w, h⟩ sw sh with
        | none => some g
        | some s =>
            let dx := int64 (dx + int64 (s.x - sx))
            let dy := int64 (dy + int64 (s.y - sy))
            match clip ⟨dx, dy, s.w, s.h⟩ g.canvas.w g.canvas.h with
            | none => some g
            | some d =>
                let sx := int64 (s.x + int64 (d.x - dx))
                let sy := int64 (s.y + int64 (d.y - dy))
                drawOn 0 d (forRangeM 0 d.h fun r => forRangeM 0 d.w fun c k =>
                  let src := int64 (int64 (sy + r) * sw) + sx
                  let dst := int64 (int64 (d.y + r) * g.canvas.w) + d.x
                  (loadOwner k (dst + c)).bind fun own =>
                    if own = id then
                      (load k id sw sh (src + c)).bind fun v => store 0 g.canvas.w g.canvas.h (dst + c) v k
                    else some k) g
  | _, _ => some g

def gfxFillOwned (id : Int) (r : Rect) (color : Color) (g : State) : Option State :=
  match g.canvas.owner with
  | none => some g
  | some _ =>
      match clip r g.canvas.w g.canvas.h with
      | none => some g
      | some r =>
          drawOn 0 r (forRangeM r.y (int64 (r.y + r.h)) fun row => forRangeM r.x (int64 (r.x + r.w)) fun c k =>
            (loadOwner k (int64 (row * g.canvas.w) + c)).bind fun own =>
              if own = id then store 0 g.canvas.w g.canvas.h (int64 (row * g.canvas.w) + c) color k
              else some k) g

/-- `px` is the memory before and after the image; it is read at addresses modulo `2 ^ 64`. -/
def gfxBlitPixelsOn (id x y : Int) (px : Int → UInt8) (w h stride key : Int) (g : State) : Option State :=
  match g.canvas.target id with
  | none => some g
  | some (tw, th) =>
      match clip ⟨x, y, w, h⟩ tw th with
      | none => some g
      | some r =>
          let off := int64 (int64 (int64 (r.y - y) * stride) + int64 (int64 (r.x - x) * 4))
          drawOn id r (forRangeM 0 r.h fun row k =>
            let src := off + int64 (row * stride)
            let dst := int64 (int64 (r.y + row) * tw) + r.x
            if key < 0 then
              forRangeM 0 (uint64 (r.w * 4) / 4) (fun c =>
                store id tw th (dst + c) (wordAt (px ∘ int64) (src + c * 4))) k
            else
              forRangeM 0 r.w (fun c k =>
                let v := wordAt (px ∘ int64) (src + c * 4)
                if v &&& 0xFFFFFF ≠ UInt32.ofInt key then store id tw th (dst + c) v k else some k) k) g

def gfxBlitSurface (src sx sy w h dst dx dy scale : Int) (g : State) : Option State :=
  match g.canvas.target src, g.canvas.target dst with
  | some (sw, sh), some (dw, dh) =>
      if src = dst ∨ scale < 1 then some g
      else
        match clip ⟨sx, sy, w, h⟩ sw sh with
        | none => some g
        | some s =>
            drawOn dst ⟨dx, dy, int64 (s.w * scale), int64 (s.h * scale)⟩ (forRangeM 0 s.h fun r =>
              forRangeM 0 scale fun m k =>
                let row := int64 (int64 (s.y + r) * sw) + s.x
                let py := int64 (int64 (dy + int64 (r * scale)) + m)
                let out := int64 (py * dw)
                if py < 0 ∨ py ≥ dh then some k
                else if scale = 1 then
                  let c0 := if dx < 0 then int64 (-dx) else 0
                  let c1 := if int64 (dx + s.w) > dw then int64 (dw - dx) else s.w
                  if c1 > c0 then
                    forRangeM 0 (uint64 (int64 (c1 - c0) * 4) / 4) (fun c k =>
                      (load k src sw sh (row + c0 + c)).bind fun v => store dst dw dh (out + dx + c0 + c) v k) k
                  else some k
                else
                  forRangeM 0 s.w (fun c k =>
                    (load k src sw sh (row + c)).bind fun v =>
                      forRangeM 0 scale (fun n k =>
                        let pxx := int64 (int64 (dx + int64 (c * scale)) + n)
                        if pxx ≥ 0 ∧ pxx < dw then store dst dw dh (out + pxx) v k else some k) k) k) g
  | _, _ => some g

end Beeros.Gfx.Flat
