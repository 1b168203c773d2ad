import Beeros.Beerlang
import Beeros.Gfx

/-! `beer.term` (`rootfs/lib/beer/term.beer`) and what it uses of `beer.font`: a grid of cells, the
cursor and the parser state, drawn into a rectangle of a surface. The surfaces and the screen are the
state of `Draw`; `read-string` is a parameter, `none` for a form that is not a number. The reader, the
queues and the tasks of the input side are not here. -/

namespace Beeros.Term

open Beerlang

/-! ### Fonts -/

/-- A `beer.font` map. -/
structure FontMap where
  width : Nat
  height : Nat
  stride : Nat
  /-- The ByteBuffer `:bytes`. -/
  bytes : Nat → UInt8
  capacity : Nat
  base : Nat
  glyphSize : Nat
  count : Nat
  first : Nat
  unicode : Option (Nat → Option Nat)

namespace FontMap

def lookup (font : FontMap) (cp : Nat) : Option Nat :=
  match font.unicode with
  | some u => u cp
  | none => if font.first ≤ cp ∧ cp - font.first < font.count then some (cp - font.first) else none

/-- Glyph number for codepoint `cp`, or the one for `?` (or 0). -/
def glyph (font : FontMap) (cp : Nat) : Nat :=
  match font.lookup cp with
  | some g => g
  | none => if cp ≠ 63 then (font.lookup 63).getD 0 else 0

/-- Where a glyph starts in `:bytes`. -/
def offset (font : FontMap) (g : Nat) : Nat := font.base + g * font.glyphSize

end FontMap

/-- A font whose bitmaps lie inside its buffer, as `blit-bits-on!` asks. -/
structure Font extends FontMap where
  inside : ∀ cp, toFontMap.offset (toFontMap.glyph cp) + height * stride ≤ capacity

/-! ### Colours -/

def palette : List Int :=
  [0x000000, 0xCD0000, 0x00CD00, 0xCDCD00, 0x0000EE, 0xCD00CD, 0x00CDCD, 0xE5E5E5,
   0x7F7F7F, 0xFF0000, 0x00FF00, 0xFFFF00, 0x5C5CFF, 0xFF00FF, 0x00FFFF, 0xFFFFFF]

/-- A colour above this is `0xRRGGBB`, not an index. -/
def rgbFlag : Int := 0x1000000

/-- `beer.gfx/rgb`. -/
def rgb (r g b : Int) : Int := r % 256 * 65536 + g % 256 * 256 + b % 256

def level (v : Int) : Int := if v = 0 then 0 else 55 + 40 * v

def color256 (n : Int) : Except Error Int :=
  if n < 16 then nth palette n
  else if n < 232 then
    let n := n - 16
    pure (rgb (level (n.tdiv 36)) (level ((n.tdiv 6).tmod 6)) (level (n.tmod 6)))
  else
    let v := 8 + 10 * (n - 232)
    pure (rgb v v v)

def resolveColor (c : Int) (bold : Bool) : Except Error Int :=
  if c ≥ rgbFlag then pure (c - rgbFlag) else color256 (if bold && c < 8 then c + 8 else c)

/-! ### State -/

/-- `[char fg bg]`. -/
structure Cell where
  char : Char
  fg : Int
  bg : Int
deriving DecidableEq, Repr

inductive Mode
  | ground
  | csi
  | esc
deriving DecidableEq, Repr

structure State where
  x : Int
  y : Int
  cols : Nat
  rows : Nat
  font : Font
  scale : Nat
  defaultFg : Int
  defaultBg : Int
  fg : Int
  bg : Int
  bold : Bool := false
  inverse : Bool := false
  cx : Nat := 0
  cy : Nat := 0
  wrap : Bool := false
  saved : Option (Nat × Nat) := none
  cursor : Bool := true
  drawnCursor : Option (Nat × Nat) := none
  mode : Mode := .ground
  params : Str := []
  surf : Int
  cells : List (List Cell) := []

namespace State

def cw (st : State) : Nat := st.scale * st.font.width
def ch (st : State) : Nat := st.scale * st.font.height

/-- `[fg bg]` for the current SGR state. -/
def penColors (st : State) : Except Error (Int × Int) := do
  let fg ← resolveColor st.fg st.bold
  let bg ← resolveColor st.bg false
  pure (if st.inverse then (bg, fg) else (fg, bg))

def blank (st : State) : Except Error Cell := do
  let (_, bg) ← st.penColors
  pure ⟨' ', ← resolveColor st.defaultFg false, bg⟩

def blankRow (st : State) : Except Error (List Cell) := do pure (.replicate st.cols (← st.blank))

def cellAt (st : State) (col row : Nat) : Except Error Cell := do nth (← nth st.cells row) col

end State

/-- The options of `make`. -/
structure Options where
  x : Int := 0
  y : Int := 0
  cols : Nat
  rows : Nat
  font : Font
  scale : Nat := 2
  fg : Nat := 7
  bg : Nat := 0
  surface : Int := 0

def make (opts : Options) : Except Error State := do
  let st : State := {
    x := opts.x, y := opts.y, cols := opts.cols, rows := opts.rows, font := opts.font, scale := opts.scale
    defaultFg := opts.fg, defaultBg := opts.bg, fg := opts.fg, bg := opts.bg, surf := opts.surface }
  pure { st with cells := .replicate st.rows (← st.blankRow) }

/-! ### Drawing -/

abbrev Draw := StateT Gfx.State (Except Error)

/-- `beer.gfx/fill-rect-on!`. -/
def fillRectOn (surf x y w h color : Int) : Draw Unit :=
  modify (Gfx.gfxFillRectOn surf ⟨x, y, w, h⟩ (.ofInt color))

/-- `beer.gfx/copy-rect-on!`. -/
def copyRectOn (surf sx sy w h dx dy : Int) : Draw Unit :=
  if sx < 0 ∨ sy < 0 ∨ w < 0 ∨ h < 0 ∨ dx < 0 ∨ dy < 0 then pure ()
  else modify (Gfx.gfxCopyRectOn surf sx.toNat sy.toNat w.toNat h.toNat dx.toNat dy.toNat)

/-- `beer.font/draw-glyph-on!`; the bitmap lies inside the buffer. -/
def drawGlyphOn (surf : Int) (font : Font) (x y : Int) (g : Nat) (fg bg : Int) (scale : Nat) : Draw Unit :=
  modify (Gfx.gfxBlitBitsOn surf x y (fun i => font.bytes (font.offset g + i)) font.width font.height font.stride
    scale (.ofInt fg) bg)

def drawCell (st : State) (col row : Nat) (cell : Cell) (inverse : Bool) : Draw Unit :=
  drawGlyphOn st.surf st.font (st.x + col * st.cw) (st.y + row * st.ch) (st.font.glyph cell.char.toNat)
    (if inverse then cell.bg else cell.fg) (if inverse then cell.fg else cell.bg) st.scale

def hideCursor (st : State) : Draw State := do
  match st.drawnCursor with
  | some (col, row) =>
      if col < st.cols ∧ row < st.rows then drawCell st col row (← st.cellAt col row) false
  | none => pure ()
  pure { st with drawnCursor := none }

def showCursor (st : State) : Draw State := do
  if st.cursor then
    let col := min st.cx (st.cols - 1)
    let row := st.cy
    drawCell st col row (← st.cellAt col row) true
    pure { st with drawnCursor := some (col, row) }
  else pure st

/-- Draw every cell (after the screen was drawn over). -/
def redraw (st : State) : Draw State := do
  (List.range st.rows).forM fun row => (List.range st.cols).forM fun col => do
    drawCell st col row (← st.cellAt col row) false
  showCursor { st with drawnCursor := none }

/-! ### Grid operations (update cells and pixels together) -/

/-- Blank columns `start` to `stop` of `row`. -/
def eraseCells (st : State) (row start stop : Nat) : Draw State := do
  if start ≥ stop then pure st
  else
    let b ← st.blank
    fillRectOn st.surf (st.x + start * st.cw) (st.y + row * st.ch) ((stop - start : Nat) * st.cw) st.ch b.bg
    let r ← nth st.cells row
    let r' := (← subvec r 0 start) ++ .replicate (stop - start) b ++ (← subvecFrom r stop)
    pure { st with cells := ← assocAt st.cells row r' }

/-- Blank the rows `start` to `stop`. -/
def eraseRows (st : State) (start stop : Nat) : Draw State :=
  (List.range' start (stop - start)).foldlM (fun st row => eraseCells st row 0 st.cols) st

def scrollUp (st : State) (n : Int) : Draw State := do
  let n := min n st.rows
  let keep := st.rows - n
  if keep > 0 then copyRectOn st.surf st.x (st.y + n * st.ch) (st.cols * st.cw) (keep * st.ch) st.x st.y
  let cells := (← subvecFrom st.cells n) ++ .replicate n.toNat (← st.blankRow)
  eraseRows { st with cells := cells } keep.toNat st.rows

def scrollDown (st : State) (n : Int) : Draw State := do
  let n := min n st.rows
  let keep := st.rows - n
  if keep > 0 then copyRectOn st.surf st.x st.y (st.cols * st.cw) (keep * st.ch) st.x (st.y + n * st.ch)
  let cells := .replicate n.toNat (← st.blankRow) ++ (← subvec st.cells 0 keep)
  eraseRows { st with cells := cells } 0 n.toNat

def lineFeed (st : State) : Draw State :=
  if st.cy + 1 ≥ st.rows then scrollUp st 1 else pure { st with cy := st.cy + 1 }

/-- The wrap that the last column left pending. -/
def wrapped (st : State) : Draw State := do
  if st.wrap then pure { ← lineFeed st with cx := 0, wrap := false } else pure st

def putChar (st : State) (c : Char) : Draw State := do
  let st ← wrapped st
  let (fg, bg) ← st.penColors
  let cell : Cell := ⟨c, fg, bg⟩
  let col := st.cx
  let row := st.cy
  drawCell st col row cell false
  let st := { st with cells := ← assocAt st.cells row (← assocAt (← nth st.cells row) col cell) }
  if col + 1 ≥ st.cols then pure { st with wrap := true } else pure { st with cx := col + 1 }

def moveTo (st : State) (col row : Int) : State :=
  { st with
    cx := (max 0 (min col (st.cols - 1))).toNat
    cy := (max 0 (min row (st.rows - 1))).toNat
    wrap := false }

/-! ### SGR -/

def setColor (st : State) (p : Int) (c : Int) : State :=
  if p = 38 then { st with fg := c } else { st with bg := c }

/-- What a parameter does that is not the start of a colour. -/
def sgr1 (st : State) (p : Int) : State :=
  if p = 0 then { st with fg := st.defaultFg, bg := st.defaultBg, bold := false, inverse := false }
  else if p = 1 then { st with bold := true }
  else if p = 22 then { st with bold := false }
  else if p = 7 then { st with inverse := true }
  else if p = 27 then { st with inverse := false }
  else if 30 ≤ p ∧ p ≤ 37 then { st with fg := p - 30 }
  else if 90 ≤ p ∧ p ≤ 97 then { st with fg := p - 82 }
  else if 40 ≤ p ∧ p ≤ 47 then { st with bg := p - 40 }
  else if 100 ≤ p ∧ p ≤ 107 then { st with bg := p - 92 }
  else if p = 39 then { st with fg := st.defaultFg }
  else if p = 49 then { st with bg := st.defaultBg }
  else st

def sgrLoop (st : State) : List (Option Int) → State
  | [] => st
  | p :: more =>
      let p := p.getD 0
      if p = 38 ∨ p = 48 then
        match more with
        | some 5 :: rest =>
            match rest with
            | [] => setColor st p 0
            | n :: rest => sgrLoop (setColor st p (n.getD 0)) rest
        | some 2 :: rest =>
            match rest with
            | r :: g :: b :: rest =>
                sgrLoop (setColor st p (rgbFlag + rgb (r.getD 0) (g.getD 0) (b.getD 0))) rest
            | _ =>
                setColor st p (rgbFlag + rgb ((rest.getD 0 none).getD 0) ((rest.getD 1 none).getD 0) 0)
        | _ => st
      else sgrLoop (sgr1 st p) more

def sgr (st : State) (ps : List (Option Int)) : State := sgrLoop st (if ps.isEmpty then [some 0] else ps)

/-! ### Control sequences -/

section Reader

-- `read-string`: `none` for a form that is no number; a number that is not a fixnum ends the run.
variable (readString : Str → Except Error (Option Int))

def parseParams (s : Str) : Except Error (List (Option Int)) :=
  (s.splitOn ';').mapM fun p => if p = [] then pure none else readString p

/-- The parameter `i`, `dflt` if it is absent or 0. -/
def count (ps : List (Option Int)) (i : Nat) (dflt : Int) : Int :=
  let v := (ps.getD i none).getD 0
  if v = 0 then dflt else v

/-- `CSI J`. -/
def eraseDisplay (st : State) (m : Int) : Draw State := do
  let cx := min st.cx st.cols
  if m = 0 then eraseRows (← eraseCells st st.cy cx st.cols) (st.cy + 1) st.rows
  else if m = 1 then eraseCells (← eraseRows st 0 st.cy) st.cy 0 (min (cx + 1) st.cols)
  else eraseRows st 0 st.rows

/-- `CSI K`. -/
def eraseLine (st : State) (m : Int) : Draw State :=
  let cx := min st.cx st.cols
  if m = 0 then eraseCells st st.cy cx st.cols
  else if m = 1 then eraseCells st st.cy 0 (min (cx + 1) st.cols)
  else eraseCells st st.cy 0 st.cols

/-- `ESC 8`, `CSI u`. -/
def restore (st : State) : State :=
  let (x, y) := st.saved.getD (0, 0)
  moveTo st x y

/-- What the final character of a control sequence without `?` does. -/
def control (st : State) (ps : List (Option Int)) (final : Char) : Draw State :=
  let n := count ps
  let z := (ps.getD 0 none).getD 0
  match final with
  | 'A' => pure (moveTo st st.cx (st.cy - n 0 1))
  | 'B' => pure (moveTo st st.cx (st.cy + n 0 1))
  | 'C' => pure (moveTo st (st.cx + n 0 1) st.cy)
  | 'D' => pure (moveTo st (min (st.cx : Int) (st.cols - 1) - n 0 1) st.cy)
  | 'E' => pure (moveTo st 0 (st.cy + n 0 1))
  | 'F' => pure (moveTo st 0 (st.cy - n 0 1))
  | 'G' => pure (moveTo st (n 0 1 - 1) st.cy)
  | 'd' => pure (moveTo st st.cx (n 0 1 - 1))
  | 'H' | 'f' => pure (moveTo st (n 1 1 - 1) (n 0 1 - 1))
  | 'J' => eraseDisplay st z
  | 'K' => eraseLine st z
  | 'S' => scrollUp st (n 0 1)
  | 'T' => scrollDown st (n 0 1)
  | 'm' => pure (sgr st ps)
  | 's' => pure { st with saved := some (st.cx, st.cy) }
  | 'u' => pure (restore st)
  | _ => pure st

/-- What one with `?` does. -/
def privControl (st : State) (ps : List (Option Int)) (final : Char) : State :=
  if (ps.getD 0 none).getD 0 = 25 then
    match final with
    | 'h' => { st with cursor := true }
    | 'l' => { st with cursor := false }
    | _ => st
  else st

def csi (st : State) (final : Char) : Draw State := do
  let raw := st.params
  let priv := raw.head? = some '?'
  let ps ← parseParams readString (if priv then raw.tail else raw)
  let st := { st with mode := .ground, params := [] }
  if priv then pure (privControl st ps final) else control st ps final

def resetState (st : State) : Draw State := do
  let st := { st with
    fg := st.defaultFg, bg := st.defaultBg, bold := false, inverse := false, cursor := true, saved := none }
  pure (moveTo (← eraseRows st 0 st.rows) 0 0)

/-- A character after ESC. -/
def escChar (st : State) (code : Nat) : Draw State := do
  let st := { st with mode := .ground }
  if code = 91 then pure { st with mode := .csi, params := [] }
  else if code = 55 then pure { st with saved := some (st.cx, st.cy) }
  else if code = 56 then pure (restore st)
  else if code = 99 then resetState st
  else if code = 68 then lineFeed st
  else if code = 77 then if st.cy = 0 then scrollDown st 1 else pure { st with cy := st.cy - 1 }
  else if code = 69 then pure { ← lineFeed st with cx := 0 }
  else pure st

/-- A character outside escape sequences. -/
def groundChar (st : State) (c : Char) : Draw State := do
  let code := c.toNat
  if code = 27 then pure { st with mode := .esc }
  else if code = 13 then pure { st with cx := 0, wrap := false }
  else if code = 10 ∨ code = 11 ∨ code = 12 then pure { ← lineFeed st with wrap := false }
  else if code = 8 then pure { st with cx := min st.cx (st.cols - 1) - 1, wrap := false }
  else if code = 9 then pure (moveTo st (min ((st.cols : Int) - 1) (8 * (st.cx / 8 + 1) : Nat)) st.cy)
  else if code < 32 then pure st
  else if code = 127 then pure st
  else putChar st c

def feedChar (st : State) (c : Char) : Draw State :=
  let code := c.toNat
  match st.mode with
  | .csi =>
      if 0x40 ≤ code ∧ code ≤ 0x7E then csi readString st c
      else if code = 27 then pure { st with mode := .esc, params := [] }
      else if code < 32 then pure st
      else pure { st with params := st.params ++ [c] }
  | .esc => escChar st code
  | .ground => groundChar st c

/-- The state after writing a string (drawing as it goes). -/
def feed (st : State) (s : Str) : Draw State := do
  showCursor (← s.foldlM (feedChar readString) (← hideCursor st))

end Reader

end Beeros.Term
