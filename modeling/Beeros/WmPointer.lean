import Beeros.GfxBlits
import Beeros.WmSurfaces

/-! Canvases of `beer.wm` under the pointer: `show!` scales the surface a program draws on into its window and
presents it, `canvas-point` goes back from the pointer to the pixel. -/

namespace Beeros.Wm

open CInt
open Gfx (Pos Color Rect Painted Inside SameMap gfxBlitSurface gfxPresent gfxOwn onScreen)

/-! ### `canvas-point` and `show!` -/

/-- `:canvas` and `:content` of a window, the latter where the canvas is in it. -/
structure Content where
  canvas : Canvas
  ox : Int
  oy : Int

/-- `ox` and `oy` of `canvas!`. -/
def contentOffset (o : CanvasOpts) (s : State) : Int × Int :=
  if o.fullscreen then
    let scale := (canvasLayout o s).2
    ((s.width - scale * o.w).tdiv 2, (s.height - scale * o.h).tdiv 2)
  else (border, border + tabH + border)

/-- The window manager with the contents of the windows, by id. -/
structure Desktop where
  sys : System
  content : Nat → Option Content

/-- `canvas!` gives its window a content, for good. -/
def Desktop.step (font : Font) (d : Desktop) (op : Op) : Desktop where
  sys := d.sys.step font op
  content :=
    match op with
    | .canvas o granted granted' =>
        match (openCanvas font o granted granted' d.sys.wm).1 with
        | .ok c => Function.update d.content c.id
            (some ⟨c, (contentOffset o d.sys.wm).1, (contentOffset o d.sys.wm).2⟩)
        | .error _ => d.content
    | _ => d.content

def Desktop.run (font : Font) (d : Desktop) (ops : List Op) : Desktop := ops.foldl (Desktop.step font) d

/-- `canvas-point`, with the pointer at `p`. -/
def canvasPoint (p : Pos) (w : Window) (c : Content) : Option Pos :=
  let x := (p.1 - w.x - c.ox).tdiv c.canvas.scale
  let y := (p.2 - w.y - c.oy).tdiv c.canvas.scale
  if p.1 - w.x - c.ox ≥ 0 ∧ p.2 - w.y - c.oy ≥ 0 ∧ x < c.canvas.w ∧ y < c.canvas.h then some (x, y) else none

/-- `show!`. -/
def Desktop.showCanvas (c : Canvas) (d : Desktop) : Gfx.State :=
  match d.sys.wm.window c.id, d.content c.id with
  | some w, some k =>
      let cw := c.scale * c.w
      let ch := c.scale * c.h
      let g := gfxBlitSurface c.surface 0 0 c.w c.h w.surf k.ox k.oy c.scale d.sys.wm.gfx
      gfxPresent w.surf k.ox k.oy cw ch (w.x + k.ox) (w.y + k.oy) g
  | _, _ => d.sys.wm.gfx

/-! ### What is on the screen afterwards -/

/-- Whatever is on surface `i`, `pic` has been drawn on it. -/
def drawn (i : Int) (pic : Pos → Color) (g : Gfx.State) : Gfx.State :=
  { g with canvas := g.canvas.overwrite i fun p => some (pic p) }

def Desktop.drawn (i : Int) (pic : Pos → Color) (d : Desktop) : Desktop :=
  { d with sys := { d.sys with wm := { d.sys.wm with gfx := Wm.drawn i pic d.sys.wm.gfx } } }

/-- The area of a canvas on the screen. -/
def Content.area (c : Content) (w : Window) : Rect :=
  ⟨w.x + c.ox, w.y + c.oy, c.canvas.scale * c.canvas.w, c.canvas.scale * c.canvas.h⟩

/-- Pixel `p` of the screen shows pixel `q` of the canvas: whatever is drawn on the canvas, after `show!` the two
have the same colour. -/
def Shows (d : Desktop) (c : Content) (p q : Pos) : Prop :=
  (∃ sw sh, d.sys.wm.gfx.canvas.target c.canvas.surface = some (sw, sh) ∧ Inside sw sh q) ∧
    ∀ pic : Pos → Color, ((d.drawn c.canvas.surface pic).showCanvas c.canvas).below.get 0 p = pic q

/-- The events name the pixel under the pointer. -/
def PointerExact (d : Desktop) (w : Window) (c : Content) (p : Pos) : Prop :=
  (∀ q, Shows d c p q ↔ canvasPoint p w c = some q) ∧ (canvasPoint p w c = none ↔ ¬ (c.area w).Mem p)

/-- The place on the canvas. -/
def Content.pixelAt (c : Content) (w : Window) (p : Pos) : Pos :=
  ((p.1 - w.x - c.ox) / c.canvas.scale, (p.2 - w.y - c.oy) / c.canvas.scale)

/-- The pixel is one of the window's surface and its place on the canvas one of the canvas's surface. -/
def Reaches (w : Window) (c : Content) (p : Pos) : Prop :=
  Inside (uint32 w.w) (uint32 w.h) (p.1 - w.x, p.2 - w.y) ∧
    Inside (uint32 c.canvas.w) (uint32 c.canvas.h) (c.pixelAt w p)

variable {d : Desktop} {w : Window} {c : Content} {p : Pos}

theorem mem_area : (c.area w).Mem p ↔
    (0 ≤ p.1 - w.x - c.ox ∧ p.1 - w.x - c.ox < c.canvas.w * c.canvas.scale) ∧
      0 ≤ p.2 - w.y - c.oy ∧ p.2 - w.y - c.oy < c.canvas.h * c.canvas.scale := by
  unfold Content.area Rect.Mem
  dsimp only
  rw [Int.mul_comm c.canvas.w, Int.mul_comm c.canvas.h]
  omega

theorem canvasPoint_eq (hscale : 1 ≤ c.canvas.scale) :
    canvasPoint p w c = if (c.area w).Mem p then some (c.pixelAt w p) else none := by
  unfold canvasPoint
  dsimp only
  by_cases hneg : p.1 - w.x - c.ox ≥ 0 ∧ p.2 - w.y - c.oy ≥ 0
  · rw [Int.tdiv_eq_ediv_of_nonneg hneg.1, Int.tdiv_eq_ediv_of_nonneg hneg.2]
    refine if_congr ?_ rfl rfl
    rw [mem_area, Gfx.ediv_lt_iff hscale, Gfx.ediv_lt_iff hscale]
    omega
  · have hout : ¬ (c.area w).Mem p := by
      rw [mem_area]
      omega
    rw [if_neg hout]
    exact if_neg fun h => hneg ⟨h.1, h.2.1⟩

/-- The window of canvas `c` is on top at `p`, and the surfaces are there. -/
structure OnTop (d : Desktop) (w : Window) (c : Content) (p : Pos) : Prop where
  window : d.sys.wm.window c.canvas.id = some w
  content : d.content c.canvas.id = some c
  surf : d.sys.wm.gfx.canvas.target w.surf = some (uint32 w.w, uint32 w.h)
  surface : d.sys.wm.gfx.canvas.target c.canvas.surface = some (uint32 c.canvas.w, uint32 c.canvas.h)
  apart : c.canvas.surface ≠ w.surf ∧ w.surf ≠ 0 ∧ c.canvas.surface ≠ 0
  size : (0 < c.canvas.w ∧ 0 < c.canvas.h) ∧ uint32 c.canvas.w ≠ 0 ∧ uint32 c.canvas.h ≠ 0
  owner : d.sys.wm.gfx.canvas.owner.map (fun own => own p) = some w.surf
  screen : Inside d.sys.wm.gfx.canvas.w d.sys.wm.gfx.canvas.h p

theorem OnTop.drawn (h : OnTop d w c p) (i : Int) (pic : Pos → Color) : OnTop (d.drawn i pic) w c p := by
  have hmap : SameMap d.sys.wm.gfx.canvas (d.drawn i pic).sys.wm.gfx.canvas := Gfx.sameMap_overwrite
  refine ⟨h.window, h.content, (hmap.target _).trans h.surf, (hmap.target _).trans h.surface, h.apart, h.size,
    ?_, ?_⟩
  · rw [hmap.owner]
    exact h.owner
  · rw [hmap.w, hmap.h]
    exact h.screen

theorem OnTop.clip (h : OnTop d w c p) : Gfx.clip ⟨0, 0, c.canvas.w, c.canvas.h⟩ (uint32 c.canvas.w)
    (uint32 c.canvas.h) = some ⟨0, 0, uint32 c.canvas.w, uint32 c.canvas.h⟩ := by
  obtain ⟨⟨hw, hh⟩, hw', hh'⟩ := h.size
  have hle (n : Int) (hn : 0 < n) : (uint32 n : Int) ≤ n := by
    unfold uint32
    omega
  have hlew := hle _ hw
  have hleh := hle _ hh
  rw [Gfx.clip_eq]
  dsimp only
  rw [if_pos (by omega), Option.some.injEq, Rect.mk.injEq]
  omega

/-- What is at `p` after `show!`. -/
theorem OnTop.show_pixel (h : OnTop d w c p) (hscale : 1 ≤ c.canvas.scale) :
    (d.showCanvas c.canvas).below.get 0 p =
      if (c.area w).Mem p ∧ Inside (uint32 w.w) (uint32 w.h) (p.1 - w.x, p.2 - w.y) then
        if Inside (uint32 c.canvas.w) (uint32 c.canvas.h) (c.pixelAt w p) then
          d.sys.wm.gfx.canvas.get c.canvas.surface (c.pixelAt w p)
        else d.sys.wm.gfx.canvas.get w.surf (p.1 - w.x, p.2 - w.y)
      else d.sys.wm.gfx.below.get 0 p := by
  obtain ⟨hne, hsurf, -⟩ := h.apart
  unfold Desktop.showCanvas
  rw [h.window, h.content]
  dsimp only
  obtain ⟨g₁, hg₁⟩ : ∃ g₁, g₁ = gfxBlitSurface c.canvas.surface 0 0 c.canvas.w c.canvas.h w.surf c.ox c.oy
    c.canvas.scale d.sys.wm.gfx := ⟨_, rfl⟩
  have hblit := Gfx.painted_blitSurface h.surface h.surf hne hscale 0 0 c.canvas.w c.canvas.h c.ox c.oy
  rw [← hg₁] at hblit ⊢
  have hmap := hblit.sameMap
  have hpresent := Gfx.painted_present ((hmap.target _).trans h.surf) hsurf c.ox c.oy
    (c.canvas.scale * c.canvas.w) (c.canvas.scale * c.canvas.h) (w.x + c.ox) (w.y + c.oy)
  have hscreen : g₁.below.get 0 p = d.sys.wm.gfx.below.get 0 p := by
    rw [hblit.below]
    exact Gfx.get_overwrite_of_ne hsurf.symm
  -- a pixel of the window's surface
  have hwindow : g₁.canvas.get w.surf (p.1 - w.x, p.2 - w.y) =
      if (0 ≤ (c.pixelAt w p).1 ∧ (c.pixelAt w p).1 < uint32 c.canvas.w ∧ 0 ≤ (c.pixelAt w p).2 ∧
          (c.pixelAt w p).2 < uint32 c.canvas.h) ∧ Inside (uint32 w.w) (uint32 w.h) (p.1 - w.x, p.2 - w.y) then
        d.sys.wm.gfx.canvas.get c.canvas.surface (c.pixelAt w p)
      else d.sys.wm.gfx.canvas.get w.surf (p.1 - w.x, p.2 - w.y) := by
    rw [← Gfx.get_below_of_ne hsurf, hblit.get (by rw [h.surf]; exact nofun), h.clip, Option.bind_some,
      Gfx.get_below_of_ne hsurf]
    unfold Gfx.magnified Content.pixelAt
    dsimp only
    rw [Int.zero_add, Int.zero_add]
    split_ifs <;> rfl
  rw [hpresent.get (by rw [hmap.target]; exact nofun), hscreen]
  unfold Gfx.presented
  dsimp only
  have hx : c.ox + (p.1 - (w.x + c.ox)) = p.1 - w.x := by omega
  have hy : c.oy + (p.2 - (w.y + c.oy)) = p.2 - w.y := by omega
  rw [hx, hy, hmap.owner, hmap.w, hmap.h, hwindow]
  have harea : (0 ≤ p.1 - (w.x + c.ox) ∧ p.1 - (w.x + c.ox) < c.canvas.scale * c.canvas.w ∧
      0 ≤ p.2 - (w.y + c.oy) ∧ p.2 - (w.y + c.oy) < c.canvas.scale * c.canvas.h) ↔ (c.area w).Mem p := by
    rw [mem_area, Int.mul_comm c.canvas.w, Int.mul_comm c.canvas.h]
    omega
  by_cases hin : (c.area w).Mem p ∧ Inside (uint32 w.w) (uint32 w.h) (p.1 - w.x, p.2 - w.y)
  · rw [if_pos ⟨harea.mpr hin.1, hin.2, h.screen, h.owner⟩, if_pos hin, Option.getD_some]
    exact if_congr ⟨And.left, fun hpix => ⟨hpix, hin.2⟩⟩ rfl rfl
  · rw [if_neg fun hp => hin ⟨harea.mp hp.1, hp.2.1⟩, if_neg hin, Option.getD_none]

/-- The same with the canvas drawn anew. -/
theorem OnTop.show_drawn (h : OnTop d w c p) (hscale : 1 ≤ c.canvas.scale) (pic : Pos → Color) :
    ((d.drawn c.canvas.surface pic).showCanvas c.canvas).below.get 0 p =
      if (c.area w).Mem p ∧ Inside (uint32 w.w) (uint32 w.h) (p.1 - w.x, p.2 - w.y) then
        if Inside (uint32 c.canvas.w) (uint32 c.canvas.h) (c.pixelAt w p) then pic (c.pixelAt w p)
        else d.sys.wm.gfx.canvas.get w.surf (p.1 - w.x, p.2 - w.y)
      else d.sys.wm.gfx.below.get 0 p := by
  obtain ⟨hne, hsurf, hpos⟩ := h.apart
  rw [(h.drawn c.canvas.surface pic).show_pixel hscale]
  have hpic (q : Pos) : (d.drawn c.canvas.surface pic).sys.wm.gfx.canvas.get c.canvas.surface q = pic q :=
    Gfx.get_overwrite (by rw [h.surface]; exact nofun)
  have hwin (q : Pos) : (d.drawn c.canvas.surface pic).sys.wm.gfx.canvas.get w.surf q =
      d.sys.wm.gfx.canvas.get w.surf q := Gfx.get_overwrite_of_ne hne.symm
  have hbelow : (d.drawn c.canvas.surface pic).sys.wm.gfx.below.get 0 p = d.sys.wm.gfx.below.get 0 p := by
    have haside : (d.drawn c.canvas.surface pic).sys.wm.gfx.below = _ := Gfx.below_aside hpos
    rw [haside]
    exact Gfx.get_overwrite_of_ne hpos.symm
  rw [hpic, hwin, hbelow]

theorem ne_succ (v : Color) : v ≠ v + 1 := by
  intro h
  have hnat := congrArg UInt32.toNat h
  have hlt := v.toNat_lt
  rw [UInt32.toNat_add, UInt32.toNat_one] at hnat
  omega

theorem shows_iff (h : OnTop d w c p) (hscale : 1 ≤ c.canvas.scale) (q : Pos) :
    Shows d c p q ↔ ((c.area w).Mem p ∧ Reaches w c p) ∧ c.pixelAt w p = q := by
  unfold Shows Reaches
  constructor
  · rintro ⟨-, hall⟩
    by_cases hin : (c.area w).Mem p ∧ Inside (uint32 w.w) (uint32 w.h) (p.1 - w.x, p.2 - w.y)
    · by_cases hpix : Inside (uint32 c.canvas.w) (uint32 c.canvas.h) (c.pixelAt w p)
      · refine ⟨⟨hin.1, hin.2, hpix⟩, ?_⟩
        have hcol := hall fun q' => if q' = q then 0 else 1
        rw [h.show_drawn hscale, if_pos hin, if_pos hpix, if_pos rfl] at hcol
        by_contra hne
        rw [if_neg hne] at hcol
        exact absurd hcol (by decide)
      · have hcol := hall fun _ => d.sys.wm.gfx.canvas.get w.surf (p.1 - w.x, p.2 - w.y) + 1
        rw [h.show_drawn hscale, if_pos hin, if_neg hpix] at hcol
        exact absurd hcol (ne_succ _)
    · have hcol := hall fun _ => d.sys.wm.gfx.below.get 0 p + 1
      rw [h.show_drawn hscale, if_neg hin] at hcol
      exact absurd hcol (ne_succ _)
  · rintro ⟨⟨harea, hwin, hpix⟩, rfl⟩
    refine ⟨⟨_, _, h.surface, hpix⟩, fun pic => ?_⟩
    rw [h.show_drawn hscale, if_pos ⟨harea, hwin⟩, if_pos hpix]

/-- The events name the pixel under the pointer if and only if the pointer is beside the canvas or it is over
pixels that the surfaces have. -/
theorem pointerExact_iff (h : OnTop d w c p) (hscale : 1 ≤ c.canvas.scale) :
    PointerExact d w c p ↔ ((c.area w).Mem p → Reaches w c p) := by
  unfold PointerExact
  rw [canvasPoint_eq hscale]
  by_cases harea : (c.area w).Mem p
  · rw [if_pos harea]
    constructor
    · rintro ⟨hall, -⟩ -
      exact ((shows_iff h hscale _).mp ((hall _).mpr rfl)).1.2
    · intro hreach
      refine ⟨fun q => ?_, fun hsome => (nomatch hsome), fun hout => absurd harea hout⟩
      rw [shows_iff h hscale, Option.some.injEq]
      exact and_iff_right ⟨harea, hreach harea⟩
  · rw [if_neg harea]
    refine ⟨fun _ hin => absurd hin harea, fun _ => ⟨fun q => ?_, fun _ => harea, fun _ => rfl⟩⟩
    rw [shows_iff h hscale]
    exact ⟨fun hq => absurd hq.1.1 harea, fun hq => (nomatch hq)⟩

/-! ### Windows and canvases keep their surfaces -/

/-- The surfaces of windows and canvases have the sizes that were asked for, as `uint32_t`; a window's content is a
canvas in use. -/
structure Placed (s : State) (content : Nat → Option Content) (live : Canvas → Prop) : Prop where
  windows : ∀ w ∈ s.windows, s.gfx.canvas.target w.surf = some (uint32 w.w, uint32 w.h)
  contents : ∀ w ∈ s.windows, ∀ c, content w.id = some c → c.canvas.id = w.id ∧ live c.canvas
  canvases : ∀ c, live c → s.gfx.canvas.target c.surface = some (uint32 c.w, uint32 c.h) ∧
    (0 < c.w ∧ 0 < c.h) ∧ uint32 c.w ≠ 0 ∧ uint32 c.h ≠ 0
  ids : ∀ id, content id ≠ none → id < s.next

variable {font : Font} {s s' : State} {content : Nat → Option Content} {live live' : Canvas → Prop}
  {held : Int → Prop}

/-- The windows are among those before, in other places perhaps. -/
def SameWindows (s s' : State) : Prop :=
  ∀ w' ∈ s'.windows, ∃ w ∈ s.windows, w'.id = w.id ∧ w'.surf = w.surf ∧ w'.w = w.w ∧ w'.h = w.h

theorem Placed.mono (h : Placed s content live) (hwindows : SameWindows s s') (hnext : s.next ≤ s'.next)
    (hsurf : ∀ w ∈ s'.windows, s'.gfx.canvas.target w.surf = s.gfx.canvas.target w.surf)
    (hlive : ∀ c, live' c → live c ∧ s'.gfx.canvas.target c.surface = s.gfx.canvas.target c.surface)
    (hcontent : ∀ w ∈ s'.windows, ∀ c, content w.id = some c → live c.canvas → live' c.canvas) :
    Placed s' content live' := by
  refine ⟨fun w' hw' => ?_, fun w' hw' c hc => ?_, fun c hc => ?_, fun id hid => ?_⟩
  · obtain ⟨w, hw, -, hs, hw₁, hh₁⟩ := hwindows w' hw'
    rw [hsurf w' hw', hs, hw₁, hh₁]
    exact h.windows w hw
  · obtain ⟨w, hw, heq, -⟩ := hwindows w' hw'
    have hc' := hc
    rw [heq] at hc ⊢
    exact ⟨(h.contents w hw c hc).1, hcontent w' hw' c hc' (h.contents w hw c hc).2⟩
  · obtain ⟨hold, htarget⟩ := hlive c hc
    rw [htarget]
    exact h.canvases c hold
  · exact Nat.lt_of_lt_of_le (h.ids id hid) hnext

/-- More surfaces. -/
theorem Placed.grow (h : Placed s content live) {g : Gfx.State}
    (hsame : ∀ i, s.gfx.canvas.target i ≠ none → g.canvas.target i = s.gfx.canvas.target i) :
    Placed { s with gfx := g } content live := by
  refine h.mono (fun w hw => ⟨w, hw, rfl, rfl, rfl, rfl⟩) (Nat.le_refl _) (fun w hw => hsame _ ?_)
    (fun c hc => ⟨hc, hsame _ ?_⟩) fun _ _ _ _ hc => hc
  · rw [h.windows w hw]
    exact nofun
  · rw [(h.canvases c hc).1]
    exact nofun

theorem next_focus (font : Font) (id : Nat) (s : State) : (focus font id s).next = s.next := by
  unfold focus
  cases s.window id <;> rfl

theorem Placed.focus (h : Placed s content live) (id : Nat) : Placed (focus font id s) content live :=
  h.mono (fun w hw => ⟨w, mem_focus hw, rfl, rfl, rfl, rfl⟩) (Nat.le_of_eq (next_focus font id s).symm)
    (fun _ _ => target_focus ..) (fun _ hc => ⟨hc, target_focus ..⟩) fun _ _ _ _ hc => hc

theorem Placed.dragTo (h : Placed s content live) : Placed (dragTo s) content live := by
  unfold Wm.dragTo
  cases s.drag with
  | none => exact h
  | some drag =>
      obtain ⟨id, ox, oy⟩ := drag
      refine h.mono (fun w hw => ?_) (Nat.le_refl _) (fun _ _ => target_restack ..)
        (fun _ hc => ⟨hc, target_restack ..⟩) fun _ _ _ _ hc => hc
      obtain ⟨w', hw', rfl⟩ := List.mem_map.mp hw
      refine ⟨w', hw', ?_⟩
      split_ifs <;> exact ⟨rfl, rfl, rfl, rfl⟩

theorem target_surfaceFree {k : Gfx.Canvas} {i j : Int} (hne : i ≠ j) :
    (k.surfaceFree j).target i = k.target i := by
  unfold Gfx.Canvas.surfaceFree
  split_ifs
  · rfl
  · unfold Gfx.Canvas.target
    split_ifs
    · rfl
    · rfl
    · show (Function.update k.surfaces j none i).map _ = _
      rw [Function.update_of_ne hne]

theorem target_close {id : Nat} (hw : s.window id = some w) {i : Int} (hne : i ≠ w.surf) :
    (close font id s).gfx.canvas.target i = s.gfx.canvas.target i := by
  unfold close
  rw [hw]
  dsimp only
  split
  · exact (target_focus ..).trans (target_surfaceFree hne)
  · exact (target_restack ..).trans (target_surfaceFree hne)

theorem next_close (font : Font) (id : Nat) (s : State) : (close font id s).next = s.next := by
  unfold close
  cases s.window id with
  | none => rfl
  | some w =>
      dsimp only
      split
      · exact next_focus ..
      · rfl

theorem Placed.close (h : Placed s content live) (hgood : Good s held) (hheld : ∀ c, live c → held c.surface)
    (id : Nat) : Placed (close font id s) content live := by
  cases hw : s.window id with
  | none =>
      unfold Wm.close
      rw [hw]
      exact h
  | some w =>
      have hafter := close_good font hgood id
      have huse := (close_spec font hgood hw).1
      refine h.mono (fun w hw => ⟨w, mem_close hw, rfl, rfl, rfl, rfl⟩) (Nat.le_of_eq (next_close ..).symm)
        (fun x hx => target_close hw ?_) (fun c hc => ⟨hc, target_close hw ?_⟩) fun _ _ _ _ hc => hc
      · exact ((huse x.surf).mp (hafter.inUse x hx)).2
      · exact ((huse c.surface).mp (hafter.held c.surface (hheld c hc)).1).2

/-- A new surface has the size that was asked for; the others stay. -/
theorem surface_some {granted : Bool} {w h i : Int} {g g' : Gfx.State}
    (heq : surface granted w h g = (some i, g')) :
    ((0 < w ∧ 0 < h) ∧ uint32 w ≠ 0 ∧ uint32 h ≠ 0) ∧ g'.canvas.target i = some (uint32 w, uint32 h) ∧
      ∀ j, g.canvas.target j ≠ none → g'.canvas.target j = g.canvas.target j := by
  rcases surface_spec granted w h g with ⟨hnone, -⟩ | ⟨hmakes, n, ⟨hlo, hhi, hfree⟩, hsome⟩
  · rw [heq] at hnone
    exact nomatch hnone
  · rw [heq, Prod.mk.injEq, Option.some.injEq] at hsome
    obtain ⟨rfl, rfl⟩ := hsome
    have hat (k : Gfx.Canvas) : k.target i = (k.surfaces i).map fun t => (t.w, t.h) := by
      unfold Gfx.Canvas.target
      rw [if_neg (by omega), if_neg (by omega)]
    refine ⟨hmakes.2, ?_, fun j hj => ?_⟩
    · rw [hat]
      show (Function.update g.canvas.surfaces i _ i).map _ = _
      rw [Function.update_self]
      rfl
    · have hne : j ≠ i := by
        rintro rfl
        rw [hat, hfree] at hj
        exact hj rfl
      unfold Gfx.Canvas.target
      split_ifs
      · rfl
      · rfl
      · show (Function.update g.canvas.surfaces i _ j).map _ = _
        rw [Function.update_of_ne hne]

/-- What exists keeps its size. -/
theorem target_surface {granted : Bool} {w h : Int} {i : Option Int} {g g' : Gfx.State}
    (heq : surface granted w h g = (i, g')) (j : Int) (hj : g.canvas.target j ≠ none) :
    g'.canvas.target j = g.canvas.target j := by
  cases i with
  | none =>
      rcases surface_cases granted w h g with hnone | ⟨i, t, -, -, -, hsome⟩
      · rw [heq, Prod.mk.injEq] at hnone
        rw [hnone.2]
      · rw [heq] at hsome
        exact nomatch hsome
  | some i => exact (surface_some heq).2.2 j hj

/-- A new window, without content yet. -/
theorem Placed.newWindow (font : Font) (h : Placed s content live) (win : Window) (hid : win.id = s.next)
    (hsize : s.gfx.canvas.target win.surf = some (uint32 win.w, uint32 win.h)) :
    Placed (Wm.focus font win.id { s with next := s.next + 1, windows := s.windows ++ [win] }) content live := by
  have hplaced : Placed { s with next := s.next + 1, windows := s.windows ++ [win] } content live := by
    refine ⟨fun w hw => ?_, fun w hw c hc => ?_, h.canvases, fun id hid' => Nat.lt_succ_of_lt (h.ids id hid')⟩
    · rcases List.mem_append.mp hw with hw | hw
      · exact h.windows w hw
      · rw [List.mem_singleton.mp hw]
        exact hsize
    · rcases List.mem_append.mp hw with hw | hw
      · exact h.contents w hw c hc
      · rw [List.mem_singleton.mp hw, hid] at hc
        exact absurd (h.ids s.next (by rw [hc]; exact nofun)) (Nat.lt_irrefl _)
  exact hplaced.focus win.id

theorem Placed.openWindow (h : Placed s content live) (o : OpenOpts) (granted : Bool) :
    Placed (openWindow font o granted s).2 content live := by
  unfold Wm.openWindow
  dsimp only
  generalize 2 * border + o.cols * (o.scale * fontSize) = w
  generalize border + tabH + border + o.rows * (o.scale * fontSize) + border = h'
  rcases hnew : surface granted w h' s.gfx with ⟨surf, g⟩
  have hgrow := h.grow (target_surface hnew)
  cases surf with
  | none => exact hgrow
  | some i => exact hgrow.newWindow font ⟨s.next, i, _, _, w, h', _, true⟩ rfl (surface_some hnew).2.1

/-- The content of a window that has none. -/
theorem Placed.addContent (h : Placed s content live) (c : Content) (hid : c.canvas.id < s.next)
    (hsize : (0 < c.canvas.w ∧ 0 < c.canvas.h) ∧ uint32 c.canvas.w ≠ 0 ∧ uint32 c.canvas.h ≠ 0)
    (htarget : s.gfx.canvas.target c.canvas.surface = some (uint32 c.canvas.w, uint32 c.canvas.h)) :
    Placed s (Function.update content c.canvas.id (some c)) fun c' => live c' ∨ c' = c.canvas := by
  refine ⟨h.windows, fun w hw c' hc' => ?_, ?_, fun id hid' => ?_⟩
  · by_cases hw' : w.id = c.canvas.id
    · rw [hw', Function.update_self, Option.some.injEq] at hc'
      rw [← hc']
      exact ⟨hw'.symm, Or.inr rfl⟩
    · rw [Function.update_of_ne hw'] at hc'
      exact ⟨(h.contents w hw c' hc').1, Or.inl (h.contents w hw c' hc').2⟩
  · rintro c' (hc' | rfl)
    · exact h.canvases c' hc'
    · exact ⟨htarget, hsize⟩
  · by_cases heq : id = c.canvas.id
    · rw [heq]
      exact hid
    · rw [Function.update_of_ne heq] at hid'
      exact h.ids id hid'

/-- The contents after `canvas!`. -/
theorem Placed.openCanvas (font : Font) (h : Placed s content live) (o : CanvasOpts) (granted granted' : Bool) :
    match Wm.openCanvas font o granted granted' s with
    | (.ok c, s') => Placed s' (Function.update content c.id
        (some ⟨c, (contentOffset o s).1, (contentOffset o s).2⟩)) fun c' => live c' ∨ c' = c
    | (.error _, s') => Placed s' content live := by
  unfold Wm.openCanvas
  by_cases hzero : o.fullscreen ∧ (o.w = 0 ∨ o.h = 0)
  · rw [if_pos hzero]
    exact h
  · rw [if_neg hzero]
    dsimp only
    obtain ⟨r, scale⟩ := canvasLayout o s
    dsimp only
    rcases hws : surface granted r.w r.h s.gfx with ⟨ws, g⟩
    dsimp only
    rcases hus : surface granted' o.w o.h g with ⟨us, g'⟩
    dsimp only
    have hboth : Placed { s with gfx := g' } content live :=
      (h.grow (target_surface hws)).grow (target_surface hus)
    cases ws with
    | none => exact hboth
    | some ws =>
        cases us with
        | none => exact hboth
        | some us =>
            obtain ⟨-, hwindow, -⟩ := surface_some hws
            obtain ⟨hpos, hcanvas, -⟩ := surface_some hus
            have hkept := (target_surface hus ws (by rw [hwindow]; exact nofun)).trans hwindow
            have hwin := hboth.newWindow font ⟨s.next, ws, r.x, r.y, r.w, r.h,
              o.title.getD ("canvas " ++ toString s.next), !o.fullscreen⟩ rfl hkept
            refine hwin.addContent ⟨⟨s.next, us, o.w, o.h, scale⟩, _, _⟩ ?_ hpos ((target_focus ..).trans hcanvas)
            rw [next_focus]
            exact Nat.lt_succ_self s.next

/-! ### Runs -/

/-- A canvas that `close-canvas!` has not been called for. -/
def System.Live (sys : System) (c : Canvas) : Prop := ∃ k, sys.canvases[k]? = some c ∧ k ∉ sys.closed

/-- The invariant. -/
structure Desktop.Good (d : Desktop) : Prop where
  inv : Inv d.sys
  closed : ∀ k ∈ d.sys.closed, k < d.sys.canvases.length
  placed : Placed d.sys.wm d.content d.sys.Live

theorem Desktop.Good.canvas (h : d.Good) (o : CanvasOpts) (granted granted' : Bool) :
    (d.step font (.canvas o granted granted')).Good := by
  have hplaced := h.placed.openCanvas font o granted granted'
  refine ⟨h.inv.canvas o granted granted', closed_canvas h.closed o granted granted', ?_⟩
  show Placed (d.sys.step font (.canvas o granted granted')).wm _
    (d.sys.step font (.canvas o granted granted')).Live
  unfold Desktop.step
  rcases heq : openCanvas font o granted granted' d.sys.wm with ⟨out, s'⟩
  rw [heq] at hplaced
  cases out with
  | error e =>
      simp only [System.step, heq]
      exact hplaced
  | ok c =>
      simp only [System.step, heq]
      dsimp only at hplaced
      refine hplaced.mono (fun w hw => ⟨w, hw, rfl, rfl, rfl, rfl⟩) (Nat.le_refl _) (fun _ _ => rfl)
        (fun c' hc' => ⟨?_, rfl⟩) fun w hw c' _ hc' => ?_
      · obtain ⟨k, hk, hopen⟩ := hc'
        rcases getElem?_concat_cases hk with hk | ⟨-, hnew⟩
        · exact Or.inl ⟨k, hk, hopen⟩
        · exact Or.inr hnew
      · rcases hc' with ⟨k, hk, hopen⟩ | hnew
        · exact ⟨k, (List.getElem?_append_left (List.getElem?_eq_some_iff.mp hk).1).trans hk, hopen⟩
        · refine ⟨d.sys.canvases.length, ?_, fun hmem => Nat.lt_irrefl _ (h.closed _ hmem)⟩
          rw [hnew]
          exact List.getElem?_concat_length

theorem held_of_live {sys : System} {c : Canvas} (h : sys.Live c) : sys.Held c.surface := by
  obtain ⟨k, hk, hopen⟩ := h
  exact ⟨k, c, hk, hopen, rfl⟩

theorem Desktop.Good.closeCanvas (h : d.Good) {k : Nat} (hk : k ∉ d.sys.closed) :
    (d.step font (.closeCanvas k)).Good := by
  have hinv : Inv (d.sys.step font (.closeCanvas k)) := h.inv.step fun _ _ => Or.inl hk
  cases hc : d.sys.canvases[k]? with
  | none =>
      have hsame : d.sys.step font (.closeCanvas k) = d.sys := by
        simp only [System.step, hc]
      refine ⟨hinv, ?_, ?_⟩
      · show ∀ k' ∈ (d.sys.step font (.closeCanvas k)).closed,
          k' < (d.sys.step font (.closeCanvas k)).canvases.length
        rw [hsame]
        exact h.closed
      · show Placed (d.sys.step font (.closeCanvas k)).wm d.content (d.sys.step font (.closeCanvas k)).Live
        rw [hsame]
        exact h.placed
  | some c =>
      have hstep : d.sys.step font (.closeCanvas k) =
          ⟨Wm.closeCanvas font c d.sys.wm, d.sys.canvases, k :: d.sys.closed⟩ := by
        simp only [System.step, hc]
      have hgood := h.inv.good
      -- its window is closed first
      obtain ⟨s, hs⟩ : ∃ s, s = if (d.sys.wm.window c.id).isSome then close font c.id d.sys.wm else d.sys.wm :=
        ⟨_, rfl⟩
      have hplaced : Placed s d.content d.sys.Live := by
        rw [hs]
        split_ifs
        · exact h.placed.close hgood (fun _ hc => held_of_live hc) c.id
        · exact h.placed
      have hsgood : Wm.Good s d.sys.Held := by
        rw [hs]
        split_ifs
        · exact close_good font hgood c.id
        · exact hgood
      have hgone : ∀ w ∈ s.windows, w.id ≠ c.id := by
        intro w hw hid
        cases hwin : d.sys.wm.window c.id with
        | none =>
            rw [hwin, Option.isSome_none, if_neg Bool.false_ne_true] at hs
            rw [hs] at hw
            have hnone := List.find?_eq_none.mp hwin w hw
            rw [hid] at hnone
            exact hnone (beq_self_eq_true c.id)
        | some w' =>
            rw [hwin, Option.isSome_some, if_pos rfl] at hs
            rw [hs] at hw
            exact (((close_spec font hgood hwin).2 w).mp hw).2 hid
      have hlive : d.sys.Live c := ⟨k, hc, hk⟩
      refine ⟨hinv, ?_, ?_⟩
      · show ∀ k' ∈ (d.sys.step font (.closeCanvas k)).closed,
          k' < (d.sys.step font (.closeCanvas k)).canvases.length
        rw [hstep]
        intro k' hk'
        rcases List.mem_cons.mp hk' with rfl | hmem
        · exact (List.getElem?_eq_some_iff.mp hc).1
        · exact h.closed k' hmem
      · show Placed (d.sys.step font (.closeCanvas k)).wm d.content (d.sys.step font (.closeCanvas k)).Live
        rw [hstep]
        have hwm : (Wm.closeCanvas font c d.sys.wm) = { s with gfx := Gfx.gfxSurfaceFree c.surface s.gfx } := by
          rw [hs]
          rfl
        rw [hwm]
        refine hplaced.mono (fun w hw => ⟨w, hw, rfl, rfl, rfl, rfl⟩) (Nat.le_refl _)
          (fun w hw => target_surfaceFree ((hsgood.held c.surface (held_of_live hlive)).2 w hw)) ?_ ?_
        · rintro c' ⟨k', hk', hopen⟩
          rw [List.mem_cons, not_or] at hopen
          refine ⟨⟨k', hk', hopen.2⟩, target_surfaceFree fun heq => hopen.1 ?_⟩
          exact h.inv.distinct k' k c' c hk' hc hopen.2 hk heq
        · rintro w hw c' hc' ⟨k', hk', hopen⟩
          refine ⟨k', hk', fun hmem => ?_⟩
          rcases List.mem_cons.mp hmem with rfl | hmem
          · rw [hc, Option.some.injEq] at hk'
            exact hgone w hw ((hplaced.contents w hw c' hc').1.symm.trans (congrArg Canvas.id hk'.symm))
          · exact hopen hmem

theorem Desktop.Good.step (h : d.Good) {op : Op} (honce : ClosedOnce d.sys op) : (d.step font op).Good := by
  have hinv : Inv (d.sys.step font op) := h.inv.step honce.ownSurface
  have hgood := h.inv.good
  cases op with
  | openWindow o granted => exact ⟨hinv, h.closed, h.placed.openWindow o granted⟩
  | canvas o granted granted' => exact h.canvas o granted granted'
  | close id => exact ⟨hinv, h.closed, h.placed.close hgood (fun _ hc => held_of_live hc) id⟩
  | closeFocused =>
      refine ⟨hinv, h.closed, ?_⟩
      show Placed (closeFocused font d.sys.wm) d.content d.sys.Live
      unfold closeFocused
      cases d.sys.wm.focused with
      | none => exact h.placed
      | some w => exact h.placed.close hgood (fun _ hc => held_of_live hc) w.id
  | closeCanvas k => exact h.closeCanvas honce
  | focus id => exact ⟨hinv, h.closed, h.placed.focus id⟩
  | nextWindow =>
      refine ⟨hinv, h.closed, ?_⟩
      show Placed (nextWindow font d.sys.wm) d.content d.sys.Live
      unfold nextWindow
      split
      · exact h.placed.focus _
      · exact h.placed
  | dragTo pointer drag =>
      have hplaced : Placed { d.sys.wm with pointer := pointer, drag := drag } d.content d.sys.Live :=
        { h.placed with }
      exact ⟨hinv, h.closed, hplaced.dragTo⟩

theorem Desktop.Good.run (h : d.Good) {ops : List Op} (honce : Along font ClosedOnce d.sys ops) :
    (d.run font ops).Good := by
  induction ops generalizing d with
  | nil => exact h
  | cons op ops ih => exact ih (h.step honce.1) honce.2

/-- The window on top is one of the windows, and the pixel is in it. -/
theorem mem_of_windowAt {x y : Int} (h : s.windowAt x y = some w) : w ∈ s.windows ∧ w.rect.Mem (x, y) := by
  obtain ⟨hmem, hin⟩ := List.mem_filter.mp (List.mem_of_getLast? h)
  exact ⟨hmem, of_decide_eq_true hin⟩

theorem Desktop.Good.onTop (h : d.Good) (hp : Inside d.sys.wm.gfx.canvas.w d.sys.wm.gfx.canvas.h p)
    (htop : d.sys.wm.windowAt p.1 p.2 = some w) (hc : d.content w.id = some c) : OnTop d w c p := by
  obtain ⟨hw, -⟩ := mem_of_windowAt htop
  obtain ⟨hid, hlive⟩ := h.placed.contents w hw c hc
  obtain ⟨htarget, hsize⟩ := h.placed.canvases c.canvas hlive
  have hgood := h.inv.good
  obtain ⟨huse, hapart⟩ := hgood.held c.canvas.surface (held_of_live hlive)
  have hsurf := (hgood.inUse w hw).pos
  have hpos := huse.pos
  refine ⟨?_, ?_, h.placed.windows w hw, htarget, ⟨(hapart w hw).symm, by omega, by omega⟩, hsize, ?_, hp⟩
  · rw [hid]
    exact window_of_mem hgood.ids hw
  · rw [hid]
    exact hc
  · obtain ⟨own, hown⟩ := Option.isSome_iff_exists.mp hgood.owner
    have hat := windowAt_surf d.sys.wm p.1 p.2
    rw [htop] at hat
    rw [hown, Option.map_some, hgood.agree own hown p, ← hat]
    · rfl
    · unfold Inside at hp
      unfold onScreen
      omega

/-- `beer.wm` loaded; no window has a content. -/
structure Desktop.Booted (d : Desktop) : Prop where
  sys : Wm.Booted d.sys
  content : ∀ id, d.content id = none

theorem Desktop.Booted.good (h : d.Booted) : d.Good := by
  refine ⟨inv_booted h.sys, fun k hk => ?_, ⟨fun w hw => ?_, fun w hw => ?_, fun c hc => ?_, fun id hid => ?_⟩⟩
  · rw [h.sys.closed] at hk
    cases hk
  · rw [h.sys.windows] at hw
    cases hw
  · rw [h.sys.windows] at hw
    cases hw
  · obtain ⟨k, hk, -⟩ := hc
    rw [h.sys.canvases] at hk
    cases hk
  · exact absurd (h.content id) hid

/-- In every state of a run, over the window on top, `canvas-point` and `show!` are inverse if and only if the
pointer is beside the canvas or its place is one of the surfaces, whose sizes are `uint32_t`. -/
theorem canvasPoint_iff (font : Font) {d : Desktop} (hboot : d.Booted) (ops : List Op)
    (honce : Along font ClosedOnce d.sys ops) (w : Window) (c : Content) (p : Pos)
    (hp : Inside (d.run font ops).sys.wm.gfx.canvas.w (d.run font ops).sys.wm.gfx.canvas.h p)
    (htop : (d.run font ops).sys.wm.windowAt p.1 p.2 = some w) (hc : (d.run font ops).content w.id = some c)
    (hscale : 1 ≤ c.canvas.scale) :
    PointerExact (d.run font ops) w c p ↔ ((c.area w).Mem p → Reaches w c p) :=
  pointerExact_iff ((hboot.good.run honce).onTop hp htop hc) hscale

/-- Below `2 ^ 32` there is nothing to lose. -/
theorem reaches_of_lt (hw : w.w < 2 ^ 32) (hh : w.h < 2 ^ 32) (hcw : c.canvas.w < 2 ^ 32)
    (hch : c.canvas.h < 2 ^ 32) (hscale : 1 ≤ c.canvas.scale) (hin : w.rect.Mem p) (harea : (c.area w).Mem p) :
    Reaches w c p := by
  unfold Window.rect Rect.Mem at hin
  dsimp only at hin
  obtain ⟨⟨hx, hx'⟩, hy, hy'⟩ := mem_area.mp harea
  rw [← Gfx.ediv_nonneg_iff hscale] at hx hy
  rw [← Gfx.ediv_lt_iff hscale] at hx' hy'
  unfold Reaches Inside Content.pixelAt
  dsimp only
  rw [uint32_of_lt (by omega) hw, uint32_of_lt (by omega) hh, uint32_of_lt (by omega) hcw,
    uint32_of_lt (by omega) hch]
  omega

/-! ### On the machine -/

/-- `show!` with the functions on arrays. -/
def Desktop.showCanvasFlat (c : Canvas) (d : Desktop) : Option Gfx.State :=
  match d.sys.wm.window c.id, d.content c.id with
  | some w, some k =>
      let cw := c.scale * c.w
      let ch := c.scale * c.h
      (Gfx.Flat.gfxBlitSurface c.surface 0 0 c.w c.h w.surf k.ox k.oy c.scale d.sys.wm.gfx).bind fun g =>
        Gfx.Flat.gfxPresent w.surf k.ox k.oy cw ch (w.x + k.ox) (w.y + k.oy) g
  | _, _ => some d.sys.wm.gfx

/-- Of magnitude below `2 ^ 60`. -/
def Below60 (n : Int) : Prop := -2 ^ 60 < n ∧ n < 2 ^ 60

/-- With the surfaces in RAM and the area of the canvas below `2 ^ 60`, no sum wraps around, and nothing outside an
array is touched. -/
theorem OnTop.showCanvasFlat (h : OnTop d w c p) (hram : Gfx.InRam d.sys.wm.gfx.canvas)
    (hcw : c.canvas.scale * c.canvas.w < 2 ^ 60) (hch : c.canvas.scale * c.canvas.h < 2 ^ 60)
    (hscale : 1 ≤ c.canvas.scale) (hscale' : c.canvas.scale < 2 ^ 16) (hox : Below60 c.ox) (hoy : Below60 c.oy)
    (hx : Below60 w.x) (hy : Below60 w.y) : d.showCanvasFlat c.canvas = some (d.showCanvas c.canvas) := by
  unfold Below60 at hox hoy hx hy
  obtain ⟨⟨hw, hh⟩, -⟩ := h.size
  have hwide : 1 * c.canvas.w ≤ c.canvas.scale * c.canvas.w := Int.mul_le_mul_of_nonneg_right hscale (by omega)
  have hhigh : 1 * c.canvas.h ≤ c.canvas.scale * c.canvas.h := Int.mul_le_mul_of_nonneg_right hscale (by omega)
  obtain ⟨hint, hfits⟩ := Gfx.int64_of_half (x := 0) (y := 0) (w := c.canvas.w) (h := c.canvas.h) (by omega)
    (by omega) (by omega) (by omega)
  obtain ⟨hint', hfits'⟩ := Gfx.int64_of_half (x := c.ox) (y := c.oy) (w := c.canvas.scale * c.canvas.w)
    (h := c.canvas.scale * c.canvas.h) (by omega) (by omega) (by omega) (by omega)
  unfold Desktop.showCanvasFlat Desktop.showCanvas
  rw [h.window, h.content]
  dsimp only
  rw [Gfx.Flat.blitSurface_eq hram hint hfits (by omega) (by omega) hscale', Option.bind_some]
  have hram' := hram.sameMap (Gfx.painted_blitSurface h.surface h.surf h.apart.1 hscale 0 0 c.canvas.w c.canvas.h
    c.ox c.oy).sameMap
  refine Gfx.Flat.present_eq hram' hint' hfits' fun sw sh s hs hclip => ?_
  have hlt := (hram'.target hs).lt
  have hin := Gfx.clip_inside hclip
  exact Gfx.int64_of_half (by omega) (by omega) (by omega) (by omega)

/-- A screen of 4 times 15 pixels. -/
def smallScreen : Desktop :=
  ⟨⟨⟨[], none, (0, 0), none, 1, ⟨⟨fun _ => 0, 4, 15, fun _ => none, some fun _ => 0⟩, 0, 0, false, fun _ => 0⟩⟩,
    [], []⟩, fun _ => none⟩

theorem booted_smallScreen : smallScreen.Booted := ⟨⟨rfl, rfl, rfl, rfl, rfl⟩, fun _ => rfl⟩

/-- A row of `w` pixels, its window and its content. -/
def row (w : Int) : CanvasOpts := { w := w, h := 1, scale := 1, title := some "" }

def rowWindow (w : Int) : Window := ⟨1, 1, 0, 0, w + 2, 16, "", true⟩

def rowContent (w : Int) : Content := ⟨⟨1, 2, w, 1, 1⟩, 1, 14⟩

theorem pointerExact_row :
    PointerExact (smallScreen.run blank [.canvas (row 2) true true]) (rowWindow 2) (rowContent 2) (2, 14) :=
  (canvasPoint_iff blank booted_smallScreen [.canvas (row 2) true true] ⟨trivial, trivial⟩ (rowWindow 2)
    (rowContent 2) (2, 14) (by decide +kernel) rfl rfl (by decide)).mpr fun harea =>
      reaches_of_lt (by decide) (by decide) (by decide) (by decide) (by decide) (by decide) harea

/-- A row of `2 ^ 32 + 1` pixels gets a surface of one; there is no pixel where the second should be. -/
theorem not_pointerExact_wide :
    ¬ PointerExact (smallScreen.run blank [.canvas (row (2 ^ 32 + 1)) true true]) (rowWindow (2 ^ 32 + 1))
      (rowContent (2 ^ 32 + 1)) (2, 14) := by
  intro h
  have hgood : (smallScreen.run blank [.canvas (row (2 ^ 32 + 1)) true true]).Good :=
    booted_smallScreen.good.run ⟨trivial, trivial⟩
  have htop : OnTop (smallScreen.run blank [.canvas (row (2 ^ 32 + 1)) true true]) (rowWindow (2 ^ 32 + 1))
      (rowContent (2 ^ 32 + 1)) (2, 14) := hgood.onTop (by decide +kernel) rfl rfl
  have hreach := (pointerExact_iff htop (by decide)).mp h (by decide)
  exact absurd hreach.2 (by decide)

end Beeros.Wm
