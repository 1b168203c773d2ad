import Beeros.GfxPaint
import Mathlib.Tactic.Ring

/-! Fills, presents and blits of `kernel/gfx.c` as pictures: the colour that each pixel of the target gets, for
rectangles that may reach over any side of the source and of the target. -/

namespace Beeros.Gfx

open Loop

variable {g : State} {k : Canvas} {id : Int} {tw th : Nat} {col : Pos → Color}

/-- Two loops over the rows and columns of a rectangle. -/
theorem paints_rect {x y w h : Int} {cond : Pos → Prop} {f : Int → Int → Canvas → Canvas}
    (hf : ∀ r c, 0 ≤ r → r < h → 0 ≤ c → c < w →
      Paints k id col (fun p => p = (x + c, y + r) ∧ cond p) (f r c)) :
    Paints k id col (fun p => Rect.Mem ⟨x, y, w, h⟩ p ∧ cond p)
      (forRange 0 h fun r => forRange 0 w fun c => f r c) := by
  refine Paints.congr (.loop fun r hr hr' => .loop fun c hc hc' => hf r c hr hr' hc hc') fun p => ?_
  constructor
  · rintro ⟨r, hr, hr', c, hc, hc', rfl, hcond⟩
    unfold Rect.Mem
    dsimp only
    exact ⟨by omega, hcond⟩
  · rintro ⟨⟨hx, hx', hy, hy'⟩, hcond⟩
    dsimp only at hx hx' hy hy'
    exact ⟨p.2 - y, by omega, by omega, p.1 - x, by omega, by omega,
      Prod.ext (by dsimp only; omega) (by dsimp only; omega), hcond⟩

/-! ### Fills -/

theorem painted_fillRectOn (ht : g.canvas.target id = some (tw, th)) (r : Rect) (color : Color) :
    Painted id (fun p => if r.Mem p ∧ Inside tw th p then some color else none) g
      (gfxFillRectOn id r color g) := by
  unfold gfxFillRectOn
  rw [ht]
  dsimp only
  cases hclip : clip r tw th with
  | none => exact painted_nothing fun p => if_neg (clip_none hclip p)
  | some s =>
      have hpaints (k : Canvas) : Paints k id (fun _ => color) s.Mem (forRange s.y (s.y + s.h) fun row =>
          forRange 0 s.w fun col => Canvas.put id (s.x + col, row) color) := by
        refine Paints.congr (.loop fun row _ _ => .loop fun c _ _ => paints_put (s.x + c, row)) fun p => ?_
        constructor
        · rintro ⟨row, hr, hr', c, hc, hc', rfl⟩
          exact ⟨by dsimp only; omega, by dsimp only; omega, hr, hr'⟩
        · rintro ⟨hx, hx', hy, hy'⟩
          exact ⟨p.2, hy, hy', p.1 - s.x, by omega, by omega, Prod.ext (by dsimp only; omega) rfl⟩
      refine (Paints.drawOn (fun _ _ => hpaints _) fun _ _ hp => hp).congr fun p => ?_
      exact if_congr (clip_some hclip p) rfl rfl

/-! ### Presenting a surface -/

/-- Pixel `(dx + i, dy + j)` of the screen gets pixel `(sx + i, sy + j)` of surface `id`, for `i` below `w` and `j`
below `h`, where both are there and the owner map says `id`. -/
def presented (k : Canvas) (id sx sy w h dx dy : Int) (sw sh : Nat) (p : Pos) : Option Color :=
  let i := p.1 - dx
  let j := p.2 - dy
  if (0 ≤ i ∧ i < w ∧ 0 ≤ j ∧ j < h) ∧ Inside sw sh (sx + i, sy + j) ∧ Inside k.w k.h p ∧
      k.owner.map (fun own => own p) = some id then
    some (k.get id (sx + i, sy + j))
  else none

theorem paints_ownedPixel {p q : Pos} (hid : id ≠ 0) (hcol : col p = k.get id q) :
    Paints k 0 col (fun p' => p' = p ∧ k.owner.map (fun own => own p') = some id) fun k =>
      if k.owner.map (fun own => own p) = some id then k.put 0 p (k.get id q) else k := by
  intro old
  dsimp only
  rw [owner_overwrite, get_overwrite_of_ne hid, ← hcol]
  by_cases hown : k.owner.map (fun own => own p) = some id
  · rw [if_pos hown]
    have hput : Paints k 0 col (· = p) (Canvas.put 0 p (col p)) := paints_put p
    obtain ⟨new, heq, hhit, hkept⟩ := hput old
    exact ⟨new, heq, fun p' hp => hhit p' hp.1, fun p' hp => hkept p' fun h => hp ⟨h, h ▸ hown⟩⟩
  · rw [if_neg hown]
    exact ⟨old, rfl, fun p' hp => absurd (hp.1 ▸ hp.2) hown, fun _ _ => rfl⟩

theorem painted_present {sw sh : Nat} (ht : g.canvas.target id = some (sw, sh)) (hid : id ≠ 0)
    (sx sy w h dx dy : Int) :
    Painted 0 (presented g.canvas id sx sy w h dx dy sw sh) g (gfxPresent id sx sy w h dx dy g) := by
  unfold gfxPresent
  rw [ht]
  cases hown : g.canvas.owner with
  | none =>
      refine painted_nothing fun p => if_neg ?_
      rw [hown]
      rintro ⟨-, -, -, h⟩
      cases h
  | some own =>
      dsimp only
      rw [if_neg hid]
      cases hs : clip ⟨sx, sy, w, h⟩ sw sh with
      | none =>
          refine painted_nothing fun p => if_neg ?_
          rintro ⟨hin, hsrc, -⟩
          refine clip_none hs (sx + (p.1 - dx), sy + (p.2 - dy)) ⟨?_, hsrc⟩
          unfold Rect.Mem
          dsimp only
          omega
      | some s =>
          dsimp only
          have hsmem (p : Pos) : Rect.Mem ⟨dx + (s.x - sx), dy + (s.y - sy), s.w, s.h⟩ p ↔
              (0 ≤ p.1 - dx ∧ p.1 - dx < w ∧ 0 ≤ p.2 - dy ∧ p.2 - dy < h) ∧
                Inside sw sh (sx + (p.1 - dx), sy + (p.2 - dy)) := by
            have hmem := clip_some hs (sx + (p.1 - dx), sy + (p.2 - dy))
            unfold Rect.Mem at hmem ⊢
            unfold Inside
            dsimp only at hmem ⊢
            omega
          cases hd : clip ⟨dx + (s.x - sx), dy + (s.y - sy), s.w, s.h⟩ g.canvas.w g.canvas.h with
          | none =>
              refine painted_nothing fun p => if_neg ?_
              rintro ⟨hin, hsrc, hscreen, -⟩
              exact clip_none hd p ⟨(hsmem p).mpr ⟨hin, hsrc⟩, hscreen⟩
          | some d =>
              dsimp only
              have hpaints (fb : Pos → Color) : Paints { g.canvas with fb := fb } 0
                  (fun p => g.canvas.get id (sx + (p.1 - dx), sy + (p.2 - dy)))
                  (fun p => d.Mem p ∧ g.canvas.owner.map (fun own => own p) = some id)
                  (forRange 0 d.h fun r => forRange 0 d.w fun c k =>
                    if k.owner.map (fun own => own (d.x + c, d.y + r)) = some id then
                      k.put 0 (d.x + c, d.y + r) (k.get id (s.x + (d.x - (dx + (s.x - sx))) + c,
                        s.y + (d.y - (dy + (s.y - sy))) + r))
                    else k) := by
                refine paints_rect fun r c _ _ _ _ => paints_ownedPixel hid ?_
                have hq : ((sx + (d.x + c - dx), sy + (d.y + r - dy)) : Pos) =
                    (s.x + (d.x - (dx + (s.x - sx))) + c, s.y + (d.y - (dy + (s.y - sy))) + r) :=
                  Prod.ext (by dsimp only; omega) (by dsimp only; omega)
                show g.canvas.get id _ = Canvas.get { g.canvas with fb := fb } id _
                rw [hq]
                unfold Canvas.get
                rw [if_neg hid, if_neg hid]
              refine (Paints.drawOn (fun fb _ => hpaints fb) fun _ _ hp => hp.1).congr fun p => if_congr ?_ rfl rfl
              rw [clip_some hd, hsmem]
              unfold Inside
              tauto

/-! ### Images -/

/-- Pixel `(x + i, y + j)` of the surface gets pixel `(i, j)` of the image at `px`, for `i` below `w` and `j` below
`h`, where the surface has it and the colour is not to be skipped. -/
def blitted (x y : Int) (px : Int → UInt8) (w h stride : Int) (tw th : Nat) (drawn : Color → Prop)
    [DecidablePred drawn] (p : Pos) : Option Color :=
  let i := p.1 - x
  let j := p.2 - y
  let v := wordAt px (j * stride + i * 4)
  if (0 ≤ i ∧ i < w ∧ 0 ≤ j ∧ j < h) ∧ Inside tw th p ∧ drawn v then some v else none

theorem paints_keyed {p : Pos} {v : Color} {c : Color → Prop} [DecidablePred c] (hcol : col p = v) :
    Paints k id col (fun p' => p' = p ∧ c (col p')) fun k => if c v then k.put id p v else k := by
  intro old
  dsimp only
  rw [← hcol]
  by_cases hc : c (col p)
  · rw [if_pos hc]
    have hput : Paints k id col (· = p) (Canvas.put id p (col p)) := paints_put p
    obtain ⟨new, heq, hhit, hkept⟩ := hput old
    exact ⟨new, heq, fun p' hp => hhit p' hp.1, fun p' hp => hkept p' fun h => hp ⟨h, h ▸ hc⟩⟩
  · rw [if_neg hc]
    exact ⟨old, rfl, fun p' hp => absurd (hp.1 ▸ hp.2) hc, fun _ _ => rfl⟩

theorem painted_blitPixelsOn (ht : g.canvas.target id = some (tw, th)) (x y : Int) (px : Int → UInt8)
    (w h stride key : Int) :
    Painted id (blitted x y px w h stride tw th fun v => key < 0 ∨ v &&& 0xFFFFFF ≠ UInt32.ofInt key) g
      (gfxBlitPixelsOn id x y px w h stride key g) := by
  unfold gfxBlitPixelsOn
  rw [ht]
  dsimp only
  have hmem (p : Pos) : Rect.Mem ⟨x, y, w, h⟩ p ↔ 0 ≤ p.1 - x ∧ p.1 - x < w ∧ 0 ≤ p.2 - y ∧ p.2 - y < h := by
    unfold Rect.Mem
    dsimp only
    omega
  cases hclip : clip ⟨x, y, w, h⟩ tw th with
  | none =>
      refine painted_nothing fun p => if_neg ?_
      rintro ⟨hin, hsurface, -⟩
      exact clip_none hclip p ⟨(hmem p).mpr hin, hsurface⟩
  | some s =>
      dsimp only
      have hpaints (k : Canvas) : Paints k id (fun p => wordAt px ((p.2 - y) * stride + (p.1 - x) * 4))
          (fun p => s.Mem p ∧
            (key < 0 ∨ wordAt px ((p.2 - y) * stride + (p.1 - x) * 4) &&& 0xFFFFFF ≠ UInt32.ofInt key))
          (forRange 0 s.h fun row => forRange 0 s.w fun c k =>
            if key < 0 ∨ wordAt px ((s.y - y) * stride + (s.x - x) * 4 + row * stride + c * 4) &&& 0xFFFFFF ≠
                UInt32.ofInt key then
              k.put id (s.x + c, s.y + row)
                (wordAt px ((s.y - y) * stride + (s.x - x) * 4 + row * stride + c * 4))
            else k) := by
        refine paints_rect fun row c _ _ _ _ =>
          paints_keyed (c := fun v => key < 0 ∨ v &&& 0xFFFFFF ≠ UInt32.ofInt key) ?_
        dsimp only
        congr 1
        ring
      refine (Paints.drawOn (fun _ _ => hpaints _) fun _ _ hp => hp.1).congr fun p => if_congr ?_ rfl rfl
      rw [clip_some hclip, hmem]
      unfold Inside
      tauto

/-! ### Magnified copies -/

/-- Pixel `(i, j)` of the part `s` of surface `src` fills the square of `scale` times `scale` pixels at
`(dx + i * scale, dy + j * scale)`, as far as the target has it. -/
def magnified (k : Canvas) (src : Int) (s : Rect) (dx dy scale : Int) (dw dh : Nat) (p : Pos) : Option Color :=
  let i := (p.1 - dx) / scale
  let j := (p.2 - dy) / scale
  if (0 ≤ i ∧ i < s.w ∧ 0 ≤ j ∧ j < s.h) ∧ Inside dw dh p then some (k.get src (s.x + i, s.y + j)) else none

theorem ediv_lt_iff {n m scale : Int} (hs : 1 ≤ scale) : n / scale < m ↔ n < m * scale :=
  Int.ediv_lt_iff_lt_mul (by omega)

theorem ediv_nonneg_iff {n scale : Int} (hs : 1 ≤ scale) : 0 ≤ n / scale ↔ 0 ≤ n :=
  Int.ediv_nonneg_iff_of_pos (by omega)

/-- A row of squares, from the middle of the loops. -/
theorem paints_squares {src dx y sx sy w scale : Int} {dw : Nat} (hscale : 1 ≤ scale) (hne : src ≠ id)
    (hcol : ∀ x, col (x, y) = k.get src (sx + (x - dx) / scale, sy)) :
    Paints k id col (fun p => p.2 = y ∧ (0 ≤ (p.1 - dx) / scale ∧ (p.1 - dx) / scale < w) ∧ 0 ≤ p.1 ∧ p.1 < dw)
      (forRange 0 w fun c k => forRange 0 scale (fun n k' =>
        if dx + c * scale + n ≥ 0 ∧ dx + c * scale + n < dw then
          k'.put id (dx + c * scale + n, y) (k.get src (sx + c, sy)) else k') k) := by
  have hpixel (c n : Int) (hn : 0 ≤ n) (hn' : n < scale) :
      Paints k id col (fun p => p = (dx + c * scale + n, y) ∧ 0 ≤ p.1 ∧ p.1 < dw) fun k' =>
        if dx + c * scale + n ≥ 0 ∧ dx + c * scale + n < dw then
          k'.put id (dx + c * scale + n, y) (k.get src (sx + c, sy)) else k' := by
    have hdiv : (dx + c * scale + n - dx) / scale = c := by
      have hsub : dx + c * scale + n - dx = c * scale + n := by omega
      rw [hsub, scaled_ediv hn hn']
    have hcolor : k.get src (sx + c, sy) = col (dx + c * scale + n, y) := by rw [hcol, hdiv]
    rw [hcolor]
    intro old
    dsimp only
    by_cases hin : dx + c * scale + n ≥ 0 ∧ dx + c * scale + n < dw
    · rw [if_pos hin]
      have hput : Paints k id col (· = (dx + c * scale + n, y)) (Canvas.put id _ (col _)) := paints_put _
      obtain ⟨new, heq, hhit, hkept⟩ := hput old
      exact ⟨new, heq, fun p' hp => hhit p' hp.1, fun p' hp => hkept p' fun h => hp ⟨h, h ▸ hin⟩⟩
    · rw [if_neg hin]
      refine ⟨old, rfl, ?_, fun _ _ => rfl⟩
      rintro p' ⟨rfl, hp⟩
      exact absurd hp hin
  have hsquare (c : Int) : Paints k id col
      (fun p => ∃ n, 0 ≤ n ∧ n < scale ∧ p = (dx + c * scale + n, y) ∧ 0 ≤ p.1 ∧ p.1 < dw) fun k =>
        forRange 0 scale (fun n k' => if dx + c * scale + n ≥ 0 ∧ dx + c * scale + n < dw then
          k'.put id (dx + c * scale + n, y) (k.get src (sx + c, sy)) else k') k := by
    intro old
    dsimp only
    rw [get_overwrite_of_ne hne]
    exact Paints.loop (hpixel c) old
  refine Paints.congr (.loop fun c _ _ => hsquare c) fun p => ?_
  constructor
  · rintro ⟨c, hc, hc', n, hn, hn', rfl, hin⟩
    dsimp only at hin ⊢
    have hsub : dx + c * scale + n - dx = c * scale + n := by omega
    rw [hsub, scaled_ediv hn hn']
    exact ⟨rfl, ⟨hc, hc'⟩, hin⟩
  · rintro ⟨hy, ⟨hc, hc'⟩, hin⟩
    have hmod := Int.emod_add_mul_ediv (p.1 - dx) scale
    have hnonneg := Int.emod_nonneg (p.1 - dx) (show scale ≠ 0 by omega)
    have hlt := Int.emod_lt_of_pos (p.1 - dx) (show 0 < scale by omega)
    refine ⟨(p.1 - dx) / scale, hc, hc', (p.1 - dx) % scale, hnonneg, hlt, Prod.ext ?_ hy, hin⟩
    dsimp only
    rw [Int.mul_comm] at hmod
    omega

/-- The same row at scale 1, which is copied in one go. -/
theorem paints_copied {src dx y sx sy w : Int} {dw : Nat} (hne : src ≠ id)
    (hcol : ∀ x, col (x, y) = k.get src (sx + (x - dx), sy)) :
    Paints k id col (fun p => p.2 = y ∧ (0 ≤ p.1 - dx ∧ p.1 - dx < w) ∧ 0 ≤ p.1 ∧ p.1 < dw)
      (forRange (if dx < 0 then -dx else 0) (if dx + w > dw then dw - dx else w) fun c k =>
        k.put id (dx + c, y) (k.get src (sx + c, sy))) := by
  have hpixel (c : Int) : Paints k id col (· = (dx + c, y)) fun k =>
      k.put id (dx + c, y) (k.get src (sx + c, sy)) := by
    intro old
    have hcolor : k.get src (sx + c, sy) = col (dx + c, y) := by
      have hsub : dx + c - dx = c := by omega
      rw [hcol, hsub]
    dsimp only
    rw [get_overwrite_of_ne hne, hcolor]
    exact paints_put (dx + c, y) old
  refine Paints.congr (.loop fun c _ _ => hpixel c) fun p => ?_
  constructor
  · rintro ⟨c, hc, hc', rfl⟩
    dsimp only
    split_ifs at hc hc' <;> omega
  · rintro ⟨hy, ⟨hc, hc'⟩, hin, hin'⟩
    refine ⟨p.1 - dx, ?_, ?_, Prod.ext (by dsimp only; omega) hy⟩
    · split_ifs <;> omega
    · split_ifs <;> omega

theorem painted_blitSurface {src dst : Int} {sw sh dw dh : Nat} (hsrc : g.canvas.target src = some (sw, sh))
    (hdst : g.canvas.target dst = some (dw, dh)) (hne : src ≠ dst) {scale : Int} (hscale : 1 ≤ scale)
    (sx sy w h dx dy : Int) :
    Painted dst (fun p => (clip ⟨sx, sy, w, h⟩ sw sh).bind fun s => magnified g.canvas src s dx dy scale dw dh p) g
      (gfxBlitSurface src sx sy w h dst dx dy scale g) := by
  unfold gfxBlitSurface
  rw [hsrc, hdst]
  dsimp only
  have hskip : ¬ (src = dst ∨ scale < 1) := by omega
  rw [if_neg hskip]
  cases hclip : clip ⟨sx, sy, w, h⟩ sw sh with
  | none => exact painted_nothing fun _ => rfl
  | some s =>
      dsimp only
      have hrow (k : Canvas) (hk : ∀ p, k.get src p = g.canvas.get src p) (y r : Int) (hr : (y - dy) / scale = r) :
          Paints k dst (fun p => g.canvas.get src (s.x + (p.1 - dx) / scale, s.y + (p.2 - dy) / scale))
            (fun p => p.2 = y ∧ (0 ≤ (p.1 - dx) / scale ∧ (p.1 - dx) / scale < s.w) ∧ 0 ≤ p.1 ∧ p.1 < dw)
            fun k => if scale = 1 then
              forRange (if dx < 0 then -dx else 0) (if dx + s.w > dw then dw - dx else s.w) (fun c k =>
                k.put dst (dx + c, y) (k.get src (s.x + c, s.y + r))) k
            else forRange 0 s.w (fun c k => forRange 0 scale (fun n k' =>
              if dx + c * scale + n ≥ 0 ∧ dx + c * scale + n < dw then
                k'.put dst (dx + c * scale + n, y) (k.get src (s.x + c, s.y + r)) else k') k) k := by
        by_cases h1 : scale = 1
        · subst h1
          simp only [if_pos, Int.ediv_one] at hr ⊢
          refine paints_copied hne fun x => ?_
          rw [hk, hr]
        · simp only [if_neg h1]
          refine paints_squares hscale hne fun x => ?_
          rw [hk, hr]
      have hpaints (k : Canvas) (hk : ∀ p, k.get src p = g.canvas.get src p) :
          Paints k dst (fun p => g.canvas.get src (s.x + (p.1 - dx) / scale, s.y + (p.2 - dy) / scale))
            (fun p => (0 ≤ (p.1 - dx) / scale ∧ (p.1 - dx) / scale < s.w ∧ 0 ≤ (p.2 - dy) / scale ∧
              (p.2 - dy) / scale < s.h) ∧ Inside dw dh p)
            (forRange 0 s.h fun r => forRange 0 scale fun m k =>
              if dy + r * scale + m < 0 ∨ dy + r * scale + m ≥ dh then k
              else if scale = 1 then
                forRange (if dx < 0 then -dx else 0) (if dx + s.w > dw then dw - dx else s.w) (fun c k =>
                  k.put dst (dx + c, dy + r * scale + m) (k.get src (s.x + c, s.y + r))) k
              else forRange 0 s.w (fun c k => forRange 0 scale (fun n k' =>
                if dx + c * scale + n ≥ 0 ∧ dx + c * scale + n < dw then
                  k'.put dst (dx + c * scale + n, dy + r * scale + m) (k.get src (s.x + c, s.y + r))
                else k') k) k) := by
        have hdiv (r m : Int) (hm : 0 ≤ m) (hm' : m < scale) : (dy + r * scale + m - dy) / scale = r := by
          have hsub : dy + r * scale + m - dy = r * scale + m := by omega
          rw [hsub, scaled_ediv hm hm']
        refine Paints.congr (.loop fun r _ _ => .loop fun m hm hm' => .cond (fun _ => paints_id) fun _ =>
          hrow k hk (dy + r * scale + m) r (hdiv r m hm hm')) fun p => ?_
        constructor
        · rintro ⟨r, hr, hr', m, hm, hm', hhit⟩
          split_ifs at hhit with hout
          obtain ⟨hy, ⟨hc, hc'⟩, hin⟩ := hhit
          rw [hy, hdiv r m hm hm']
          exact ⟨⟨hc, hc', hr, hr'⟩, hin.1, hin.2, by omega, by omega⟩
        · rintro ⟨⟨hc, hc', hr, hr'⟩, hx, hx', hy, hy'⟩
          have hmod := Int.emod_add_mul_ediv (p.2 - dy) scale
          have hnonneg := Int.emod_nonneg (p.2 - dy) (show scale ≠ 0 by omega)
          have hlt := Int.emod_lt_of_pos (p.2 - dy) (show 0 < scale by omega)
          have hrow : dy + (p.2 - dy) / scale * scale + (p.2 - dy) % scale = p.2 := by
            rw [Int.mul_comm] at hmod
            omega
          refine ⟨_, hr, hr', _, hnonneg, hlt, ?_⟩
          rw [hrow, if_neg (by omega)]
          exact ⟨rfl, ⟨hc, hc'⟩, hx, hx'⟩
      have hget (fb : Pos → Color) (hfb : dst ≠ 0 → fb = g.canvas.fb) (p : Pos) :
          Canvas.get { g.canvas with fb := fb } src p = g.canvas.get src p := by
        by_cases h0 : src = 0
        · rw [hfb fun h => hne (h0.trans h.symm)]
        · unfold Canvas.get
          rw [if_neg h0, if_neg h0]
      refine Paints.drawOn (fun fb hfb => hpaints _ (hget fb hfb)) ?_
      rintro - p ⟨⟨hc, hc', hr, hr'⟩, -⟩
      rw [ediv_nonneg_iff hscale] at hc hr
      rw [ediv_lt_iff hscale] at hc' hr'
      unfold Rect.Mem
      dsimp only
      omega

end Beeros.Gfx
