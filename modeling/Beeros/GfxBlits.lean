import Beeros.GfxBounds
import Beeros.GfxPictures

/-! Clipped blits of `kernel/gfx.c`: `gfx_present` and `gfx_blit_pixels_on` with parts of the rectangle outside on
any side, and `gfx_blit_surface` at any scale. -/

namespace Beeros.Gfx

open CInt Loop

variable {g : State} {id : Int}

/-! ### Presents and images -/

/-- Of magnitude below `2 ^ 61`. -/
def Below61 (n : Int) : Prop := -2 ^ 61 < n ∧ n < 2 ^ 61

theorem present_exact {sx sy w h dx dy : Int} {sw sh : Nat} (hg : InRam g.canvas) (hsx : Below61 sx)
    (hsy : Below61 sy) (hw : Below61 w) (hh : Below61 h) (hdx : Below61 dx) (hdy : Below61 dy) (hid : id ≠ 0)
    (ht : g.canvas.target id = some (sw, sh)) :
    ∃ g', Flat.gfxPresent id sx sy w h dx dy g = some g' ∧
      Painted 0 (presented g.canvas id sx sy w h dx dy sw sh) g g' := by
  unfold Below61 at hsx hsy hw hh hdx hdy
  obtain ⟨hint, hfits⟩ := int64_of_half (x := sx) (y := sy) (w := w) (h := h) ⟨by omega, by omega⟩
    ⟨by omega, by omega⟩ ⟨by omega, by omega⟩ ⟨by omega, by omega⟩
  refine ⟨_, Flat.present_eq hg hint hfits fun sw' sh' s ht' hclip => ?_, painted_present ht hid ..⟩
  have hlt := (hg.target ht').lt
  obtain ⟨hx, hy, hw', hh', hxw, hyh⟩ := clip_inside hclip
  have hcut := clip_shift hint hclip
  have hpart := clip_part hclip
  dsimp only at hcut hpart
  exact int64_of_half ⟨by omega, by omega⟩ ⟨by omega, by omega⟩ ⟨by omega, by omega⟩ ⟨by omega, by omega⟩

/-- The pixels that `key` lets through. -/
def Unkeyed (key : Int) (v : Color) : Prop := key < 0 ∨ ((v &&& 0xFFFFFF).toNat : Int) ≠ key

instance (key : Int) : DecidablePred (Unkeyed key) := fun _ => inferInstanceAs (Decidable (_ ∨ _))

/-- Whatever the pixels are, `gfx_blit_pixels_on` sets those inside that `key` lets through. -/
def BlitExact (x y w h stride key : Int) (tw th : Nat) : Prop :=
  ∀ (g : State) (id : Int) (px : Int → UInt8), InRam g.canvas → g.canvas.target id = some (tw, th) →
    ∃ g', Flat.gfxBlitPixelsOn id x y px w h stride key g = some g' ∧
      Painted id (blitted x y (px ∘ int64) w h stride tw th (Unkeyed key)) g g'

/-- The comparison of the code is with the lower half of `key`. -/
theorem ne_ofInt_iff (key : Int) (v : Color) :
    v &&& 0xFFFFFF ≠ UInt32.ofInt key ↔ ((v &&& 0xFFFFFF).toNat : Int) ≠ key % 2 ^ 32 := by
  have hnat : (UInt32.ofInt key).toNat = (key % 2 ^ 32).toNat := by
    rw [UInt32.ofInt, UInt32.toNat_ofNat']
    omega
  rw [Ne, ← UInt32.toNat_inj, hnat]
  omega

theorem land_lt (v : Color) : (v &&& 0xFFFFFF).toNat < 2 ^ 24 := by
  rw [UInt32.toNat_and]
  exact Nat.lt_of_le_of_lt Nat.and_le_right (by decide)

/-- The bytes of a word, least byte first. -/
theorem wordAt_toNat (px : Int → UInt8) (o : Int) : (wordAt px o).toNat =
    (px o).toNat + (px (o + 1)).toNat * 2 ^ 8 + (px (o + 2)).toNat * 2 ^ 16 + (px (o + 3)).toNat * 2 ^ 24 := by
  unfold wordAt
  generalize px o = a, px (o + 1) = b, px (o + 2) = c, px (o + 3) = d
  have ha := a.toNat_lt
  have hb := b.toNat_lt
  have hc := c.toNat_lt
  have hd := d.toNat_lt
  have hor (x y i : Nat) (h : y < 2 ^ i) : y ||| x <<< i = y + x * 2 ^ i := by
    rw [Nat.or_comm, ← Nat.shiftLeft_add_eq_or_of_lt h, Nat.shiftLeft_eq, Nat.add_comm]
  have hshift (x : UInt8) (i : UInt32) (n : Nat) (hi : i.toNat = n) (hn : n ≤ 24) :
      (x.toUInt32 <<< i).toNat = x.toNat <<< n := by
    have hx := x.toNat_lt
    have hpow : 2 ^ n ≤ 2 ^ 24 := Nat.pow_le_pow_right (by decide) hn
    rw [UInt32.toNat_shiftLeft, UInt8.toNat_toUInt32, hi, Nat.mod_eq_of_lt (by omega : n < 32), Nat.mod_eq_of_lt]
    rw [Nat.shiftLeft_eq]
    calc x.toNat * 2 ^ n ≤ x.toNat * 2 ^ 24 := Nat.mul_le_mul_left _ hpow
      _ < 2 ^ 32 := by omega
  rw [UInt32.toNat_or, UInt32.toNat_or, UInt32.toNat_or, hshift b 8 8 rfl (by decide),
    hshift c 16 16 rfl (by decide), hshift d 24 24 rfl (by decide), UInt8.toNat_toUInt32,
    hor b.toNat a.toNat 8 ha, hor c.toNat _ 16 (by omega), hor d.toNat _ 24 (by omega)]

/-- Every word is in some memory. -/
theorem exists_wordAt (v : Color) (o : Int) : ∃ px : Int → UInt8, wordAt (px ∘ int64) o = v := by
  refine ⟨fun a => UInt8.ofNat (v.toNat / 2 ^ (8 * ((a - o) % 4).toNat)), ?_⟩
  have hv := v.toNat_lt
  have hmod (n : Int) (hn : 0 ≤ n) (hn' : n < 4) : ((int64 (o + n) - o) % 4).toNat = n.toNat := by
    unfold int64
    omega
  have h₀ := hmod 0 (by decide) (by decide)
  rw [Int.add_zero] at h₀
  apply UInt32.toNat_inj.mp
  rw [wordAt_toNat]
  simp only [Function.comp_apply, UInt8.toNat_ofNat', h₀, hmod 1 (by decide) (by decide),
    hmod 2 (by decide) (by decide), hmod 3 (by decide) (by decide)]
  simp only [Int.toNat_zero, Int.toNat_one, Int.reduceToNat, Nat.reduceMul, Nat.reducePow]
  omega

theorem land_of_lt {v : Color} (h : v.toNat < 2 ^ 24) : v &&& 0xFFFFFF = v := by
  apply UInt32.toNat_inj.mp
  have hmask : (0xFFFFFF : UInt32).toNat = 2 ^ 24 - 1 := rfl
  rw [UInt32.toNat_and, hmask, Nat.and_two_pow_sub_one_eq_mod, Nat.mod_eq_of_lt h]

/-- A screen of one colour. -/
def plainScreen (c : Color) (w h : Nat) : State :=
  ⟨⟨fun _ => c, w, h, fun _ => none, none⟩, 0, 0, false, fun _ => 0⟩

theorem inRam_plainScreen {w h : Nat} (hs : Sized w h) (c : Color) : InRam (plainScreen c w h).canvas :=
  ⟨hs, fun _ _ ht => nomatch ht⟩

theorem Painted.get {g' : State} {pic : Pos → Option Color} (h : Painted id pic g g')
    (ht : g.canvas.target id ≠ none) (p : Pos) : g'.below.get id p = (pic p).getD (g.below.get id p) := by
  rw [h.below, get_overwrite (by rw [target_below]; exact ht)]

theorem blitExact_iff {x y w h stride key : Int} {tw th : Nat} (hx : Below61 x) (hy : Below61 y) (hw : Below61 w)
    (hh : Below61 h) (hs : Sized tw th) :
    BlitExact x y w h stride key tw th ↔
      key < 2 ^ 32 ∨ 2 ^ 24 ≤ key % 2 ^ 32 ∨ ¬ ∃ p, Rect.Mem ⟨x, y, w, h⟩ p ∧ Inside tw th p := by
  unfold Below61 at hx hy hw hh
  obtain ⟨hint, hfits⟩ := int64_of_half (x := x) (y := y) (w := w) (h := h) ⟨by omega, by omega⟩
    ⟨by omega, by omega⟩ ⟨by omega, by omega⟩ ⟨by omega, by omega⟩
  have hmem (p : Pos) : Rect.Mem ⟨x, y, w, h⟩ p ↔ 0 ≤ p.1 - x ∧ p.1 - x < w ∧ 0 ≤ p.2 - y ∧ p.2 - y < h := by
    unfold Rect.Mem
    dsimp only
    omega
  constructor
  · intro hexact
    by_contra hno
    push Not at hno
    obtain ⟨hbig, hlow, p, hp, hin⟩ := hno
    have hv : ((UInt32.ofInt key).toNat : Int) = key % 2 ^ 32 := by
      rw [UInt32.ofInt, UInt32.toNat_ofNat']
      omega
    have hland : UInt32.ofInt key &&& 0xFFFFFF = UInt32.ofInt key := land_of_lt (by omega)
    obtain ⟨px, hpx⟩ := exists_wordAt (UInt32.ofInt key) ((p.2 - y) * stride + (p.1 - x) * 4)
    have hg := inRam_plainScreen hs (UInt32.ofInt key + 1)
    obtain ⟨g', heq, hpainted⟩ := hexact _ 0 px hg rfl
    rw [Flat.blitPixelsOn_eq hg hint hfits, Option.some.injEq] at heq
    have hcode : Painted 0 _ (plainScreen (UInt32.ofInt key + 1) tw th) _ :=
      painted_blitPixelsOn rfl x y (px ∘ int64) w h stride key
    rw [heq] at hcode
    have hget := hpainted.get (show some (tw, th) ≠ none from nofun) p
    rw [hcode.get (show some (tw, th) ≠ none from nofun) p] at hget
    have hkept : ¬ (key < 0 ∨ UInt32.ofInt key &&& 0xFFFFFF ≠ UInt32.ofInt key) := by
      rw [hland]
      exact fun h => h.elim (by omega) fun hne => hne rfl
    have hdrawn : Unkeyed key (UInt32.ofInt key) := by
      refine Or.inr ?_
      rw [hland, hv]
      omega
    unfold blitted at hget
    dsimp only at hget
    rw [hpx, if_neg fun hp => hkept hp.2.2, if_pos ⟨(hmem p).mp hp, hin, hdrawn⟩] at hget
    have hone : UInt32.ofInt key + 1 = UInt32.ofInt key := hget
    have hnat := congrArg UInt32.toNat hone
    rw [UInt32.toNat_add] at hnat
    have hone' : (1 : UInt32).toNat = 1 := rfl
    omega
  · intro hkey g id px hg ht
    refine ⟨_, Flat.blitPixelsOn_eq hg hint hfits, (painted_blitPixelsOn ht ..).congr fun p => ?_⟩
    have hsame (v : Color) (hkey : key < 2 ^ 32 ∨ 2 ^ 24 ≤ key % 2 ^ 32) :
        (key < 0 ∨ v &&& 0xFFFFFF ≠ UInt32.ofInt key) ↔ Unkeyed key v := by
      have hlt := land_lt v
      unfold Unkeyed
      rw [ne_ofInt_iff]
      omega
    unfold blitted
    dsimp only
    refine if_congr ?_ rfl rfl
    rw [← hmem]
    rcases hkey with hkey | hkey | hkey
    · rw [hsame _ (Or.inl hkey)]
    · rw [hsame _ (Or.inr hkey)]
    · exact ⟨fun h => absurd ⟨p, h.1, h.2.1⟩ hkey, fun h => absurd ⟨p, h.1, h.2.1⟩ hkey⟩

/-- Presents are exact for every rectangle; images are exact unless a key of more than 32 bits has a colour in its
lower half. -/
theorem blits_exact_iff (w h : Int) :
    (∀ (g : State) (id sx sy dx dy : Int) (sw sh : Nat), InRam g.canvas → Below61 sx → Below61 sy → Below61 w →
      Below61 h → Below61 dx → Below61 dy → id ≠ 0 → g.canvas.target id = some (sw, sh) →
        ∃ g', Flat.gfxPresent id sx sy w h dx dy g = some g' ∧
          Painted 0 (presented g.canvas id sx sy w h dx dy sw sh) g g') ∧
    ∀ (x y stride key : Int) (tw th : Nat), Below61 x → Below61 y → Below61 w → Below61 h → Sized tw th →
      (BlitExact x y w h stride key tw th ↔
        key < 2 ^ 32 ∨ 2 ^ 24 ≤ key % 2 ^ 32 ∨ ¬ ∃ p, Rect.Mem ⟨x, y, w, h⟩ p ∧ Inside tw th p) :=
  ⟨fun _ _ _ _ _ _ _ _ hg hsx hsy hw hh hdx hdy hid ht => present_exact hg hsx hsy hw hh hdx hdy hid ht,
    fun _ _ _ _ _ _ hx hy hw hh hs => blitExact_iff hx hy hw hh hs⟩

/-- A screen of four pixels with a surface over it. -/
def twoByTwo : State :=
  ⟨⟨fun _ => 0, 2, 2, fun i => if i = 1 then some ⟨fun p => if p = (1, 0) then 5 else 7, 2, 2⟩ else none,
    some fun _ => 1⟩, 0, 0, false, fun _ => 0⟩

theorem inRam_twoByTwo : InRam twoByTwo.canvas := by
  have hs : Sized 2 2 := ⟨by decide, by decide⟩
  refine ⟨hs, fun i t ht => ?_⟩
  change (if i = 1 then _ else none) = some t at ht
  split_ifs at ht
  cases ht
  exact hs

theorem blits_exact_twoByTwo :
    (∃ g', Flat.gfxPresent 1 (-1) 0 3 1 (-2) 1 twoByTwo = some g' ∧
      Painted 0 (presented twoByTwo.canvas 1 (-1) 0 3 1 (-2) 1 2 2) twoByTwo g') ∧
    BlitExact (-1) 0 2 1 8 0 2 2 :=
  ⟨(blits_exact_iff 3 1).1 twoByTwo 1 (-1) 0 (-2) 1 2 2 inRam_twoByTwo ⟨by decide, by decide⟩ ⟨by decide, by decide⟩
      ⟨by decide, by decide⟩ ⟨by decide, by decide⟩ ⟨by decide, by decide⟩ ⟨by decide, by decide⟩ (by decide) rfl,
    ((blits_exact_iff 2 1).2 (-1) 0 8 0 2 2 ⟨by decide, by decide⟩ ⟨by decide, by decide⟩ ⟨by decide, by decide⟩
      ⟨by decide, by decide⟩ ⟨by decide, by decide⟩).mpr (Or.inl (by decide))⟩

/-- A key that is no colour makes black transparent. -/
theorem not_blitExact_wideKey : ¬ BlitExact 0 0 1 1 4 (2 ^ 32) 1 1 := by
  intro h
  have hs : Sized 1 1 := ⟨by decide, by decide⟩
  have hzero : Below61 0 := ⟨by decide, by decide⟩
  have hone : Below61 1 := ⟨by decide, by decide⟩
  rcases (blitExact_iff hzero hzero hone hone hs).mp h with hkey | hkey | hkey
  · exact absurd hkey (by decide)
  · exact absurd hkey (by decide)
  · exact hkey ⟨(0, 0), by decide, by decide⟩

/-! ### Magnified copies -/

/-- Of magnitude below `2 ^ 40`. -/
def Below40 (n : Int) : Prop := -2 ^ 40 < n ∧ n < 2 ^ 40

/-- Pixel `(dx + i * scale + a, dy + j * scale + b)` of the target, for `a` and `b` below `scale`, gets pixel
`(sx + i, sy + j)` of surface `src`, for `i` below `w` and `j` below `h`, where both are there. -/
def squares (k : Canvas) (src sx sy w h dx dy scale : Int) (sw sh dw dh : Nat) (p : Pos) : Option Color :=
  let i := (p.1 - dx) / scale
  let j := (p.2 - dy) / scale
  if (0 ≤ i ∧ i < w ∧ 0 ≤ j ∧ j < h) ∧ Inside sw sh (sx + i, sy + j) ∧ Inside dw dh p then
    some (k.get src (sx + i, sy + j))
  else none

/-- Whatever the pixels are, `gfx_blit_surface` gives each its own square. -/
def MagnifyExact (src sx sy w h dst dx dy scale : Int) (sw sh dw dh : Nat) : Prop :=
  ∀ g : State, InRam g.canvas → g.canvas.target src = some (sw, sh) → g.canvas.target dst = some (dw, dh) →
    ∃ g', Flat.gfxBlitSurface src sx sy w h dst dx dy scale g = some g' ∧
      Painted dst (squares g.canvas src sx sy w h dx dy scale sw sh dw dh) g g'

variable {src dst sx sy w h dx dy scale : Int} {sw sh dw dh : Nat}

/-- How much of `[s, s + n)` is in `[0, size)`. -/
def visible (s n : Int) (size : Nat) : Int := min (s + n) size - max s 0

/-- What is drawn when the part that is cut off on the left and at the top is not skipped in the target. -/
def shown (sx sy w h dx dy scale : Int) (sw sh : Nat) : Rect :=
  ⟨dx, dy, visible sx w sw * scale, visible sy h sh * scale⟩

/-- Where it belongs. -/
def meant (sx sy w h dx dy scale : Int) (sw sh : Nat) : Rect :=
  ⟨dx + max 0 (-sx) * scale, dy + max 0 (-sy) * scale, visible sx w sw * scale, visible sy h sh * scale⟩

theorem clip_visible (hw : 0 < visible sx w sw) (hh : 0 < visible sy h sh) :
    clip ⟨sx, sy, w, h⟩ sw sh = some ⟨max sx 0, max sy 0, visible sx w sw, visible sy h sh⟩ := by
  rw [clip_eq]
  exact if_pos ⟨hw, hh⟩

theorem mem_shown_iff (hscale : 1 ≤ scale) (p : Pos) : (shown sx sy w h dx dy scale sw sh).Mem p ↔
    0 ≤ (p.1 - dx) / scale ∧ (p.1 - dx) / scale < visible sx w sw ∧ 0 ≤ (p.2 - dy) / scale ∧
      (p.2 - dy) / scale < visible sy h sh := by
  rw [ediv_nonneg_iff hscale, ediv_nonneg_iff hscale, ediv_lt_iff hscale, ediv_lt_iff hscale]
  unfold shown Rect.Mem
  dsimp only
  omega

theorem mem_meant_iff (hscale : 1 ≤ scale) (p : Pos) : (meant sx sy w h dx dy scale sw sh).Mem p ↔
    (0 ≤ (p.1 - dx) / scale ∧ (p.1 - dx) / scale < w ∧ 0 ≤ (p.2 - dy) / scale ∧ (p.2 - dy) / scale < h) ∧
      Inside sw sh (sx + (p.1 - dx) / scale, sy + (p.2 - dy) / scale) := by
  have haxis (d s n a : Int) (size : Nat) : (d + max 0 (-s) * scale ≤ a ∧
      a < d + max 0 (-s) * scale + visible s n size * scale) ↔
      max 0 (-s) ≤ (a - d) / scale ∧ (a - d) / scale < max 0 (-s) + visible s n size := by
    rw [Int.le_ediv_iff_mul_le (by omega), ediv_lt_iff hscale, Int.add_mul]
    omega
  have hx := haxis dx sx w p.1 sw
  have hy := haxis dy sy h p.2 sh
  unfold meant Rect.Mem
  dsimp only
  rw [← and_assoc, hx, hy]
  unfold visible Inside
  dsimp only
  omega

/-- The state with other pixels in the two surfaces, and no cursor. -/
def repainted (g : State) (src dst : Int) (pic : Pos → Color) : State :=
  { g with
    canvas := (g.canvas.overwrite src fun q => some (pic q)).overwrite dst fun _ => some 0
    curShown := false }

theorem below_repainted (g : State) (src dst : Int) (pic : Pos → Color) :
    (repainted g src dst pic).below = (repainted g src dst pic).canvas := below_hidden rfl

theorem get_repainted_src {g : State} (ht : g.canvas.target src ≠ none) (hne : src ≠ dst) (pic : Pos → Color)
    (q : Pos) : (repainted g src dst pic).canvas.get src q = pic q := by
  unfold repainted
  dsimp only
  rw [get_overwrite_of_ne hne, get_overwrite ht]
  rfl

theorem get_repainted_dst {g : State} (ht : g.canvas.target dst ≠ none) (pic : Pos → Color) (q : Pos) :
    (repainted g src dst pic).canvas.get dst q = 0 := by
  unfold repainted
  dsimp only
  rw [get_overwrite (by rw [target_overwrite]; exact ht)]
  rfl

/-- Two pictures of the same operation agree. -/
theorem Painted.same {g g' : State} {pic pic' : Pos → Option Color} (h : Painted id pic g g')
    (h' : Painted id pic' g g') (ht : g.canvas.target id ≠ none) (p : Pos) :
    (pic p).getD (g.below.get id p) = (pic' p).getD (g.below.get id p) := by
  rw [← h.get ht, ← h'.get ht]

theorem magnifyExact_iff (g₀ : State) (hg : InRam g₀.canvas) (hsrc : g₀.canvas.target src = some (sw, sh))
    (hdst : g₀.canvas.target dst = some (dw, dh)) (hne : src ≠ dst) (hsx : Below40 sx) (hsy : Below40 sy)
    (hw : Below40 w) (hh : Below40 h) (hdx : Below40 dx) (hdy : Below40 dy) (hscale : 1 ≤ scale)
    (hscale' : scale < 2 ^ 16) :
    MagnifyExact src sx sy w h dst dx dy scale sw sh dw dh ↔
      0 ≤ sx ∧ 0 ≤ sy ∨ visible sx w sw ≤ 0 ∨ visible sy h sh ≤ 0 ∨
        ¬ ∃ p, Inside dw dh p ∧
          ((shown sx sy w h dx dy scale sw sh).Mem p ∨ (meant sx sy w h dx dy scale sw sh).Mem p) := by
  unfold Below40 at hsx hsy hw hh hdx hdy
  obtain ⟨hint, hfits⟩ := int64_of_half (x := sx) (y := sy) (w := w) (h := h) ⟨by omega, by omega⟩
    ⟨by omega, by omega⟩ ⟨by omega, by omega⟩ ⟨by omega, by omega⟩
  have heq {g : State} (hg : InRam g.canvas) : Flat.gfxBlitSurface src sx sy w h dst dx dy scale g =
      some (gfxBlitSurface src sx sy w h dst dx dy scale g) :=
    Flat.blitSurface_eq hg hint hfits ⟨by omega, by omega⟩ ⟨by omega, by omega⟩ hscale'
  constructor
  · intro hexact
    by_contra hno
    push Not at hno
    obtain ⟨hcut, hvw, hvh, p, hin, hp⟩ := hno
    have hcode (pic : Pos → Color) :
        let g := repainted g₀ src dst pic
        ((magnified g.canvas src ⟨max sx 0, max sy 0, visible sx w sw, visible sy h sh⟩ dx dy scale dw dh p).getD
          0 : Color) = (squares g.canvas src sx sy w h dx dy scale sw sh dw dh p).getD 0 := by
      intro g
      have hram : InRam g.canvas := (hg.sameMap sameMap_overwrite).sameMap sameMap_overwrite
      have htsrc : g.canvas.target src = some (sw, sh) := by
        rw [← hsrc]
        exact target_overwrite.trans target_overwrite
      have htdst : g.canvas.target dst = some (dw, dh) := by
        rw [← hdst]
        exact target_overwrite.trans target_overwrite
      have hdst0 : g.below.get dst p = 0 := by
        rw [below_repainted]
        exact get_repainted_dst (by rw [hdst]; exact nofun) pic p
      obtain ⟨g', hflat, hpainted⟩ := hexact g hram htsrc htdst
      rw [heq hram, Option.some.injEq] at hflat
      have hcode := painted_blitSurface htsrc htdst hne hscale sx sy w h dx dy
      rw [hflat, clip_visible hvw hvh] at hcode
      have hsame := hcode.same hpainted (by rw [htdst]; exact nofun) p
      rw [hdst0] at hsame
      exact hsame
    have hsrc' : g₀.canvas.target src ≠ none := by
      rw [hsrc]
      exact nofun
    by_cases hshown : (shown sx sy w h dx dy scale sw sh).Mem p
    · -- a pixel comes from the wrong place
      have hmem := (mem_shown_iff hscale p).mp hshown
      have hpix := hcode fun q =>
        if q = (max sx 0 + (p.1 - dx) / scale, max sy 0 + (p.2 - dy) / scale) then 1 else 0
      dsimp only at hpix
      unfold magnified squares at hpix
      dsimp only at hpix
      rw [if_pos ⟨hmem, hin⟩, get_repainted_src hsrc' hne, if_pos rfl] at hpix
      split_ifs at hpix
      · rw [get_repainted_src hsrc' hne, if_neg] at hpix
        · exact absurd hpix (by decide)
        · intro heq
          have hfst := congrArg Prod.fst heq
          have hsnd := congrArg Prod.snd heq
          dsimp only at hfst hsnd
          omega
      · exact absurd hpix (by decide)
    · -- a pixel is missing
      have hmeant := (mem_meant_iff hscale p).mp (hp.resolve_left hshown)
      have hpix := hcode fun _ => 1
      dsimp only at hpix
      unfold magnified squares at hpix
      dsimp only at hpix
      rw [if_neg fun h => hshown ((mem_shown_iff hscale p).mpr h.1), if_pos ⟨hmeant.1, hmeant.2, hin⟩,
        get_repainted_src hsrc' hne] at hpix
      exact absurd hpix (by decide)
  · intro hcond g hg hsrc hdst
    refine ⟨_, heq hg, (painted_blitSurface hsrc hdst hne hscale ..).congr fun p => ?_⟩
    by_cases hvis : 0 < visible sx w sw ∧ 0 < visible sy h sh
    · rw [clip_visible hvis.1 hvis.2]
      show magnified _ _ _ _ _ _ _ _ p = _
      unfold magnified squares
      dsimp only
      rcases hcond with ⟨hx, hy⟩ | hcond | hcond | hcond
      · rw [max_eq_left hx, max_eq_left hy]
        refine if_congr ?_ rfl rfl
        unfold Inside visible
        dsimp only
        omega
      · omega
      · omega
      · rw [if_neg fun hp => hcond ⟨p, hp.2, Or.inl ((mem_shown_iff hscale p).mpr hp.1)⟩,
          if_neg fun hp => hcond ⟨p, hp.2.2, Or.inr ((mem_meant_iff hscale p).mpr ⟨hp.1, hp.2.1⟩)⟩]
    · have hnone : clip ⟨sx, sy, w, h⟩ sw sh = none := by
        rw [clip_eq]
        exact if_neg hvis
      rw [hnone]
      refine (if_neg ?_).symm
      rintro ⟨hi, hs, -⟩
      unfold Inside at hs
      unfold visible at hvis
      dsimp only at hs
      omega

theorem target_twoByTwo : twoByTwo.canvas.target 1 = some (2, 2) ∧ twoByTwo.canvas.target 0 = some (2, 2) :=
  ⟨rfl, rfl⟩

theorem magnifyExact_twoByTwo : MagnifyExact 1 1 0 5 5 0 (-1) (-3) 2 2 2 2 2 :=
  (magnifyExact_iff twoByTwo inRam_twoByTwo target_twoByTwo.1 target_twoByTwo.2 (by decide)
    ⟨by decide, by decide⟩ ⟨by decide, by decide⟩ ⟨by decide, by decide⟩ ⟨by decide, by decide⟩
    ⟨by decide, by decide⟩ ⟨by decide, by decide⟩ (by decide) (by decide)).mpr (Or.inl (by decide))

/-- Clipping the source on the left shifts the picture. -/
theorem not_magnifyExact_left : ¬ MagnifyExact 1 (-1) 0 2 1 0 0 0 1 2 2 2 2 := by
  intro h
  obtain ⟨g', heq, hpainted⟩ := h twoByTwo inRam_twoByTwo target_twoByTwo.1 target_twoByTwo.2
  obtain ⟨hint, hfits⟩ := int64_of_half (x := -1) (y := 0) (w := 2) (h := 1) ⟨by decide, by decide⟩
    ⟨by decide, by decide⟩ ⟨by decide, by decide⟩ ⟨by decide, by decide⟩
  rw [Flat.blitSurface_eq inRam_twoByTwo hint hfits ⟨by decide, by decide⟩ ⟨by decide, by decide⟩ (by decide),
    Option.some.injEq] at heq
  have hcode := painted_blitSurface target_twoByTwo.1 target_twoByTwo.2 (by decide) (Int.le_refl 1) (-1) 0 2 1 0 0
  rw [heq] at hcode
  have hsame := hcode.same hpainted (by rw [target_twoByTwo.2]; exact nofun) (0, 0)
  rw [below_hidden (g := twoByTwo) rfl] at hsame
  exact absurd hsame (by decide)

end Beeros.Gfx
