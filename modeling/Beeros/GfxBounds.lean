import Beeros.GfxFlat
import Beeros.GfxOwner

/-! When `kernel/gfx.c` stays inside its arrays: as long as the sums of `clip` fit in an `int64_t`, the functions
on arrays do what the functions on pixels do. -/

namespace Beeros.Gfx

open CInt Loop

/-- The size of a pixel array that lies in RAM, of which there are 256M. -/
structure Sized (w h : Nat) : Prop where
  pos : 0 < w ∧ 0 < h
  ram : w * h * 4 ≤ 256 * 2 ^ 20

/-- The screen and all surfaces are in RAM. -/
structure InRam (k : Canvas) : Prop where
  screen : Sized k.w k.h
  surfaces : ∀ i t, k.surfaces i = some t → Sized t.w t.h

/-- The values are those of `int64_t` variables. -/
structure Rect.Int64 (r : Rect) : Prop where
  x : IsInt64 r.x
  y : IsInt64 r.y
  w : IsInt64 r.w
  h : IsInt64 r.h

/-- The other corner is an `int64_t` as well. -/
def Rect.Fits (r : Rect) : Prop := IsInt64 (r.x + r.w) ∧ IsInt64 (r.y + r.h)

instance (r : Rect) : Decidable r.Fits := inferInstanceAs (Decidable (_ ∧ _))

/-- Half of the range is enough. -/
theorem int64_of_half {x y w h : Int} (hx : -2 ^ 62 ≤ x ∧ x < 2 ^ 62) (hy : -2 ^ 62 ≤ y ∧ y < 2 ^ 62)
    (hw : -2 ^ 62 ≤ w ∧ w < 2 ^ 62) (hh : -2 ^ 62 ≤ h ∧ h < 2 ^ 62) :
    Rect.Int64 ⟨x, y, w, h⟩ ∧ Rect.Fits ⟨x, y, w, h⟩ := by
  refine ⟨⟨⟨?_, ?_⟩, ⟨?_, ?_⟩, ⟨?_, ?_⟩, ⟨?_, ?_⟩⟩, ⟨?_, ?_⟩, ⟨?_, ?_⟩⟩ <;> dsimp only <;> omega

variable {g : State} {k : Canvas} {id : Int} {r s : Rect} {w h : Nat}

theorem Sized.lt (hs : Sized w h) : w < 2 ^ 27 ∧ h < 2 ^ 27 ∧ w * h < 2 ^ 27 := by
  obtain ⟨⟨hw, hh⟩, hram⟩ := hs
  have hwle : w ≤ w * h := Nat.le_mul_of_pos_right w hh
  have hhle : h ≤ w * h := Nat.le_mul_of_pos_left h hw
  omega

theorem InRam.target (hk : InRam k) (ht : k.target id = some (w, h)) : Sized w h := by
  unfold Canvas.target at ht
  split_ifs at ht with h₁ h₂
  · cases ht
    exact hk.screen
  · rw [Option.map_eq_some_iff] at ht
    obtain ⟨t, ht, heq⟩ := ht
    cases heq
    exact hk.surfaces id t ht

theorem InRam.sameMap {k' : Canvas} (h : InRam k) (hmap : SameMap k k') : InRam k' := by
  refine ⟨?_, fun i t ht => ?_⟩
  · rw [hmap.w, hmap.h]
    exact h.screen
  · have hsize := hmap.sizes i
    rw [ht, Option.map_some] at hsize
    obtain ⟨t', ht', heq⟩ := Option.map_eq_some_iff.mp hsize.symm
    rw [Prod.mk.injEq] at heq
    rw [← heq.1, ← heq.2]
    exact h.surfaces i t' ht'

/-- What is left of a rectangle lies in the area. -/
theorem clip_inside (hclip : clip r w h = some s) :
    0 ≤ s.x ∧ 0 ≤ s.y ∧ 0 < s.w ∧ 0 < s.h ∧ s.x + s.w ≤ w ∧ s.y + s.h ≤ h := by
  rw [clip_eq] at hclip
  split_ifs at hclip with hpos
  cases hclip
  dsimp only
  omega

/-- What is left of a rectangle is a part of it. -/
theorem clip_part (hclip : clip r w h = some s) : s.x + s.w ≤ r.x + r.w ∧ s.y + s.h ≤ r.y + r.h := by
  rw [clip_eq] at hclip
  split_ifs at hclip with hpos
  cases hclip
  dsimp only
  omega

/-- What `clip` cuts off at the left and at the top. -/
theorem clip_shift (hr : r.Int64) (hclip : clip r w h = some s) :
    0 ≤ s.x - r.x ∧ IsInt64 (s.x - r.x) ∧ 0 ≤ s.y - r.y ∧ IsInt64 (s.y - r.y) := by
  obtain ⟨⟨hx₁, hx₂⟩, ⟨hy₁, hy₂⟩, ⟨hw₁, hw₂⟩, ⟨hh₁, hh₂⟩⟩ := hr
  rw [clip_eq] at hclip
  split_ifs at hclip with hpos
  cases hclip
  unfold IsInt64
  dsimp only
  omega

namespace Flat

/-! ### Rows -/

/-- The pixel `x` of row `y`. -/
theorem cell_row {x y : Int} (hx : 0 ≤ x) (hxw : x < w) (hy : 0 ≤ y) (hyh : y < h) :
    cell w h (y * w + x) = some (x, y) := by
  have hw : (0 : Int) < w := by omega
  have hnonneg : 0 ≤ y * w := Int.mul_nonneg hy (by omega)
  have hlt : y * w + x < w * h := by
    have hsucc : (y + 1) * w ≤ h * w := Int.mul_le_mul_of_nonneg_right (by omega) (by omega)
    rw [Int.add_mul, Int.one_mul, Int.mul_comm (h : Int)] at hsucc
    omega
  have hmod : (y * w + x) % w = x := by
    rw [Int.add_comm, Int.add_mul_emod_self_right, Int.emod_eq_of_lt hx hxw]
  have hdiv : (y * w + x) / w = y := by
    rw [Int.add_comm, Int.add_mul_ediv_right x y (by omega), Int.ediv_eq_zero_of_lt hx hxw, Int.zero_add]
  unfold cell
  rw [if_pos ⟨by omega, hlt⟩, hmod, hdiv]

/-- The offset of a row fits. -/
theorem int64_row (hs : Sized w h) {y : Int} (hy : 0 ≤ y) (hyh : y < h) : int64 (y * w) = y * w := by
  have hlt := hs.lt
  have hle : y * w ≤ h * w := Int.mul_le_mul_of_nonneg_right (by omega) (by omega)
  have hnonneg : 0 ≤ y * w := Int.mul_nonneg hy (by omega)
  have hbound : ((w * h : Nat) : Int) < 2 ^ 27 := by
    exact_mod_cast hlt.2.2
  rw [Int.natCast_mul, Int.mul_comm] at hbound
  refine int64_of_isInt64 ⟨by omega, by omega⟩

theorem store_row (hs : Sized w h) {x y : Int} (hx : 0 ≤ x) (hxw : x < w) (hy : 0 ≤ y) (hyh : y < h) (c : Color)
    (k : Canvas) : store id w h (int64 (y * w) + x) c k = some (k.put id (x, y) c) := by
  unfold store
  rw [int64_row hs hy hyh, cell_row hx hxw hy hyh]
  rfl

theorem load_row (hs : Sized w h) {x y : Int} (hx : 0 ≤ x) (hxw : x < w) (hy : 0 ≤ y) (hyh : y < h) :
    load k id w h (int64 (y * w) + x) = some (k.get id (x, y)) := by
  unfold load
  rw [int64_row hs hy hyh, cell_row hx hxw hy hyh]
  rfl

theorem loadOwner_row (hs : Sized k.w k.h) {x y : Int} (hx : 0 ≤ x) (hxw : x < k.w) (hy : 0 ≤ y) (hyh : y < k.h) :
    loadOwner k (int64 (y * k.w) + x) = k.owner.map fun own => own (x, y) := by
  unfold loadOwner
  rw [int64_row hs hy hyh, cell_row hx hxw hy hyh]
  rfl

/-! ### Clipping -/

/-- What `clip` makes of the position and the length along one axis. -/
def axis (x w : Int) (max : Nat) : Int × Int :=
  let (x, w) := if x < 0 then (0, int64 (w + x)) else (x, w)
  (x, if int64 (x + w) > max then int64 (max - x) else w)

/-- The two axes have nothing to do with each other. -/
theorem clip_axes (r : Rect) (w h : Nat) : clip r w h =
    if 0 < (axis r.x r.w w).2 ∧ 0 < (axis r.y r.h h).2 then
      some ⟨(axis r.x r.w w).1, (axis r.y r.h h).1, (axis r.x r.w w).2, (axis r.y r.h h).2⟩
    else none := by
  unfold clip axis
  by_cases hx : r.x < 0
  · by_cases hy : r.y < 0
    · simp only [if_pos hx, if_pos hy]
      split_ifs <;> rfl
    · simp only [if_pos hx, if_neg hy]
      split_ifs <;> rfl
  · by_cases hy : r.y < 0
    · simp only [if_neg hx, if_pos hy]
      split_ifs <;> rfl
    · simp only [if_neg hx, if_neg hy]
      split_ifs <;> rfl

theorem axis_of_fits {x w : Int} {max' : Nat} (hx : IsInt64 x) (hmax : max' < 2 ^ 32)
    (hfits : IsInt64 (x + w)) : axis x w max' = (max x 0, min (x + w) max' - max x 0) := by
  unfold axis
  by_cases hneg : x < 0
  · have hsum : int64 (w + x) = x + w := by rw [Int.add_comm, int64_of_isInt64 hfits]
    have hsub : int64 (max' - (0 : Int)) = max' := int64_of_isInt64 ⟨by omega, by omega⟩
    rw [if_pos hneg]
    dsimp only
    rw [hsum, Int.zero_add, int64_of_isInt64 hfits, hsub]
    split_ifs <;> refine Prod.ext ?_ ?_ <;> dsimp only <;> omega
  · have hsub : int64 (max' - x) = max' - x := by
      obtain ⟨hx₁, hx₂⟩ := hx
      exact int64_of_isInt64 ⟨by omega, by omega⟩
    rw [if_neg hneg]
    dsimp only
    rw [int64_of_isInt64 hfits, hsub]
    split_ifs <;> refine Prod.ext ?_ ?_ <;> dsimp only <;> omega

/-- The sums of the code are the exact ones. -/
theorem clip_eq_of_fits (hr : r.Int64) (hfits : r.Fits) (hw : w < 2 ^ 32) (hh : h < 2 ^ 32) :
    clip r w h = Gfx.clip r w h := by
  rw [clip_axes, clip_eq, axis_of_fits hr.x hw hfits.1, axis_of_fits hr.y hh hfits.2]

/-! ### The functions -/

theorem hideOn_eq (hx : IsInt64 (s.x + s.w)) (hy : IsInt64 (s.y + s.h)) : hideOn id s g = Gfx.hideOn id s g := by
  have hmeets : meets g s = g.meets s := by
    unfold meets State.meets
    rw [int64_of_isInt64 hx, int64_of_isInt64 hy]
  unfold hideOn Gfx.hideOn cursorHideFor Gfx.cursorHideFor
  rw [hmeets]

theorem drawOn_eq {draw : Canvas → Canvas} {draw' : Canvas → Option Canvas}
    (hx : IsInt64 (s.x + s.w)) (hy : IsInt64 (s.y + s.h))
    (hdraw : ∀ fb, draw' { g.canvas with fb := fb } = some (draw { g.canvas with fb := fb })) :
    drawOn id s draw' g = some (Gfx.drawOn id s draw g) := by
  have hcanvas : ∃ fb, (Gfx.hideOn id s g).2.canvas = { g.canvas with fb := fb } := by
    have hfold : cursorRestore g = _ := cursorRestore_fold cells g
    unfold Gfx.hideOn Gfx.cursorHideFor
    split_ifs
    · exact ⟨_, by rw [hfold]⟩
    · exact ⟨g.canvas.fb, rfl⟩
    · exact ⟨g.canvas.fb, rfl⟩
  obtain ⟨fb, hfb⟩ := hcanvas
  unfold drawOn Gfx.drawOn
  rw [hideOn_eq hx hy]
  show (draw' (Gfx.hideOn id s g).2.canvas).map _ = some (cursorShowAgain _ { (Gfx.hideOn id s g).2 with
    canvas := draw (Gfx.hideOn id s g).2.canvas })
  rw [hfb, hdraw]
  rfl

theorem fillRectOn_eq (hg : InRam g.canvas) (hr : r.Int64) (hfits : r.Fits) (color : Color) :
    gfxFillRectOn id r color g = some (Gfx.gfxFillRectOn id r color g) := by
  unfold gfxFillRectOn Gfx.gfxFillRectOn
  cases ht : g.canvas.target id with
  | none => rfl
  | some t =>
      obtain ⟨tw, th⟩ := t
      have hs := hg.target ht
      have hlt := hs.lt
      dsimp only
      rw [clip_eq_of_fits hr hfits (by omega) (by omega)]
      cases hclip : Gfx.clip r tw th with
      | none => rfl
      | some s =>
          obtain ⟨hx, hy, hw, hh, hxw, hyh⟩ := clip_inside hclip
          have hend : int64 (s.y + s.h) = s.y + s.h := int64_of_isInt64 ⟨by omega, by omega⟩
          dsimp only
          rw [hend]
          refine drawOn_eq ⟨by omega, by omega⟩ ⟨by omega, by omega⟩ fun fb => ?_
          refine forRangeM_eq_some (fun row hrow hrow' k => forRangeM_eq_some (fun c hc hc' k => ?_) k) _
          rw [Int.add_assoc]
          exact store_row hs (by omega) (by omega) (by omega) (by omega) color k

theorem own_eq (hg : InRam g.canvas) (hr : r.Int64) (hfits : r.Fits) :
    gfxOwn id r g = some (Gfx.gfxOwn id r g) := by
  have hlt := hg.screen.lt
  unfold gfxOwn Gfx.gfxOwn Canvas.own
  cases g.canvas.owner with
  | none => rfl
  | some own =>
      dsimp only
      split_ifs with hid
      · rfl
      · rw [clip_eq_of_fits hr hfits (by omega) (by omega)]
        cases hclip : Gfx.clip r g.canvas.w g.canvas.h with
        | none => rfl
        | some s =>
            obtain ⟨hx, hy, hw, hh, hxw, hyh⟩ := clip_inside hclip
            have hend : int64 (s.y + s.h) = s.y + s.h := int64_of_isInt64 ⟨by omega, by omega⟩
            dsimp only
            rw [hend, forRangeM_eq_some (g := fun row own => ownRow id s.x row s.w own)]
            · rfl
            · intro row hrow hrow' own
              refine forRangeM_eq_some (fun c hc hc' own => ?_) own
              rw [Int.add_assoc, int64_row hg.screen (by omega) (by omega),
                cell_row (by omega) (by omega) (by omega) (by omega)]
              rfl

/-- The loops of `gfx_present` over `d`, from `(sx, sy)` on. -/
theorem present_rows {own : Pos → Int} (sx sy : Int) {d : Rect} {sw sh : Nat} (hscreen : Sized k.w k.h)
    (hsurface : Sized sw sh) (hown : k.owner = some own)
    (hsrc : 0 ≤ sx ∧ 0 ≤ sy ∧ sx + d.w ≤ sw ∧ sy + d.h ≤ sh)
    (hdst : 0 ≤ d.x ∧ 0 ≤ d.y ∧ d.x + d.w ≤ k.w ∧ d.y + d.h ≤ k.h) :
    forRangeM 0 d.h (fun r => forRangeM 0 d.w fun c k' =>
      (loadOwner k' (int64 (int64 (d.y + r) * k.w) + d.x + c)).bind fun own =>
        if own = id then
          (load k' id sw sh (int64 (int64 (sy + r) * sw) + sx + c)).bind fun v =>
            store 0 k.w k.h (int64 (int64 (d.y + r) * k.w) + d.x + c) v k'
        else some k') k =
      some (forRange 0 d.h (fun r => forRange 0 d.w fun c k =>
        if k.owner.map (fun own => own (d.x + c, d.y + r)) = some id then
          k.put 0 (d.x + c, d.y + r) (k.get id (sx + c, sy + r))
        else k) k) := by
  have hlt := hscreen.lt
  have hslt := hsurface.lt
  refine forRangeM_eq_some_of (P := SameMap k) (.refl k) fun r hr hr' k₁ hk₁ => ?_
  have hdrow : int64 (d.y + r) = d.y + r := int64_of_isInt64 ⟨by omega, by omega⟩
  have hsrow : int64 (sy + r) = sy + r := int64_of_isInt64 ⟨by omega, by omega⟩
  rw [hdrow, hsrow]
  have hpixel (c : Int) (hc : 0 ≤ c) (hc' : c < d.w) (k' : Canvas) (hk' : SameMap k k') :
      ((loadOwner k' (int64 ((d.y + r) * k.w) + d.x + c)).bind fun own =>
        if own = id then
          (load k' id sw sh (int64 ((sy + r) * sw) + sx + c)).bind fun v =>
            store 0 k.w k.h (int64 ((d.y + r) * k.w) + d.x + c) v k'
        else some k') =
        some (if k'.owner.map (fun own => own (d.x + c, d.y + r)) = some id then
          k'.put 0 (d.x + c, d.y + r) (k'.get id (sx + c, sy + r)) else k') := by
    have hownat : loadOwner k' (int64 ((d.y + r) * k.w) + d.x + c) =
        k'.owner.map fun own => own (d.x + c, d.y + r) := by
      rw [← hk'.w, Int.add_assoc]
      exact loadOwner_row (by rw [hk'.w, hk'.h]; exact hscreen) (by omega) (by rw [hk'.w]; omega) (by omega)
        (by rw [hk'.h]; omega)
    rw [hownat, hk'.owner, hown, Option.map_some, Option.bind_some]
    by_cases hid : own (d.x + c, d.y + r) = id
    · rw [if_pos hid, if_pos (congrArg some hid), Int.add_assoc (int64 ((sy + r) * sw)),
        load_row hsurface (by omega) (by omega) (by omega) (by omega), Int.add_assoc (int64 ((d.y + r) * k.w))]
      exact store_row hscreen (by omega) (by omega) (by omega) (by omega) _ k'
    · rw [if_neg hid, if_neg fun h => hid (Option.some.inj h)]
  refine ⟨forRangeM_eq_some_of (P := SameMap k) hk₁ fun c hc hc' k₂ hk₂ => ⟨hpixel c hc hc' k₂ hk₂, ?_⟩, ?_⟩
  · exact hk₂.trans (sameMap_cond (sameMap_put ..) (.refl _))
  · exact hk₁.trans (sameMap_loop (fun c k => sameMap_cond (sameMap_put ..) (.refl _)) k₁)

theorem present_eq {sx sy w h dx dy : Int} (hg : InRam g.canvas) (hsrc : Rect.Int64 ⟨sx, sy, w, h⟩)
    (hfits : Rect.Fits ⟨sx, sy, w, h⟩) (hdst : ∀ sw sh s, g.canvas.target id = some (sw, sh) →
      Gfx.clip ⟨sx, sy, w, h⟩ sw sh = some s → Rect.Int64 ⟨dx + (s.x - sx), dy + (s.y - sy), s.w, s.h⟩ ∧
        Rect.Fits ⟨dx + (s.x - sx), dy + (s.y - sy), s.w, s.h⟩) :
    gfxPresent id sx sy w h dx dy g = some (Gfx.gfxPresent id sx sy w h dx dy g) := by
  have hlt := hg.screen.lt
  unfold gfxPresent Gfx.gfxPresent
  cases ht : g.canvas.target id with
  | none => rfl
  | some t =>
      obtain ⟨sw, sh⟩ := t
      have hss := hg.target ht
      have hslt := hss.lt
      cases hown : g.canvas.owner with
      | none => rfl
      | some own =>
          dsimp only
          split_ifs with hid
          · rfl
          · rw [clip_eq_of_fits hsrc hfits (by omega) (by omega)]
            cases hclip : Gfx.clip ⟨sx, sy, w, h⟩ sw sh with
            | none => rfl
            | some s =>
                obtain ⟨hint, hfits'⟩ := hdst sw sh s ht hclip
                obtain ⟨-, hcutx, -, hcuty⟩ := clip_shift hsrc hclip
                obtain ⟨hx, hy, hw, hh, hxw, hyh⟩ := clip_inside hclip
                have hmovex : int64 (dx + int64 (s.x - sx)) = dx + (s.x - sx) := by
                  rw [int64_of_isInt64 hcutx, int64_of_isInt64 hint.x]
                have hmovey : int64 (dy + int64 (s.y - sy)) = dy + (s.y - sy) := by
                  rw [int64_of_isInt64 hcuty, int64_of_isInt64 hint.y]
                dsimp only
                rw [hmovex, hmovey, clip_eq_of_fits hint hfits' (by omega) (by omega)]
                cases hclip' : Gfx.clip ⟨dx + (s.x - sx), dy + (s.y - sy), s.w, s.h⟩ g.canvas.w g.canvas.h with
                | none => rfl
                | some d =>
                    obtain ⟨hcut₁, hcutx', hcut₂, hcuty'⟩ := clip_shift hint hclip'
                    have hin := clip_part hclip'
                    obtain ⟨hdx, hdy, hdw, hdh, hdxw, hdyh⟩ := clip_inside hclip'
                    dsimp only at hcut₁ hcut₂ hcutx' hcuty' hin
                    have hsx : int64 (s.x + int64 (d.x - (dx + (s.x - sx)))) =
                        s.x + (d.x - (dx + (s.x - sx))) := by
                      rw [int64_of_isInt64 hcutx']
                      exact int64_of_isInt64 ⟨by omega, by omega⟩
                    have hsy : int64 (s.y + int64 (d.y - (dy + (s.y - sy)))) =
                        s.y + (d.y - (dy + (s.y - sy))) := by
                      rw [int64_of_isInt64 hcuty']
                      exact int64_of_isInt64 ⟨by omega, by omega⟩
                    dsimp only
                    rw [hsx, hsy]
                    refine drawOn_eq ⟨by omega, by omega⟩ ⟨by omega, by omega⟩ fun fb => ?_
                    exact present_rows (k := { g.canvas with fb := fb }) _ _ hg.screen hss hown
                      ⟨by omega, by omega, by omega, by omega⟩ ⟨hdx, hdy, hdxw, hdyh⟩

theorem fillOwned_eq (hg : InRam g.canvas) (hr : r.Int64) (hfits : r.Fits) (color : Color) :
    gfxFillOwned id r color g = some (Gfx.gfxFillOwned id r color g) := by
  have hlt := hg.screen.lt
  unfold gfxFillOwned Gfx.gfxFillOwned
  cases hown : g.canvas.owner with
  | none => rfl
  | some own =>
      dsimp only
      rw [clip_eq_of_fits hr hfits (by omega) (by omega)]
      cases hclip : Gfx.clip r g.canvas.w g.canvas.h with
      | none => rfl
      | some s =>
          obtain ⟨hx, hy, hw, hh, hxw, hyh⟩ := clip_inside hclip
          have hendx : int64 (s.x + s.w) = s.x + s.w := int64_of_isInt64 ⟨by omega, by omega⟩
          have hendy : int64 (s.y + s.h) = s.y + s.h := int64_of_isInt64 ⟨by omega, by omega⟩
          dsimp only
          rw [hendx, hendy]
          refine drawOn_eq ⟨by omega, by omega⟩ ⟨by omega, by omega⟩ fun fb => ?_
          have hpixel (row c : Int) (hrow : s.y ≤ row) (hrow' : row < s.y + s.h) (hc : s.x ≤ c)
              (hc' : c < s.x + s.w) (k : Canvas) (hk : SameMap g.canvas k) :
              ((loadOwner k (int64 (row * g.canvas.w) + c)).bind fun own =>
                if own = id then store 0 g.canvas.w g.canvas.h (int64 (row * g.canvas.w) + c) color k
                else some k) =
              some (if k.owner.map (fun own => own (c, row)) = some id then k.put 0 (c, row) color else k) := by
            have hownat : loadOwner k (int64 (row * g.canvas.w) + c) = k.owner.map fun own => own (c, row) := by
              rw [← hk.w]
              exact loadOwner_row (by rw [hk.w, hk.h]; exact hg.screen) (by omega) (by rw [hk.w]; omega) (by omega)
                (by rw [hk.h]; omega)
            rw [hownat, hk.owner, hown, Option.map_some, Option.bind_some]
            by_cases hid : own (c, row) = id
            · rw [if_pos hid, if_pos (congrArg some hid)]
              exact store_row hg.screen (by omega) (by omega) (by omega) (by omega) color k
            · rw [if_neg hid, if_neg fun h => hid (Option.some.inj h)]
          refine forRangeM_eq_some_of (P := SameMap g.canvas) (sameMap_fb ..) fun row hrow hrow' k hk => ⟨?_, ?_⟩
          · refine forRangeM_eq_some_of (P := SameMap g.canvas) hk fun c hc hc' k hk =>
              ⟨hpixel row c hrow hrow' hc hc' k hk, ?_⟩
            exact hk.trans (sameMap_cond (sameMap_put ..) (.refl _))
          · exact hk.trans (sameMap_loop (fun c k => sameMap_cond (sameMap_put ..) (.refl _)) k)

/-- Addresses are modulo `2 ^ 64`. -/
theorem wordAt_congr {px : Int → UInt8} {a b : Int} (h : a % 2 ^ 64 = b % 2 ^ 64) :
    wordAt (px ∘ int64) a = wordAt (px ∘ int64) b := by
  have hbyte (n : Int) : int64 (a + n) = int64 (b + n) := by
    unfold int64
    omega
  have hzero := hbyte 0
  rw [Int.add_zero, Int.add_zero] at hzero
  unfold wordAt
  simp only [Function.comp_apply, hbyte, hzero]

theorem blitPixelsOn_eq {x y w h stride key : Int} {px : Int → UInt8} (hg : InRam g.canvas)
    (hr : Rect.Int64 ⟨x, y, w, h⟩) (hfits : Rect.Fits ⟨x, y, w, h⟩) :
    gfxBlitPixelsOn id x y px w h stride key g =
      some (Gfx.gfxBlitPixelsOn id x y (px ∘ int64) w h stride key g) := by
  unfold gfxBlitPixelsOn Gfx.gfxBlitPixelsOn
  cases ht : g.canvas.target id with
  | none => rfl
  | some t =>
      obtain ⟨tw, th⟩ := t
      have hs := hg.target ht
      have hlt := hs.lt
      dsimp only
      rw [clip_eq_of_fits hr hfits (by omega) (by omega)]
      cases hclip : Gfx.clip ⟨x, y, w, h⟩ tw th with
      | none => rfl
      | some s =>
          obtain ⟨hx, hy, hw, hh, hxw, hyh⟩ := clip_inside hclip
          obtain ⟨-, hcutx, -, hcuty⟩ := clip_shift hr hclip
          dsimp only at hcutx hcuty ⊢
          refine drawOn_eq ⟨by omega, by omega⟩ ⟨by omega, by omega⟩ fun fb => ?_
          refine forRangeM_eq_some (fun row hrow hrow' k => ?_) _
          have hdrow : int64 (s.y + row) = s.y + row := int64_of_isInt64 ⟨by omega, by omega⟩
          have hcount : (uint64 (s.w * 4) : Int) / 4 = s.w := by
            unfold uint64
            omega
          have hword (c : Int) : wordAt (px ∘ int64) (int64 (int64 (int64 (s.y - y) * stride) +
              int64 (int64 (s.x - x) * 4)) + int64 (row * stride) + c * 4) =
              wordAt (px ∘ int64) ((s.y - y) * stride + (s.x - x) * 4 + row * stride + c * 4) := by
            apply wordAt_congr
            rw [int64_of_isInt64 hcutx, int64_of_isInt64 hcuty]
            generalize (s.y - y) * stride = a
            generalize row * stride = b
            unfold int64
            omega
          simp only [hdrow, hword, hcount]
          split_ifs with hkey
          · refine forRangeM_eq_some (fun c hc hc' k => ?_) k
            rw [if_pos (Or.inl hkey), Int.add_assoc]
            exact store_row hs (by omega) (by omega) (by omega) (by omega) _ k
          · refine forRangeM_eq_some (fun c hc hc' k => ?_) k
            simp only [hkey, false_or]
            split_ifs
            · rw [Int.add_assoc]
              exact store_row hs (by omega) (by omega) (by omega) (by omega) _ k
            · rfl

theorem mul_bound {a b m n : Int} (ha : 0 ≤ a) (ha' : a ≤ m) (hb : 0 ≤ b) (hb' : b ≤ n) :
    0 ≤ a * b ∧ a * b ≤ m * n :=
  ⟨Int.mul_nonneg ha hb, Int.mul_le_mul ha' hb' hb (by omega)⟩

/-- A row of `gfx_blit_surface` at scale 1. -/
theorem copied_row {src dst sx dx r y : Int} {sw sh dw dh : Nat} {n : Int} (hss : Sized sw sh) (hds : Sized dw dh)
    (hsx : 0 ≤ sx) (hn : 0 ≤ n) (hsw : sx + n ≤ sw) (hr : 0 ≤ r) (hr' : r < sh) (hy : 0 ≤ y) (hy' : y < dh)
    (hdx : -2 ^ 61 ≤ dx ∧ dx < 2 ^ 61) (k : Canvas) :
    (if (if int64 (dx + n) > dw then int64 (dw - dx) else n) > (if dx < 0 then int64 (-dx) else 0) then
      forRangeM 0 (uint64 (int64 ((if int64 (dx + n) > dw then int64 (dw - dx) else n) -
        (if dx < 0 then int64 (-dx) else 0)) * 4) / 4) (fun c k =>
          (load k src sw sh (int64 (r * sw) + sx + (if dx < 0 then int64 (-dx) else 0) + c)).bind fun v =>
            store dst dw dh (int64 (y * dw) + dx + (if dx < 0 then int64 (-dx) else 0) + c) v k) k
    else some k) =
      some (forRange (if dx < 0 then -dx else 0) (if dx + n > dw then dw - dx else n) (fun c k =>
        k.put dst (dx + c, y) (k.get src (sx + c, r))) k) := by
  have hslt := hss.lt
  have hdlt := hds.lt
  have hneg : int64 (-dx) = -dx := int64_of_isInt64 ⟨by omega, by omega⟩
  have hsum : int64 (dx + n) = dx + n := int64_of_isInt64 ⟨by omega, by omega⟩
  have hsub : int64 (dw - dx) = dw - dx := int64_of_isInt64 ⟨by omega, by omega⟩
  rw [hneg, hsum, hsub]
  have hc₀ : 0 ≤ (if dx < 0 then -dx else 0) ∧ 0 ≤ dx + (if dx < 0 then -dx else 0) := by
    split_ifs <;> omega
  have hc₁ : (if dx + n > dw then dw - dx else n) ≤ n ∧ dx + (if dx + n > dw then dw - dx else n) ≤ dw := by
    split_ifs <;> omega
  generalize (if dx < 0 then -dx else 0) = c₀ at hc₀ ⊢
  generalize (if dx + n > dw then dw - dx else n) = c₁ at hc₁ ⊢
  split_ifs with hpos
  · have hcount : (uint64 (int64 (c₁ - c₀) * 4) : Int) / 4 = c₁ - c₀ := by
      rw [int64_of_isInt64 ⟨by omega, by omega⟩]
      unfold uint64
      omega
    rw [hcount, forRange_shift]
    refine forRangeM_eq_some (fun c hc hc' k => ?_) k
    rw [Int.add_assoc, Int.add_assoc, load_row hss (by omega) (by omega) hr hr', Option.bind_some, Int.add_assoc,
      Int.add_assoc, store_row hds (by omega) (by omega) hy hy']
  · rw [forRange_empty (by omega)]

/-- A row at another scale. -/
theorem square_row {src dst sx dx r y scale : Int} {sw sh dw dh : Nat} {n : Int} (hss : Sized sw sh)
    (hds : Sized dw dh) (hsx : 0 ≤ sx) (hsw : sx + n ≤ sw) (hr : 0 ≤ r) (hr' : r < sh) (hy : 0 ≤ y)
    (hy' : y < dh) (hdx : -2 ^ 61 ≤ dx ∧ dx < 2 ^ 61) (hscale : 0 ≤ scale ∧ scale < 2 ^ 16) (k : Canvas) :
    forRangeM 0 n (fun c k => (load k src sw sh (int64 (r * sw) + sx + c)).bind fun v =>
      forRangeM 0 scale (fun m k =>
        if int64 (int64 (dx + int64 (c * scale)) + m) ≥ 0 ∧ int64 (int64 (dx + int64 (c * scale)) + m) < dw then
          store dst dw dh (int64 (y * dw) + int64 (int64 (dx + int64 (c * scale)) + m)) v k
        else some k) k) k =
      some (forRange 0 n (fun c k => forRange 0 scale (fun m k' =>
        if dx + c * scale + m ≥ 0 ∧ dx + c * scale + m < dw then
          k'.put dst (dx + c * scale + m, y) (k.get src (sx + c, r)) else k') k) k) := by
  have hslt := hss.lt
  refine forRangeM_eq_some (fun c hc hc' k => ?_) k
  rw [Int.add_assoc, load_row hss (by omega) (by omega) hr hr', Option.bind_some]
  refine forRangeM_eq_some (fun m hm hm' k' => ?_) k
  have hprod := mul_bound (a := c) (b := scale) (m := 2 ^ 27) (n := 2 ^ 16) hc (by omega) hscale.1 (by omega)
  have hx : int64 (int64 (dx + int64 (c * scale)) + m) = dx + c * scale + m := by
    rw [int64_of_isInt64 (n := c * scale) ⟨by omega, by omega⟩,
      int64_of_isInt64 (n := dx + c * scale) ⟨by omega, by omega⟩,
      int64_of_isInt64 (n := dx + c * scale + m) ⟨by omega, by omega⟩]
  rw [hx]
  split_ifs with hin
  · exact store_row hds hin.1 hin.2 hy hy' _ k'
  · rfl

theorem blitSurface_eq {src dst sx sy w h dx dy scale : Int} (hg : InRam g.canvas)
    (hr : Rect.Int64 ⟨sx, sy, w, h⟩) (hfits : Rect.Fits ⟨sx, sy, w, h⟩) (hdx : -2 ^ 61 ≤ dx ∧ dx < 2 ^ 61)
    (hdy : -2 ^ 61 ≤ dy ∧ dy < 2 ^ 61) (hscale : scale < 2 ^ 16) :
    gfxBlitSurface src sx sy w h dst dx dy scale g =
      some (Gfx.gfxBlitSurface src sx sy w h dst dx dy scale g) := by
  unfold gfxBlitSurface Gfx.gfxBlitSurface
  cases hts : g.canvas.target src with
  | none => rfl
  | some t =>
      obtain ⟨sw, sh⟩ := t
      cases htd : g.canvas.target dst with
      | none => rfl
      | some t =>
          obtain ⟨dw, dh⟩ := t
          have hss := hg.target hts
          have hds := hg.target htd
          have hslt := hss.lt
          have hdlt := hds.lt
          dsimp only
          by_cases hskip : src = dst ∨ scale < 1
          · rw [if_pos hskip, if_pos hskip]
          · rw [if_neg hskip, if_neg hskip, clip_eq_of_fits hr hfits (by omega) (by omega)]
            cases hclip : Gfx.clip ⟨sx, sy, w, h⟩ sw sh with
            | none => rfl
            | some s =>
                obtain ⟨hx, hy, hw, hh, hxw, hyh⟩ := clip_inside hclip
                have hscale' : 0 ≤ scale ∧ scale < 2 ^ 16 := by omega
                have hwide := mul_bound (a := s.w) (b := scale) (m := 2 ^ 27) (n := 2 ^ 16) (by omega) (by omega)
                  (by omega) (by omega)
                have hhigh := mul_bound (a := s.h) (b := scale) (m := 2 ^ 27) (n := 2 ^ 16) (by omega) (by omega)
                  (by omega) (by omega)
                have hwide' : int64 (s.w * scale) = s.w * scale := int64_of_isInt64 ⟨by omega, by omega⟩
                have hhigh' : int64 (s.h * scale) = s.h * scale := int64_of_isInt64 ⟨by omega, by omega⟩
                dsimp only
                rw [hwide', hhigh']
                refine drawOn_eq ⟨by dsimp only; omega, by dsimp only; omega⟩
                  ⟨by dsimp only; omega, by dsimp only; omega⟩ fun fb => ?_
                refine forRangeM_eq_some (fun r hr hr' k => forRangeM_eq_some (fun m hm hm' k => ?_) k) _
                have hprod := mul_bound (a := r) (b := scale) (m := 2 ^ 27) (n := 2 ^ 16) hr (by omega) (by omega)
                  (by omega)
                have hrow : int64 (s.y + r) = s.y + r := int64_of_isInt64 ⟨by omega, by omega⟩
                have hpy : int64 (int64 (dy + int64 (r * scale)) + m) = dy + r * scale + m := by
                  rw [int64_of_isInt64 (n := r * scale) ⟨by omega, by omega⟩,
                    int64_of_isInt64 (n := dy + r * scale) ⟨by omega, by omega⟩,
                    int64_of_isInt64 (n := dy + r * scale + m) ⟨by omega, by omega⟩]
                rw [hrow, hpy]
                by_cases hout : dy + r * scale + m < 0 ∨ dy + r * scale + m ≥ dh
                · rw [if_pos hout, if_pos hout]
                · rw [if_neg hout, if_neg hout]
                  by_cases h1 : scale = 1
                  · rw [if_pos h1, if_pos h1]
                    exact copied_row hss hds hx (by omega) hxw (by omega) (by omega) (by omega) (by omega) hdx k
                  · rw [if_neg h1, if_neg h1]
                    exact square_row hss hds hx hxw (by omega) (by omega) (by omega) (by omega) hdx hscale' k

end Flat

end Beeros.Gfx
