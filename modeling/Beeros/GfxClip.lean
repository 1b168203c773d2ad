import Beeros.GfxBlits

/-! `clip` of `kernel/gfx.c` against the intersection of rectangles, for all values of its `int64_t` variables, and
the two natives that fill a rectangle of the screen. -/

namespace Beeros.Gfx

open CInt Loop

variable {g : State} {id : Int} {r : Rect} {w h : Nat}

/-! ### Intersection -/

/-- The sums that `clip` works out along one axis, before they wrap around. -/
def axisSums (x w : Int) (max : Nat) : List Int :=
  let cut := if x < 0 then [w + x] else []
  let (x, w) := if x < 0 then (0, int64 (w + x)) else (x, w)
  cut ++ [x + w] ++ if int64 (x + w) > max then [max - x] else []

/-- `clip` says whether the rectangle meets the area, leaves the common part, and no sum of it overflows. -/
structure ClipExact (r : Rect) (wMax hMax : Nat) : Prop where
  isSome : (Flat.clip r wMax hMax).isSome ↔ ∃ p, r.Mem p ∧ Inside wMax hMax p
  common : ∀ s, Flat.clip r wMax hMax = some s → ∀ p, s.Mem p ↔ r.Mem p ∧ Inside wMax hMax p
  sumsX : ∀ n ∈ axisSums r.x r.w wMax, IsInt64 n
  sumsY : ∀ n ∈ axisSums r.y r.h hMax, IsInt64 n

theorem axisSums_fit_iff {x w : Int} {max : Nat} (hx : IsInt64 x) (hmax : max < 2 ^ 32) :
    (∀ n ∈ axisSums x w max, IsInt64 n) ↔ IsInt64 (x + w) := by
  unfold axisSums
  by_cases hneg : x < 0
  · simp only [if_pos hneg]
    constructor
    · intro h
      have hcut := h (w + x) (by simp)
      rwa [Int.add_comm] at hcut
    · intro hfits n hn
      rw [Int.add_comm w, int64_of_isInt64 hfits, Int.zero_add, int64_of_isInt64 hfits] at hn
      simp only [List.cons_append, List.nil_append, List.mem_cons] at hn
      rcases hn with rfl | rfl | hn
      · exact hfits
      · exact hfits
      · split_ifs at hn
        · rw [List.mem_singleton.mp hn]
          exact ⟨by omega, by omega⟩
        · cases hn
  · simp only [if_neg hneg]
    constructor
    · intro h
      exact h (x + w) (by simp)
    · intro hfits n hn
      rw [int64_of_isInt64 hfits] at hn
      simp only [List.cons_append, List.nil_append, List.mem_cons] at hn
      rcases hn with rfl | hn
      · exact hfits
      · split_ifs at hn
        · rw [List.mem_singleton.mp hn]
          obtain ⟨hx₁, hx₂⟩ := hx
          exact ⟨by omega, by omega⟩
        · cases hn

theorem clip_eq_none_iff : clip r w h = none ↔ ¬ ∃ p, r.Mem p ∧ Inside w h p := by
  constructor
  · rintro hclip ⟨p, hp⟩
    exact clip_none hclip p hp
  · intro hno
    cases hclip : clip r w h with
    | none => rfl
    | some s =>
        obtain ⟨-, -, hw', hh', -, -⟩ := clip_inside hclip
        refine absurd ⟨(s.x, s.y), (clip_some hclip _).mp ?_⟩ hno
        unfold Rect.Mem
        dsimp only
        omega

theorem clipExact_iff (hr : r.Int64) (hw : w < 2 ^ 32) (hh : h < 2 ^ 32) : ClipExact r w h ↔ r.Fits := by
  constructor
  · intro hexact
    exact ⟨(axisSums_fit_iff hr.x hw).mp hexact.sumsX, (axisSums_fit_iff hr.y hh).mp hexact.sumsY⟩
  · intro hfits
    have heq := Flat.clip_eq_of_fits hr hfits hw hh
    refine ⟨?_, ?_, (axisSums_fit_iff hr.x hw).mpr hfits.1, (axisSums_fit_iff hr.y hh).mpr hfits.2⟩
    · rw [heq, Option.isSome_iff_ne_none, Ne, clip_eq_none_iff, not_not]
    · intro s hs p
      rw [heq] at hs
      exact clip_some hs p

/-- The calls of `clip` that the function makes have corners that fit. -/
def Moved (g : State) (id : Int) (r : Rect) (dx dy : Int) : Prop :=
  ∀ sw sh s, g.canvas.target id = some (sw, sh) → clip r sw sh = some s →
    Rect.Int64 ⟨dx + (s.x - r.x), dy + (s.y - r.y), s.w, s.h⟩ ∧
      Rect.Fits ⟨dx + (s.x - r.x), dy + (s.y - r.y), s.w, s.h⟩

/-- `clip` is exact for the rectangles whose other corner is an `int64_t`; with these nothing is drawn outside. -/
theorem clip_exact_iff (r : Rect) :
    (∀ wMax hMax : Nat, r.Int64 → wMax < 2 ^ 32 → hMax < 2 ^ 32 → (ClipExact r wMax hMax ↔ r.Fits)) ∧
    ∀ (g : State) (id : Int), InRam g.canvas → r.Int64 → r.Fits →
      (∀ color, (Flat.gfxFillRectOn id r color g).isSome) ∧ (Flat.gfxOwn id r g).isSome ∧
        (∀ color, (Flat.gfxFillOwned id r color g).isSome) ∧
          ∀ dx dy, Moved g id r dx dy → (Flat.gfxPresent id r.x r.y r.w r.h dx dy g).isSome := by
  refine ⟨fun w h hr hw hh => clipExact_iff hr hw hh, fun g id hg hr hfits => ⟨?_, ?_, ?_, ?_⟩⟩
  · intro color
    rw [Flat.fillRectOn_eq hg hr hfits]
    rfl
  · rw [Flat.own_eq hg hr hfits]
    rfl
  · intro color
    rw [Flat.fillOwned_eq hg hr hfits]
    rfl
  · intro dx dy hmoved
    rw [Flat.present_eq hg hr hfits hmoved]
    rfl

/-- When the first pixel of what is left is outside. -/
theorem fillRectOn_escapes {s : Rect} (ht : g.canvas.target id = some (w, h)) (hclip : Flat.clip r w h = some s)
    (hrow : s.y < int64 (s.y + s.h)) (hcol : 0 < s.w) (hcell : Flat.cell w h (int64 (s.y * w) + s.x + 0) = none)
    (color : Color) : Flat.gfxFillRectOn id r color g = none := by
  unfold Flat.gfxFillRectOn Flat.drawOn
  rw [ht]
  dsimp only
  rw [hclip]
  dsimp only
  rw [Option.map_eq_none_iff]
  refine forRangeM_eq_none (Int.le_refl _) hrow (fun k => ?_) _
  refine forRangeM_eq_none (Int.le_refl _) hcol (fun k => ?_) k
  unfold Flat.store
  rw [hcell]
  rfl

theorem clip_exact_corner :
    ClipExact ⟨-3, 2, 10, 10⟩ 640 480 ∧ (Flat.gfxOwn 1 ⟨-3, 2, 10, 10⟩ (plainScreen 0 2 2)).isSome :=
  have hr : Rect.Int64 ⟨-3, 2, 10, 10⟩ := ⟨by decide, by decide, by decide, by decide⟩
  ⟨((clip_exact_iff ⟨-3, 2, 10, 10⟩).1 640 480 hr (by decide) (by decide)).mpr (by decide),
    ((clip_exact_iff ⟨-3, 2, 10, 10⟩).2 (plainScreen 0 2 2) 1 (inRam_plainScreen ⟨by decide, by decide⟩ 0) hr
      (by decide)).2.1⟩

/-- A corner that wraps around lets a rectangle far to the right through, and it is drawn. -/
theorem not_clipExact_far :
    ¬ ClipExact ⟨2 ^ 62, 0, 2 ^ 62, 1⟩ 1 1 ∧
      Flat.gfxFillRectOn 0 ⟨2 ^ 62, 0, 2 ^ 62, 1⟩ 0 (plainScreen 0 1 1) = none := by
  have hclip : Flat.clip ⟨2 ^ 62, 0, 2 ^ 62, 1⟩ 1 1 = some ⟨2 ^ 62, 0, 2 ^ 62, 1⟩ := by decide
  constructor
  · intro h
    obtain ⟨p, hp, hin⟩ := h.isSome.mp (by rw [hclip]; rfl)
    unfold Rect.Mem at hp
    unfold Inside at hin
    dsimp only at hp
    omega
  · exact fillRectOn_escapes rfl hclip (by decide) (by decide) (by decide) 0

/-! ### The two natives -/

/-- `native_gfx_fill_rect`. -/
def nativeGfxFillRect (x y w h c : Int) (g : State) : Option State :=
  Flat.gfxFillRectOn 0 ⟨uint32 x, uint32 y, uint32 w, uint32 h⟩ (UInt32.ofInt c) g

/-- `native_gfx_fill_rect_on`. -/
def nativeGfxFillRectOn (id x y w h c : Int) (g : State) : Option State :=
  Flat.gfxFillRectOn (int32 id) ⟨x, y, w, h⟩ (UInt32.ofInt c) g

/-- `rect!`. -/
def rect (x y w h c : Int) (g : State) : Option State :=
  (nativeGfxFillRect x y w 1 c g).bind fun g =>
    (nativeGfxFillRect x (y + h - 1) w 1 c g).bind fun g =>
      (nativeGfxFillRect x y 1 h c g).bind fun g => nativeGfxFillRect (x + w - 1) y 1 h c g

/-- Of magnitude below `2 ^ 31`. -/
def Below31 (n : Int) : Prop := -2 ^ 31 < n ∧ n < 2 ^ 31

/-- On every screen of the size, in every colour, `fill-rect!` does what `fill-rect-on!` does: it fills the part of
the rectangle that is on the screen. -/
def FillsAgree (x y w h : Int) (gw gh : Nat) : Prop :=
  ∀ (g : State) (c : Int), InRam g.canvas → g.canvas.w = gw → g.canvas.h = gh →
    nativeGfxFillRect x y w h c g = nativeGfxFillRectOn 0 x y w h c g ∧
      ∃ g', nativeGfxFillRect x y w h c g = some g' ∧
        Painted 0 (fun p => if Rect.Mem ⟨x, y, w, h⟩ p ∧ Inside gw gh p then some (UInt32.ofInt c) else none) g g'

/-- The border of a rectangle, one pixel wide. -/
def Outline (x y w h : Int) (p : Pos) : Prop :=
  Rect.Mem ⟨x, y, w, h⟩ p ∧ (p.1 = x ∨ p.1 = x + w - 1 ∨ p.2 = y ∨ p.2 = y + h - 1)

instance (x y w h : Int) (p : Pos) : Decidable (Outline x y w h p) := inferInstanceAs (Decidable (_ ∧ _))

/-- `rect!` draws the part of the outline that is on the screen. -/
def OutlineDrawn (x y w h : Int) (gw gh : Nat) : Prop :=
  ∀ (g : State) (c : Int), InRam g.canvas → g.canvas.w = gw → g.canvas.h = gh →
    ∃ g', rect x y w h c g = some g' ∧
      Painted 0 (fun p => if Outline x y w h p ∧ Inside gw gh p then some (UInt32.ofInt c) else none) g g'

theorem int64_of_uint32 (x y w h : Int) :
    Rect.Int64 ⟨uint32 x, uint32 y, uint32 w, uint32 h⟩ ∧ Rect.Fits ⟨uint32 x, uint32 y, uint32 w, uint32 h⟩ := by
  have hx := uint32_lt x
  have hy := uint32_lt y
  have hw := uint32_lt w
  have hh := uint32_lt h
  exact int64_of_half ⟨by omega, by omega⟩ ⟨by omega, by omega⟩ ⟨by omega, by omega⟩ ⟨by omega, by omega⟩

theorem painted_nativeGfxFillRect (x y w h c : Int) (hg : InRam g.canvas) :
    ∃ g', nativeGfxFillRect x y w h c g = some g' ∧
      Painted 0 (fun p => if Rect.Mem ⟨uint32 x, uint32 y, uint32 w, uint32 h⟩ p ∧ Inside g.canvas.w g.canvas.h p
        then some (UInt32.ofInt c) else none) g g' := by
  obtain ⟨hint, hfits⟩ := int64_of_uint32 x y w h
  exact ⟨_, Flat.fillRectOn_eq hg hint hfits _, painted_fillRectOn rfl _ _⟩

variable {x y : Int} {gw gh : Nat}

/-- What a picture of one colour shows on a black screen. -/
theorem Painted.mem_iff {g' : State} {hit hit' : Pos → Prop} [DecidablePred hit] [DecidablePred hit']
    (h : Painted 0 (fun p => if hit p then some 1 else none) (plainScreen 0 gw gh) g')
    (h' : Painted 0 (fun p => if hit' p then some 1 else none) (plainScreen 0 gw gh) g') (p : Pos) :
    hit p ↔ hit' p := by
  have hsame := h.same h' (show some (gw, gh) ≠ none from nofun) p
  rw [below_hidden (g := plainScreen 0 gw gh) rfl] at hsame
  change (if hit p then some (1 : Color) else none).getD 0 =
    (if hit' p then some (1 : Color) else none).getD 0 at hsame
  by_cases hp : hit p
  · by_cases hp' : hit' p
    · exact ⟨fun _ => hp', fun _ => hp⟩
    · rw [if_pos hp, if_neg hp'] at hsame
      exact absurd hsame (by decide)
  · by_cases hp' : hit' p
    · rw [if_neg hp, if_pos hp'] at hsame
      exact absurd hsame (by decide)
    · exact ⟨fun h => absurd h hp, fun h => absurd h hp'⟩

theorem fillRectOn_none (ht : g.canvas.target id = some (gw, gh)) (hr : ¬ ∃ p, r.Mem p ∧ Inside gw gh p)
    (color : Color) : gfxFillRectOn id r color g = g := by
  unfold gfxFillRectOn
  rw [ht]
  dsimp only
  rw [clip_eq_none_iff.mpr hr]

/-- What the conversion makes of a coordinate. -/
theorem uint32_cases {n : Int} (h : Below31 n) :
    0 ≤ n ∧ (uint32 n : Int) = n ∨ n < 0 ∧ (2 : Int) ^ 31 ≤ uint32 n := by
  unfold Below31 at h
  by_cases hneg : n < 0
  · rw [uint32_of_neg hneg (by omega)]
    omega
  · rw [uint32_of_lt (by omega) (by omega)]
    omega

theorem fillsAgree_iff {w h : Int} (hx : Below31 x) (hy : Below31 y) (hw : Below31 w) (hh : Below31 h)
    (hs : Sized gw gh) :
    FillsAgree x y w h gw gh ↔ 0 ≤ x ∧ 0 ≤ y ∧ 0 ≤ w ∧ 0 ≤ h ∨
      ¬ (0 ≤ x ∧ x < gw ∧ 0 ≤ y ∧ y < gh ∧ w ≠ 0 ∧ h ≠ 0) ∧
        ¬ ∃ p, Rect.Mem ⟨x, y, w, h⟩ p ∧ Inside gw gh p := by
  have hlt := hs.lt
  have hcx := uint32_cases hx
  have hcy := uint32_cases hy
  have hcw := uint32_cases hw
  have hch := uint32_cases hh
  constructor
  · intro hagree
    by_contra hno
    obtain ⟨-, g', heq, hpainted⟩ := hagree (plainScreen 0 gw gh) 1 (inRam_plainScreen hs 0) rfl rfl
    obtain ⟨g'', heq', hpainted'⟩ := painted_nativeGfxFillRect x y w h 1 (inRam_plainScreen hs 0)
    rw [heq, Option.some.injEq] at heq'
    rw [← heq'] at hpainted'
    have hiff : ∀ p, Rect.Mem ⟨uint32 x, uint32 y, uint32 w, uint32 h⟩ p ∧ Inside gw gh p ↔
        Rect.Mem ⟨x, y, w, h⟩ p ∧ Inside gw gh p := Painted.mem_iff hpainted' hpainted
    obtain ⟨hneg, hdraws⟩ := not_or.mp hno
    unfold Rect.Mem Inside at hiff
    dsimp only at hiff
    by_cases hmeets : ∃ p, Rect.Mem ⟨x, y, w, h⟩ p ∧ Inside gw gh p
    · obtain ⟨p, hp⟩ := hmeets
      unfold Rect.Mem Inside at hp
      dsimp only at hp
      have hcode := (hiff p).mpr hp
      omega
    · have hcorner : 0 ≤ x ∧ x < gw ∧ 0 ≤ y ∧ y < gh ∧ w ≠ 0 ∧ h ≠ 0 := by_contra fun h => hdraws ⟨h, hmeets⟩
      have hcode := (hiff (x, y)).mp ⟨by dsimp only; omega, by dsimp only; omega⟩
      dsimp only at hcode
      omega
  · intro hcond g c hg hgw hgh
    subst hgw hgh
    unfold Below31 at hx hy hw hh
    obtain ⟨hint, hfits⟩ := int64_of_half (x := x) (y := y) (w := w) (h := h) ⟨by omega, by omega⟩
      ⟨by omega, by omega⟩ ⟨by omega, by omega⟩ ⟨by omega, by omega⟩
    have hon : nativeGfxFillRectOn 0 x y w h c g = some (gfxFillRectOn 0 ⟨x, y, w, h⟩ (UInt32.ofInt c) g) :=
      Flat.fillRectOn_eq hg hint hfits _
    have hsame : nativeGfxFillRect x y w h c g = nativeGfxFillRectOn 0 x y w h c g := by
      rcases hcond with ⟨h₁, h₂, h₃, h₄⟩ | ⟨hcorner, hmeets⟩
      · have ex : (uint32 x : Int) = x := by omega
        have ey : (uint32 y : Int) = y := by omega
        have ew : (uint32 w : Int) = w := by omega
        have eh : (uint32 h : Int) = h := by omega
        unfold nativeGfxFillRect
        rw [ex, ey, ew, eh]
        rfl
      · have hmeets' : ¬ ∃ p, Rect.Mem ⟨uint32 x, uint32 y, uint32 w, uint32 h⟩ p ∧
            Inside g.canvas.w g.canvas.h p := by
          rintro ⟨p, hp⟩
          unfold Rect.Mem Inside at hp
          dsimp only at hp
          omega
        obtain ⟨hint', hfits'⟩ := int64_of_uint32 x y w h
        have hnative : nativeGfxFillRect x y w h c g = some (gfxFillRectOn 0 _ (UInt32.ofInt c) g) :=
          Flat.fillRectOn_eq hg hint' hfits' _
        rw [hon, hnative, fillRectOn_none rfl hmeets, fillRectOn_none rfl hmeets']
    rw [hsame, hon]
    exact ⟨rfl, _, rfl, painted_fillRectOn rfl _ _⟩

/-! ### The outline -/

theorem Painted.trans {g₁ g₂ : State} {pic pic' : Pos → Option Color} (h : Painted id pic g g₁)
    (h' : Painted id pic' g₁ g₂) : Painted id (fun p => (pic' p).or (pic p)) g g₂ := by
  refine ⟨?_, h'.curX.trans h.curX, h'.curY.trans h.curY, h'.curShown.trans h.curShown⟩
  rw [h'.below, h.below, overwrite_overwrite]

/-- Two pictures of one colour. -/
theorem Painted.union {g₁ g₂ : State} {hit hit' : Pos → Prop} [DecidablePred hit] [DecidablePred hit'] {c : Color}
    (h : Painted id (fun p => if hit p then some c else none) g g₁)
    (h' : Painted id (fun p => if hit' p then some c else none) g₁ g₂) :
    Painted id (fun p => if hit p ∨ hit' p then some c else none) g g₂ := by
  refine (h.trans h').congr fun p => ?_
  by_cases hp' : hit' p
  · rw [if_pos hp', if_pos (Or.inr hp')]
    rfl
  · rw [if_neg hp', Option.none_or]
    exact if_congr (by tauto) rfl rfl

/-- One side of the outline, drawn if its corner is not negative. -/
def Side (x y w h : Int) (p : Pos) : Prop := 0 ≤ x ∧ 0 ≤ y ∧ Rect.Mem ⟨x, y, w, h⟩ p

instance (x y w h : Int) (p : Pos) : Decidable (Side x y w h p) := inferInstanceAs (Decidable (_ ∧ _))

/-- What `rect!` draws. -/
def Sides (x y w h : Int) (p : Pos) : Prop :=
  Side x y w 1 p ∨ Side x (y + h - 1) w 1 p ∨ Side x y 1 h p ∨ Side (x + w - 1) y 1 h p

instance (x y w h : Int) (p : Pos) : Decidable (Sides x y w h p) := inferInstanceAs (Decidable (_ ∨ _))

theorem painted_side {w h : Int} (c : Int) (hg : InRam g.canvas) (hx : -2 ^ 31 < x ∧ x < 2 ^ 32)
    (hy : -2 ^ 31 < y ∧ y < 2 ^ 32) (hw : 0 ≤ w ∧ w < 2 ^ 31) (hh : 0 ≤ h ∧ h < 2 ^ 31) :
    ∃ g', nativeGfxFillRect x y w h c g = some g' ∧
      Painted 0 (fun p => if Side x y w h p ∧ Inside g.canvas.w g.canvas.h p then some (UInt32.ofInt c) else none)
        g g' := by
  obtain ⟨g', heq, hpainted⟩ := painted_nativeGfxFillRect x y w h c hg
  refine ⟨g', heq, hpainted.congr fun p => if_congr ?_ rfl rfl⟩
  have hlt := hg.screen.lt
  have ew := uint32_of_lt hw.1 (by omega)
  have eh := uint32_of_lt hh.1 (by omega)
  unfold Side Rect.Mem Inside
  dsimp only
  rw [ew, eh]
  by_cases hnx : x < 0
  · rw [uint32_of_neg hnx (by omega)]
    omega
  · rw [uint32_of_lt (by omega) hx.2]
    by_cases hny : y < 0
    · rw [uint32_of_neg hny (by omega)]
      omega
    · rw [uint32_of_lt (by omega) hy.2]
      omega

theorem painted_rect {w h : Int} (c : Int) (hg : InRam g.canvas) (hx : Below31 x) (hy : Below31 y)
    (hw : 1 ≤ w ∧ w < 2 ^ 31) (hh : 1 ≤ h ∧ h < 2 ^ 31) :
    ∃ g', rect x y w h c g = some g' ∧
      Painted 0 (fun p => if Sides x y w h p ∧ Inside g.canvas.w g.canvas.h p then some (UInt32.ofInt c) else none)
        g g' := by
  unfold Below31 at hx hy
  obtain ⟨g₁, heq₁, hp₁⟩ := painted_side (x := x) (y := y) (w := w) (h := 1) c hg (by omega) (by omega) (by omega)
    (by omega)
  have hmap₁ := hp₁.sameMap
  have hg₁ := hg.sameMap hmap₁
  obtain ⟨g₂, heq₂, hp₂⟩ := painted_side (x := x) (y := y + h - 1) (w := w) (h := 1) c hg₁ (by omega)
    (by omega) (by omega) (by omega)
  have hmap₂ := hp₂.sameMap
  have hg₂ := hg₁.sameMap hmap₂
  obtain ⟨g₃, heq₃, hp₃⟩ := painted_side (x := x) (y := y) (w := 1) (h := h) c hg₂ (by omega)
    (by omega) (by omega) (by omega)
  have hmap₃ := hp₃.sameMap
  have hg₃ := hg₂.sameMap hmap₃
  obtain ⟨g₄, heq₄, hp₄⟩ := painted_side (x := x + w - 1) (y := y) (w := 1) (h := h) c hg₃ (by omega) (by omega) (by omega) (by omega)
  rw [hmap₁.w, hmap₁.h] at hp₂
  rw [hmap₂.w, hmap₂.h, hmap₁.w, hmap₁.h] at hp₃
  rw [hmap₃.w, hmap₃.h, hmap₂.w, hmap₂.h, hmap₁.w, hmap₁.h] at hp₄
  refine ⟨g₄, ?_, (((hp₁.union hp₂).union hp₃).union hp₄).congr fun p => if_congr ?_ rfl rfl⟩
  · unfold rect
    rw [heq₁, Option.bind_some, heq₂, Option.bind_some, heq₃, Option.bind_some, heq₄]
  · unfold Sides
    rw [← or_and_right, ← or_and_right, ← or_and_right, or_assoc, or_assoc]

/-- The visible part of the outline is on the sides whose corners are not negative. -/
theorem sides_iff_outline {w h : Int} (hw : 1 ≤ w) (hh : 1 ≤ h) (hgw : 0 < gw) (hgh : 0 < gh) :
    (∀ p, Inside gw gh p → (Sides x y w h p ↔ Outline x y w h p)) ↔
      0 ≤ x ∧ 0 ≤ y ∨ x < 0 ∧ 0 ≤ y ∧ (x + w ≤ 1 ∨ gh ≤ y) ∨ 0 ≤ x ∧ y < 0 ∧ (y + h ≤ 1 ∨ gw ≤ x) ∨
        x < 0 ∧ y < 0 ∧ (x + w ≤ 0 ∨ y + h ≤ 0 ∨ gw < x + w ∧ gh < y + h) := by
  have hmissing (p : Pos) (hin : Inside gw gh p) (hout : Outline x y w h p) (hno : ¬ Sides x y w h p) :
      ¬ ∀ p, Inside gw gh p → (Sides x y w h p ↔ Outline x y w h p) := fun hall => hno ((hall p hin).mpr hout)
  unfold Sides Side Outline Rect.Mem Inside at *
  constructor
  · intro hall
    by_contra hno
    rcases Int.lt_or_le x 0 with hx | hx <;> rcases Int.lt_or_le y 0 with hy | hy
    · -- the right and the lower side are missing
      by_cases hrow : y + h ≤ gh
      · exact hmissing (0, y + h - 1) (by dsimp only; omega) (by dsimp only; omega) (by dsimp only; omega) hall
      · exact hmissing (x + w - 1, 0) (by dsimp only; omega) (by dsimp only; omega) (by dsimp only; omega) hall
    · exact hmissing (0, y) (by dsimp only; omega) (by dsimp only; omega) (by dsimp only; omega) hall
    · exact hmissing (x, 0) (by dsimp only; omega) (by dsimp only; omega) (by dsimp only; omega) hall
    · omega
  · intro hcond p hp
    dsimp only
    constructor
    · rintro (hside | hside | hside | hside) <;> omega
    · rintro ⟨hmem, hborder⟩
      rcases hcond with hcond | hcond | hcond | hcond
      · omega
      · omega
      · omega
      · omega

theorem outlineDrawn_iff {w h : Int} (hx : Below31 x) (hy : Below31 y) (hw : 1 ≤ w ∧ w < 2 ^ 31)
    (hh : 1 ≤ h ∧ h < 2 ^ 31) (hs : Sized gw gh) :
    OutlineDrawn x y w h gw gh ↔
      0 ≤ x ∧ 0 ≤ y ∨ x < 0 ∧ 0 ≤ y ∧ (x + w ≤ 1 ∨ gh ≤ y) ∨ 0 ≤ x ∧ y < 0 ∧ (y + h ≤ 1 ∨ gw ≤ x) ∨
        x < 0 ∧ y < 0 ∧ (x + w ≤ 0 ∨ y + h ≤ 0 ∨ gw < x + w ∧ gh < y + h) := by
  rw [← sides_iff_outline hw.1 hh.1 hs.pos.1 hs.pos.2]
  constructor
  · intro hdrawn p hin
    obtain ⟨g', heq, hpainted⟩ := hdrawn (plainScreen 0 gw gh) 1 (inRam_plainScreen hs 0) rfl rfl
    obtain ⟨g'', heq', hpainted'⟩ := painted_rect 1 (inRam_plainScreen hs 0) hx hy hw hh
    rw [heq, Option.some.injEq] at heq'
    rw [← heq'] at hpainted'
    have hiff : Sides x y w h p ∧ Inside gw gh p ↔ Outline x y w h p ∧ Inside gw gh p :=
      Painted.mem_iff hpainted' hpainted p
    exact ⟨fun hp => (hiff.mp ⟨hp, hin⟩).1, fun hp => (hiff.mpr ⟨hp, hin⟩).1⟩
  · rintro hall g c hg rfl rfl
    obtain ⟨g', heq, hpainted⟩ := painted_rect c hg hx hy hw hh
    refine ⟨g', heq, hpainted.congr fun p => if_congr ?_ rfl rfl⟩
    exact ⟨fun hp => ⟨(hall p hp.2).mp hp.1, hp.2⟩, fun hp => ⟨(hall p hp.2).mpr hp.1, hp.2⟩⟩

/-- `fill-rect!` is `fill-rect-on!` without negative numbers, and `rect!` draws the outline of rectangles that do
not reach over the left or upper edge. -/
theorem fills_agree_iff (x y w h : Int) (gw gh : Nat) :
    (Below31 x → Below31 y → Below31 w → Below31 h → Sized gw gh →
      (FillsAgree x y w h gw gh ↔ 0 ≤ x ∧ 0 ≤ y ∧ 0 ≤ w ∧ 0 ≤ h ∨
        ¬ (0 ≤ x ∧ x < gw ∧ 0 ≤ y ∧ y < gh ∧ w ≠ 0 ∧ h ≠ 0) ∧
          ¬ ∃ p, Rect.Mem ⟨x, y, w, h⟩ p ∧ Inside gw gh p)) ∧
    (Below31 x → Below31 y → 1 ≤ w ∧ w < 2 ^ 31 → 1 ≤ h ∧ h < 2 ^ 31 → Sized gw gh →
      (OutlineDrawn x y w h gw gh ↔
        0 ≤ x ∧ 0 ≤ y ∨ x < 0 ∧ 0 ≤ y ∧ (x + w ≤ 1 ∨ gh ≤ y) ∨ 0 ≤ x ∧ y < 0 ∧ (y + h ≤ 1 ∨ gw ≤ x) ∨
          x < 0 ∧ y < 0 ∧ (x + w ≤ 0 ∨ y + h ≤ 0 ∨ gw < x + w ∧ gh < y + h))) :=
  ⟨fun hx hy hw hh hs => fillsAgree_iff hx hy hw hh hs, fun hx hy hw hh hs => outlineDrawn_iff hx hy hw hh hs⟩

theorem fills_agree_corner : FillsAgree 1 0 5 1 2 2 ∧ OutlineDrawn (-3) 0 4 2 2 2 :=
  have hs : Sized 2 2 := ⟨by decide, by decide⟩
  ⟨((fills_agree_iff 1 0 5 1 2 2).1 ⟨by decide, by decide⟩ ⟨by decide, by decide⟩ ⟨by decide, by decide⟩
      ⟨by decide, by decide⟩ hs).mpr (Or.inl (by decide)),
    ((fills_agree_iff (-3) 0 4 2 2 2).2 ⟨by decide, by decide⟩ ⟨by decide, by decide⟩ ⟨by decide, by decide⟩
      ⟨by decide, by decide⟩ hs).mpr (by decide)⟩

/-- A rectangle that starts left of the screen. -/
theorem not_fillsAgree_left : ¬ FillsAgree (-1) 0 2 1 2 2 ∧ ¬ OutlineDrawn (-1) 0 3 1 2 2 := by
  have hs : Sized 2 2 := ⟨by decide, by decide⟩
  have hx : Below31 (-1) := ⟨by decide, by decide⟩
  have hy : Below31 0 := ⟨by decide, by decide⟩
  constructor
  · intro h
    rcases (fillsAgree_iff hx hy ⟨by decide, by decide⟩ ⟨by decide, by decide⟩ hs).mp h with hcond | ⟨-, hmeets⟩
    · exact absurd hcond (by decide)
    · exact hmeets ⟨(0, 0), by decide, by decide⟩
  · intro h
    exact absurd ((outlineDrawn_iff hx hy ⟨by decide, by decide⟩ ⟨by decide, by decide⟩ hs).mp h) (by decide)

end Beeros.Gfx
