import Beeros.GfxCursor

/-! The owner map of `kernel/gfx.c` and the table of surfaces: which pixels `gfx_own` gives to a surface,
what `gfx_surface_new` and `gfx_surface_free` change, and that drawing changes neither. -/

namespace Beeros.Gfx

open Loop

/-! ### Clipping -/

/-- The four tests one after the other give the intersection with the area. -/
theorem clip_eq (r : Rect) (w h : Nat) : clip r w h =
    if 0 < min (r.x + r.w) w - max r.x 0 ∧ 0 < min (r.y + r.h) h - max r.y 0 then
      some ⟨max r.x 0, max r.y 0, min (r.x + r.w) w - max r.x 0, min (r.y + r.h) h - max r.y 0⟩
    else none := by
  obtain ⟨x, y, rw', rh⟩ := r
  have hx : (if x < 0 then (⟨0, y, rw' + x, rh⟩ : Rect) else ⟨x, y, rw', rh⟩) =
      ⟨max x 0, y, x + rw' - max x 0, rh⟩ := by
    split_ifs <;> simp only [Rect.mk.injEq, true_and, and_true] <;> omega
  unfold clip
  simp only [hx]
  have hy : (if y < 0 then (⟨max x 0, 0, x + rw' - max x 0, rh + y⟩ : Rect) else
      ⟨max x 0, y, x + rw' - max x 0, rh⟩) = ⟨max x 0, max y 0, x + rw' - max x 0, y + rh - max y 0⟩ := by
    split_ifs <;> simp only [Rect.mk.injEq, true_and] <;> omega
  simp only [hy]
  have hw : (if max x 0 + (x + rw' - max x 0) > w then
      (⟨max x 0, max y 0, w - max x 0, y + rh - max y 0⟩ : Rect) else
      ⟨max x 0, max y 0, x + rw' - max x 0, y + rh - max y 0⟩) =
      ⟨max x 0, max y 0, min (x + rw') w - max x 0, y + rh - max y 0⟩ := by
    split_ifs <;> simp only [Rect.mk.injEq, true_and, and_true] <;> omega
  simp only [hw]
  have hh : (if max y 0 + (y + rh - max y 0) > h then
      (⟨max x 0, max y 0, min (x + rw') w - max x 0, h - max y 0⟩ : Rect) else
      ⟨max x 0, max y 0, min (x + rw') w - max x 0, y + rh - max y 0⟩) =
      ⟨max x 0, max y 0, min (x + rw') w - max x 0, min (y + rh) h - max y 0⟩ := by
    split_ifs <;> simp only [Rect.mk.injEq, true_and] <;> omega
  simp only [hh]
theorem clip_some {r s : Rect} {w h : Nat} (hclip : clip r w h = some s) (p : Pos) :
    s.Mem p ↔ r.Mem p ∧ 0 ≤ p.1 ∧ p.1 < w ∧ 0 ≤ p.2 ∧ p.2 < h := by
  rw [clip_eq] at hclip
  split_ifs at hclip
  cases hclip
  unfold Rect.Mem
  simp only
  omega

theorem clip_none {r : Rect} {w h : Nat} (hclip : clip r w h = none) (p : Pos) :
    ¬ (r.Mem p ∧ 0 ≤ p.1 ∧ p.1 < w ∧ 0 ≤ p.2 ∧ p.2 < h) := by
  rw [clip_eq] at hclip
  split_ifs at hclip with hpos
  unfold Rect.Mem
  omega

/-! ### Giving pixels to a surface -/

theorem ownRow_of_mem {id x y w : Int} {p : Pos} (hy : p.2 = y) (hx : x ≤ p.1) (hx' : p.1 < x + w)
    (own : Pos → Int) : ownRow id x y w own p = id := by
  have hkey : (x + (p.1 - x), y) = p := Prod.ext (by simp only; omega) hy.symm
  refine forRange_reach (P := fun own : Pos → Int => own p = id) (i := p.1 - x) (by omega) (by omega) ?_ ?_ own
  · intro own
    rw [hkey, Function.update_self]
  · intro i _ _ own hown
    by_cases hi : p = (x + i, y)
    · rw [← hi, Function.update_self]
    · rw [Function.update_of_ne hi, hown]

theorem ownRow_of_ne {id x y w : Int} {p : Pos} (h : ¬ (p.2 = y ∧ x ≤ p.1 ∧ p.1 < x + w)) (own : Pos → Int) :
    ownRow id x y w own p = own p := by
  refine forRange_induct (P := fun own' : Pos → Int => own' p = own p) rfl ?_
  intro i hi hi' own' hown
  rw [Function.update_of_ne, hown]
  rintro rfl
  exact h ⟨rfl, by simp only; omega, by simp only; omega⟩

/-- `gfx_own` on a map that exists. -/
theorem Canvas.own_owner {k : Canvas} {own : Pos → Int} (hown : k.owner = some own) {id : Int} (hid : 0 ≤ id)
    (hid' : id < gfxSurfaces) (r : Rect) :
    ∃ own', k.own id r = { k with owner := some own' } ∧
      ∀ p, onScreen k p → (r.Mem p → own' p = id) ∧ (¬ r.Mem p → own' p = own p) := by
  unfold Canvas.own
  rw [hown]
  simp only
  rw [if_neg (by omega)]
  cases hclip : clip r k.w k.h with
  | none =>
      refine ⟨own, by rw [← hown], ?_⟩
      intro p hp
      unfold onScreen at hp
      refine ⟨?_, fun _ => rfl⟩
      intro hmem
      exact absurd ⟨hmem, by omega, by omega, by omega, by omega⟩ (clip_none hclip p)
  | some s =>
      refine ⟨_, rfl, ?_⟩
      intro p hp
      unfold onScreen at hp
      have hs := clip_some hclip p
      refine ⟨?_, ?_⟩
      · intro hmem
        obtain ⟨hx, hx', hy, hy'⟩ := hs.mpr ⟨hmem, by omega, by omega, by omega, by omega⟩
        refine forRange_reach (P := fun own : Pos → Int => own p = id) hy hy' ?_ ?_ own
        · intro own
          exact ownRow_of_mem rfl hx hx' own
        · intro row _ _ own hown
          by_cases hrow : p.2 = row
          · exact ownRow_of_mem hrow hx hx' own
          · rw [ownRow_of_ne fun h => hrow h.1, hown]
      · intro hmem
        refine forRange_induct (P := fun own' : Pos → Int => own' p = own p) rfl ?_
        intro row hrow hrow' own' hown
        rw [ownRow_of_ne, hown]
        rintro ⟨rfl, hx, hx'⟩
        exact hmem (hs.mp ⟨hx, hx', hrow, hrow'⟩).1

/-! ### The table of surfaces -/

theorem Canvas.surfaceNew_cases (granted : Bool) (w h : Nat) (k : Canvas) :
    k.surfaceNew granted w h = (-1, k) ∧
        ¬ ((granted = true ∧ w ≠ 0 ∧ h ≠ 0) ∧ ∃ i, 1 ≤ i ∧ i < gfxSurfaces ∧ k.surfaces i = none) ∨
      (granted = true ∧ w ≠ 0 ∧ h ≠ 0) ∧ ∃ i, (1 ≤ i ∧ i < gfxSurfaces ∧ k.surfaces i = none) ∧
        k.surfaceNew granted w h =
          (i, { k with surfaces := Function.update k.surfaces i (some ⟨fun _ => 0, w, h⟩) }) := by
  unfold Canvas.surfaceNew
  by_cases hempty : w = 0 ∨ h = 0
  · rw [if_pos hempty]
    exact Or.inl ⟨rfl, fun hmakes => by omega⟩
  · rw [if_neg hempty]
    cases hfind : (List.range gfxSurfaces.toNat).find? fun (i : Nat) => 1 ≤ i && (k.surfaces i).isNone with
    | none =>
        refine Or.inl ⟨rfl, ?_⟩
        rintro ⟨-, i, hlo, hhi, hfree⟩
        have hi : (i.toNat : Int) = i := Int.toNat_of_nonneg (by omega)
        have hnot := List.find?_eq_none.mp hfind i.toNat (List.mem_range.mpr (by unfold gfxSurfaces at *; omega))
        rw [hi, hfree] at hnot
        exact absurd (by simp only [Option.isNone_none, Bool.and_true, decide_eq_true_eq]; omega) hnot
    | some i =>
        have hi := List.mem_range.mp (List.mem_of_find?_eq_some hfind)
        have hfree := List.find?_some hfind
        rw [Bool.and_eq_true, decide_eq_true_eq, Option.isNone_iff_eq_none] at hfree
        cases granted with
        | false => exact Or.inl ⟨rfl, fun hmakes => nomatch hmakes.1.1⟩
        | true =>
            exact Or.inr ⟨⟨rfl, by omega⟩, i, ⟨by omega, by unfold gfxSurfaces at *; omega, hfree.2⟩, rfl⟩

/-- The owner map is the same, and so are the surfaces that exist and their sizes. -/
structure SameMap (k k' : Canvas) : Prop where
  w : k'.w = k.w
  h : k'.h = k.h
  owner : k'.owner = k.owner
  sizes : ∀ i, (k'.surfaces i).map (fun t => (t.w, t.h)) = (k.surfaces i).map fun t => (t.w, t.h)

theorem SameMap.exists_iff {k k' : Canvas} (h : SameMap k k') (i : Int) :
    (k'.surfaces i).isSome = (k.surfaces i).isSome := by
  have hsome := congrArg Option.isSome (h.sizes i)
  rwa [Option.isSome_map, Option.isSome_map] at hsome

theorem SameMap.target {k k' : Canvas} (h : SameMap k k') (i : Int) : k'.target i = k.target i := by
  unfold Canvas.target
  rw [h.w, h.h, h.sizes]

theorem SameMap.refl (k : Canvas) : SameMap k k := ⟨rfl, rfl, rfl, fun _ => rfl⟩

theorem SameMap.trans {k k' k'' : Canvas} (h : SameMap k k') (h' : SameMap k' k'') : SameMap k k'' :=
  ⟨h'.w.trans h.w, h'.h.trans h.h, h'.owner.trans h.owner, fun i => (h'.sizes i).trans (h.sizes i)⟩

theorem SameMap.symm {k k' : Canvas} (h : SameMap k k') : SameMap k' k :=
  ⟨h.w.symm, h.h.symm, h.owner.symm, fun i => (h.sizes i).symm⟩

theorem sameMap_fb (k : Canvas) (fb : Pos → Color) : SameMap k { k with fb := fb } :=
  ⟨rfl, rfl, rfl, fun _ => rfl⟩

theorem sameMap_put (id : Int) (p : Pos) (c : Color) (k : Canvas) : SameMap k (k.put id p c) := by
  unfold Canvas.put
  split_ifs
  · exact sameMap_fb k _
  · refine ⟨rfl, rfl, rfl, ?_⟩
    intro i
    show (Function.update k.surfaces id _ i).map _ = _
    by_cases hi : i = id
    · rw [hi, Function.update_self, Option.map_map]
      rfl
    · rw [Function.update_of_ne hi]

theorem sameMap_cond {c : Prop} [Decidable c] {k k₁ k₂ : Canvas} (h₁ : SameMap k k₁) (h₂ : SameMap k k₂) :
    SameMap k (if c then k₁ else k₂) := by
  split_ifs
  · exact h₁
  · exact h₂

theorem sameMap_loop {a b : Int} {f : Int → Canvas → Canvas} (h : ∀ i k, SameMap k (f i k)) (k : Canvas) :
    SameMap k (forRange a b f k) := by
  refine forRange_induct (P := SameMap k) (SameMap.refl k) ?_
  intro i _ _ k' hk'
  exact hk'.trans (h i k')

theorem sameMap_cursorDraw (g : State) : SameMap g.canvas (cursorDraw g).canvas := by
  rw [(cursorDraw_spec g).1]
  exact sameMap_fb _ _

theorem sameMap_cursorRestore (g : State) : SameMap g.canvas (cursorRestore g).canvas := by
  have hfold : cursorRestore g = _ := cursorRestore_fold cells g
  rw [hfold]
  exact sameMap_fb _ _

/-- Drawing changes neither the owner map nor which surfaces exist. -/
theorem sameMap_drawOn {draw : Canvas → Canvas} (h : ∀ k, SameMap k (draw k)) (id : Int) (r : Rect)
    (g : State) : SameMap g.canvas (drawOn id r draw g).canvas := by
  have hhide : SameMap g.canvas (hideOn id r g).2.canvas := by
    unfold hideOn cursorHideFor
    split_ifs
    · exact sameMap_cursorRestore g
    · exact SameMap.refl _
    · exact SameMap.refl _
  have hdrawn := hhide.trans (h _)
  unfold drawOn cursorShowAgain
  simp only
  split_ifs
  · exact hdrawn.trans (sameMap_cursorDraw { (hideOn id r g).2 with canvas := draw (hideOn id r g).2.canvas })
  · exact hdrawn

theorem sameMap_fillRectOn (id : Int) (r : Rect) (color : Color) (g : State) :
    SameMap g.canvas (gfxFillRectOn id r color g).canvas := by
  unfold gfxFillRectOn
  split
  · exact SameMap.refl _
  · split
    · exact SameMap.refl _
    · apply sameMap_drawOn
      exact sameMap_loop fun row => sameMap_loop fun col => sameMap_put _ _ _

theorem sameMap_blitBitsOn (id x y : Int) (bits : Nat → UInt8) (w h stride scale : Nat) (fg : Color)
    (bg : Int) (g : State) : SameMap g.canvas (gfxBlitBitsOn id x y bits w h stride scale fg bg g).canvas := by
  unfold gfxBlitBitsOn
  split
  · exact SameMap.refl _
  · split_ifs
    · exact SameMap.refl _
    · apply sameMap_drawOn
      refine sameMap_loop fun r => sameMap_loop fun sy k => sameMap_cond (SameMap.refl k) ?_
      refine sameMap_loop (fun c k => sameMap_cond (SameMap.refl k) ?_) k
      exact sameMap_loop (fun sx k => sameMap_cond (sameMap_put _ _ _ k) (SameMap.refl k)) k

theorem sameMap_present (id sx sy w h dx dy : Int) (g : State) :
    SameMap g.canvas (gfxPresent id sx sy w h dx dy g).canvas := by
  unfold gfxPresent
  split
  · split_ifs
    · exact SameMap.refl _
    · split
      · exact SameMap.refl _
      · simp only
        split
        · exact SameMap.refl _
        · apply sameMap_drawOn
          exact sameMap_loop fun r => sameMap_loop fun c k =>
            sameMap_cond (sameMap_put _ _ _ k) (SameMap.refl k)
  · exact SameMap.refl _

theorem sameMap_fillOwned (id : Int) (r : Rect) (color : Color) (g : State) :
    SameMap g.canvas (gfxFillOwned id r color g).canvas := by
  unfold gfxFillOwned
  split
  · exact SameMap.refl _
  · split
    · exact SameMap.refl _
    · apply sameMap_drawOn
      exact sameMap_loop fun row => sameMap_loop fun c k =>
        sameMap_cond (sameMap_put _ _ _ k) (SameMap.refl k)

end Beeros.Gfx
