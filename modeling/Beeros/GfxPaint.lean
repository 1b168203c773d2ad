import Beeros.GfxDraw

/-! The pictures that the drawing functions of `kernel/gfx.c` leave, seen without the cursor: which pixels get a
colour and which one, for any rectangle, and that nothing else changes. -/

namespace Beeros.Gfx

open Loop

variable {g g' : State} {k : Canvas} {id i : Int} {p : Pos} {old pic : Pos → Option Color}

/-! ### Pictures -/

/-- What is drawn, with the cursor taken away. -/
def State.below (g : State) : Canvas := if g.curShown then (cursorRestore g).canvas else g.canvas

/-- The pixels of surface `id` that `pic` has a colour for get it. -/
def Canvas.overwrite (id : Int) (pic : Pos → Option Color) (k : Canvas) : Canvas :=
  if id = 0 then { k with fb := fun p => (pic p).getD (k.fb p) }
  else
    { k with
      surfaces := Function.update k.surfaces id
        ((k.surfaces id).map fun t => { t with px := fun p => (pic p).getD (t.px p) }) }

/-- Only pixels of surface `id` change, to the colours of `pic`; the cursor stays where it is. -/
structure Painted (id : Int) (pic : Pos → Option Color) (g g' : State) : Prop where
  below : g'.below = g.below.overwrite id pic
  curX : g'.curX = g.curX
  curY : g'.curY = g.curY
  curShown : g'.curShown = g.curShown

/-- A pixel of an area. -/
def Inside (w h : Nat) (p : Pos) : Prop := 0 ≤ p.1 ∧ p.1 < w ∧ 0 ≤ p.2 ∧ p.2 < h

instance (w h : Nat) (p : Pos) : Decidable (Inside w h p) := inferInstanceAs (Decidable (_ ∧ _))

theorem overwrite_zero (pic : Pos → Option Color) (k : Canvas) :
    k.overwrite 0 pic = { k with fb := fun p => (pic p).getD (k.fb p) } := if_pos rfl

theorem overwrite_pos (hid : id ≠ 0) (pic : Pos → Option Color) (k : Canvas) :
    k.overwrite id pic = { k with
      surfaces := Function.update k.surfaces id
        ((k.surfaces id).map fun t => { t with px := fun p => (pic p).getD (t.px p) }) } := if_neg hid

theorem overwrite_none : k.overwrite id (fun _ => none) = k := by
  by_cases hid : id = 0
  · rw [hid, overwrite_zero]
    rfl
  · rw [overwrite_pos hid]
    have hsame : (k.surfaces id).map
        (fun t : Target => { t with px := fun p => (none : Option Color).getD (t.px p) }) = k.surfaces id :=
      Option.map_id'
    rw [hsame, Function.update_eq_self]

theorem overwrite_overwrite (old pic : Pos → Option Color) :
    (k.overwrite id old).overwrite id pic = k.overwrite id fun p => (pic p).or (old p) := by
  by_cases hid : id = 0
  · rw [hid, overwrite_zero, overwrite_zero, overwrite_zero]
    congr 1
    funext p
    cases pic p <;> rfl
  · rw [overwrite_pos hid, overwrite_pos hid, overwrite_pos hid]
    congr 1
    show Function.update (Function.update k.surfaces id _) id
      (Option.map _ (Function.update k.surfaces id _ id)) = _
    rw [Function.update_self, Function.update_idem, Option.map_map]
    congr 2
    funext t
    show Target.mk _ _ _ = Target.mk _ _ _
    congr 1
    funext p
    cases pic p <;> rfl

theorem put_eq_overwrite (p : Pos) (c : Color) :
    k.put id p c = k.overwrite id fun q => if q = p then some c else none := by
  have hfun (old : Pos → Color) :
      Function.update old p c = fun q => (if q = p then some c else none : Option Color).getD (old q) := by
    funext q
    rw [Function.update_apply]
    split_ifs <;> rfl
  by_cases hid : id = 0
  · rw [hid, overwrite_zero, ← hfun]
    rfl
  · rw [overwrite_pos hid]
    unfold Canvas.put
    rw [if_neg hid]
    simp only [hfun]

theorem target_overwrite : (k.overwrite id pic).target i = k.target i := by
  by_cases hid : id = 0
  · rw [hid, overwrite_zero]
    rfl
  · rw [overwrite_pos hid]
    unfold Canvas.target
    split_ifs with h₁ h₂
    · rfl
    · rfl
    · show Option.map _ (Function.update k.surfaces id _ i) = _
      by_cases hi : i = id
      · rw [hi, Function.update_self, Option.map_map]
        rfl
      · rw [Function.update_of_ne hi]

theorem owner_overwrite : (k.overwrite id pic).owner = k.owner := by
  unfold Canvas.overwrite
  split_ifs <;> rfl

theorem sameMap_overwrite : SameMap k (k.overwrite id pic) := by
  by_cases hid : id = 0
  · rw [hid, overwrite_zero]
    exact sameMap_fb k _
  · rw [overwrite_pos hid]
    refine ⟨rfl, rfl, rfl, fun i => ?_⟩
    show (Function.update k.surfaces id _ i).map _ = _
    by_cases hi : i = id
    · rw [hi, Function.update_self, Option.map_map]
      rfl
    · rw [Function.update_of_ne hi]

theorem get_overwrite_of_ne (hi : i ≠ id) : (k.overwrite id pic).get i p = k.get i p := by
  by_cases hid : id = 0
  · rw [hid, overwrite_zero]
    unfold Canvas.get
    rw [hid] at hi
    rw [if_neg hi, if_neg hi]
  · rw [overwrite_pos hid]
    unfold Canvas.get
    show (if i = 0 then k.fb p else (Option.map _ (Function.update k.surfaces id _ i)).getD 0) = _
    rw [Function.update_of_ne hi]

theorem get_overwrite (h : k.target id ≠ none) :
    (k.overwrite id pic).get id p = (pic p).getD (k.get id p) := by
  by_cases hid : id = 0
  · rw [hid, overwrite_zero]
    rfl
  · rw [overwrite_pos hid]
    unfold Canvas.get
    rw [if_neg hid, if_neg hid]
    show (Option.map _ (Function.update k.surfaces id _ id)).getD 0 = _
    rw [Function.update_self]
    unfold Canvas.target at h
    rw [if_neg hid] at h
    cases hs : k.surfaces id with
    | none =>
        rw [hs] at h
        split_ifs at h <;> exact absurd rfl h
    | some t => rfl

/-! ### Programs that paint -/

/-- From `k` with any pixels of surface `id` replaced, the program gives those in `hit` the colours of `col`. -/
def Paints (k : Canvas) (id : Int) (col : Pos → Color) (hit : Pos → Prop) (f : Canvas → Canvas) : Prop :=
  ∀ old, ∃ new, f (k.overwrite id old) = k.overwrite id new ∧ (∀ p, hit p → new p = some (col p)) ∧
    ∀ p, ¬ hit p → new p = old p

variable {col : Pos → Color} {hit hit' : Pos → Prop} {f f' : Canvas → Canvas}

theorem paints_id : Paints k id col (fun _ => False) fun k => k :=
  fun old => ⟨old, rfl, fun _ h => h.elim, fun _ _ => rfl⟩

theorem paints_put (p : Pos) : Paints k id col (· = p) (Canvas.put id p (col p)) := by
  intro old
  refine ⟨_, by rw [put_eq_overwrite, overwrite_overwrite], ?_, ?_⟩
  · rintro q rfl
    rw [if_pos rfl]
    rfl
  · intro q hq
    rw [if_neg hq]
    rfl

theorem Paints.congr (h : Paints k id col hit f) (hiff : ∀ p, hit p ↔ hit' p) : Paints k id col hit' f := by
  intro old
  obtain ⟨new, heq, hhit, hkept⟩ := h old
  exact ⟨new, heq, fun p hp => hhit p ((hiff p).mpr hp), fun p hp => hkept p (mt (hiff p).mp hp)⟩

theorem Paints.cond {c : Prop} [Decidable c] (h : c → Paints k id col hit f) (h' : ¬ c → Paints k id col hit' f') :
    Paints k id col (fun p => if c then hit p else hit' p) fun k => if c then f k else f' k := by
  by_cases hc : c
  · simp only [if_pos hc]
    exact h hc
  · simp only [if_neg hc]
    exact h' hc

theorem Paints.loop {a b : Int} {hit : Int → Pos → Prop} {f : Int → Canvas → Canvas}
    (h : ∀ i, a ≤ i → i < b → Paints k id col (hit i) (f i)) :
    Paints k id col (fun p => ∃ i, a ≤ i ∧ i < b ∧ hit i p) (forRange a b f) := by
  intro old
  by_cases hab : b ≤ a
  · rw [forRange_empty hab]
    refine ⟨old, rfl, ?_, fun _ _ => rfl⟩
    rintro p ⟨i, ha, hb, -⟩
    omega
  · refine forRange_index (P := fun (b : Int) (k' : Canvas) => ∃ new, k' = k.overwrite id new ∧
      (∀ p, (∃ i, a ≤ i ∧ i < b ∧ hit i p) → new p = some (col p)) ∧
        ∀ p, (¬ ∃ i, a ≤ i ∧ i < b ∧ hit i p) → new p = old p) (by omega) ?_ ?_
    · refine ⟨old, rfl, ?_, fun _ _ => rfl⟩
      rintro p ⟨i, ha, hb, -⟩
      omega
    · rintro i ha hb _ ⟨mid, rfl, hmid, hmid'⟩
      obtain ⟨new, heq, hhit, hkept⟩ := h i ha hb mid
      refine ⟨new, heq, ?_, ?_⟩
      · rintro p ⟨j, hja, hjb, hj⟩
        by_cases hp : hit i p
        · exact hhit p hp
        · rw [hkept p hp]
          have hne : j ≠ i := by
            rintro rfl
            exact hp hj
          exact hmid p ⟨j, hja, by omega, hj⟩
      · intro p hp
        rw [hkept p fun hpi => hp ⟨i, ha, by omega, hpi⟩]
        exact hmid' p fun ⟨j, hja, hjb, hj⟩ => hp ⟨j, hja, by omega, hj⟩

theorem Paints.eq [DecidablePred hit] (h : Paints k id col hit f) :
    f k = k.overwrite id fun p => if hit p then some (col p) else none := by
  obtain ⟨new, heq, hhit, hkept⟩ := h fun _ => none
  rw [overwrite_none] at heq
  rw [heq]
  congr 1
  funext p
  split_ifs with hp
  · exact hhit p hp
  · exact hkept p hp

/-! ### The cursor over the picture -/

theorem below_eq (g : State) : g.below = { g.canvas with fb := g.below.fb } := by
  unfold State.below
  split_ifs
  · have hfold : cursorRestore g = _ := cursorRestore_fold cells g
    rw [hfold]
  · rfl

theorem below_hidden (h : g.curShown = false) : g.below = g.canvas := by
  unfold State.below
  rw [h]
  rfl

theorem below_shown (h : g.curShown = true) : g.below = (cursorRestore g).canvas := by
  unfold State.below
  rw [if_pos h]

theorem fb_below (h : g.curShown = true) :
    g.below.fb = scatter g.cellPos (fun cell _ => g.curSaved cell) (g.shownCells cells) g.canvas.fb := by
  have hfold : cursorRestore g = _ := cursorRestore_fold cells g
  rw [below_shown h, hfold]

/-- Beside the cursor the screen shows the picture. -/
theorem below_fb (h : ¬ (g.curShown = true ∧ onScreen g.canvas p ∧ InCursor g.curX g.curY p)) :
    g.below.fb p = g.canvas.fb p := by
  cases hs : g.curShown with
  | false => rw [below_hidden hs]
  | true =>
      rw [fb_below hs]
      refine scatter_of_ne fun cell hcell heq => h ⟨hs, ?_⟩
      exact (mem_shownCells_iff g p).mp ⟨cell, hcell, heq⟩

theorem below_saved (hs : g.curShown = true) {cell : Int × Int} (h : cell ∈ g.shownCells cells) :
    g.below.fb (g.cellPos cell) = g.curSaved cell := by
  rw [fb_below hs]
  exact scatter_of_mem (pairwise_shownCells g nodup_cells) h

theorem get_below_of_ne (hid : id ≠ 0) : g.below.get id p = g.canvas.get id p := by
  rw [below_eq]
  unfold Canvas.get
  rw [if_neg hid, if_neg hid]

theorem target_below : g.below.target id = g.canvas.target id := by
  rw [below_eq]
  rfl

/-- Painting keeps the owner map, and the surfaces with their sizes. -/
theorem Painted.sameMap (h : Painted id pic g g') : SameMap g.canvas g'.canvas := by
  have hbelow (g : State) : SameMap g.canvas g.below := by
    rw [below_eq]
    exact sameMap_fb g.canvas _
  have hpic : SameMap g.below g'.below := by
    rw [h.below]
    exact sameMap_overwrite
  exact ((hbelow g).trans hpic).trans (hbelow g').symm

/-- The cursor is drawn over the picture. -/
theorem below_cursorDraw (g : State) (hs : g.curShown = true) : (cursorDraw g).below = g.canvas := by
  obtain ⟨-, hover, -, -, hshown⟩ := cursorDraw_spec g
  rw [below_shown (hshown.trans hs), hover.cursorRestore]

/-- Other pixels in the framebuffer, the cursor's excepted, are other pixels in the picture. -/
theorem below_beside (hs : g.curShown = true) (hpic : ∀ p, InCursor g.curX g.curY p → pic p = none) :
    State.below { g with canvas := g.canvas.overwrite 0 pic } = g.below.overwrite 0 pic := by
  have hfb : (State.below { g with canvas := g.canvas.overwrite 0 pic }).fb =
      fun p => (pic p).getD (g.below.fb p) := by
    funext p
    by_cases hp : onScreen g.canvas p ∧ InCursor g.curX g.curY p
    · obtain ⟨cell, hcell, rfl⟩ := (mem_shownCells_iff g p).mpr hp
      have hcell' : cell ∈ State.shownCells { g with canvas := g.canvas.overwrite 0 pic } cells := hcell
      rw [below_saved hs hcell, hpic _ hp.2]
      exact below_saved (g := { g with canvas := g.canvas.overwrite 0 pic }) hs hcell'
    · rw [below_fb fun h => hp h.2]
      exact below_fb (g := { g with canvas := g.canvas.overwrite 0 pic }) fun h => hp h.2
  rw [below_eq, hfb, below_eq g, overwrite_zero, overwrite_zero]

/-- Pixels of another surface have no part in it. -/
theorem below_aside (hid : id ≠ 0) :
    State.below { g with canvas := g.canvas.overwrite id pic } = g.below.overwrite id pic := by
  have hfb : (State.below { g with canvas := g.canvas.overwrite id pic }).fb = g.below.fb := by
    by_cases hs : g.curShown = true
    · rw [fb_below hs, fb_below (g := { g with canvas := g.canvas.overwrite id pic }) hs, overwrite_pos hid]
      rfl
    · rw [Bool.not_eq_true] at hs
      rw [below_hidden hs, below_hidden (g := { g with canvas := g.canvas.overwrite id pic }) hs,
        overwrite_pos hid]
  rw [below_eq, hfb, below_eq g, overwrite_pos hid, overwrite_pos hid]

/-- The picture that is drawn beside the cursor. -/
theorem below_free (hpic : id = 0 → g.curShown = true → ∀ p, InCursor g.curX g.curY p → pic p = none) :
    State.below { g with canvas := g.canvas.overwrite id pic } = g.below.overwrite id pic := by
  by_cases hid : id = 0
  · subst hid
    by_cases hs : g.curShown = true
    · exact below_beside hs (hpic rfl hs)
    · rw [Bool.not_eq_true] at hs
      rw [below_hidden hs]
      exact below_hidden (g := { g with canvas := g.canvas.overwrite 0 pic }) hs
  · exact below_aside hid

/-- The picture that is drawn while the cursor is away. -/
theorem painted_away (hs : g.curShown = true) :
    Painted 0 pic g (cursorShowAgain true { g with canvas := g.below.overwrite 0 pic }) := by
  obtain ⟨-, -, hx, hy, hshown⟩ := cursorDraw_spec { g with canvas := g.below.overwrite 0 pic }
  exact ⟨below_cursorDraw { g with canvas := g.below.overwrite 0 pic } hs, hx, hy, hshown⟩

/-- The cursor stays, or it is taken away. -/
theorem hideOn_cases (g : State) (id : Int) (r : Rect) :
    hideOn id r g = (false, g) ∧ (id = 0 → g.meets r = false) ∨
      hideOn id r g = (true, { g with canvas := g.below }) ∧ id = 0 ∧ g.curShown = true := by
  unfold hideOn cursorHideFor
  by_cases hid : id = 0
  · rw [if_pos hid]
    cases hm : g.meets r with
    | false => exact Or.inl ⟨rfl, fun _ => rfl⟩
    | true =>
        have hs : g.curShown = true := by
          unfold State.meets at hm
          rw [Bool.and_eq_true] at hm
          exact hm.1
        have hfold : cursorRestore g = _ := cursorRestore_fold cells g
        rw [if_pos rfl, below_shown hs, hfold]
        exact Or.inr ⟨rfl, hid, hs⟩
  · rw [if_neg hid]
    exact Or.inl ⟨rfl, fun h => absurd h hid⟩

/-- A whole operation: the cursor makes way, or the drawing keeps beside it. -/
theorem painted_drawOn {r : Rect} {draw : Canvas → Canvas}
    (hdraw : ∀ fb, (id ≠ 0 → fb = g.canvas.fb) →
      draw { g.canvas with fb := fb } = Canvas.overwrite id pic { g.canvas with fb := fb })
    (hin : id = 0 → ∀ p, ¬ r.Mem p → pic p = none) : Painted id pic g (drawOn id r draw g) := by
  have hself : draw g.canvas = g.canvas.overwrite id pic := hdraw g.canvas.fb fun _ => rfl
  unfold drawOn
  rcases hideOn_cases g id r with ⟨heq, hfree⟩ | ⟨heq, hid, hs⟩
  · rw [heq]
    refine ⟨?_, rfl, rfl, rfl⟩
    show State.below { g with canvas := draw g.canvas } = _
    rw [hself]
    exact below_free fun hid hs p hp => hin hid p fun hmem => not_inCursor_of_mem hs (hfree hid) hmem hp
  · subst hid
    have hpic : draw g.below = g.below.overwrite 0 pic := by
      rw [below_eq]
      exact hdraw g.below.fb fun h => absurd rfl h
    rw [heq]
    show Painted 0 pic g (cursorShowAgain true { g with canvas := draw g.below })
    rw [hpic]
    exact painted_away hs

theorem Paints.drawOn [DecidablePred hit] {r : Rect} {draw : Canvas → Canvas}
    (h : ∀ fb, (id ≠ 0 → fb = g.canvas.fb) → Paints { g.canvas with fb := fb } id col hit draw)
    (hin : id = 0 → ∀ p, hit p → r.Mem p) :
    Painted id (fun p => if hit p then some (col p) else none) g (drawOn id r draw g) :=
  painted_drawOn (fun fb hfb => (h fb hfb).eq) fun hid p hp => if_neg fun hhit => hp (hin hid p hhit)

theorem painted_nothing (h : ∀ p, pic p = none) : Painted id pic g g := by
  have hpic : pic = fun _ => none := funext h
  rw [hpic]
  exact ⟨overwrite_none.symm, rfl, rfl, rfl⟩

theorem Painted.congr {pic' : Pos → Option Color} (h : Painted id pic g g') (heq : ∀ p, pic p = pic' p) :
    Painted id pic' g g' := by
  have hpic : pic = pic' := funext heq
  rwa [← hpic]

end Beeros.Gfx
