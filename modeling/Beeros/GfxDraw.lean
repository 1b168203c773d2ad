import Beeros.GfxOwner

/-! What the drawing functions do to the pixels of a surface, for rectangles that lie inside it with the
cursor out of the way: fills, bitmaps and copies that may overlap themselves. -/

namespace Beeros.Gfx

open Loop

variable {id i : Int} {k : Canvas} {p q : Pos} {c : Color}

/-! ### Single pixels -/

theorem get_put (h : k.target id ≠ none) : (k.put id p c).get id q = if q = p then c else k.get id q := by
  unfold Canvas.put Canvas.get
  by_cases h0 : id = 0
  · rw [if_pos h0, if_pos h0, if_pos h0]
    exact Function.update_apply k.fb p c q
  · rw [if_neg h0, if_neg h0, if_neg h0]
    show ((Function.update k.surfaces id _ id).map _).getD 0 = _
    rw [Function.update_self]
    unfold Canvas.target at h
    rw [if_neg h0] at h
    cases hs : k.surfaces id with
    | none =>
        rw [hs] at h
        split_ifs at h <;> exact absurd rfl h
    | some t => exact Function.update_apply t.px p c q

theorem get_put_of_ne (hne : i ≠ id) : (k.put id p c).get i q = k.get i q := by
  unfold Canvas.put Canvas.get
  by_cases h0 : id = 0
  · rw [if_pos h0, if_neg (by rw [← h0]; exact hne), if_neg (by rw [← h0]; exact hne)]
  · rw [if_neg h0]
    show (if i = 0 then k.fb q else ((Function.update k.surfaces id _ i).map _).getD 0) = _
    rw [Function.update_of_ne hne]

theorem target_put : (k.put id p c).target i = k.target i := by
  unfold Canvas.put Canvas.target
  by_cases h0 : id = 0
  · rw [if_pos h0]
  · rw [if_neg h0]
    show (if i < 0 ∨ gfxSurfaces ≤ i then none else if i = 0 then some (k.w, k.h)
      else (Function.update k.surfaces id _ i).map _) = _
    by_cases hi : i = id
    · subst hi
      rw [Function.update_self]
      cases k.surfaces i <;> rfl
    · rw [Function.update_of_ne hi]

/-! ### Programs that write pixels -/

/-- Other surfaces and all sizes are kept. -/
structure Beside (id : Int) (k k' : Canvas) : Prop where
  other : ∀ i, i ≠ id → ∀ p, k'.get i p = k.get i p
  target : ∀ i, k'.target i = k.target i

theorem Beside.refl (id : Int) (k : Canvas) : Beside id k k := ⟨fun _ _ _ => rfl, fun _ => rfl⟩

theorem Beside.trans {k' k'' : Canvas} (h : Beside id k k') (h' : Beside id k' k'') : Beside id k k'' :=
  ⟨fun i hi p => (h'.other i hi p).trans (h.other i hi p), fun i => (h'.target i).trans (h.target i)⟩

/-- The pixels in `hit` get the colours of `col`; the others are kept. -/
structure Puts (id : Int) (col : Pos → Color) (hit : Pos → Prop) (f : Canvas → Canvas) : Prop where
  beside : ∀ k, Beside id k (f k)
  drawn : ∀ k p, hit p → k.target id ≠ none → (f k).get id p = col p
  kept : ∀ k p, ¬ hit p → k.target id ≠ none → (f k).get id p = k.get id p

variable {col : Pos → Color} {hit hit' : Pos → Prop} {f f' : Canvas → Canvas}

theorem puts_put (p : Pos) : Puts id col (· = p) (Canvas.put id p (col p)) := by
  refine ⟨fun k => ⟨fun i hi q => get_put_of_ne hi, fun i => target_put⟩, fun k q hq h => ?_, fun k q hq h => ?_⟩
  · rw [get_put h, if_pos hq, hq]
  · rw [get_put h, if_neg hq]

theorem Puts.congr (h : Puts id col hit f) (hiff : ∀ p, hit p ↔ hit' p) : Puts id col hit' f :=
  ⟨h.beside, fun k p hp => h.drawn k p ((hiff p).mpr hp), fun k p hp => h.kept k p (mt (hiff p).mp hp)⟩

theorem Puts.loop {a b : Int} {hit : Int → Pos → Prop} {f : Int → Canvas → Canvas}
    (h : ∀ i, a ≤ i → i < b → Puts id col (hit i) (f i)) :
    Puts id col (fun p => ∃ i, a ≤ i ∧ i < b ∧ hit i p) (forRange a b f) := by
  have hbeside (k : Canvas) : Beside id k (forRange a b f k) := by
    apply forRange_induct (P := Beside id k) (.refl id k)
    intro i ha hb k' hk'
    exact hk'.trans ((h i ha hb).beside k')
  refine ⟨hbeside, fun k p ⟨i, ha, hb, hi⟩ ht => ?_, fun k p hp ht => ?_⟩
  · have hP : (forRange a b f k).target id ≠ none → (forRange a b f k).get id p = col p := by
      apply forRange_reach (P := fun k : Canvas => k.target id ≠ none → k.get id p = col p) ha hb
      · intro k hk
        rw [((h i ha hb).beside k).target] at hk
        exact (h i ha hb).drawn k p hi hk
      · intro j hja hjb k hk hkt
        rw [((h j hja hjb).beside k).target] at hkt
        by_cases hj : hit j p
        · exact (h j hja hjb).drawn k p hj hkt
        · rw [(h j hja hjb).kept k p hj hkt]
          exact hk hkt
    exact hP (by rw [(hbeside k).target]; exact ht)
  · have hP : (forRange a b f k).target id ≠ none → (forRange a b f k).get id p = k.get id p := by
      apply forRange_induct (P := fun k' : Canvas => k'.target id ≠ none → k'.get id p = k.get id p) fun _ => rfl
      intro j hja hjb k' hk' hkt
      rw [((h j hja hjb).beside k').target] at hkt
      rw [(h j hja hjb).kept k' p (fun hj => hp ⟨j, hja, hjb, hj⟩) hkt]
      exact hk' hkt
    exact hP (by rw [(hbeside k).target]; exact ht)

theorem Puts.neg {c : Prop} [Decidable c] (hc : ¬ c) (h : Puts id col hit f') :
    Puts id col hit fun k => if c then f k else f' k :=
  ⟨fun k => by rw [if_neg hc]; exact h.beside k, fun k p => by rw [if_neg hc]; exact h.drawn k p,
    fun k p => by rw [if_neg hc]; exact h.kept k p⟩

theorem Puts.pos {c : Prop} [Decidable c] (hc : c) (h : Puts id col hit f) :
    Puts id col hit fun k => if c then f k else f' k :=
  ⟨fun k => by rw [if_pos hc]; exact h.beside k, fun k p => by rw [if_pos hc]; exact h.drawn k p,
    fun k p => by rw [if_pos hc]; exact h.kept k p⟩

/-! ### Inside a surface -/

/-- The rectangle lies inside the surface, and the shown cursor is not over it. -/
structure Free (g : State) (id : Int) (r : Rect) : Prop where
  size : ∃ w h, g.canvas.target id = some (w, h) ∧ 0 ≤ r.x ∧ 0 ≤ r.y ∧ r.x + r.w ≤ w ∧ r.y + r.h ≤ h
  cursor : id = 0 → g.meets r = false

theorem Free.sub {g : State} {r r' : Rect} (h : Free g id r) (hx : r.x ≤ r'.x) (hw : r'.x + r'.w ≤ r.x + r.w)
    (hy : r.y ≤ r'.y) (hh : r'.y + r'.h ≤ r.y + r.h) : Free g id r' := by
  obtain ⟨w, h', ht, hx₀, hy₀, hw₀, hh₀⟩ := h.size
  refine ⟨⟨w, h', ht, by omega, by omega, by omega, by omega⟩, fun h0 => ?_⟩
  have hmeets := h.cursor h0
  unfold State.meets at hmeets ⊢
  cases hs : g.curShown with
  | false => rfl
  | true =>
      rw [hs, Bool.true_and, Bool.not_eq_false'] at hmeets
      rw [Bool.true_and, Bool.not_eq_false']
      simp only [Bool.or_eq_true, decide_eq_true_eq] at hmeets ⊢
      omega

theorem hideOn_free {g : State} {r : Rect} (h : id = 0 → g.meets r = false) : hideOn id r g = (false, g) := by
  unfold hideOn cursorHideFor
  split_ifs with h0 hm
  · rw [h h0] at hm
    cases hm
  · rfl
  · rfl

theorem drawOn_free {g : State} {r : Rect} (h : id = 0 → g.meets r = false) (draw : Canvas → Canvas) :
    drawOn id r draw g = { g with canvas := draw g.canvas } := by
  unfold drawOn
  rw [hideOn_free h]
  rfl

/-- Only pixels of the surface are drawn: those in `hit`, with the colours of `col`. -/
structure Drew (id : Int) (col : Pos → Color) (hit : Pos → Prop) (g g' : State) : Prop where
  beside : Beside id g.canvas g'.canvas
  drawn : ∀ p, hit p → g'.canvas.get id p = col p
  kept : ∀ p, ¬ hit p → g'.canvas.get id p = g.canvas.get id p
  meets : ∀ r, g'.meets r = g.meets r

theorem Puts.drew {g : State} (h : Puts id col hit f) (ht : g.canvas.target id ≠ none) :
    Drew id col hit g { g with canvas := f g.canvas } :=
  ⟨h.beside _, fun p hp => h.drawn _ p hp ht, fun p hp => h.kept _ p hp ht, fun _ => rfl⟩

theorem drew_fillRectOn {g : State} {r : Rect} (h : Free g id r) (color : Color) :
    Drew id (fun _ => color) r.Mem g (gfxFillRectOn id r color g) := by
  obtain ⟨w, h', ht, hx, hy, hw, hh⟩ := h.size
  have htn : g.canvas.target id ≠ none := by
    rw [ht]
    exact Option.some_ne_none _
  unfold gfxFillRectOn
  rw [ht]
  dsimp only
  have hclip : clip r w h' = if 0 < r.w ∧ 0 < r.h then some ⟨r.x, r.y, r.w, r.h⟩ else none := by
    have e₁ : max r.x 0 = r.x := by omega
    have e₂ : max r.y 0 = r.y := by omega
    have e₃ : min (r.x + r.w) w = r.x + r.w := by omega
    have e₄ : min (r.y + r.h) h' = r.y + r.h := by omega
    have e₅ : r.x + r.w - r.x = r.w := by omega
    have e₆ : r.y + r.h - r.y = r.h := by omega
    rw [clip_eq, e₁, e₂, e₃, e₄, e₅, e₆]
  rw [hclip]
  split_ifs with hpos
  · show Drew id _ _ g (drawOn id ⟨r.x, r.y, r.w, r.h⟩ _ g)
    rw [drawOn_free h.cursor]
    refine Puts.drew (Puts.congr (.loop fun row _ _ => .loop fun c _ _ => puts_put (r.x + c, row)) fun p => ?_) htn
    obtain ⟨px, py⟩ := p
    constructor
    · rintro ⟨row, h₁, h₂, c, h₃, h₄, hp⟩
      cases hp
      dsimp only at h₁ h₂ h₃ h₄
      exact ⟨by dsimp only; omega, by dsimp only; omega, h₁, h₂⟩
    · rintro ⟨h₁, h₂, h₃, h₄⟩
      dsimp only at h₁ h₂ h₃ h₄
      refine ⟨py, h₃, h₄, px - r.x, by omega, ?_, Prod.ext ?_ rfl⟩
      · dsimp only
        omega
      · dsimp only
        omega
  · refine ⟨.refl id _, fun p hp => ?_, fun p _ => rfl, fun _ => rfl⟩
    obtain ⟨h₁, h₂, h₃, h₄⟩ := hp
    exact absurd ⟨by omega, by omega⟩ hpos

/-! ### Bitmaps -/

/-- The colour that a bitmap at `(x, y)` gives to a pixel. -/
def bitmapColor (x y : Int) (bits : Nat → UInt8) (stride scale : Nat) (fg bg : Color) (p : Pos) : Color :=
  if bitAt bits stride ((p.2 - y) / scale).toNat ((p.1 - x) / scale).toNat then fg else bg

theorem scaled_ediv {c n scale : Int} (hn : 0 ≤ n) (hns : n < scale) : (c * scale + n) / scale = c := by
  rw [Int.add_comm, Int.add_mul_ediv_right _ _ (by omega), Int.ediv_eq_zero_of_lt hn hns, Int.zero_add]

/-- A pixel of a scaled bitmap is in the square of one of its columns. -/
theorem exists_scaled {n : Int} {w scale : Nat} (h₀ : 0 ≤ n) (h : n < w * scale) (hs : scale ≠ 0) :
    ∃ c s : Nat, c < w ∧ s < scale ∧ n = c * scale + s := by
  have hpos : 0 < scale := Nat.pos_of_ne_zero hs
  have hn : ((n.toNat : Nat) : Int) = n := Int.toNat_of_nonneg h₀
  have hlt : n.toNat < w * scale := by
    have : ((n.toNat : Nat) : Int) < ((w * scale : Nat) : Int) := by
      rw [hn, Int.natCast_mul]
      exact h
    omega
  refine ⟨n.toNat / scale, n.toNat % scale, ?_, Nat.mod_lt _ hpos, ?_⟩
  · exact (Nat.div_lt_iff_lt_mul hpos).mpr hlt
  · rw [← hn, ← Int.natCast_mul, ← Int.natCast_add, Int.toNat_natCast, Nat.div_add_mod']

theorem drew_blitBitsOn {g : State} {x y : Int} {bits : Nat → UInt8} {w h stride scale : Nat} {fg : Color} {bg : Int}
    (hbg : 0 ≤ bg) (hfree : Free g id ⟨x, y, w * scale, h * scale⟩) :
    Drew id (bitmapColor x y bits stride scale fg (.ofInt bg)) (Rect.Mem ⟨x, y, w * scale, h * scale⟩) g
      (gfxBlitBitsOn id x y bits w h stride scale fg bg g) := by
  obtain ⟨tw, th, ht, hx, hy, hw, hh⟩ := hfree.size
  dsimp only at hx hy hw hh
  have htn : g.canvas.target id ≠ none := by
    rw [ht]
    exact nofun
  unfold gfxBlitBitsOn
  rw [ht]
  show Drew id _ _ g (if scale = 0 then g else _)
  by_cases hs : scale = 0
  · rw [if_pos hs]
    refine ⟨.refl id _, fun p hp => ?_, fun p _ => rfl, fun _ => rfl⟩
    obtain ⟨h₁, h₂, -, -⟩ := hp
    dsimp only at h₁ h₂
    rw [hs, Int.ofNat_zero, Int.mul_zero] at h₂
    omega
  rw [if_neg hs]
  show Drew id _ _ g (drawOn id _ _ g)
  rw [drawOn_free hfree.cursor]
  -- the pixel of column `c` and row `r` of the bitmap, at `(sx, sy)` in its square
  let at' (r sy c sx : Int) : Pos := (x + c * scale + sx, y + r * scale + sy)
  have hpixel (r sy c sx : Int) (hr₀ : 0 ≤ r) (hr : r < h) (hsy₀ : 0 ≤ sy) (hsy : sy < scale) (hc₀ : 0 ≤ c)
      (hc : c < w) (hsx₀ : 0 ≤ sx) (hsx : sx < scale) :
      Puts id (bitmapColor x y bits stride scale fg (.ofInt bg)) (· = at' r sy c sx) fun k =>
        if (x + c * scale + sx) ≥ 0 ∧ (x + c * scale + sx) < tw then
          k.put id (at' r sy c sx) (if bitAt bits stride r.toNat c.toNat then fg else .ofInt bg)
        else k := by
    have hcol := scaled_bounds hc₀ hc hsx₀ hsx
    have hcolor : bitmapColor x y bits stride scale fg (.ofInt bg) (at' r sy c sx) =
        if bitAt bits stride r.toNat c.toNat then fg else .ofInt bg := by
      have hx' : x + c * scale + sx - x = c * scale + sx := by omega
      have hy' : y + r * scale + sy - y = r * scale + sy := by omega
      unfold bitmapColor
      show (if bitAt bits stride ((y + r * scale + sy - y) / scale).toNat ((x + c * scale + sx - x) / scale).toNat
        then fg else _) = _
      rw [hx', hy', scaled_ediv hsx₀ hsx, scaled_ediv hsy₀ hsy]
    rw [← hcolor]
    exact .pos (by omega) (puts_put _)
  refine Puts.drew (Puts.congr (.loop fun r hr₀ hr => .loop fun sy hsy₀ hsy => .neg ?_ (.loop fun c hc₀ hc =>
    .neg ?_ (.loop fun sx hsx₀ hsx => hpixel r sy c sx hr₀ hr hsy₀ hsy hc₀ hc hsx₀ hsx))) fun p => ?_) htn
  · have hrow := scaled_bounds hr₀ hr hsy₀ hsy
    omega
  · rw [Bool.and_eq_true, decide_eq_true_eq]
    omega
  · obtain ⟨px, py⟩ := p
    constructor
    · rintro ⟨r, hr₀, hr, sy, hsy₀, hsy, c, hc₀, hc, sx, hsx₀, hsx, hp⟩
      have hcol := scaled_bounds hc₀ hc hsx₀ hsx
      have hrow := scaled_bounds hr₀ hr hsy₀ hsy
      rw [hp]
      refine ⟨?_, ?_, ?_, ?_⟩
      all_goals
        dsimp only [at']
        omega
    · rintro ⟨h₁, h₂, h₃, h₄⟩
      dsimp only at h₁ h₂ h₃ h₄
      obtain ⟨c, sx, hc, hsx, hx'⟩ := exists_scaled (n := px - x) (w := w) (by omega) (by omega) hs
      obtain ⟨r, sy, hr, hsy, hy'⟩ := exists_scaled (n := py - y) (w := h) (by omega) (by omega) hs
      refine ⟨r, by omega, by omega, sy, by omega, by omega, c, by omega, by omega, sx, by omega, by omega,
        Prod.ext ?_ ?_⟩
      · dsimp only [at']
        omega
      · dsimp only [at']
        omega

/-! ### Copies -/

theorem puts_moveRow {k : Canvas} (ht : k.target id ≠ none) (sx sy dx dy : Int) (w : Nat) :
    Beside id k (moveRow id sx sy dx dy w k) ∧ ∀ p, (moveRow id sx sy dx dy w k).get id p =
      if p.2 = dy ∧ dx ≤ p.1 ∧ p.1 < dx + w then k.get id (p.1 - dx + sx, sy) else k.get id p := by
  let row := (List.range w).map fun (i : Nat) => k.get id (sx + i, sy)
  let col : Pos → Color := fun p => row.getD (p.1 - dx).toNat 0
  have hputs : Puts id col (fun p => ∃ i : Int, 0 ≤ i ∧ i < w ∧ p = (dx + i, dy))
      (forRange 0 w fun i => Canvas.put id (dx + i, dy) (row.getD i.toNat 0)) := by
    refine .loop fun i _ _ => ?_
    have hi : (dx + i, dy).1 - dx = i := by
      show dx + i - dx = i
      omega
    have hput : Puts id col (· = (dx + i, dy)) (Canvas.put id (dx + i, dy) (col (dx + i, dy))) := puts_put _
    dsimp only [col] at hput
    rw [hi] at hput
    exact hput
  refine ⟨hputs.beside k, fun p => ?_⟩
  obtain ⟨px, py⟩ := p
  split_ifs with hp
  · obtain ⟨rfl, h₁, h₂⟩ := hp
    dsimp only at h₁ h₂
    have hrow : row.getD (px - dx).toNat 0 = k.get id (px - dx + sx, sy) := by
      have hlt : (px - dx).toNat < (List.range w).length := by
        rw [List.length_range]
        omega
      have hx : sx + ((px - dx).toNat : Int) = px - dx + sx := by omega
      rw [List.getD_eq_getElem?_getD, List.getElem?_map, List.getElem?_eq_getElem hlt, List.getElem_range]
      show k.get id (sx + ((px - dx).toNat : Int), sy) = _
      rw [hx]
    rw [← hrow]
    exact hputs.drawn k (px, py) ⟨px - dx, by omega, by omega, Prod.ext (by dsimp only; omega) rfl⟩ ht
  · refine hputs.kept k (px, py) (fun ⟨i, h₁, h₂, he⟩ => hp ?_) ht
    cases he
    exact ⟨rfl, by dsimp only; omega, by dsimp only; omega⟩

/-- Every pixel of the destination gets what the source showed before the copy, however the two overlap. -/
theorem drew_copyRectOn {g : State} {sx sy w h dx dy : Nat} (hsrc : Free g id ⟨sx, sy, w, h⟩)
    (hdst : Free g id ⟨dx, dy, w, h⟩) :
    Drew id (fun p => g.canvas.get id (p.1 - dx + sx, p.2 - dy + sy)) (Rect.Mem ⟨dx, dy, w, h⟩) g
      (gfxCopyRectOn id sx sy w h dx dy g) := by
  obtain ⟨tw, th, ht, -, -, hsw, hsh⟩ := hsrc.size
  obtain ⟨tw', th', ht', -, -, hdw, hdh⟩ := hdst.size
  rw [ht] at ht'
  cases ht'
  dsimp only at hsw hsh hdw hdh
  have htn : g.canvas.target id ≠ none := by
    rw [ht]
    exact nofun
  unfold gfxCopyRectOn
  rw [ht]
  show Drew id _ _ g (if sx ≥ tw ∨ sy ≥ th ∨ dx ≥ tw ∨ dy ≥ th then g else _)
  by_cases hout : sx ≥ tw ∨ sy ≥ th ∨ dx ≥ tw ∨ dy ≥ th
  · rw [if_pos hout]
    refine ⟨.refl id _, fun p hp => ?_, fun p _ => rfl, fun _ => rfl⟩
    obtain ⟨h₁, h₂, h₃, h₄⟩ := hp
    dsimp only at h₁ h₂ h₃ h₄
    omega
  rw [if_neg hout]
  have hw : (if max sx dx + w > tw then tw - max sx dx else w) = w := if_neg (by omega)
  have hh : (if max sy dy + h > th then th - max sy dy else h) = h := if_neg (by omega)
  dsimp only
  rw [hw, hh, hideOn_free hsrc.cursor]
  dsimp only
  rw [hideOn_free hdst.cursor]
  let r : Int → Int := fun i => if dy > sy then h - 1 - i else i
  -- what the canvas shows after `n` rows: round `r y` copies row `y`
  let P : Int → Canvas → Prop := fun n k => Beside id g.canvas k ∧ ∀ p : Pos, k.get id p =
    if (0 ≤ r (p.2 - dy) ∧ r (p.2 - dy) < n) ∧ (dx : Int) ≤ p.1 ∧ p.1 < dx + w then
      g.canvas.get id (p.1 - dx + sx, p.2 - dy + sy) else g.canvas.get id p
  have hrr (i : Int) : r (r i) = i := by
    dsimp only [r]
    split_ifs <;> omega
  have hrun : P h (forRange 0 h (fun i k => moveRow id sx (sy + r i) dx (dy + r i) w k) g.canvas) := by
    apply forRange_index (P := P) (Int.natCast_nonneg h)
    · refine ⟨.refl id _, fun p => ?_⟩
      rw [if_neg]
      rintro ⟨⟨h₁, h₂⟩, -⟩
      omega
    · intro n hn₀ hn k ⟨hb, hk⟩
      have hkt : k.target id ≠ none := by
        rw [hb.target]
        exact htn
      obtain ⟨hb', hmove⟩ := puts_moveRow hkt sx (sy + r n) dx (dy + r n) w
      refine ⟨hb.trans hb', fun p => ?_⟩
      rw [hmove p]
      by_cases hrow : p.2 = dy + r n
      · by_cases hcol : (dx : Int) ≤ p.1 ∧ p.1 < dx + w
        · have hy : p.2 - dy = r n := by omega
          -- the row that is read was not written before
          have hold : ¬ ((0 ≤ r (sy + r n - dy) ∧ r (sy + r n - dy) < n) ∧ (dx : Int) ≤ p.1 - dx + sx ∧
              p.1 - dx + sx < dx + w) := by
            rintro ⟨⟨h₁, h₂⟩, -⟩
            dsimp only [r] at h₁ h₂
            split_ifs at h₁ h₂ <;> omega
          have hsy : r n + sy = sy + r n := Int.add_comm _ _
          rw [if_pos ⟨hrow, hcol⟩, hk, if_neg hold, hy, hrr, if_pos ⟨⟨hn₀, by omega⟩, hcol⟩, hsy]
        · rw [if_neg fun hp => hcol hp.2, hk, if_neg fun hp => hcol hp.2, if_neg fun hp => hcol hp.2]
      · have hne : r (p.2 - dy) ≠ n := by
          intro he
          apply hrow
          rw [← he, hrr]
          omega
        have hiff : ((0 ≤ r (p.2 - dy) ∧ r (p.2 - dy) < n) ∧ (dx : Int) ≤ p.1 ∧ p.1 < dx + w) ↔
            (0 ≤ r (p.2 - dy) ∧ r (p.2 - dy) < n + 1) ∧ (dx : Int) ≤ p.1 ∧ p.1 < dx + w := by omega
        rw [if_neg fun hp => hrow hp.1, hk, if_congr hiff rfl rfl]
  obtain ⟨hb, hrun⟩ := hrun
  have hmem (p : Pos) : Rect.Mem ⟨dx, dy, w, h⟩ p ↔
      (0 ≤ r (p.2 - dy) ∧ r (p.2 - dy) < h) ∧ (dx : Int) ≤ p.1 ∧ p.1 < dx + w := by
    unfold Rect.Mem
    dsimp only [r]
    split_ifs <;> omega
  refine ⟨hb, fun p hp => ?_, fun p hp => ?_, fun _ => rfl⟩
  · exact (hrun p).trans (if_pos ((hmem p).mp hp))
  · exact (hrun p).trans (if_neg (mt (hmem p).mpr hp))

end Beeros.Gfx
