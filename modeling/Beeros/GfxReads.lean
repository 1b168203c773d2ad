import Beeros.GfxBlits

/-! What `gfx_blit_bits_on` and `gfx_blit_pixels_on` of `kernel/gfx.c` read of an image, and what the tests of
`kernel/gfx_natives.c` before the calls are worth: products and sums that wrap around, and a width that is not
looked at. -/

namespace Beeros.Gfx

open CInt Loop

variable {g : State} {id x y : Int}

/-! ### Runs that note what they read -/

/-- A drawing on its way, and the offsets of the source bytes read so far. -/
structure Reading where
  canvas : Option Canvas
  reads : List Int

/-- The bytes from an offset on. -/
def span (off : Int) (n : Nat) : List Int := (List.range n).map fun (i : Nat) => off + i

/-- Reads bytes, then draws. -/
def Reading.read (bytes : List Int) (draw : Canvas → Option Canvas) (s : Reading) : Reading :=
  ⟨s.canvas.bind draw, s.reads ++ bytes⟩

/-- What a part of a run draws. -/
def Draws (draw : Canvas → Option Canvas) (f : Reading → Reading) : Prop := ∀ s, (f s).canvas = s.canvas.bind draw

/-- What a part of a run reads. -/
def Reads (bytes : Int → Prop) (f : Reading → Reading) : Prop := ∀ s a, a ∈ (f s).reads ↔ a ∈ s.reads ∨ bytes a

theorem mem_span {a off : Int} {n : Nat} : a ∈ span off n ↔ off ≤ a ∧ a < off + n := by
  unfold span
  rw [List.mem_map]
  constructor
  · rintro ⟨i, hi, rfl⟩
    rw [List.mem_range] at hi
    omega
  · intro h
    exact ⟨(a - off).toNat, List.mem_range.mpr (by omega), by omega⟩

section Rules

variable {draw draw' : Canvas → Option Canvas} {f f' : Reading → Reading} {bytes bytes' : Int → Prop}

theorem draws_id : Draws some fun s => s := fun s => (Option.bind_fun_some s.canvas).symm

theorem draws_read (bytes : List Int) : Draws draw (Reading.read bytes draw) := fun _ => rfl

theorem Draws.cond {c : Prop} [Decidable c] (h : Draws draw f) (h' : Draws draw' f') :
    Draws (fun k => if c then draw k else draw' k) fun s => if c then f s else f' s := by
  by_cases hc : c
  · simp only [if_pos hc]
    exact h
  · simp only [if_neg hc]
    exact h'

theorem Draws.loop {a b : Int} {draw : Int → Canvas → Option Canvas} {f : Int → Reading → Reading}
    (h : ∀ i, Draws (draw i) (f i)) : Draws (forRangeM a b draw) (forRange a b f) := by
  intro s
  obtain ⟨canvas, reads⟩ := s
  cases canvas with
  | none =>
      refine forRange_induct (P := fun s : Reading => s.canvas = none) rfl fun i _ _ s hs => ?_
      rw [h i s, hs]
      rfl
  | some k =>
      show (forRange a b f ⟨some k, reads⟩).canvas = forRange a b (fun i o => o.bind (draw i)) (some k)
      refine forRange_rel (R := fun (s : Reading) (o : Option Canvas) => s.canvas = o) rfl fun i _ _ s o hs => ?_
      rw [h i s, hs]

theorem reads_id : Reads (fun _ => False) fun s => s :=
  fun _ _ => ⟨Or.inl, fun h => h.elim (fun h => h) False.elim⟩

theorem reads_read (bytes : List Int) (draw : Canvas → Option Canvas) :
    Reads (· ∈ bytes) (Reading.read bytes draw) := fun _ _ => List.mem_append

theorem Reads.cond {c : Prop} [Decidable c] (h : Reads bytes f) (h' : Reads bytes' f') :
    Reads (fun a => if c then bytes a else bytes' a) fun s => if c then f s else f' s := by
  by_cases hc : c
  · simp only [if_pos hc]
    exact h
  · simp only [if_neg hc]
    exact h'

theorem Reads.loop {a b : Int} {bytes : Int → Int → Prop} {f : Int → Reading → Reading}
    (h : ∀ i, Reads (bytes i) (f i)) :
    Reads (fun n => ∃ i, a ≤ i ∧ i < b ∧ bytes i n) (forRange a b f) := by
  intro s n
  by_cases hab : b ≤ a
  · rw [forRange_empty hab]
    refine ⟨Or.inl, fun hn => hn.elim (fun hn => hn) ?_⟩
    rintro ⟨i, hi, hi', -⟩
    omega
  · refine forRange_index (P := fun (b : Int) (s' : Reading) =>
      n ∈ s'.reads ↔ n ∈ s.reads ∨ ∃ i, a ≤ i ∧ i < b ∧ bytes i n) (by omega) ?_ ?_
    · refine ⟨Or.inl, fun hn => hn.elim (fun hn => hn) ?_⟩
      rintro ⟨i, hi, hi', -⟩
      omega
    · intro i hi hi' s' hs
      rw [h i s' n, hs, or_assoc]
      refine or_congr_right ⟨?_, ?_⟩
      · rintro (⟨j, hj, hj', hn⟩ | hn)
        · exact ⟨j, hj, by omega, hn⟩
        · exact ⟨i, hi, by omega, hn⟩
      · rintro ⟨j, hj, hj', hn⟩
        by_cases hji : j = i
        · rw [hji] at hn
          exact Or.inr hn
        · exact Or.inl ⟨j, hj, by omega, hn⟩

end Rules

/-! ### The drawing functions -/

namespace Flat

/-- `drawOn` for a run that notes what it reads. -/
def drawReading (id : Int) (r : Rect) (draw : Reading → Reading) (g : State) : Option State × List Int :=
  let (hid, g) := hideOn id r g
  let s := draw ⟨some g.canvas, []⟩
  (s.canvas.map fun k => cursorShowAgain hid { g with canvas := k }, s.reads)

theorem uint32_mul {a b : Nat} {i : Int} (hi : 0 ≤ i) (hi' : i < a) (h : a * b < 2 ^ 32) :
    (uint32 (i * b) : Int) = i * b := by
  have hle : i * b ≤ a * b := Int.mul_le_mul_of_nonneg_right (by omega) (by omega)
  have hbound : ((a * b : Nat) : Int) < 2 ^ 32 := by
    exact_mod_cast h
  rw [Int.natCast_mul] at hbound
  exact uint32_of_lt (Int.mul_nonneg hi (by omega)) (by omega)

/-- `bits` starts at offset `off` of the buffer. -/
def readBlitBitsOn (id x y : Int) (bits : Int → UInt8) (off : Int) (w h stride scale : Nat) (fg : Color) (bg : Int)
    (g : State) : Option State × List Int :=
  match g.canvas.target id with
  | none => (some g, [])
  | some (tw, th) =>
      if scale = 0 then (some g, [])
      else
        drawReading id ⟨x, y, int64 (w * scale), int64 (h * scale)⟩ (forRange 0 h fun r =>
          let row := uint32 (r * stride)
          forRange 0 scale fun sy s =>
            let py := y + uint32 (r * scale) + sy
            if py < 0 ∨ py ≥ th then s
            else
              forRange 0 w (fun c s =>
                let byte := row + c / 8
                let on := bits byte &&& (0x80 >>> UInt8.ofInt (c % 8)) != 0
                s.read [off + byte] fun k =>
                  if !on && bg < 0 then some k
                  else
                    forRangeM 0 scale (fun sx k =>
                      let px := x + uint32 (c * scale) + sx
                      if px ≥ 0 ∧ px < tw then
                        store id tw th (int64 (py * tw) + px) (if on then fg else UInt32.ofInt bg) k
                      else some k) k) s) g

/-- `px` starts at offset `start` of the buffer. -/
def readBlitPixelsOn (id x y : Int) (px : Int → UInt8) (start : Int) (w h stride key : Int) (g : State) :
    Option State × List Int :=
  match g.canvas.target id with
  | none => (some g, [])
  | some (tw, th) =>
      match clip ⟨x, y, w, h⟩ tw th with
      | none => (some g, [])
      | some r =>
          let off := int64 (int64 (int64 (r.y - y) * stride) + int64 (int64 (r.x - x) * 4))
          drawReading id r (forRange 0 r.h fun row s =>
            let src := off + int64 (row * stride)
            let dst := int64 (int64 (r.y + row) * tw) + r.x
            if key < 0 then
              s.read (span (start + src) (uint64 (r.w * 4))) (forRangeM 0 (uint64 (r.w * 4) / 4) fun c =>
                store id tw th (dst + c) (wordAt (px ∘ int64) (src + c * 4)))
            else
              forRange 0 r.w (fun c s =>
                s.read (span (start + (src + c * 4)) 4) fun k =>
                  let v := wordAt (px ∘ int64) (src + c * 4)
                  if v &&& 0xFFFFFF ≠ UInt32.ofInt key then store id tw th (dst + c) v k else some k) s) g

theorem drawReading_fst {r : Rect} {draw : Canvas → Option Canvas} {f : Reading → Reading} (h : Draws draw f) :
    (drawReading id r f g).1 = drawOn id r draw g := by
  unfold drawReading drawOn
  show Option.map _ (f ⟨some (hideOn id r g).2.canvas, []⟩).canvas = _
  rw [h]
  rfl

theorem mem_drawReading {r : Rect} {bytes : Int → Prop} {f : Reading → Reading} (h : Reads bytes f) {a : Int} :
    a ∈ (drawReading id r f g).2 ↔ bytes a := by
  unfold drawReading
  show a ∈ (f ⟨some (hideOn id r g).2.canvas, []⟩).reads ↔ _
  rw [h]
  exact ⟨fun hn => hn.elim (fun hn => nomatch hn) fun hn => hn, Or.inr⟩

/-- It is the function of the model. -/
theorem readBlitPixelsOn_fst (px : Int → UInt8) (start w h stride key : Int) :
    (readBlitPixelsOn id x y px start w h stride key g).1 = gfxBlitPixelsOn id x y px w h stride key g := by
  unfold readBlitPixelsOn gfxBlitPixelsOn
  cases g.canvas.target id with
  | none => rfl
  | some t =>
      dsimp only
      cases clip ⟨x, y, w, h⟩ t.1 t.2 with
      | none => rfl
      | some r =>
          refine drawReading_fst (.loop fun row => .cond (draws_read _) (.loop fun c => draws_read _))

theorem bitAt_eq (bits : Int → UInt8) (stride : Nat) {r c : Int} (hr : 0 ≤ r) (hc : 0 ≤ c) :
    (bits (r * stride + c / 8) &&& (0x80 >>> UInt8.ofInt (c % 8)) != 0) =
      bitAt (fun n => bits n) stride r.toNat c.toNat := by
  obtain ⟨r, rfl⟩ := Int.eq_ofNat_of_zero_le hr
  obtain ⟨c, rfl⟩ := Int.eq_ofNat_of_zero_le hc
  have hbit : UInt8.ofInt ((c : Int) % 8) = UInt8.ofNat (c % 8) := by
    show UInt8.ofNat ((c : Int) % 8 % 2 ^ 8).toNat = _
    congr 1
    omega
  rw [hbit]
  rfl

/-- It is the function of the model, as long as no product wraps around. -/
theorem readBlitBitsOn_fst {bits : Int → UInt8} {w h stride scale : Nat} (hg : InRam g.canvas)
    (hx : -2 ^ 31 ≤ x ∧ x < 2 ^ 31) (hy : -2 ^ 31 ≤ y ∧ y < 2 ^ 31) (hstride : h * stride < 2 ^ 32)
    (hh : h * scale < 2 ^ 32) (hw : w * scale < 2 ^ 32) (off : Int) (fg : Color) (bg : Int) :
    (readBlitBitsOn id x y bits off w h stride scale fg bg g).1 =
      some (Gfx.gfxBlitBitsOn id x y (fun n => bits n) w h stride scale fg bg g) := by
  unfold readBlitBitsOn Gfx.gfxBlitBitsOn
  cases ht : g.canvas.target id with
  | none => rfl
  | some t =>
      obtain ⟨tw, th⟩ := t
      have hs := hg.target ht
      dsimp only
      split_ifs with hscale
      · rfl
      · have hwide : int64 ((w : Int) * scale) = w * scale := int64_of_isInt64 ⟨by omega, by omega⟩
        have hhigh : int64 ((h : Int) * scale) = h * scale := int64_of_isInt64 ⟨by omega, by omega⟩
        rw [hwide, hhigh, drawReading_fst (.loop fun r => .loop fun sy => .cond draws_id
          (.loop fun c => draws_read _))]
        refine drawOn_eq ⟨by dsimp only; omega, by dsimp only; omega⟩ ⟨by dsimp only; omega, by dsimp only; omega⟩
          fun fb => ?_
        refine forRangeM_eq_some (fun r hr hr' k => forRangeM_eq_some (fun sy hsy hsy' k => ?_) k) _
        have hrow := uint32_mul hr hr' hstride
        have hline := uint32_mul hr hr' hh
        rw [hrow, hline]
        split_ifs with hout
        · rfl
        · refine forRangeM_eq_some (fun c hc hc' k => ?_) k
          have hcol := uint32_mul hc hc' hw
          rw [bitAt_eq bits stride hr hc, hcol]
          by_cases hclear : (!bitAt (fun n => bits n) stride r.toNat c.toNat && bg < 0) = true
          · rw [if_pos hclear, if_pos hclear]
          · rw [if_neg hclear, if_neg hclear]
            refine forRangeM_eq_some (fun sx hsx hsx' k => ?_) k
            by_cases hin : x + c * scale + sx ≥ 0 ∧ x + c * scale + sx < tw
            · rw [if_pos hin, if_pos hin]
              exact store_row hs hin.1 hin.2 (by omega) (by omega) _ k
            · rw [if_neg hin, if_neg hin]

/-- A row that has a pixel on the surface. -/
def RowShown (y : Int) (scale th r : Nat) : Prop :=
  ∃ sy, 0 ≤ sy ∧ sy < (scale : Int) ∧ 0 ≤ y + uint32 (r * scale) + sy ∧ y + uint32 (r * scale) + sy < th

theorem mem_readBlitBitsOn {bits : Int → UInt8} {off : Int} {w h stride scale : Nat} {fg : Color} {bg : Int}
    {tw th : Nat} (ht : g.canvas.target id = some (tw, th)) (a : Int) :
    a ∈ (readBlitBitsOn id x y bits off w h stride scale fg bg g).2 ↔
      ∃ r < h, RowShown y scale th r ∧ ∃ c < w, a = off + (uint32 (r * stride) + c / 8) := by
  unfold readBlitBitsOn
  rw [ht]
  dsimp only
  split_ifs with hscale
  · subst hscale
    refine ⟨fun hmem => (nomatch hmem), ?_⟩
    rintro ⟨r, -, ⟨sy, hsy, hsy', -⟩, -⟩
    omega
  · rw [mem_drawReading (.loop fun r => .loop fun sy => .cond reads_id (.loop fun c => reads_read _ _))]
    constructor
    · rintro ⟨r, hr, hr', sy, hsy, hsy', hmem⟩
      split_ifs at hmem with hout
      obtain ⟨c, hc, hc', hmem⟩ := hmem
      rw [List.mem_singleton] at hmem
      have hrow : (r.toNat : Int) = r := Int.toNat_of_nonneg hr
      have hcol : (c.toNat : Int) = c := Int.toNat_of_nonneg hc
      refine ⟨r.toNat, by omega, ⟨sy, hsy, hsy', ?_⟩, c.toNat, by omega, ?_⟩
      · rw [hrow]
        omega
      · rw [hrow, hcol]
        exact hmem
    · rintro ⟨r, hr, ⟨sy, hsy, hsy', hy, hy'⟩, c, hc, rfl⟩
      refine ⟨r, by omega, by omega, sy, hsy, hsy', ?_⟩
      rw [if_neg (by omega)]
      exact ⟨c, by omega, by omega, List.mem_singleton.mpr rfl⟩

/-- The bytes of a row: `memcpy`'s count, or four for each pixel. -/
def rowBytes (key w : Int) : Int := if key < 0 then uint64 (w * 4) else w * 4

theorem mem_readBlitPixelsOn {px : Int → UInt8} {start w h stride key : Int} {tw th : Nat} {s : Rect}
    (ht : g.canvas.target id = some (tw, th)) (hclip : clip ⟨x, y, w, h⟩ tw th = some s) (a : Int) :
    a ∈ (readBlitPixelsOn id x y px start w h stride key g).2 ↔
      ∃ r, 0 ≤ r ∧ r < s.h ∧ ∃ i, 0 ≤ i ∧ i < rowBytes key s.w ∧
        a = start + (int64 (int64 (int64 (s.y - y) * stride) + int64 (int64 (s.x - x) * 4)) +
          int64 (r * stride)) + i := by
  unfold readBlitPixelsOn rowBytes
  rw [ht]
  dsimp only
  rw [hclip]
  dsimp only
  rw [mem_drawReading (.loop fun row => .cond (reads_read _ _) (.loop fun c => reads_read _ _))]
  refine exists_congr fun r => and_congr_right fun _ => and_congr_right fun _ => ?_
  generalize int64 (int64 (int64 (s.y - y) * stride) + int64 (int64 (s.x - x) * 4)) + int64 (r * stride) = src
  split_ifs with hkey
  · rw [mem_span]
    exact ⟨fun h => ⟨a - (start + src), by omega, by omega, by omega⟩, fun ⟨i, hi, hi', heq⟩ => by omega⟩
  · constructor
    · rintro ⟨c, hc, hc', hmem⟩
      rw [mem_span] at hmem
      exact ⟨a - (start + src), by omega, by omega, by omega⟩
    · rintro ⟨i, hi, hi', rfl⟩
      exact ⟨i / 4, by omega, by omega, mem_span.mpr (by omega)⟩

end Flat

/-! ### The natives -/

/-- A ByteBuffer: its bytes, and the memory around them. -/
structure ByteBuffer where
  capacity : Nat
  data : Int → UInt8
  capacity_lt : capacity < 2 ^ 64

/-- `blit_bits`. The other checks are about types. -/
def blitBits (id x y : Int) (buf : ByteBuffer) (off w h stride scale fg : Int) (bg : Option Int) (g : State) :
    Except String (Option State × List Int) :=
  if off < 0 ∨ uint64 (off + uint32 h * uint32 stride) > buf.capacity then
    .error "blit-bits!: bitmap outside the buffer"
  else
    .ok (Flat.readBlitBitsOn id (int32 x) (int32 y) (fun a => buf.data (int64 (off + a))) off (uint32 w) (uint32 h)
      (uint32 stride) (uint32 scale) (UInt32.ofInt fg) (bg.getD (-1)) g)

def nativeGfxBlitBits (x y : Int) (buf : ByteBuffer) (off w h stride scale fg : Int) (bg : Option Int) :
    State → Except String (Option State × List Int) := blitBits 0 x y buf off w h stride scale fg bg

def nativeGfxBlitBitsOn (surface x y : Int) (buf : ByteBuffer) (off w h stride scale fg : Int) (bg : Option Int) :
    State → Except String (Option State × List Int) := blitBits (int32 surface) x y buf off w h stride scale fg bg

/-- The test of `native_gfx_blit_pixels`. -/
def pixelsRefused (capacity : Nat) (off w h stride : Int) : Prop :=
  off < 0 ∨ stride < int64 (w * 4) ∨
    uint64 (int64 (int64 (off + int64 ((h - 1) * stride)) + int64 (w * 4))) > capacity

instance (capacity : Nat) (off w h stride : Int) : Decidable (pixelsRefused capacity off w h stride) :=
  inferInstanceAs (Decidable (_ ∨ _))

def nativeGfxBlitPixels (surface x y : Int) (buf : ByteBuffer) (off w h stride : Int) (key : Option Int)
    (g : State) : Except String (Option State × List Int) :=
  if w ≤ 0 ∨ h ≤ 0 then .ok (some g, [])
  else if pixelsRefused buf.capacity off w h stride then .error "blit-pixels!: pixels outside the buffer"
  else
    .ok (Flat.readBlitPixelsOn (int32 surface) x y (fun a => buf.data (int64 (off + a))) off w h stride
      (key.getD (-1)) g)

/-- If the call is accepted, it reads from the buffer only; addresses are modulo `2 ^ 64`. -/
def ReadsInside (buf : ByteBuffer) (out : Except String (Option State × List Int)) : Prop :=
  ∀ run, out = .ok run → ∀ a ∈ run.2, a % 2 ^ 64 < buf.capacity

theorem readsInside_error {buf : ByteBuffer} {msg : String} : ReadsInside buf (.error msg) := fun _ h => nomatch h

theorem readsInside_ok {buf : ByteBuffer} {run : Option State × List Int} :
    ReadsInside buf (.ok run) ↔ ∀ a ∈ run.2, a % 2 ^ 64 < buf.capacity :=
  ⟨fun h => h run rfl, fun h run' heq => by cases heq; exact h⟩

/-- Consecutive bytes are inside as soon as the first one is and the last one does not wrap around. -/
theorem inside_iff {capacity : Nat} (hcap : capacity < 2 ^ 64) {base n : Int} (hn : 0 < n) :
    (∀ i, 0 ≤ i → i < n → (base + i) % 2 ^ 64 < capacity) ↔ base % 2 ^ 64 + n ≤ capacity := by
  constructor
  · intro h
    by_contra hlast
    have hfirst := h 0 (Int.le_refl 0) hn
    have hbeyond := h (capacity - base % 2 ^ 64) (by omega) (by omega)
    omega
  · intro h i hi hi'
    omega

/-- Every visible row ends inside. -/
def RowsInside (g : State) (id y : Int) (capacity : Nat) (off : Int) (w h stride scale : Nat) : Prop :=
  ∀ tw th, g.canvas.target id = some (tw, th) → 0 < w → ∀ r < h, Flat.RowShown y scale th r →
    off + uint32 (r * stride) + (w + 7) / 8 ≤ capacity

theorem bits_inside_iff {buf : ByteBuffer} {off w h stride scale fg : Int} {bg : Option Int} (hoff : IsInt64 off) :
    ReadsInside buf (blitBits id x y buf off w h stride scale fg bg g) ↔
      (off < 0 ∨ uint64 (off + uint32 h * uint32 stride) > buf.capacity) ∨
        RowsInside g id (int32 y) buf.capacity off (uint32 w) (uint32 h) (uint32 stride) (uint32 scale) := by
  obtain ⟨-, hoff'⟩ := hoff
  have hcap := buf.capacity_lt
  unfold blitBits
  split_ifs with hrefused
  · exact ⟨fun _ => Or.inl hrefused, fun _ => readsInside_error⟩
  · rw [readsInside_ok, or_iff_right hrefused]
    obtain ⟨hneg, -⟩ := not_or.mp hrefused
    have hw := uint32_lt w
    cases ht : g.canvas.target id with
    | none =>
        refine ⟨fun _ tw th ht' => ?_, fun _ a ha => ?_⟩
        · rw [ht] at ht'
          cases ht'
        · unfold Flat.readBlitBitsOn at ha
          rw [ht] at ha
          cases ha
    | some t =>
        obtain ⟨tw, th⟩ := t
        constructor
        · intro hall tw' th' ht' hpos r hr hshown
          rw [ht] at ht'
          cases ht'
          have hrow := uint32_lt (r * uint32 stride)
          have hlast := hall _ ((Flat.mem_readBlitBitsOn ht _).mpr ⟨r, hr, hshown, uint32 w - 1, by omega, rfl⟩)
          omega
        · intro hrows a ha
          obtain ⟨r, hr, hshown, c, hc, rfl⟩ := (Flat.mem_readBlitBitsOn ht a).mp ha
          have hrow := uint32_lt (r * uint32 stride)
          have hend := hrows tw th ht (by omega) r hr hshown
          omega

/-- Every row of what `clip` leaves of the image ends inside. -/
def PixelsInside (g : State) (id x y : Int) (capacity : Nat) (off w h stride key : Int) : Prop :=
  ∀ tw th s, g.canvas.target id = some (tw, th) → Flat.clip ⟨x, y, w, h⟩ tw th = some s →
    0 < Flat.rowBytes key s.w → ∀ r, 0 ≤ r → r < s.h →
      (off + (s.y - y + r) * stride + (s.x - x) * 4) % 2 ^ 64 + Flat.rowBytes key s.w ≤ capacity

theorem pixels_inside_iff {surface : Int} {buf : ByteBuffer} {off w h stride : Int} {key : Option Int} :
    ReadsInside buf (nativeGfxBlitPixels surface x y buf off w h stride key g) ↔
      (w ≤ 0 ∨ h ≤ 0) ∨ pixelsRefused buf.capacity off w h stride ∨
        PixelsInside g (int32 surface) x y buf.capacity off w h stride (key.getD (-1)) := by
  have hcap := buf.capacity_lt
  unfold nativeGfxBlitPixels
  split_ifs with hempty hrefused
  · exact ⟨fun _ => Or.inl hempty, fun _ => readsInside_ok.mpr fun a ha => nomatch ha⟩
  · exact ⟨fun _ => Or.inr (Or.inl hrefused), fun _ => readsInside_error⟩
  · rw [readsInside_ok, or_iff_right hempty, or_iff_right hrefused]
    generalize int32 surface = id
    generalize key.getD (-1) = key
    cases ht : g.canvas.target id with
    | none =>
        refine ⟨fun _ tw th s ht' => ?_, fun _ a ha => ?_⟩
        · rw [ht] at ht'
          cases ht'
        · unfold Flat.readBlitPixelsOn at ha
          rw [ht] at ha
          cases ha
    | some t =>
        obtain ⟨tw, th⟩ := t
        cases hclip : Flat.clip ⟨x, y, w, h⟩ tw th with
        | none =>
            refine ⟨fun _ tw' th' s ht' hclip' => ?_, fun _ a ha => ?_⟩
            · rw [ht] at ht'
              cases ht'
              rw [hclip] at hclip'
              cases hclip'
            · unfold Flat.readBlitPixelsOn at ha
              rw [ht] at ha
              dsimp only at ha
              rw [hclip] at ha
              cases ha
        | some s =>
            -- the offset of a row, modulo `2 ^ 64`
            have hstart (r : Int) : ∀ i, (off + (int64 (int64 (int64 (s.y - y) * stride) +
                int64 (int64 (s.x - x) * 4)) + int64 (r * stride)) + i) % 2 ^ 64 =
                (off + (s.y - y + r) * stride + (s.x - x) * 4 + i) % 2 ^ 64 := by
              intro i
              have hcut := int64_mul_emod (s.y - y) stride
              rw [Int.add_mul]
              unfold int64 at hcut ⊢
              omega
            constructor
            · intro hall tw' th' s' ht' hclip' hpos r hr hr'
              rw [ht] at ht'
              cases ht'
              rw [hclip] at hclip'
              cases hclip'
              rw [← inside_iff hcap hpos]
              intro i hi hi'
              rw [← hstart]
              exact hall _ ((Flat.mem_readBlitPixelsOn ht hclip _).mpr ⟨r, hr, hr', i, hi, hi', rfl⟩)
            · intro hrows a ha
              obtain ⟨r, hr, hr', i, hi, hi', rfl⟩ := (Flat.mem_readBlitPixelsOn ht hclip a).mp ha
              rw [hstart]
              exact (inside_iff hcap (by omega)).mpr (hrows tw th s ht hclip (by omega) r hr hr') i hi hi'

/-- The claim on `blit-bits!`, `blit-bits-on!` and `blit-pixels!`. -/
theorem natives_inside_iff (g : State) :
    (∀ (id x y : Int) (buf : ByteBuffer) (off w h stride scale fg : Int) (bg : Option Int),
      IsInt64 off →
      (ReadsInside buf (blitBits id x y buf off w h stride scale fg bg g) ↔
        (off < 0 ∨ uint64 (off + uint32 h * uint32 stride) > buf.capacity) ∨
          RowsInside g id (int32 y) buf.capacity off (uint32 w) (uint32 h) (uint32 stride) (uint32 scale))) ∧
    ∀ (surface x y : Int) (buf : ByteBuffer) (off w h stride : Int) (key : Option Int),
      ReadsInside buf (nativeGfxBlitPixels surface x y buf off w h stride key g) ↔
        (w ≤ 0 ∨ h ≤ 0) ∨ pixelsRefused buf.capacity off w h stride ∨
          PixelsInside g (int32 surface) x y buf.capacity off w h stride (key.getD (-1)) :=
  ⟨fun _ _ _ _ _ _ _ _ _ _ _ hoff => bits_inside_iff hoff, fun _ _ _ _ _ _ _ _ _ => pixels_inside_iff⟩

/-- Four bytes. -/
def fourBytes : ByteBuffer := ⟨4, fun _ => 255, by decide⟩

/-- Two rows of sixteen bits on a screen that shows them; one pixel. -/
theorem natives_inside_fourBytes :
    ReadsInside fourBytes (blitBits 0 0 0 fourBytes 0 16 2 2 1 0 none (plainScreen 0 16 2)) ∧
      ReadsInside fourBytes (nativeGfxBlitPixels 0 0 0 fourBytes 0 1 1 4 none (plainScreen 0 1 1)) := by
  refine ⟨((natives_inside_iff _).1 _ _ _ _ _ _ _ _ _ _ _ ⟨by decide, by decide⟩).mpr (Or.inr ?_),
    ((natives_inside_iff _).2 _ _ _ _ _ _ _ _ _).mpr (Or.inr (Or.inr ?_))⟩
  · intro tw th _ _ r hr _
    have hr' : r < 2 := hr
    rcases Nat.lt_or_ge r 1 with hzero | hone
    · have hr₀ : r = 0 := by omega
      rw [hr₀]
      decide
    · have hr₁ : r = 1 := by omega
      rw [hr₁]
      decide
  · intro tw th s ht hclip _ r hr hrh
    cases ht
    have hs : s = ⟨0, 0, 1, 1⟩ := Option.some.inj (hclip.symm.trans (by decide))
    rw [hs] at hrh ⊢
    have hr₀ : r = 0 := by
      dsimp only at hrh
      omega
    rw [hr₀]
    decide

/-- 33 bits in a row of one byte; rows of pixels whose offsets differ by `2 ^ 32`, in a test that multiplies it by
itself. -/
theorem not_inside_wide :
    ¬ ReadsInside fourBytes (blitBits 0 0 0 fourBytes 0 33 1 1 1 0 none (plainScreen 0 33 1)) ∧
      ¬ ReadsInside fourBytes
        (nativeGfxBlitPixels 0 0 0 fourBytes 0 1 (2 ^ 32 + 1) (2 ^ 32) none (plainScreen 0 1 2)) := by
  constructor
  · intro h
    have hshown : Flat.RowShown (int32 0) (uint32 1) 1 0 := ⟨0, by decide, by decide, by decide, by decide⟩
    rcases (bits_inside_iff ⟨by decide, by decide⟩).mp h with hrefused | hrows
    · exact absurd hrefused (by decide)
    · exact absurd (hrows 33 1 rfl (by decide) 0 (by decide) hshown) (by decide)
  · intro h
    rcases pixels_inside_iff.mp h with hempty | hrefused | hrows
    · exact absurd hempty (by decide)
    · exact absurd hrefused (by decide)
    · exact absurd (hrows 1 2 ⟨0, 0, 1, 2⟩ rfl (by decide) (by decide) 1 (by decide) (by decide)) (by decide)

/-! ### What the tests are worth -/

/-- With rows as wide as they say and a sum that does not wrap around, `blit_bits` is safe. -/
theorem rowsInside_of_exact {capacity : Nat} {off : Int} {w h stride scale : Nat}
    (hexact : off + h * stride ≤ capacity) (hw : w ≤ 8 * stride) :
    RowsInside g id y capacity off w h stride scale := by
  intro tw th _ _ r hr _
  have hrow : uint32 (r * stride) ≤ r * stride := by
    unfold uint32
    omega
  have hlast : (r + 1) * stride ≤ h * stride := Nat.mul_le_mul_right stride hr
  rw [Nat.add_mul, Nat.one_mul] at hlast
  have hlast' : ((r * stride : Nat) : Int) + stride ≤ (h : Int) * stride := by
    exact_mod_cast hlast
  have hrow' : (uint32 (r * stride) : Int) ≤ (r * stride : Nat) := by
    exact_mod_cast hrow
  omega

/-- With sums that do not wrap around, `native_gfx_blit_pixels` is safe. -/
theorem pixelsInside_of_exact {capacity : Nat} {off w h stride key : Int} (hg : InRam g.canvas)
    (hr : Rect.Int64 ⟨x, y, w, h⟩) (hfits : Rect.Fits ⟨x, y, w, h⟩) (hoff : 0 ≤ off) (hstride : w * 4 ≤ stride)
    (hexact : off + (h - 1) * stride + w * 4 ≤ capacity) :
    PixelsInside g id x y capacity off w h stride key := by
  intro tw th s ht hclip hpos r hr' hrh
  have hlt := (hg.target ht).lt
  rw [Flat.clip_eq_of_fits hr hfits (by omega) (by omega)] at hclip
  obtain ⟨hcutx, -, hcuty, -⟩ := clip_shift hr hclip
  have hpart := clip_part hclip
  obtain ⟨hsx, -, hw, hh, hxw, -⟩ := clip_inside hclip
  dsimp only at hcutx hcuty hpart
  have hbytes : Flat.rowBytes key s.w = s.w * 4 := by
    unfold Flat.rowBytes uint64
    split_ifs <;> omega
  have hrows : (s.y - y + r) * stride ≤ (h - 1) * stride :=
    Int.mul_le_mul_of_nonneg_right (by omega) (by omega)
  have hnonneg : 0 ≤ (s.y - y + r) * stride := Int.mul_nonneg (by omega) (by omega)
  rw [hbytes]
  generalize (s.y - y + r) * stride = a at hrows hnonneg ⊢
  generalize (h - 1) * stride = b at hrows hexact
  omega

end Beeros.Gfx
