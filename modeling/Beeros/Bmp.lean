import Beeros.Memory

/-! `parse-bmp` of `rootfs/lib/beer/image.beer`: the pixels of an uncompressed BMP file, top row first. Beerlang integers
are exact; a ByteBuffer is a capacity and a function from offsets to bytes. -/

namespace Beeros.Image

open Memory

structure Buf where
  capacity : Nat
  bytes : Bytes

/-- What `parse-bmp` throws: `fail!` with its reason, or what an access outside a buffer throws. -/
inductive Error
  | fail (why : String)
  | bounds
  deriving DecidableEq

def Error.message : Error → Option String
  | fail why => some ("image: " ++ why)
  | bounds => none

def failWhen (c : Prop) [Decidable c] (why : String) : Except Error Unit :=
  if c then throw (.fail why) else pure ()

/-! ### `beer.bytes` -/

def load (n : Nat) (b : Buf) (o : Int) : Except Error Nat :=
  if 0 ≤ o ∧ o + n ≤ b.capacity then pure (loadLE b.bytes n o.toNat) else throw .bounds

def u8 : Buf → Int → Except Error Nat := load 1
def u16 : Buf → Int → Except Error Nat := load 2
def u32 : Buf → Int → Except Error Nat := load 4

/-- A 32-bit word in two's complement. -/
def signed (v : Nat) : Int := if v < 2 ^ 31 then v else (v : Int) - 2 ^ 32

def i32 (b : Buf) (o : Int) : Except Error Int := do pure (signed (← load 4 b o))

def u32Set (b : Buf) (o : Int) (v : Nat) : Except Error Buf :=
  if 0 ≤ o ∧ o + 4 ≤ b.capacity then pure { b with bytes := storeLE b.bytes 4 o.toNat v } else throw .bounds

/-- `copy!`. -/
def copyBytes (dst : Buf) (dstOff : Int) (src : Buf) (srcOff len : Int) : Except Error Buf :=
  if 0 ≤ dstOff ∧ 0 ≤ srcOff ∧ 0 ≤ len ∧ dstOff + len ≤ dst.capacity ∧ srcOff + len ≤ src.capacity then
    pure { dst with bytes := copy dst.bytes dstOff.toNat src.bytes srcOff.toNat len.toNat }
  else throw .bounds

def alloc (n : Int) : Except Error Buf := if 0 ≤ n then pure ⟨n.toNat, fun _ => 0⟩ else throw .bounds

/-- `(loop [i 0] (when (< i n) … (recur (inc i))))` on a buffer. -/
def loopTo (n : Int) (body : Int → Buf → Except Error Buf) (b : Buf) : Except Error Buf :=
  (List.range n.toNat).foldlM (fun b (i : Nat) => body i b) b

/-! ### `parse-bmp` -/

structure Img where
  w : Int
  h : Int
  pixels : Buf
  stride : Int

/-- One row of pixels. -/
def copyRow (b : Buf) (bpp : Nat) (w src dst stride : Int) (px : Buf) : Except Error Buf :=
  if bpp = 32 then copyBytes px dst b src stride
  else
    loopTo w (fun c px => do
      let o := src + 3 * c
      let red ← u8 b (o + 2)
      let green ← u8 b (o + 1)
      let blue ← u8 b o
      u32Set px (dst + 4 * c) (red <<< 16 ||| green <<< 8 ||| blue)) px

/-- `(and (= (u8 b 0) 66) (= (u8 b 1) 77))`. -/
def isBmp (b : Buf) : Except Error Bool := do
  if (← u8 b 0) = 66 then pure ((← u8 b 1) == 77) else pure false

/-- An image from the bytes of a BMP file. -/
def parseBmp (b : Buf) : Except Error Img := do
  failWhen (¬(← isBmp b)) "not a BMP"
  let data ← u32 b 10
  let w ← i32 b 18
  let h₀ ← i32 b 22
  let bpp ← u16 b 28
  let comp ← u32 b 30
  let h := if h₀ < 0 then -h₀ else h₀
  let srcStride := 4 * (w * bpp + 31).tdiv 32
  let stride := 4 * w
  let px ← alloc (stride * h)
  failWhen (¬(comp = 0 ∨ comp = 3)) "compressed BMP"
  failWhen (¬(bpp = 24 ∨ bpp = 32)) (toString bpp ++ "-bit BMP (24 or 32 only)")
  let px ← loopTo h (fun r px =>
    -- a positive height: the rows are stored bottom-up
    copyRow b bpp w (data + srcStride * (if h₀ > 0 then h - 1 - r else r)) (r * stride) stride px) px
  pure ⟨w, h, px, stride⟩

/-! ### BMP files -/

structure Colour where
  red : UInt8
  green : UInt8
  blue : UInt8

/-- `0xRRGGBB`. -/
def Colour.rgb (c : Colour) : Nat := c.red.toNat * 65536 + c.green.toNat * 256 + c.blue.toNat

structure Picture where
  w : Nat
  h : Nat
  w_pos : 0 < w
  h_pos : 0 < h
  /-- The pixel in a column and a row, counted from the top left. -/
  pixel : Nat → Nat → Colour

inductive Depth
  | bits24
  | bits32

def Depth.bytes : Depth → Nat
  | bits24 => 3
  | bits32 => 4

inductive Compression
  | rgb
  | bitfields

def Compression.code : Compression → Nat
  | rgb => 0
  | bitfields => 3

/-- How a picture is written. -/
structure Format where
  depth : Depth
  compression : Compression
  bottomUp : Bool
  /-- Where the pixel data starts. -/
  data : Nat

/-- The bytes of a row, padded to four. -/
def Format.rowSize (f : Format) (w : Nat) : Nat := (w * f.depth.bytes + 3) / 4 * 4

def Format.rowAt (f : Format) (pic : Picture) (r : Nat) : Nat :=
  f.data + f.rowSize pic.w * (if f.bottomUp then pic.h - 1 - r else r)

def Format.pixelAt (f : Format) (pic : Picture) (c r : Nat) : Nat := f.rowAt pic r + f.depth.bytes * c

/-- The file is the picture in the format. -/
structure Encodes (f : Format) (pic : Picture) (b : Buf) : Prop where
  magic : loadLE b.bytes 1 0 = 66 ∧ loadLE b.bytes 1 1 = 77
  data : loadLE b.bytes 4 10 = f.data
  width : signed (loadLE b.bytes 4 18) = pic.w
  height : signed (loadLE b.bytes 4 22) = if f.bottomUp then (pic.h : Int) else -pic.h
  depth : loadLE b.bytes 2 28 = 8 * f.depth.bytes
  compression : loadLE b.bytes 4 30 = f.compression.code
  masks : f.compression = .bitfields →
    loadLE b.bytes 4 54 = 0xFF0000 ∧ loadLE b.bytes 4 58 = 0xFF00 ∧ loadLE b.bytes 4 62 = 0xFF
  header : 54 ≤ b.capacity
  size : f.data + f.rowSize pic.w * pic.h ≤ b.capacity
  blue : ∀ c < pic.w, ∀ r < pic.h, b.bytes (f.pixelAt pic c r) = (pic.pixel c r).blue
  green : ∀ c < pic.w, ∀ r < pic.h, b.bytes (f.pixelAt pic c r + 1) = (pic.pixel c r).green
  red : ∀ c < pic.w, ∀ r < pic.h, b.bytes (f.pixelAt pic c r + 2) = (pic.pixel c r).red

variable {f : Format} {pic : Picture} {b px : Buf} {n o v : Nat}

/-! ### Accesses -/

theorem ok_bind {α β : Type} (a : α) (g : α → Except Error β) : (Except.ok a >>= g) = g a := rfl

theorem failWhen_of_not {c : Prop} [Decidable c] (h : ¬c) (why : String) : failWhen c why = .ok () := if_neg h

theorem load_ok (h : o + n ≤ b.capacity) : load n b (o : Int) = .ok (loadLE b.bytes n o) :=
  if_pos ⟨Int.natCast_nonneg o, by omega⟩

theorem u8_ok (h : o < b.capacity) : u8 b (o : Int) = .ok (b.bytes o).toNat := by
  have hload := load_ok (n := 1) (b := b) (o := o) h
  rwa [loadLE, loadLE, Nat.mul_zero, Nat.add_zero] at hload

theorem u32Set_ok (h : o + 4 ≤ b.capacity) :
    u32Set b (o : Int) v = .ok { b with bytes := storeLE b.bytes 4 o v } :=
  if_pos ⟨Int.natCast_nonneg o, by omega⟩

/-- A loop whose rounds keep `I` ends with it. -/
theorem loopTo_ok {n : Nat} {body : Int → Buf → Except Error Buf} (I : Nat → Buf → Prop) (h₀ : I 0 b)
    (hstep : ∀ i < n, ∀ b, I i b → ∃ b', body i b = .ok b' ∧ I (i + 1) b') :
    ∃ b', loopTo n body b = .ok b' ∧ I n b' := by
  unfold loopTo
  rw [Int.toNat_natCast]
  induction n with
  | zero => exact ⟨b, rfl, h₀⟩
  | succ n ih =>
      obtain ⟨b₁, hb₁, hI⟩ := ih fun i hi => hstep i (Nat.lt_succ_of_lt hi)
      obtain ⟨b₂, hb₂, hI₂⟩ := hstep n (Nat.lt_succ_self n) b₁ hI
      refine ⟨b₂, ?_, hI₂⟩
      rw [List.range_succ, List.foldlM_append, hb₁, ok_bind, List.foldlM_cons, hb₂]
      rfl

/-! ### One row -/

/-- The three channels put together. -/
theorem channels (r g b : UInt8) :
    r.toNat <<< 16 ||| g.toNat <<< 8 ||| b.toNat = r.toNat * 65536 + g.toNat * 256 + b.toNat := by
  have hg := g.toNat_lt
  have hb : b.toNat < 2 ^ 8 := b.toNat_lt
  have hlow : g.toNat <<< 8 + b.toNat < 2 ^ 16 := by
    rw [Nat.shiftLeft_eq]
    omega
  rw [Nat.or_assoc, ← Nat.shiftLeft_add_eq_or_of_lt hb, ← Nat.shiftLeft_add_eq_or_of_lt hlow, Nat.shiftLeft_eq,
    Nat.shiftLeft_eq]
  omega

theorem rgb_lt (c : Colour) : c.rgb < 2 ^ 24 := by
  have hr := c.red.toNat_lt
  have hg := c.green.toNat_lt
  have hb := c.blue.toNat_lt
  unfold Colour.rgb
  omega

/-- The low 24 bits of a pixel. -/
theorem loadLE_pixel (m : Bytes) (a : Nat) :
    loadLE m 4 a % 2 ^ 24 = (m (a + 2)).toNat * 65536 + (m (a + 1)).toNat * 256 + (m a).toNat := by
  have h₀ := (m a).toNat_lt
  have h₁ := (m (a + 1)).toNat_lt
  have h₂ := (m (a + 2)).toNat_lt
  simp only [loadLE, Nat.add_assoc, Nat.reduceAdd]
  omega

/-- The first `n` pixels of row `r` are there. -/
def RowTo (pic : Picture) (r n : Nat) (px : Buf) : Prop :=
  ∀ c < n, loadLE px.bytes 4 (4 * pic.w * r + 4 * c) % 2 ^ 24 = (pic.pixel c r).rgb

/-- Only row `r` may have changed. -/
structure Beside (pic : Picture) (r : Nat) (px px' : Buf) : Prop where
  capacity : px'.capacity = px.capacity
  bytes : AgreeOutside px.bytes px'.bytes (4 * pic.w * r) (4 * pic.w * (r + 1))

theorem Beside.refl (r : Nat) (px : Buf) : Beside pic r px px := ⟨rfl, fun _ _ => rfl⟩

/-- Every row lies inside the file, and a pixel inside its row. -/
theorem row_le {r : Nat} (hr : r < pic.h) :
    f.rowAt pic r + f.rowSize pic.w ≤ f.data + f.rowSize pic.w * pic.h := by
  have hk : (if f.bottomUp then pic.h - 1 - r else r) + 1 ≤ pic.h := by split_ifs <;> omega
  have hmul := Nat.mul_le_mul_left (f.rowSize pic.w) hk
  unfold Format.rowAt
  rw [Nat.mul_succ] at hmul
  omega

theorem pixels_le (f : Format) (w : Nat) : f.depth.bytes * w ≤ f.rowSize w := by
  unfold Format.rowSize
  rw [Nat.mul_comm]
  omega

theorem pixelAt_lt (h : Encodes f pic b) {c r : Nat} (hc : c < pic.w) (hr : r < pic.h) :
    f.pixelAt pic c r + f.depth.bytes ≤ b.capacity := by
  have hrow := row_le (f := f) hr
  have hsize := h.size
  have hpixels := pixels_le f pic.w
  have hmul := Nat.mul_le_mul_left f.depth.bytes hc
  unfold Format.pixelAt
  rw [Nat.mul_succ] at hmul
  omega

/-- A row of four-byte pixels is copied. -/
theorem copyRow_32 (h : Encodes f pic b) (hdepth : f.depth = .bits32) {r : Nat} (hr : r < pic.h)
    (hcap : px.capacity = 4 * pic.w * pic.h) :
    ∃ px', copyRow b 32 pic.w (f.rowAt pic r : Nat) (4 * pic.w * r : Nat) (4 * pic.w : Nat) px = .ok px' ∧
      Beside pic r px px' ∧ RowTo pic r pic.w px' := by
  have hbytes : f.depth.bytes = 4 := by rw [hdepth]; rfl
  have hrow := row_le (f := f) hr
  have hpixels := pixels_le f pic.w
  have hsize := h.size
  rw [hbytes] at hpixels
  have hmul := Nat.mul_le_mul_left (4 * pic.w) hr
  rw [Nat.mul_succ] at hmul
  refine ⟨{ px with bytes := copy px.bytes (4 * pic.w * r) b.bytes (f.rowAt pic r) (4 * pic.w) }, ?_, ⟨rfl, ?_⟩, ?_⟩
  · unfold copyRow copyBytes
    rw [if_pos rfl, if_pos (by omega)]
    rfl
  · exact agreeOutside_copy (Nat.le_refl _) (by rw [Nat.mul_succ])
  · intro c hc
    have hat (k : Nat) (hk : k < 4) : copy px.bytes (4 * pic.w * r) b.bytes (f.rowAt pic r) (4 * pic.w)
        (4 * pic.w * r + 4 * c + k) = b.bytes (f.pixelAt pic c r + k) := by
      rw [Nat.add_assoc, copy_apply (by omega), Format.pixelAt, hbytes, Nat.add_assoc]
    have hzero := hat 0 (by decide)
    rw [Nat.add_zero, Nat.add_zero] at hzero
    dsimp only
    rw [loadLE_pixel, hat 2 (by decide), hat 1 (by decide), hzero, h.red c hc r hr, h.green c hc r hr,
      h.blue c hc r hr]
    rfl

/-- A row of three-byte pixels is put together pixel by pixel. -/
theorem copyRow_24 (h : Encodes f pic b) (hdepth : f.depth = .bits24) {r : Nat} (hr : r < pic.h)
    (hcap : px.capacity = 4 * pic.w * pic.h) :
    ∃ px', copyRow b 24 pic.w (f.rowAt pic r : Nat) (4 * pic.w * r : Nat) (4 * pic.w : Nat) px = .ok px' ∧
      Beside pic r px px' ∧ RowTo pic r pic.w px' := by
  have hbytes : f.depth.bytes = 3 := by rw [hdepth]; rfl
  have hmul := Nat.mul_le_mul_left (4 * pic.w) hr
  rw [Nat.mul_succ] at hmul
  unfold copyRow
  rw [if_neg (by decide)]
  refine loopTo_ok (fun n px' => Beside pic r px px' ∧ RowTo pic r n px') ⟨.refl r px, nofun⟩ ?_
  rintro c hc px₁ ⟨hbeside, hdone⟩
  have hin := pixelAt_lt h hc hr
  have hcap₁ := hbeside.capacity.trans hcap
  have hpix : f.pixelAt pic c r = f.rowAt pic r + 3 * c := by rw [Format.pixelAt, hbytes]
  rw [hbytes, hpix] at hin
  refine ⟨{ px₁ with bytes := storeLE px₁.bytes 4 (4 * pic.w * r + 4 * c) (pic.pixel c r).rgb }, ?_,
    ⟨hbeside.capacity, ?_⟩, ?_⟩
  · have hred := u8_ok (b := b) (o := f.rowAt pic r + 3 * c + 2) (by omega)
    have hgreen := u8_ok (b := b) (o := f.rowAt pic r + 3 * c + 1) (by omega)
    have hblue := u8_ok (b := b) (o := f.rowAt pic r + 3 * c) (by omega)
    have hset := u32Set_ok (b := px₁) (o := 4 * pic.w * r + 4 * c) (v := (pic.pixel c r).rgb) (by omega)
    rw [← hpix, h.red c hc r hr, hpix] at hred
    rw [← hpix, h.green c hc r hr, hpix] at hgreen
    rw [← hpix, h.blue c hc r hr, hpix] at hblue
    push_cast at hred hgreen hblue hset ⊢
    rw [hred, ok_bind, hgreen, ok_bind, hblue, ok_bind, channels]
    exact hset
  · refine hbeside.bytes.trans (agreeOutside_storeLE (by omega) ?_)
    rw [Nat.mul_succ]
    omega
  · intro c' hc'
    dsimp only
    rcases Nat.lt_succ_iff_lt_or_eq.mp hc' with hlt | rfl
    · rw [loadLE_storeLE_of_disjoint (.inl (by omega))]
      exact hdone c' hlt
    · rw [loadLE_storeLE_of_lt (Nat.lt_trans (rgb_lt _) (by decide)), Nat.mod_eq_of_lt (rgb_lt _)]

/-- The row that is written, and the rows before it. -/
theorem RowTo.of_beside {px' : Buf} {r r' : Nat} (h : RowTo pic r pic.w px) (hbeside : Beside pic r' px px')
    (hne : r < r') : RowTo pic r pic.w px' := by
  intro c hc
  have hmul := Nat.mul_le_mul_left (4 * pic.w) hne
  rw [Nat.mul_succ] at hmul
  rw [loadLE_congr (hbeside.bytes.agreeOn (.inl (by omega)))]
  exact h c hc

/-! ### The file -/

theorem isBmp_ok (h : Encodes f pic b) : isBmp b = .ok true := by
  have hheader := h.header
  unfold isBmp u8
  have h₀ := load_ok (n := 1) (b := b) (o := 0) (by omega)
  have h₁ := load_ok (n := 1) (b := b) (o := 1) (by omega)
  rw [h.magic.1] at h₀
  rw [h.magic.2] at h₁
  show (load 1 b (0 : Nat) >>= _) = _
  rw [h₀, ok_bind, if_pos rfl]
  show (load 1 b (1 : Nat) >>= _) = _
  rw [h₁, ok_bind]
  rfl

theorem i32_ok (h : o + 4 ≤ b.capacity) : i32 b (o : Int) = .ok (signed (loadLE b.bytes 4 o)) := by
  unfold i32
  rw [load_ok h, ok_bind]
  rfl

/-- The code rounds the bits of a row up to 32. -/
theorem rowSize_eq (f : Format) (w : Nat) :
    4 * ((w : Int) * (8 * f.depth.bytes : Nat) + 31).tdiv 32 = (f.rowSize w : Nat) := by
  rw [Int.tdiv_eq_ediv_of_nonneg
    (Int.add_nonneg (Int.mul_nonneg (Int.natCast_nonneg _) (Int.natCast_nonneg _)) (by decide))]
  cases hdepth : f.depth <;> simp only [Format.rowSize, hdepth, Depth.bytes] <;> omega

theorem copyRow_ok (h : Encodes f pic b) {r : Nat} (hr : r < pic.h) (hcap : px.capacity = 4 * pic.w * pic.h) :
    ∃ px', copyRow b (8 * f.depth.bytes) pic.w (f.rowAt pic r : Nat) (4 * pic.w * r : Nat) (4 * pic.w : Nat) px =
        .ok px' ∧ Beside pic r px px' ∧ RowTo pic r pic.w px' := by
  cases hdepth : f.depth with
  | bits24 => exact copyRow_24 h hdepth hr hcap
  | bits32 => exact copyRow_32 h hdepth hr hcap

/-- The height as it stands in the file. -/
def Format.height (f : Format) (pic : Picture) : Int := if f.bottomUp then pic.h else -pic.h

theorem rowAt_eq {r : Nat} (hr : r < pic.h) :
    (f.data : Int) + f.rowSize pic.w * (if f.height pic > 0 then (pic.h : Int) - 1 - (r : Int) else r) =
      (f.rowAt pic r : Nat) := by
  have hrow : (if f.height pic > 0 then (pic.h : Int) - 1 - (r : Int) else r) =
      (if f.bottomUp then pic.h - 1 - r else r : Nat) := by
    unfold Format.height
    split_ifs <;> omega
  rw [hrow]
  unfold Format.rowAt
  push_cast
  rfl

/-- Row by row. -/
theorem rows_ok (h : Encodes f pic b) : ∃ px,
    loopTo pic.h (fun r px => copyRow b (8 * f.depth.bytes) pic.w
      (f.data + f.rowSize pic.w * (if f.height pic > 0 then pic.h - 1 - r else r)) (r * (4 * pic.w)) (4 * pic.w) px)
      ⟨4 * pic.w * pic.h, fun _ => 0⟩ = .ok px ∧
    px.capacity = 4 * pic.w * pic.h ∧ ∀ r < pic.h, RowTo pic r pic.w px := by
  refine loopTo_ok (fun n px => px.capacity = 4 * pic.w * pic.h ∧ ∀ r < n, RowTo pic r pic.w px) ⟨rfl, nofun⟩ ?_
  rintro r hr px ⟨hcap, hrows⟩
  obtain ⟨px', hcopy, hbeside, hrow⟩ := copyRow_ok h hr hcap
  refine ⟨px', ?_, hbeside.capacity.trans hcap, fun r' hr' => ?_⟩
  · have hdst : (r : Int) * (4 * pic.w) = (4 * pic.w * r : Nat) := by
      push_cast
      ring
    rw [rowAt_eq hr, hdst]
    exact hcopy
  · rcases Nat.lt_succ_iff_lt_or_eq.mp hr' with hlt | rfl
    · exact (hrows r' hlt).of_beside hbeside hlt
    · exact hrow

/-- `parse-bmp` gives back the picture that is written in the file. -/
theorem parseBmp_of_encodes (h : Encodes f pic b) : ∃ img, parseBmp b = .ok img ∧ img.w = pic.w ∧ img.h = pic.h ∧
    img.stride = 4 * pic.w ∧ img.pixels.capacity = 4 * pic.w * pic.h ∧ ∀ r < pic.h, ∀ c < pic.w,
      loadLE img.pixels.bytes 4 (4 * pic.w * r + 4 * c) % 2 ^ 24 = (pic.pixel c r).rgb := by
  have hheader := h.header
  have hdata : u32 b 10 = .ok f.data := (load_ok (o := 10) (by omega)).trans (congrArg _ h.data)
  have hw : i32 b 18 = .ok (pic.w : Int) := (i32_ok (o := 18) (by omega)).trans (congrArg _ h.width)
  have hh : i32 b 22 = .ok (f.height pic) :=
    (i32_ok (o := 22) (by omega)).trans (congrArg _ h.height)
  have hbpp : u16 b 28 = .ok (8 * f.depth.bytes) := (load_ok (o := 28) (by omega)).trans (congrArg _ h.depth)
  have hcomp : u32 b 30 = .ok f.compression.code :=
    (load_ok (o := 30) (by omega)).trans (congrArg _ h.compression)
  have hcode : ¬¬(f.compression.code = 0 ∨ f.compression.code = 3) := by
    cases f.compression <;> decide
  have hbits : ¬¬(8 * f.depth.bytes = 24 ∨ 8 * f.depth.bytes = 32) := by
    cases f.depth <;> decide
  have hpos := pic.h_pos
  have habs : (if f.height pic < 0 then -f.height pic else f.height pic) = pic.h := by
    unfold Format.height
    split_ifs <;> omega
  have halloc : alloc (4 * (pic.w : Int) * pic.h) = .ok ⟨4 * pic.w * pic.h, fun _ => 0⟩ := by
    have hcast : 4 * (pic.w : Int) * pic.h = (4 * pic.w * pic.h : Nat) := by push_cast; rfl
    unfold alloc
    rw [hcast, if_pos (Int.natCast_nonneg _)]
    rfl
  obtain ⟨px, hloop, hcap, hrows⟩ := rows_ok h
  refine ⟨⟨pic.w, pic.h, px, 4 * pic.w⟩, ?_, rfl, rfl, rfl, hcap, hrows⟩
  unfold parseBmp
  rw [isBmp_ok h, ok_bind, failWhen_of_not (by decide), ok_bind, hdata, ok_bind, hw, ok_bind, hh, ok_bind, hbpp, ok_bind,
    hcomp, ok_bind]
  dsimp only
  rw [habs, halloc, ok_bind, failWhen_of_not hcode, ok_bind, failWhen_of_not hbits, ok_bind, rowSize_eq, hloop]
  rfl

/-! ### A writer -/

/-- The word that reads as the signed number. -/
def unsigned (v : Int) : Nat := (v % 2 ^ 32).toNat

theorem signed_unsigned {v : Int} (h : -2 ^ 31 ≤ v ∧ v < 2 ^ 31) : signed (unsigned v) = v := by
  unfold signed unsigned
  split_ifs <;> omega

theorem unsigned_lt (v : Int) : unsigned v < 256 ^ 4 := by
  unfold unsigned
  omega

def Colour.channel (c : Colour) : Nat → UInt8
  | 0 => c.blue
  | 1 => c.green
  | 2 => c.red
  | _ => 0

def Format.headerBytes (f : Format) (pic : Picture) : Bytes :=
  let m := storeLE (storeLE (fun _ => 0) 1 0 66) 1 1 77
  let m := storeLE (storeLE m 4 10 f.data) 4 18 (unsigned pic.w)
  let m := storeLE (storeLE m 4 22 (unsigned (f.height pic))) 2 28 (8 * f.depth.bytes)
  let m := storeLE m 4 30 f.compression.code
  storeLE (storeLE (storeLE m 4 54 0xFF0000) 4 58 0xFF00) 4 62 0xFF

/-- The byte of the pixel data at an offset. -/
def Format.pixelByte (f : Format) (pic : Picture) (k : Nat) : UInt8 :=
  let row := k / f.rowSize pic.w
  let j := k % f.rowSize pic.w
  if j / f.depth.bytes < pic.w then
    (pic.pixel (j / f.depth.bytes) (if f.bottomUp then pic.h - 1 - row else row)).channel (j % f.depth.bytes)
  else 0

def Format.encode (f : Format) (pic : Picture) : Buf where
  capacity := f.data + f.rowSize pic.w * pic.h
  bytes i := if i < f.data then f.headerBytes pic i else f.pixelByte pic (i - f.data)

/-- The sizes fit their fields. -/
structure Format.Fits (f : Format) (pic : Picture) : Prop where
  header : 66 ≤ f.data
  data : f.data < 2 ^ 32
  w : pic.w < 2 ^ 31
  h : pic.h < 2 ^ 31

theorem channel_encode (f : Format) (pic : Picture) {c r k : Nat} (hc : c < pic.w) (hr : r < pic.h)
    (hk : k < f.depth.bytes) : (f.encode pic).bytes (f.pixelAt pic c r + k) = (pic.pixel c r).channel k := by
  have hpixels := pixels_le f pic.w
  have hmul := Nat.mul_le_mul_left f.depth.bytes hc
  rw [Nat.mul_succ] at hmul
  have hj : f.depth.bytes * c + k < f.rowSize pic.w := by omega
  have hoff : f.pixelAt pic c r + k - f.data =
      f.rowSize pic.w * (if f.bottomUp then pic.h - 1 - r else r) + (f.depth.bytes * c + k) := by
    unfold Format.pixelAt Format.rowAt
    omega
  have hnot : ¬f.pixelAt pic c r + k < f.data := by
    unfold Format.pixelAt Format.rowAt
    omega
  have hpos : 0 < f.depth.bytes := Nat.zero_lt_of_lt hk
  have hback : (if f.bottomUp then pic.h - 1 - (if f.bottomUp then pic.h - 1 - r else r) else
      (if f.bottomUp then pic.h - 1 - r else r)) = r := by
    split_ifs <;> omega
  unfold Format.encode Format.pixelByte
  dsimp only
  rw [if_neg hnot, hoff, Nat.mul_add_div (Nat.zero_lt_of_lt hj), Nat.div_eq_of_lt hj, Nat.add_zero,
    Nat.mul_add_mod, Nat.mod_eq_of_lt hj, Nat.mul_add_div hpos, Nat.div_eq_of_lt hk, Nat.add_zero, if_pos hc,
    Nat.mul_add_mod, Nat.mod_eq_of_lt hk, hback]

theorem loadLE_encode (h : f.Fits pic) (hle : o + n ≤ 66) :
    loadLE (f.encode pic).bytes n o = loadLE (f.headerBytes pic) n o := by
  have hheader := h.header
  refine loadLE_congr fun i _ hi => ?_
  exact if_pos (by omega)

/-- What is written is the picture. -/
theorem encodes_encode (h : f.Fits pic) : Encodes f pic (f.encode pic) := by
  have hheader := h.header
  have hdata := h.data
  have hw := h.w
  have hh := h.h
  have hbytes : 3 ≤ f.depth.bytes ∧ f.depth.bytes ≤ 4 := by cases f.depth <;> decide
  have hcode : f.compression.code ≤ 3 := by cases f.compression <;> decide
  have hwide := unsigned_lt pic.w
  have hhigh := unsigned_lt (f.height pic)
  have hread {n o v : Nat} (hle : o + n ≤ 66) (heq : loadLE (f.headerBytes pic) n o = v) :
      loadLE (f.encode pic).bytes n o = v := (loadLE_encode h hle).trans heq
  unfold Format.headerBytes at hread
  constructor
  case magic =>
    constructor
    · refine hread (by decide) ?_
      simp (disch := omega) only [loadLE_storeLE_of_disjoint, loadLE_storeLE_of_lt]
    · refine hread (by decide) ?_
      simp (disch := omega) only [loadLE_storeLE_of_disjoint, loadLE_storeLE_of_lt]
  case data =>
    refine hread (by decide) ?_
    simp (disch := omega) only [loadLE_storeLE_of_disjoint, loadLE_storeLE_of_lt]
  case width =>
    rw [← signed_unsigned (v := pic.w) (by omega)]
    refine congrArg signed (hread (by decide) ?_)
    simp (disch := omega) only [loadLE_storeLE_of_disjoint, loadLE_storeLE_of_lt]
  case height =>
    have hsigned : signed (unsigned (f.height pic)) = f.height pic := by
      refine signed_unsigned ?_
      unfold Format.height
      split_ifs <;> omega
    refine (congrArg signed (hread (by decide) ?_)).trans hsigned
    simp (disch := omega) only [loadLE_storeLE_of_disjoint, loadLE_storeLE_of_lt]
  case depth =>
    refine hread (by decide) ?_
    simp (disch := omega) only [loadLE_storeLE_of_disjoint, loadLE_storeLE_of_lt]
  case compression =>
    refine hread (by decide) ?_
    simp (disch := omega) only [loadLE_storeLE_of_disjoint, loadLE_storeLE_of_lt]
  case masks =>
    intro _
    refine ⟨hread (by decide) ?_, hread (by decide) ?_, hread (by decide) ?_⟩ <;>
      simp (disch := omega) only [loadLE_storeLE_of_disjoint, loadLE_storeLE_of_lt]
  case header => exact (show 54 ≤ f.data by omega).trans (Nat.le_add_right _ _)
  case size => exact Nat.le_refl _
  case blue => exact fun c hc r hr => channel_encode f pic hc hr (by omega : 0 < f.depth.bytes)
  case green => exact fun c hc r hr => channel_encode f pic hc hr (by omega : 1 < f.depth.bytes)
  case red => exact fun c hc r hr => channel_encode f pic hc hr (by omega : 2 < f.depth.bytes)

/-- Three columns, two rows. -/
def smallPicture : Picture where
  w := 3
  h := 2
  w_pos := by decide
  h_pos := by decide
  pixel c r := ⟨UInt8.ofNat c, UInt8.ofNat r, 255⟩

def smallFormat : Format := ⟨.bits24, .rgb, true, 70⟩

theorem parseBmp_of_encodes_small : ∃ img, parseBmp (smallFormat.encode smallPicture) = .ok img ∧
    img.w = smallPicture.w ∧ img.h = smallPicture.h ∧ img.stride = 4 * smallPicture.w ∧
    img.pixels.capacity = 4 * smallPicture.w * smallPicture.h ∧ ∀ r < smallPicture.h, ∀ c < smallPicture.w,
      loadLE img.pixels.bytes 4 (4 * smallPicture.w * r + 4 * c) % 2 ^ 24 = (smallPicture.pixel c r).rgb :=
  parseBmp_of_encodes (encodes_encode ⟨by decide, by decide, by decide, by decide⟩)

end Beeros.Image
