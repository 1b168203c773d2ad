import Beeros.Beerlang
import Beeros.Utf8
import Mathlib.Data.List.AList

/-! `parse-psf` of `rootfs/lib/beer/font.beer`: the Unicode table of a PSF1 or PSF2 font as a map from code points to
glyphs. Beerlang integers are exact. -/

namespace Beeros.Psf

open Beerlang

inductive Error
  | bounds
  | badMagic
  deriving DecidableEq

def Error.message : Error → Option String
  | badMagic => some "font: not a PSF1 or PSF2 file"
  | bounds => none

/-- The bytes of a ByteBuffer; their number is its capacity. -/
abbrev Buf := List UInt8

/-- Code points to glyph numbers. -/
abbrev CodeMap := AList fun _ : Nat => Nat

/-! ### `beer.bytes` -/

def u8 (buf : Buf) (i : Nat) : Except Error Nat :=
  match buf[i]? with
  | some b => .ok b.toNat
  | none => .error .bounds

def u16le (buf : Buf) (i : Nat) : Except Error Nat := do
  let low ← u8 buf i
  let high ← u8 buf (i + 1)
  pure (low + 256 * high)

def u32le (buf : Buf) (i : Nat) : Except Error Nat := do
  let low ← u16le buf i
  let high ← u16le buf (i + 2)
  pure (low + 65536 * high)

/-! ### `utf8-codepoints` -/

/-- The inner loop, over the bytes `i + k` up to `i + n`. -/
def utf8Tail (buf : Buf) (stop i n k cp : Nat) : Except Error Nat :=
  if k > n ∨ i + k ≥ stop then pure cp
  else do
    let b ← u8 buf (i + k)
    utf8Tail buf stop i n (k + 1) (cp <<< 6 ||| (b &&& 0x3F))
termination_by n + 1 - k

/-- The number of bytes after the first one. -/
def tailLength (b : Nat) : Nat := if b ≥ 0xF0 then 3 else if b ≥ 0xE0 then 2 else if b ≥ 0xC0 then 1 else 0

def leadBits (n b : Nat) : Nat :=
  if n = 3 then b &&& 0x07 else if n = 2 then b &&& 0x0F else if n = 1 then b &&& 0x1F else b

/-- The outer loop from `i` on. -/
def utf8Loop (buf : Buf) (stop i : Nat) (acc : List Nat) : Except Error (List Nat) :=
  if i ≥ stop then pure acc
  else do
    let b ← u8 buf i
    let n := tailLength b
    let cp ← utf8Tail buf stop i n 1 (leadBits n b)
    utf8Loop buf stop (i + 1 + n) (acc ++ [cp])
termination_by stop - i

/-- The code points of the UTF-8 bytes from `start` up to `stop`. -/
def utf8Codepoints (buf : Buf) (start stop : Nat) : Except Error (List Nat) := utf8Loop buf stop start []

/-! ### Unicode tables -/

/-- `(reduce (fn [m cp] (assoc m cp g)) acc cps)`. -/
def assocAll (acc : CodeMap) (g : Nat) (cps : List Nat) : CodeMap :=
  cps.foldl (fun m cp => m.insert cp g) acc

/-- The code points of a glyph before its first sequence. -/
def psf2Singles (buf : Buf) (start i g : Nat) (seq : Bool) (acc : CodeMap) : Except Error CodeMap :=
  if seq then pure acc
  else do
    let cps ← utf8Codepoints buf start i
    pure (assocAll acc g cps)

def psf2Loop (buf : Buf) (nglyphs i g start : Nat) (seq : Bool) (acc : CodeMap) : Except Error CodeMap :=
  if i ≥ buf.length ∨ g ≥ nglyphs then pure acc
  else do
    let b ← u8 buf i
    if b = 0xFF then
      let acc ← psf2Singles buf start i g seq acc
      psf2Loop buf nglyphs (i + 1) (g + 1) (i + 1) false acc
    else if b = 0xFE then
      let acc ← psf2Singles buf start i g seq acc
      psf2Loop buf nglyphs (i + 1) g start true acc
    else psf2Loop buf nglyphs (i + 1) g start seq acc
termination_by buf.length - i

/-- The PSF2 table at `off`: per glyph, UTF-8 characters, sequences after `0xFE` (ignored), ended by `0xFF`. -/
def psf2Unicode (buf : Buf) (off nglyphs : Nat) : Except Error CodeMap :=
  psf2Loop buf nglyphs off 0 off false ∅

def psf1Loop (buf : Buf) (nglyphs i g : Nat) (seq : Bool) (acc : CodeMap) : Except Error CodeMap :=
  if i + 2 > buf.length ∨ g ≥ nglyphs then pure acc
  else do
    let u ← u16le buf i
    if u = 0xFFFF then psf1Loop buf nglyphs (i + 2) (g + 1) false acc
    else if u = 0xFFFE then psf1Loop buf nglyphs (i + 2) g true acc
    else if seq then psf1Loop buf nglyphs (i + 2) g true acc
    else psf1Loop buf nglyphs (i + 2) g false (acc.insert u g)
termination_by buf.length - i

/-- The PSF1 table at `off`: 16-bit code points per glyph, `0xFFFE` starts a sequence (ignored), `0xFFFF` ends the
glyph. -/
def psf1Unicode (buf : Buf) (off nglyphs : Nat) : Except Error CodeMap :=
  psf1Loop buf nglyphs off 0 false ∅

/-! ### `parse-psf` -/

structure Font where
  width : Nat
  height : Nat
  stride : Nat
  bytes : Buf
  base : Nat
  glyphSize : Nat
  count : Nat
  first : Nat
  unicode : Option CodeMap

/-- `(and (= (u8 buf 0) ..) (= (u8 buf 1) ..) ..)`: the bytes from `i` on are the given ones. -/
def startsWith (buf : Buf) (i : Nat) : List Nat → Except Error Bool
  | [] => pure true
  | m :: magic => do
      if (← u8 buf i) = m then startsWith buf (i + 1) magic else pure false

/-- `(when table (decode ..))`. -/
def tableWhen (c : Prop) [Decidable c] (table : Except Error CodeMap) : Except Error (Option CodeMap) :=
  if c then some <$> table else pure none

/-- The font of a PSF1 or PSF2 file. -/
def parsePsf (buf : Buf) : Except Error Font := do
  if ← startsWith buf 0 [0x72, 0xB5, 0x4A, 0x86] then
    let hdr ← u32le buf 8
    let flags ← u32le buf 12
    let n ← u32le buf 16
    let size ← u32le buf 20
    let h ← u32le buf 24
    let w ← u32le buf 28
    let unicode ← tableWhen (0 ≠ flags &&& 1) (psf2Unicode buf (hdr + n * size) n)
    pure ⟨w, h, (w + 7) / 8, buf, hdr, size, n, 0, unicode⟩
  else if ← startsWith buf 0 [0x36, 0x04] then
    let mode ← u8 buf 2
    let h ← u8 buf 3
    let n := if 0 ≠ mode &&& 1 then 512 else 256
    let unicode ← tableWhen (0 ≠ mode &&& 6) (psf1Unicode buf (4 + n * h) n)
    pure ⟨8, h, 1, buf, 4, h, n, 0, unicode⟩
  else throw .badMagic

/-! ### Files -/

/-- What the Unicode table says of one glyph: single code points, and sequences of them. -/
structure Entry (limit : Nat) where
  singles : List (Fin limit)
  sequences : List (List (Fin limit))

/-- The code points as numbers. -/
def codes {limit : Nat} (cps : List (Fin limit)) : List Nat := cps.map Fin.val

/-- The UTF-8 encoding of a list of code points. -/
def utf8 (cps : List Nat) : List UInt8 := cps.flatMap Utf8.encodeCode

def psf2Entry {limit : Nat} (e : Entry limit) : List UInt8 :=
  utf8 (codes e.singles) ++ e.sequences.flatMap (fun s => 0xFE :: utf8 (codes s)) ++ [0xFF]

/-- The two bytes of a 16-bit number. -/
def u16 (v : Nat) : List UInt8 := [.ofNat (v % 256), .ofNat (v / 256)]

def psf1Entry {limit : Nat} (e : Entry limit) : List UInt8 :=
  (codes e.singles).flatMap u16 ++ e.sequences.flatMap (fun s => u16 0xFFFE ++ (codes s).flatMap u16) ++ u16 0xFFFF

/-- A PSF2 file with the glyphs' Unicode table after the bitmaps. -/
structure IsPsf2 (buf : Buf) (glyphs : List (Entry 0x110000)) (hdr size : Nat) : Prop where
  header : 32 ≤ buf.length
  magic : [0x72, 0xB5, 0x4A, 0x86] <+: buf
  hdr_eq : u32le buf 8 = .ok hdr
  hasTable : ∃ flags, u32le buf 12 = .ok flags ∧ flags % 2 = 1
  count_eq : u32le buf 16 = .ok glyphs.length
  size_eq : u32le buf 20 = .ok size
  table : glyphs.flatMap psf2Entry <+: buf.drop (hdr + glyphs.length * size)

/-- A PSF1 file with the glyphs' Unicode table after the bitmaps. The numbers `0xFFFE` and `0xFFFF` are no code points
there. -/
structure IsPsf1 (buf : Buf) (glyphs : List (Entry 0xFFFE)) (mode height : Nat) : Prop where
  magic : [0x36, 0x04] <+: buf
  mode_eq : u8 buf 2 = .ok mode
  hasTable : mode &&& 6 ≠ 0
  height_eq : u8 buf 3 = .ok height
  count_eq : glyphs.length = if mode % 2 = 1 then 512 else 256
  table : glyphs.flatMap psf1Entry <+: buf.drop (4 + glyphs.length * height)

/-- Glyph `g` is the last one with `cp` among its single code points. -/
def LastListing {limit : Nat} (glyphs : List (Entry limit)) (cp g : Nat) : Prop :=
  (∃ e, glyphs[g]? = some e ∧ cp ∈ codes e.singles) ∧
    ∀ g' e, g < g' → glyphs[g']? = some e → cp ∉ codes e.singles

/-- The font's map is the one the table lists, no more and no less. -/
def Decodes {limit : Nat} (buf : Buf) (glyphs : List (Entry limit)) : Prop :=
  ∃ font m, parsePsf buf = .ok font ∧ font.unicode = some m ∧
    ∀ cp g, m.lookup cp = some g ↔ LastListing glyphs cp g

/-! ### Accesses -/

section Accesses

variable {buf : Buf} {i : Nat} {rest : List UInt8}

theorem drop_add_of_drop {bs : List UInt8} (h : buf.drop i = bs ++ rest) : buf.drop (i + bs.length) = rest := by
  rw [← List.drop_drop, h, List.drop_left]

theorem drop_succ_of_drop {b : UInt8} (h : buf.drop i = b :: rest) : buf.drop (i + 1) = rest :=
  drop_add_of_drop (show buf.drop i = [b] ++ rest from h)

theorem lt_length_of_drop {b : UInt8} (h : buf.drop i = b :: rest) : i < buf.length := by
  have hlen := congrArg List.length h
  rw [List.length_drop, List.length_cons] at hlen
  omega

theorem u8_of_drop {b : UInt8} (h : buf.drop i = b :: rest) : u8 buf i = .ok b.toNat := by
  have hget : buf[i]? = some b := by
    rw [← List.head?_drop, h, List.head?_cons]
  rw [u8, hget]

theorem u16le_of_drop {a b : UInt8} (h : buf.drop i = a :: b :: rest) :
    u16le buf i = .ok (a.toNat + 256 * b.toNat) := by
  have hnext : buf.drop (i + 1) = b :: rest := drop_succ_of_drop h
  rw [u16le, u8_of_drop h, ok_bind, u8_of_drop hnext, ok_bind]
  rfl

end Accesses

/-! ### UTF-8 -/

section Utf8

variable {buf : Buf} {i : Nat} {rest : List UInt8}

/-- Six more bits. -/
theorem shift_or (cp b : Nat) : cp <<< 6 ||| (b &&& 0x3F) = cp * 64 + b % 64 := by
  have hlow : b % 64 < 2 ^ 6 := Nat.mod_lt b (by decide)
  rw [show b &&& 0x3F = b % 64 from Nat.and_two_pow_sub_one_eq_mod b 6, ← Nat.shiftLeft_add_eq_or_of_lt hlow,
    Nat.shiftLeft_eq]

/-- The code point from the bits of the first byte and the bytes after it. -/
def assemble (lead : Nat) (bs : List UInt8) : Nat := bs.foldl (fun cp b => cp * 64 + b.toNat % 64) lead

theorem utf8Tail_ok {stop n : Nat} {bs : List UInt8} {k cp : Nat} (h : buf.drop (i + k) = bs ++ rest)
    (hk : k + bs.length = n + 1) (hstop : i + n < stop) :
    utf8Tail buf stop i n k cp = .ok (assemble cp bs) := by
  induction bs generalizing k cp with
  | nil =>
      rw [List.length_nil] at hk
      rw [utf8Tail, if_pos (.inl (by omega))]
      rfl
  | cons b bs ih =>
      rw [List.length_cons] at hk
      have hnext : buf.drop (i + (k + 1)) = bs ++ rest := drop_succ_of_drop h
      rw [utf8Tail, if_neg (by omega), u8_of_drop h, ok_bind, shift_or, ih hnext (by omega)]
      rfl

/-- The scanner reads a first byte and as many bytes as it announces. -/
theorem utf8Loop_char {stop n : Nat} {b : UInt8} {bs : List UInt8} {acc : List Nat}
    (h : buf.drop i = b :: (bs ++ rest)) (hn : tailLength b.toNat = n) (hbs : bs.length = n) (hstop : i + n < stop) :
    utf8Loop buf stop i acc = utf8Loop buf stop (i + (b :: bs).length) (acc ++ [assemble (leadBits n b.toNat) bs]) := by
  have hnext : buf.drop (i + 1) = bs ++ rest := drop_succ_of_drop h
  rw [utf8Loop, if_neg (by omega), u8_of_drop h, ok_bind, hn]
  simp only
  rw [utf8Tail_ok hnext (by omega) hstop, ok_bind, List.length_cons, hbs, Nat.add_assoc, Nat.add_comm 1 n]

theorem toNat_ofNat {v : Nat} (h : v < 256) : (UInt8.ofNat v).toNat = v := by
  rw [UInt8.toNat_ofNat']
  exact Nat.mod_eq_of_lt h

theorem leadBits_eq (b : Nat) : leadBits 1 b = b % 32 ∧ leadBits 2 b = b % 16 ∧ leadBits 3 b = b % 8 :=
  ⟨Nat.and_two_pow_sub_one_eq_mod b 5, Nat.and_two_pow_sub_one_eq_mod b 4, Nat.and_two_pow_sub_one_eq_mod b 3⟩

theorem tailLength_eq {b : Nat} (h : b < 0xF8) :
    (b < 0xC0 → tailLength b = 0) ∧ (0xC0 ≤ b → b < 0xE0 → tailLength b = 1) ∧
      (0xE0 ≤ b → b < 0xF0 → tailLength b = 2) ∧ (0xF0 ≤ b → tailLength b = 3) := by
  unfold tailLength
  split_ifs <;> omega

theorem toNat_tailByte (v : Nat) : (UInt8.ofNat (v % 0x40 + 0x80)).toNat = v % 0x40 + 0x80 :=
  toNat_ofNat (by omega)

/-- The encoding of a code point announces its length and gives the code point back. -/
theorem encodeCode_shape {cp : Nat} (hcp : cp < 0x110000) :
    ∃ b bs, Utf8.encodeCode cp = b :: bs ∧ tailLength b.toNat = bs.length ∧
      assemble (leadBits bs.length b.toNat) bs = cp ∧ ∀ x ∈ b :: bs, x.toNat < 0xFE := by
  unfold Utf8.encodeCode
  split_ifs with h₁ h₂ h₃
  · have hb := toNat_ofNat (show cp < 256 by omega)
    refine ⟨_, _, rfl, ?_⟩
    rw [hb]
    refine ⟨(tailLength_eq (by omega)).1 (by omega), rfl, ?_⟩
    rw [List.forall_mem_singleton, hb]
    omega
  · have hb := toNat_ofNat (show cp / 64 % 0x20 + 0xc0 < 256 by omega)
    refine ⟨_, _, rfl, ?_⟩
    simp only [hb, toNat_tailByte, List.forall_mem_cons, assemble, List.foldl, List.length_cons, List.length_nil,
      (leadBits_eq _).1]
    refine ⟨(tailLength_eq (by omega)).2.1 (by omega) (by omega), by omega, by omega, by omega, nofun⟩
  · have hb := toNat_ofNat (show cp / 4096 % 0x10 + 0xe0 < 256 by omega)
    refine ⟨_, _, rfl, ?_⟩
    simp only [hb, toNat_tailByte, List.forall_mem_cons, assemble, List.foldl, List.length_cons, List.length_nil,
      (leadBits_eq _).2.1]
    refine ⟨(tailLength_eq (by omega)).2.2.1 (by omega) (by omega), by omega, by omega, by omega, by omega, nofun⟩
  · have hb := toNat_ofNat (show cp / 262144 % 0x08 + 0xf0 < 256 by omega)
    refine ⟨_, _, rfl, ?_⟩
    simp only [hb, toNat_tailByte, List.forall_mem_cons, assemble, List.foldl, List.length_cons, List.length_nil,
      (leadBits_eq _).2.2]
    refine ⟨(tailLength_eq (by omega)).2.2.2 (by omega), by omega, by omega, by omega, by omega, by omega, nofun⟩

theorem utf8_lt {cps : List Nat} (hcps : ∀ cp ∈ cps, cp < 0x110000) {b : UInt8} (hb : b ∈ utf8 cps) :
    b.toNat < 0xFE := by
  obtain ⟨cp, hcp, hb⟩ := List.mem_flatMap.mp hb
  obtain ⟨x, xs, henc, -, -, hlt⟩ := encodeCode_shape (hcps cp hcp)
  exact hlt b (henc ▸ hb)

theorem utf8Loop_ok {stop : Nat} {cps : List Nat} (hcps : ∀ cp ∈ cps, cp < 0x110000) {acc : List Nat}
    (h : buf.drop i = utf8 cps ++ rest) (hstop : i + (utf8 cps).length = stop) :
    utf8Loop buf stop i acc = .ok (acc ++ cps) := by
  induction cps generalizing i acc with
  | nil =>
      have hend : i ≥ stop := hstop.ge
      rw [utf8Loop, if_pos hend, List.append_nil]
      rfl
  | cons cp cps ih =>
      obtain ⟨b, bs, henc, hn, hcp, -⟩ := encodeCode_shape (hcps cp List.mem_cons_self)
      have hsplit : utf8 (cp :: cps) = (b :: bs) ++ utf8 cps := by
        rw [utf8, List.flatMap_cons, henc]
        rfl
      rw [hsplit, List.append_assoc] at h
      rw [hsplit, List.length_append, List.length_cons] at hstop
      have hnext : buf.drop (i + (b :: bs).length) = utf8 cps ++ rest := drop_add_of_drop h
      rw [utf8Loop_char h hn rfl (by omega), hcp,
        ih (fun c hc => hcps c (List.mem_cons_of_mem _ hc)) hnext (by rw [List.length_cons]; omega),
        List.append_assoc, List.singleton_append]

/-- Decoding gives back what was encoded. -/
theorem utf8Codepoints_ok {cps : List Nat} (hcps : ∀ cp ∈ cps, cp < 0x110000)
    (h : buf.drop i = utf8 cps ++ rest) : utf8Codepoints buf i (i + (utf8 cps).length) = .ok cps :=
  utf8Loop_ok hcps h rfl

end Utf8

/-! ### The map of a table -/

section Maps

variable {limit : Nat} {cp g : Nat}

/-- The map after the glyphs from number `g` on. -/
def listGlyphs (acc : CodeMap) (g : Nat) : List (Entry limit) → CodeMap
  | [] => acc
  | e :: es => listGlyphs (assocAll acc g (codes e.singles)) (g + 1) es

theorem codes_lt (cps : List (Fin limit)) : ∀ cp ∈ codes cps, cp < limit := by
  intro cp hcp
  obtain ⟨c, -, rfl⟩ := List.mem_map.mp hcp
  exact c.isLt

theorem lookup_assocAll (acc : CodeMap) (g : Nat) (cps : List Nat) :
    (assocAll acc g cps).lookup cp = if cp ∈ cps then some g else acc.lookup cp := by
  induction cps generalizing acc with
  | nil => rfl
  | cons c cps ih =>
      show (assocAll (acc.insert c g) g cps).lookup cp = _
      rw [ih]
      by_cases hmem : cp ∈ cps
      · rw [if_pos hmem, if_pos (List.mem_cons_of_mem c hmem)]
      · rw [if_neg hmem]
        by_cases hc : cp = c
        · rw [hc, AList.lookup_insert, if_pos List.mem_cons_self]
        · rw [AList.lookup_insert_ne hc, if_neg fun h => (List.mem_cons.mp h).elim hc hmem]

theorem lastListing_zero {e : Entry limit} {es : List (Entry limit)} :
    LastListing (e :: es) cp 0 ↔ cp ∈ codes e.singles ∧ ∀ e' ∈ es, cp ∉ codes e'.singles := by
  constructor
  · rintro ⟨⟨e', he', hcp⟩, hlast⟩
    cases he'
    refine ⟨hcp, fun e' he' => ?_⟩
    obtain ⟨k, hk⟩ := List.mem_iff_getElem?.mp he'
    exact hlast (k + 1) e' (Nat.succ_pos k) hk
  · rintro ⟨hcp, hlast⟩
    refine ⟨⟨e, rfl, hcp⟩, fun g' e' hg' he' => ?_⟩
    obtain ⟨k, rfl⟩ := Nat.exists_eq_add_of_lt hg'
    rw [Nat.zero_add] at he'
    exact hlast e' (List.mem_iff_getElem?.mpr ⟨k, he'⟩)

theorem lastListing_succ {e : Entry limit} {es : List (Entry limit)} :
    LastListing (e :: es) cp (g + 1) ↔ LastListing es cp g := by
  constructor
  · rintro ⟨hlisted, hlast⟩
    exact ⟨hlisted, fun g' e' hg' he' => hlast (g' + 1) e' (Nat.succ_lt_succ hg') he'⟩
  · rintro ⟨hlisted, hlast⟩
    refine ⟨hlisted, fun g' e' hg' he' => ?_⟩
    obtain ⟨k, rfl⟩ := Nat.exists_eq_add_of_lt hg'
    exact hlast (g + 1 + k) e' (by omega) he'

theorem lookup_listGlyphs (acc : CodeMap) (base : Nat) (es : List (Entry limit)) :
    (listGlyphs acc base es).lookup cp = some g ↔
      (∃ k, g = base + k ∧ LastListing es cp k) ∨ (∀ e ∈ es, cp ∉ codes e.singles) ∧ acc.lookup cp = some g := by
  induction es generalizing acc base with
  | nil =>
      rw [listGlyphs]
      constructor
      · exact fun h => .inr ⟨nofun, h⟩
      · rintro (⟨k, -, ⟨e, he, -⟩, -⟩ | ⟨-, h⟩)
        · cases he
        · exact h
  | cons e es ih =>
      rw [listGlyphs, ih, lookup_assocAll, List.forall_mem_cons]
      constructor
      · rintro (⟨k, rfl, hk⟩ | ⟨hnone, h⟩)
        · exact .inl ⟨k + 1, by omega, lastListing_succ.mpr hk⟩
        · by_cases hcp : cp ∈ codes e.singles
          · rw [if_pos hcp] at h
            cases h
            exact .inl ⟨0, rfl, lastListing_zero.mpr ⟨hcp, hnone⟩⟩
          · rw [if_neg hcp] at h
            exact .inr ⟨⟨hcp, hnone⟩, h⟩
      · rintro (⟨k, rfl, hk⟩ | ⟨⟨hcp, hnone⟩, h⟩)
        · cases k with
          | zero =>
              obtain ⟨hcp, hnone⟩ := lastListing_zero.mp hk
              exact .inr ⟨hnone, if_pos hcp⟩
          | succ k => exact .inl ⟨k, by omega, lastListing_succ.mp hk⟩
        · exact .inr ⟨hnone, (if_neg hcp).trans h⟩

theorem lookup_listGlyphs_empty (es : List (Entry limit)) :
    (listGlyphs ∅ 0 es).lookup cp = some g ↔ LastListing es cp g := by
  rw [lookup_listGlyphs]
  constructor
  · rintro (⟨k, rfl, hk⟩ | ⟨-, h⟩)
    · rwa [Nat.zero_add]
    · rw [AList.lookup_empty] at h
      cases h
  · exact fun h => .inl ⟨g, (Nat.zero_add g).symm, h⟩

end Maps

/-! ### PSF2 tables -/

section Psf2

variable {buf : Buf} {n i g start : Nat} {seq : Bool} {acc : CodeMap} {rest : List UInt8}

/-- Bytes of characters are passed over. -/
theorem psf2Loop_text {bs : List UInt8} (hbs : ∀ b ∈ bs, b.toNat < 0xFE) (h : buf.drop i = bs ++ rest) (hg : g < n) :
    psf2Loop buf n i g start seq acc = psf2Loop buf n (i + bs.length) g start seq acc := by
  induction bs generalizing i with
  | nil => rfl
  | cons b bs ih =>
      have hlt := hbs b List.mem_cons_self
      have hlen := lt_length_of_drop h
      have hnext : buf.drop (i + 1) = bs ++ rest := drop_succ_of_drop h
      rw [psf2Loop, if_neg (by omega), u8_of_drop h, ok_bind, if_neg (by omega), if_neg (by omega),
        ih (fun x hx => hbs x (List.mem_cons_of_mem _ hx)) hnext, List.length_cons, Nat.add_assoc, Nat.add_comm 1]

theorem psf2Loop_marker (h : buf.drop i = 0xFE :: rest) (hg : g < n) {acc' : CodeMap}
    (hacc : psf2Singles buf start i g seq acc = .ok acc') :
    psf2Loop buf n i g start seq acc = psf2Loop buf n (i + 1) g start true acc' := by
  have hlen := lt_length_of_drop h
  rw [psf2Loop, if_neg (by omega), u8_of_drop h, ok_bind, if_neg (by decide), if_pos (by decide), hacc, ok_bind]

theorem psf2Loop_end (h : buf.drop i = 0xFF :: rest) (hg : g < n) {acc' : CodeMap}
    (hacc : psf2Singles buf start i g seq acc = .ok acc') :
    psf2Loop buf n i g start seq acc = psf2Loop buf n (i + 1) (g + 1) (i + 1) false acc' := by
  have hlen := lt_length_of_drop h
  rw [psf2Loop, if_neg (by omega), u8_of_drop h, ok_bind, if_pos (by decide), hacc, ok_bind]

/-- Sequences change nothing once there has been one. -/
theorem psf2Loop_sequences {seqs : List (List (Fin 0x110000))}
    (h : buf.drop i = seqs.flatMap (fun s => 0xFE :: utf8 (codes s)) ++ rest) (hg : g < n) :
    psf2Loop buf n i g start true acc =
      psf2Loop buf n (i + (seqs.flatMap fun s => 0xFE :: utf8 (codes s)).length) g start true acc := by
  induction seqs generalizing i with
  | nil => rfl
  | cons s seqs ih =>
      rw [List.flatMap_cons, List.append_assoc, List.cons_append] at h
      have hchars := drop_succ_of_drop h
      have hnext := drop_add_of_drop hchars
      rw [psf2Loop_marker h hg rfl, psf2Loop_text (fun b hb => utf8_lt (codes_lt s) hb) hchars hg, ih hnext,
        List.flatMap_cons, List.length_append, List.length_cons]
      congr 1
      omega

/-- One glyph of the table. -/
theorem psf2Loop_entry {e : Entry 0x110000} (h : buf.drop i = psf2Entry e ++ rest) (hg : g < n) :
    psf2Loop buf n i g i false acc =
      psf2Loop buf n (i + (psf2Entry e).length) (g + 1) (i + (psf2Entry e).length) false
        (assocAll acc g (codes e.singles)) := by
  unfold psf2Entry at h ⊢
  rw [List.append_assoc, List.append_assoc] at h
  have hsingles : psf2Singles buf i (i + (utf8 (codes e.singles)).length) g false acc =
      .ok (assocAll acc g (codes e.singles)) := by
    rw [psf2Singles, if_neg Bool.false_ne_true, utf8Codepoints_ok (codes_lt e.singles) h, ok_bind]
    rfl
  have hseqs := drop_add_of_drop h
  rw [psf2Loop_text (fun b hb => utf8_lt (codes_lt e.singles) hb) h hg]
  cases hs : e.sequences with
  | nil =>
      rw [hs, List.flatMap_nil, List.nil_append] at hseqs
      rw [psf2Loop_end hseqs hg hsingles, List.flatMap_nil, List.append_nil, List.length_append,
        List.length_singleton, Nat.add_assoc]
  | cons s seqs =>
      rw [hs, List.flatMap_cons, List.cons_append, List.cons_append, List.append_assoc] at hseqs
      have hchars := drop_succ_of_drop hseqs
      have hmore := drop_add_of_drop hchars
      have hend := drop_add_of_drop hmore
      rw [psf2Loop_marker hseqs hg hsingles, psf2Loop_text (fun b hb => utf8_lt (codes_lt s) hb) hchars hg,
        psf2Loop_sequences hmore hg, psf2Loop_end hend hg rfl]
      simp only [List.flatMap_cons, List.length_append, List.length_cons, List.length_nil, Nat.zero_add]
      congr 1 <;> omega

theorem psf2Loop_table {es : List (Entry 0x110000)} (h : buf.drop i = es.flatMap psf2Entry ++ rest)
    (hn : g + es.length = n) : psf2Loop buf n i g i false acc = .ok (listGlyphs acc g es) := by
  induction es generalizing i g acc with
  | nil =>
      rw [psf2Loop, if_pos (.inr (Nat.le_of_eq hn.symm))]
      rfl
  | cons e es ih =>
      rw [List.flatMap_cons, List.append_assoc] at h
      rw [List.length_cons] at hn
      rw [psf2Loop_entry h (by omega), ih (drop_add_of_drop h) (by omega)]
      rfl

theorem psf2Unicode_ok {glyphs : List (Entry 0x110000)} (h : buf.drop i = glyphs.flatMap psf2Entry ++ rest) :
    psf2Unicode buf i glyphs.length = .ok (listGlyphs ∅ 0 glyphs) :=
  psf2Loop_table h (Nat.zero_add _)

end Psf2

/-! ### PSF1 tables -/

section Psf1

variable {buf : Buf} {n i g : Nat} {seq : Bool} {acc : CodeMap} {rest : List UInt8}

theorem u16le_u16 {v : Nat} (hv : v < 0x10000) (h : buf.drop i = u16 v ++ rest) : u16le buf i = .ok v := by
  rw [u16le_of_drop h, toNat_ofNat (Nat.mod_lt v (by decide)), toNat_ofNat (by omega), Nat.mod_add_div]

theorem length_u16 (v : Nat) : (u16 v).length = 2 := rfl

theorem length_of_drop_u16 {v : Nat} (h : buf.drop i = u16 v ++ rest) : i + 2 ≤ buf.length := by
  have hlen := congrArg List.length h
  rw [List.length_drop, List.length_append, length_u16] at hlen
  omega

theorem psf1Loop_end (h : buf.drop i = u16 0xFFFF ++ rest) (hg : g < n) :
    psf1Loop buf n i g seq acc = psf1Loop buf n (i + 2) (g + 1) false acc := by
  have hlen := length_of_drop_u16 h
  rw [psf1Loop, if_neg (by omega), u16le_u16 (by decide) h, ok_bind, if_pos rfl]

theorem psf1Loop_marker (h : buf.drop i = u16 0xFFFE ++ rest) (hg : g < n) :
    psf1Loop buf n i g seq acc = psf1Loop buf n (i + 2) g true acc := by
  have hlen := length_of_drop_u16 h
  rw [psf1Loop, if_neg (by omega), u16le_u16 (by decide) h, ok_bind, if_neg (by decide), if_pos rfl]

theorem psf1Loop_code {v : Nat} (hv : v < 0xFFFE) (h : buf.drop i = u16 v ++ rest) (hg : g < n) :
    psf1Loop buf n i g seq acc = psf1Loop buf n (i + 2) g seq (if seq then acc else acc.insert v g) := by
  have hlen := length_of_drop_u16 h
  rw [psf1Loop, if_neg (by omega), u16le_u16 (by omega) h, ok_bind, if_neg (by omega), if_neg (by omega)]
  cases seq <;> rfl

/-- The code points before a sequence are listed, those in one are not. -/
theorem psf1Loop_codes {cps : List Nat} (hcps : ∀ cp ∈ cps, cp < 0xFFFE) (h : buf.drop i = cps.flatMap u16 ++ rest)
    (hg : g < n) :
    psf1Loop buf n i g seq acc =
      psf1Loop buf n (i + (cps.flatMap u16).length) g seq (if seq then acc else assocAll acc g cps) := by
  induction cps generalizing i acc with
  | nil => cases seq <;> rfl
  | cons cp cps ih =>
      rw [List.flatMap_cons, List.append_assoc] at h
      have hnext : buf.drop (i + 2) = cps.flatMap u16 ++ rest := drop_add_of_drop h
      rw [psf1Loop_code (hcps cp List.mem_cons_self) h hg,
        ih (fun c hc => hcps c (List.mem_cons_of_mem _ hc)) hnext, List.flatMap_cons, List.length_append, Nat.add_assoc]
      cases seq <;> rfl

theorem psf1Loop_sequences (seq : Bool) {seqs : List (List (Fin 0xFFFE))}
    (h : buf.drop i = seqs.flatMap (fun s => u16 0xFFFE ++ (codes s).flatMap u16) ++ rest) (hg : g < n) :
    ∃ seq', psf1Loop buf n i g seq acc =
      psf1Loop buf n (i + (seqs.flatMap fun s => u16 0xFFFE ++ (codes s).flatMap u16).length) g seq' acc := by
  induction seqs generalizing i seq with
  | nil => exact ⟨seq, rfl⟩
  | cons s seqs ih =>
      rw [List.flatMap_cons, List.append_assoc, List.append_assoc] at h
      have hchars : buf.drop (i + 2) = _ := drop_add_of_drop h
      have hmore := drop_add_of_drop hchars
      obtain ⟨seq', hrest⟩ := ih true hmore
      refine ⟨seq', ?_⟩
      rw [psf1Loop_marker h hg, psf1Loop_codes (codes_lt s) hchars hg, if_pos rfl, hrest, List.flatMap_cons,
        List.length_append, List.length_append, length_u16, ← Nat.add_assoc, ← Nat.add_assoc]

theorem psf1Loop_entry {e : Entry 0xFFFE} (h : buf.drop i = psf1Entry e ++ rest) (hg : g < n) :
    psf1Loop buf n i g false acc =
      psf1Loop buf n (i + (psf1Entry e).length) (g + 1) false (assocAll acc g (codes e.singles)) := by
  unfold psf1Entry at h ⊢
  rw [List.append_assoc, List.append_assoc] at h
  have hseqs := drop_add_of_drop h
  obtain ⟨seq', hrest⟩ := psf1Loop_sequences false hseqs hg
  rw [psf1Loop_codes (codes_lt e.singles) h hg, if_neg Bool.false_ne_true, hrest,
    psf1Loop_end (drop_add_of_drop hseqs) hg, List.length_append, List.length_append, ← Nat.add_assoc,
    ← Nat.add_assoc]
  rfl

theorem psf1Loop_table {es : List (Entry 0xFFFE)} (h : buf.drop i = es.flatMap psf1Entry ++ rest)
    (hn : g + es.length = n) : psf1Loop buf n i g false acc = .ok (listGlyphs acc g es) := by
  induction es generalizing i g acc with
  | nil =>
      rw [psf1Loop, if_pos (.inr (Nat.le_of_eq hn.symm))]
      rfl
  | cons e es ih =>
      rw [List.flatMap_cons, List.append_assoc] at h
      rw [List.length_cons] at hn
      rw [psf1Loop_entry h (by omega), ih (drop_add_of_drop h) (by omega)]
      rfl

theorem psf1Unicode_ok {glyphs : List (Entry 0xFFFE)} (h : buf.drop i = glyphs.flatMap psf1Entry ++ rest) :
    psf1Unicode buf i glyphs.length = .ok (listGlyphs ∅ 0 glyphs) :=
  psf1Loop_table h (Nat.zero_add _)

end Psf1

/-! ### Fonts -/

section Fonts

variable {buf : Buf} {i : Nat}

theorem exists_u8 (h : i < buf.length) : ∃ v, u8 buf i = .ok v :=
  ⟨_, u8_of_drop (List.drop_eq_getElem_cons h)⟩

theorem exists_u32le (h : i + 4 ≤ buf.length) : ∃ v, u32le buf i = .ok v := by
  obtain ⟨a, ha⟩ := exists_u8 (show i < buf.length by omega)
  obtain ⟨b, hb⟩ := exists_u8 (show i + 1 < buf.length by omega)
  obtain ⟨c, hc⟩ := exists_u8 (show i + 2 < buf.length by omega)
  obtain ⟨d, hd⟩ := exists_u8 (show i + 2 + 1 < buf.length by omega)
  refine ⟨a + 256 * b + 65536 * (c + 256 * d), ?_⟩
  rw [u32le, u16le, ha, ok_bind, hb, ok_bind, u16le, hc, ok_bind, hd, ok_bind]
  rfl

theorem startsWith_ok (bs : List UInt8) {rest : List UInt8} (h : buf.drop i = bs ++ rest) :
    startsWith buf i (bs.map UInt8.toNat) = .ok true := by
  induction bs generalizing i with
  | nil => rfl
  | cons b bs ih =>
      rw [List.map_cons, startsWith, u8_of_drop h, ok_bind, if_pos rfl, ih (drop_succ_of_drop h)]

theorem tableWhen_ok {c : Prop} [Decidable c] (hc : c) (m : CodeMap) : tableWhen c (.ok m) = .ok (some m) := if_pos hc

theorem parsePsf_psf2 {glyphs : List (Entry 0x110000)} {hdr size : Nat} (h : IsPsf2 buf glyphs hdr size) :
    Decodes buf glyphs := by
  obtain ⟨rest, hmagic⟩ := h.magic
  obtain ⟨rest', htable⟩ := h.table
  obtain ⟨flags, hflags, hodd⟩ := h.hasTable
  obtain ⟨height, hheight⟩ := exists_u32le (show 24 + 4 ≤ buf.length by have := h.header; omega)
  obtain ⟨width, hwidth⟩ := exists_u32le (show 28 + 4 ≤ buf.length from h.header)
  have hstart : startsWith buf 0 [0x72, 0xB5, 0x4A, 0x86] = .ok true :=
    startsWith_ok [0x72, 0xB5, 0x4A, 0x86] hmagic.symm
  have hbit : 0 ≠ flags &&& 1 := by
    rw [Nat.and_one_is_mod, hodd]
    decide
  refine ⟨⟨width, height, (width + 7) / 8, buf, hdr, size, glyphs.length, 0, some (listGlyphs ∅ 0 glyphs)⟩, _, ?_,
    rfl, fun cp g => lookup_listGlyphs_empty glyphs⟩
  rw [parsePsf, hstart, ok_bind, if_pos rfl, h.hdr_eq, ok_bind, hflags, ok_bind, h.count_eq, ok_bind, h.size_eq,
    ok_bind, hheight, ok_bind, hwidth, ok_bind, psf2Unicode_ok htable.symm, tableWhen_ok hbit, ok_bind]
  rfl

theorem parsePsf_psf1 {glyphs : List (Entry 0xFFFE)} {mode height : Nat} (h : IsPsf1 buf glyphs mode height) :
    Decodes buf glyphs := by
  obtain ⟨rest, hmagic⟩ := h.magic
  obtain ⟨rest', htable⟩ := h.table
  have hfirst : u8 buf 0 = .ok 0x36 := u8_of_drop (b := 0x36) hmagic.symm
  have hpsf2 : startsWith buf 0 [0x72, 0xB5, 0x4A, 0x86] = .ok false := by
    rw [startsWith, hfirst, ok_bind, if_neg (by decide)]
    rfl
  have hstart : startsWith buf 0 [0x36, 0x04] = .ok true := startsWith_ok [0x36, 0x04] hmagic.symm
  have hcount : (if 0 ≠ mode &&& 1 then 512 else 256) = glyphs.length := by
    rw [h.count_eq, Nat.and_one_is_mod]
    split_ifs <;> omega
  refine ⟨⟨8, height, 1, buf, 4, height, glyphs.length, 0, some (listGlyphs ∅ 0 glyphs)⟩, _, ?_, rfl,
    fun cp g => lookup_listGlyphs_empty glyphs⟩
  rw [parsePsf, hpsf2, ok_bind, if_neg Bool.false_ne_true, hstart, ok_bind, if_pos rfl, h.mode_eq, ok_bind, h.height_eq,
    ok_bind]
  simp only [hcount]
  rw [psf1Unicode_ok htable.symm, tableWhen_ok h.hasTable.symm, ok_bind]
  rfl

end Fonts

/-- The Unicode table of a font file is read back, and so is the UTF-8 encoding of any code points in any buffer. -/
theorem psf_tables_decode (buf : Buf) :
    (∀ (glyphs : List (Entry 0x110000)) (hdr size : Nat), IsPsf2 buf glyphs hdr size → Decodes buf glyphs) ∧
      (∀ (glyphs : List (Entry 0xFFFE)) (mode height : Nat), IsPsf1 buf glyphs mode height → Decodes buf glyphs) ∧
        ∀ (cps : List (Fin 0x110000)) (start : Nat), utf8 (codes cps) <+: buf.drop start →
          utf8Codepoints buf start (start + (utf8 (codes cps)).length) = .ok (codes cps) := by
  refine ⟨fun _ _ _ h => parsePsf_psf2 h, fun _ _ _ h => parsePsf_psf1 h, fun cps start h => ?_⟩
  obtain ⟨rest, h⟩ := h
  exact utf8Codepoints_ok (codes_lt cps) h.symm

/-- A PSF2 file of two glyphs of no size: `A`, `é` and a sequence of two for the first one, `A` and `€` for the
second one. -/
def twoGlyphs : List (Entry 0x110000) := [⟨[0x41, 0xE9], [[0x65, 0x301]]⟩, ⟨[0x41, 0x20AC], []⟩]

def twoGlyphFile : Buf :=
  [0x72, 0xB5, 0x4A, 0x86] ++ [0, 0, 0, 0] ++ [32, 0, 0, 0] ++ [1, 0, 0, 0] ++ [2, 0, 0, 0] ++ [0, 0, 0, 0] ++
    [0, 0, 0, 0] ++ [0, 0, 0, 0] ++ twoGlyphs.flatMap psf2Entry

/-- A PSF1 file of 256 glyphs of no size, the first one of them with a code point and a sequence. -/
def psf1Glyphs : List (Entry 0xFFFE) := ⟨[0x41], [[0x65, 0x301]]⟩ :: List.replicate 255 ⟨[], []⟩

def psf1File : Buf := [0x36, 0x04, 2, 0] ++ psf1Glyphs.flatMap psf1Entry

theorem isPsf1_psf1File : IsPsf1 psf1File psf1Glyphs 2 0 where
  magic := ⟨_, rfl⟩
  mode_eq := rfl
  hasTable := by decide
  height_eq := rfl
  count_eq := by
    rw [psf1Glyphs, List.length_cons, List.length_replicate]
    rfl
  table := by
    rw [Nat.mul_zero]
    exact List.prefix_rfl

theorem psf_tables_decode_two : Decodes twoGlyphFile twoGlyphs ∧ Decodes psf1File psf1Glyphs ∧
    utf8Codepoints (utf8 [0xE9, 0x20AC]) 0 5 = .ok [0xE9, 0x20AC] :=
  ⟨(psf_tables_decode twoGlyphFile).1 twoGlyphs 32 0 ⟨by decide, by decide, rfl, ⟨1, rfl, rfl⟩, rfl, rfl, by decide⟩,
    (psf_tables_decode psf1File).2.1 psf1Glyphs 2 0 isPsf1_psf1File,
    (psf_tables_decode (utf8 [0xE9, 0x20AC])).2.2 [0xE9, 0x20AC] 0 List.prefix_rfl⟩

end Beeros.Psf
