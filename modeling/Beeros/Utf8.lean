import Mathlib.Data.List.Basic

/-! UTF-8 over lists: `encode` gives the bytes of a list of characters, `decode` is its partial
inverse and fails on bytes that are not valid UTF-8. -/

namespace Utf8

def encode (s : List Char) : List UInt8 := s.flatMap String.utf8EncodeChar

/-- `decode` with fuel; each step takes at least one byte. -/
def decodeAux : Nat → List UInt8 → Option (List Char)
  | _, [] => some []
  | 0, _ :: _ => none
  | fuel + 1, b :: bs =>
      match (b :: bs).toByteArray.utf8DecodeChar? 0 with
      | none => none
      | some c => (decodeAux fuel ((b :: bs).drop c.utf8Size)).map (c :: ·)

theorem decodeAux_cons (fuel : Nat) (b : UInt8) (bs : List UInt8) :
    decodeAux (fuel + 1) (b :: bs) =
      match (b :: bs).toByteArray.utf8DecodeChar? 0 with
      | none => none
      | some c => (decodeAux fuel ((b :: bs).drop c.utf8Size)).map (c :: ·) := rfl

def decode (bs : List UInt8) : Option (List Char) := decodeAux bs.length bs

/-- The formula of `String.utf8EncodeChar` for any code point, surrogates included. -/
def encodeCode (v : Nat) : List UInt8 :=
  if v ≤ 0x7f then [.ofNat v]
  else if v ≤ 0x7ff then [.ofNat (v / 64 % 0x20 + 0xc0), .ofNat (v % 0x40 + 0x80)]
  else if v ≤ 0xffff then
    [.ofNat (v / 4096 % 0x10 + 0xe0), .ofNat (v / 64 % 0x40 + 0x80), .ofNat (v % 0x40 + 0x80)]
  else
    [.ofNat (v / 262144 % 0x08 + 0xf0), .ofNat (v / 4096 % 0x40 + 0x80), .ofNat (v / 64 % 0x40 + 0x80),
      .ofNat (v % 0x40 + 0x80)]

theorem encodeCode_toNat (c : Char) : encodeCode c.toNat = String.utf8EncodeChar c := rfl

@[simp] theorem encode_nil : encode [] = [] := rfl

@[simp] theorem encode_cons (c : Char) (s : List Char) :
    encode (c :: s) = String.utf8EncodeChar c ++ encode s := rfl

theorem encode_append (s t : List Char) : encode (s ++ t) = encode s ++ encode t :=
  List.flatMap_append

theorem length_utf8EncodeChar_pos (c : Char) : 0 < (String.utf8EncodeChar c).length := by
  rw [String.length_utf8EncodeChar]
  exact c.utf8Size_pos

theorem length_le_length_encode (s : List Char) : s.length ≤ (encode s).length := by
  induction s with
  | nil => exact Nat.le_refl _
  | cons c s ih =>
      have hpos := length_utf8EncodeChar_pos c
      rw [encode_cons, List.length_append, List.length_cons]
      omega

/-- Decoding takes one encoded character off the front. -/
theorem decodeAux_append (c : Char) (bs : List UInt8) (fuel : Nat) :
    decodeAux (fuel + 1) (String.utf8EncodeChar c ++ bs) = (decodeAux fuel bs).map (c :: ·) := by
  have hdec : (String.utf8EncodeChar c ++ bs).toByteArray.utf8DecodeChar? 0 = some c := by
    rw [List.toByteArray_append]
    exact ByteArray.utf8DecodeChar?_utf8EncodeChar_append
  cases hbs : String.utf8EncodeChar c ++ bs with
  | nil =>
      have hpos := length_utf8EncodeChar_pos c
      rw [List.append_eq_nil_iff] at hbs
      rw [hbs.1] at hpos
      exact absurd hpos (Nat.lt_irrefl _)
  | cons b rest =>
      rw [hbs] at hdec
      rw [decodeAux_cons, hdec, ← hbs]
      simp only
      rw [← String.length_utf8EncodeChar, List.drop_left]

theorem decodeAux_encode {s : List Char} {fuel : Nat} (h : s.length ≤ fuel) :
    decodeAux fuel (encode s) = some s := by
  induction s generalizing fuel with
  | nil => cases fuel <;> rfl
  | cons c s ih =>
      obtain ⟨f, rfl⟩ : ∃ f, fuel = f + 1 := ⟨fuel - 1, by simp at h; omega⟩
      rw [encode_cons, decodeAux_append, ih (by simpa using h)]
      rfl

/-- Whatever is encoded decodes to itself. -/
@[simp] theorem decode_encode (s : List Char) : decode (encode s) = some s :=
  decodeAux_encode (length_le_length_encode s)

theorem encode_of_decodeAux {fuel : Nat} {bs : List UInt8} {s : List Char}
    (h : decodeAux fuel bs = some s) : encode s = bs := by
  induction fuel generalizing bs s with
  | zero =>
      cases bs with
      | nil => cases h; rfl
      | cons b bs => cases h
  | succ fuel ih =>
      cases bs with
      | nil => cases h; rfl
      | cons b bs =>
          rw [decodeAux_cons] at h
          cases hc : (b :: bs).toByteArray.utf8DecodeChar? 0 with
          | none => simp [hc] at h
          | some c =>
              simp only [hc, Option.map_eq_some_iff] at h
              obtain ⟨t, ht, rfl⟩ := h
              obtain ⟨rest, hrest⟩ := ByteArray.exists_of_utf8DecodeChar?_eq_some hc
              have hbytes : b :: bs = String.utf8EncodeChar c ++ rest.data.toList := by
                have h := congrArg (fun a : ByteArray => a.data.toList) hrest
                simpa using h
              rw [encode_cons, ih ht, hbytes, ← String.length_utf8EncodeChar, List.drop_left]

/-- Only the encoding of a string decodes to it. -/
theorem encode_of_decode {bs : List UInt8} {s : List Char} (h : decode bs = some s) :
    encode s = bs :=
  encode_of_decodeAux h

/-- The bytes are the encoding of some string. -/
def Valid (bs : List UInt8) : Prop := ∃ s, encode s = bs

theorem valid_iff_decode {bs : List UInt8} : Valid bs ↔ (decode bs).isSome = true := by
  constructor
  · rintro ⟨s, rfl⟩
    rw [decode_encode]
    rfl
  · intro h
    obtain ⟨s, hs⟩ := Option.isSome_iff_exists.mp h
    exact ⟨s, encode_of_decode hs⟩

instance (bs : List UInt8) : Decidable (Valid bs) := decidable_of_iff _ valid_iff_decode.symm

theorem valid_encode (s : List Char) : Valid (encode s) := ⟨s, rfl⟩

theorem valid_nil : Valid [] := valid_encode []

theorem Valid.append {a b : List UInt8} (ha : Valid a) (hb : Valid b) : Valid (a ++ b) := by
  obtain ⟨s, rfl⟩ := ha
  obtain ⟨t, rfl⟩ := hb
  exact ⟨s ++ t, encode_append s t⟩

/-! ### The bytes of one character -/

/-- Not the first byte of a character. -/
def isCont (b : UInt8) : Bool := b &&& 0xC0 == 0x80

/-- The number of bytes of the character that starts with `b`. -/
def seqLength (b : UInt8) : Nat := if 0xF0 ≤ b then 4 else if 0xE0 ≤ b then 3 else if 0xC0 ≤ b then 2 else 1

theorem forall_byte {P : UInt8 → Prop} (h : ∀ n < 256, P (UInt8.ofNat n)) (b : UInt8) : P b := by
  have := h b.toNat b.toNat_lt
  rwa [UInt8.ofNat_toNat] at this

/-- The first bytes and the continuation bytes that `utf8EncodeChar` makes, over all 256 bytes at once. -/
theorem byte_table (b : UInt8) : isCont (b &&& 0x3f ||| 0x80) = true ∧ (b ≤ 127 → isCont b = false ∧ seqLength b = 1) ∧
    (isCont (b &&& 0x1f ||| 0xc0) = false ∧ seqLength (b &&& 0x1f ||| 0xc0) = 2) ∧
      (isCont (b &&& 0x0f ||| 0xe0) = false ∧ seqLength (b &&& 0x0f ||| 0xe0) = 3) ∧
        isCont (b &&& 0x07 ||| 0xf0) = false ∧ seqLength (b &&& 0x07 ||| 0xf0) = 4 := by
  revert b
  apply forall_byte
  decide +kernel

theorem isCont_tail (b : UInt8) : isCont (b &&& 0x3f ||| 0x80) = true := (byte_table b).1

theorem lead_one {b : UInt8} (hb : b ≤ 127) : isCont b = false ∧ seqLength b = 1 := (byte_table b).2.1 hb

theorem lead_two (b : UInt8) :
    isCont (b &&& 0x1f ||| 0xc0) = false ∧ seqLength (b &&& 0x1f ||| 0xc0) = 2 := (byte_table b).2.2.1

theorem lead_three (b : UInt8) :
    isCont (b &&& 0x0f ||| 0xe0) = false ∧ seqLength (b &&& 0x0f ||| 0xe0) = 3 := (byte_table b).2.2.2.1

theorem lead_four (b : UInt8) :
    isCont (b &&& 0x07 ||| 0xf0) = false ∧ seqLength (b &&& 0x07 ||| 0xf0) = 4 := (byte_table b).2.2.2.2

/-- A byte that is not a continuation byte and tells the length, then continuation bytes. -/
theorem utf8EncodeChar_shape (c : Char) :
    ∃ b bs, String.utf8EncodeChar c = b :: bs ∧ isCont b = false ∧ seqLength b = bs.length + 1 ∧
      ∀ x ∈ bs, isCont x = true := by
  rcases c.utf8Size_eq with h | h | h | h
  · have hle : c.val.toUInt8 ≤ 127 := by
      rw [Char.utf8Size_eq_one_iff, UInt32.le_iff_toNat_le] at h
      rw [UInt8.le_iff_toNat_le, UInt32.toNat_toUInt8]
      exact Nat.le_trans (Nat.mod_le _ _) h
    exact ⟨_, [], String.utf8EncodeChar_eq_singleton h, (lead_one hle).1, (lead_one hle).2, nofun⟩
  · refine ⟨_, _, String.utf8EncodeChar_eq_cons_cons h, (lead_two _).1, (lead_two _).2, ?_⟩
    simp [isCont_tail]
  · refine ⟨_, _, String.utf8EncodeChar_eq_cons_cons_cons h, (lead_three _).1, (lead_three _).2, ?_⟩
    simp [isCont_tail]
  · refine ⟨_, _, String.utf8EncodeChar_eq_cons_cons_cons_cons h, (lead_four _).1, (lead_four _).2, ?_⟩
    simp [isCont_tail]

theorem utf8EncodeChar_of_lt {c : Char} (h : c.toNat < 128) : String.utf8EncodeChar c = [c.toUInt8] := by
  have hle : c.val ≤ 127 := by
    rw [UInt32.le_iff_toNat_le]
    exact Nat.le_of_lt_succ h
  exact String.utf8EncodeChar_eq_singleton (Char.utf8Size_eq_one_iff.mpr hle)

theorem toNat_toUInt8 {c : Char} (h : c.toNat < 128) : c.toUInt8.toNat = c.toNat := by
  show c.val.toUInt8.toNat = c.toNat
  rw [UInt32.toNat_toUInt8]
  exact Nat.mod_eq_of_lt (Nat.lt_trans h (by decide))

theorem toUInt8_inj {c d : Char} (hc : c.toNat < 128) (hd : d.toNat < 128) : c.toUInt8 = d.toUInt8 ↔ c = d := by
  rw [← UInt8.toNat_inj, toNat_toUInt8 hc, toNat_toUInt8 hd, Char.toNat_inj]

/-- A character outside ASCII has no byte of ASCII. -/
theorem le_of_mem_utf8EncodeChar {c : Char} {b : UInt8} (h : 128 ≤ c.toNat) (hb : b ∈ String.utf8EncodeChar c) :
    128 ≤ b := by
  obtain ⟨x, xs, hshape, hx, hlen, hxs⟩ := utf8EncodeChar_shape c
  rw [hshape] at hb
  rw [← UInt8.not_lt]
  intro hlt
  have hle {b : UInt8} (hb : b < 128) : b ≤ 127 :=
    UInt8.le_iff_toNat_le.mpr (Nat.le_of_lt_succ (UInt8.lt_iff_toNat_lt.mp hb))
  rcases List.mem_cons.mp hb with rfl | hb
  · have hsize : 1 < seqLength b := by
      rw [hlen, ← List.length_cons (a := b), ← hshape, String.length_utf8EncodeChar]
      have hpos := c.utf8Size_pos
      have hone : c.utf8Size ≠ 1 := fun heq => by
        have hle := Char.utf8Size_eq_one_iff.mp heq
        rw [UInt32.le_iff_toNat_le] at hle
        exact absurd (Nat.le_trans h hle) (by decide)
      omega
    rw [(lead_one (hle hlt)).2] at hsize
    exact Nat.lt_irrefl 1 hsize
  · have hcont := hxs b hb
    rw [(lead_one (hle hlt)).1] at hcont
    cases hcont

/-! ### Cuts inside a character -/

/-- The bytes are the begin of a character, not a whole one. -/
def Partial (r : List UInt8) : Prop := ∃ c r', String.utf8EncodeChar c = r ++ r' ∧ r' ≠ []

theorem partial_nil : Partial [] := ⟨'a', [0x61], rfl, List.cons_ne_nil _ _⟩

/-- Whatever stands in front of a cut in valid bytes is valid up to the begin of one character. -/
theorem exists_partial_of_append {s : List Char} {p q : List UInt8} (h : p ++ q = encode s) :
    ∃ t r, p = encode t ++ r ∧ Partial r := by
  induction s generalizing p with
  | nil =>
      rw [encode_nil, List.append_eq_nil_iff] at h
      exact ⟨[], [], h.1, partial_nil⟩
  | cons c s ih =>
      rw [encode_cons] at h
      rcases List.append_eq_append_iff.mp h with ⟨r', hc, -⟩ | ⟨p', hp, hq⟩
      · by_cases hnil : r' = []
        · rw [hnil, List.append_nil] at hc
          exact ⟨[c], [], by simp [hc], partial_nil⟩
        · exact ⟨[], p, rfl, c, r', hc, hnil⟩
      · obtain ⟨t, r, ht, hr⟩ := ih hq.symm
        exact ⟨c :: t, r, by rw [hp, ht, encode_cons, List.append_assoc], hr⟩

theorem valid_of_char_append {c : Char} {bs : List UInt8} (h : Valid (String.utf8EncodeChar c ++ bs)) :
    Valid bs := by
  obtain ⟨t, ht⟩ := Option.isSome_iff_exists.mp (valid_iff_decode.mp h)
  unfold decode at ht
  have hpos := length_utf8EncodeChar_pos c
  obtain ⟨fuel, hfuel⟩ : ∃ fuel, (String.utf8EncodeChar c ++ bs).length = fuel + 1 :=
    ⟨_, (Nat.succ_pred (by rw [List.length_append]; omega)).symm⟩
  rw [hfuel, decodeAux_append, Option.map_eq_some_iff] at ht
  obtain ⟨s, hs, -⟩ := ht
  exact ⟨s, encode_of_decodeAux hs⟩

/-- Valid bytes in front of valid bytes leave valid bytes. -/
theorem Valid.of_append {a b : List UInt8} (ha : Valid a) (h : Valid (a ++ b)) : Valid b := by
  obtain ⟨s, rfl⟩ := ha
  induction s with
  | nil => exact h
  | cons c s ih =>
      rw [encode_cons, List.append_assoc] at h
      exact ih (valid_of_char_append h)

/-! ### Lossy decoding -/

/-- `decodeLossy` with fuel; each step takes at least one byte. -/
def decodeLossyAux : Nat → List UInt8 → List Char
  | _, [] => []
  | 0, _ :: _ => []
  | fuel + 1, b :: bs =>
      match (b :: bs).toByteArray.utf8DecodeChar? 0 with
      | none => Char.ofNat 0xFFFD :: decodeLossyAux fuel bs
      | some c => c :: decodeLossyAux fuel ((b :: bs).drop c.utf8Size)

theorem decodeLossyAux_cons (fuel : Nat) (b : UInt8) (bs : List UInt8) :
    decodeLossyAux (fuel + 1) (b :: bs) =
      match (b :: bs).toByteArray.utf8DecodeChar? 0 with
      | none => Char.ofNat 0xFFFD :: decodeLossyAux fuel bs
      | some c => c :: decodeLossyAux fuel ((b :: bs).drop c.utf8Size) := rfl

/-- Decoding that puts a replacement character for a byte that does not start a valid sequence. -/
def decodeLossy (bs : List UInt8) : List Char := decodeLossyAux bs.length bs

theorem utf8DecodeChar?_append (c : Char) (bs : List UInt8) :
    (String.utf8EncodeChar c ++ bs).toByteArray.utf8DecodeChar? 0 = some c := by
  rw [List.toByteArray_append]
  exact ByteArray.utf8DecodeChar?_utf8EncodeChar_append

/-- The begin of a character has no whole character in front. -/
theorem Partial.eq_nil {r x : List UInt8} (hr : Partial r) (hx : Valid x) (h : x <+: r) : x = [] := by
  obtain ⟨c, r', hc, hne⟩ := hr
  obtain ⟨s, rfl⟩ := hx
  obtain ⟨y, rfl⟩ := h
  cases s with
  | nil => rfl
  | cons d s =>
      rw [encode_cons, List.append_assoc, List.append_assoc] at hc
      have hself := utf8DecodeChar?_append c []
      rw [List.append_nil, hc, utf8DecodeChar?_append, Option.some.injEq] at hself
      rw [hself, List.self_eq_append_right, List.append_eq_nil_iff, List.append_eq_nil_iff] at hc
      exact absurd hc.2.2 hne

theorem eq_append_of_utf8DecodeChar? {bs : List UInt8} {c : Char}
    (h : bs.toByteArray.utf8DecodeChar? 0 = some c) : ∃ rest, bs = String.utf8EncodeChar c ++ rest := by
  obtain ⟨rest, hrest⟩ := ByteArray.exists_of_utf8DecodeChar?_eq_some h
  refine ⟨rest.data.toList, ?_⟩
  have h := congrArg (fun a : ByteArray => a.data.toList) hrest
  simpa using h

/-- The first character does not depend on what follows a byte of ASCII. -/
theorem utf8DecodeChar?_append_ascii {a b : List UInt8} {c : UInt8} (ha : a ≠ []) (hc : c < 128) :
    (a ++ c :: b).toByteArray.utf8DecodeChar? 0 = a.toByteArray.utf8DecodeChar? 0 := by
  cases hfirst : a.toByteArray.utf8DecodeChar? 0 with
  | some d =>
      obtain ⟨rest, rfl⟩ := eq_append_of_utf8DecodeChar? hfirst
      rw [List.append_assoc]
      exact utf8DecodeChar?_append d _
  | none =>
      cases hwhole : (a ++ c :: b).toByteArray.utf8DecodeChar? 0 with
      | none => rfl
      | some d =>
          obtain ⟨rest, hrest⟩ := eq_append_of_utf8DecodeChar? hwhole
          rcases List.append_eq_append_iff.mp hrest with ⟨r, hd, hr⟩ | ⟨r, ha', -⟩
          · cases r with
            | nil =>
                rw [List.append_nil] at hd
                rw [← hd, ← List.append_nil (String.utf8EncodeChar d), utf8DecodeChar?_append] at hfirst
                cases hfirst
            | cons x r =>
                -- the byte of ASCII would be the second one of a character
                obtain ⟨rfl, -⟩ := List.cons.inj hr
                have hmem : c ∈ String.utf8EncodeChar d := by
                  rw [hd]
                  exact List.mem_append_right _ List.mem_cons_self
                rcases Nat.lt_or_ge d.toNat 128 with hlt | hge
                · have hlen := congrArg List.length hd
                  rw [utf8EncodeChar_of_lt hlt, List.length_append, List.length_singleton,
                    List.length_cons] at hlen
                  have hpos := List.length_pos_iff.mpr ha
                  omega
                · exact absurd (le_of_mem_utf8EncodeChar hge hmem) (UInt8.not_le.mpr hc)
          · rw [ha', utf8DecodeChar?_append] at hfirst
            cases hfirst

theorem decodeLossyAux_fuel {bs : List UInt8} {fuel fuel' : Nat} (h : bs.length ≤ fuel)
    (h' : bs.length ≤ fuel') : decodeLossyAux fuel bs = decodeLossyAux fuel' bs := by
  induction fuel generalizing bs fuel' with
  | zero =>
      obtain rfl := List.length_eq_zero_iff.mp (Nat.le_zero.mp h)
      cases fuel' <;> rfl
  | succ fuel ih =>
      cases bs with
      | nil => cases fuel' <;> rfl
      | cons b bs =>
          rw [List.length_cons] at h h'
          obtain ⟨f, rfl⟩ : ∃ f, fuel' = f + 1 := ⟨fuel' - 1, by omega⟩
          rw [decodeLossyAux_cons, decodeLossyAux_cons]
          cases (b :: bs).toByteArray.utf8DecodeChar? 0 with
          | none => exact congrArg _ (ih (by omega) (by omega))
          | some c =>
              have hsize := c.utf8Size_pos
              have hdrop : ((b :: bs).drop c.utf8Size).length ≤ bs.length := by
                rw [List.length_drop, List.length_cons]
                omega
              exact congrArg _ (ih (by omega) (by omega))

theorem toNat_ofNat_ascii (n : Nat) (hn : n < 128) : (Char.ofNat n).toNat = n := by
  unfold Char.ofNat
  rw [dif_pos (Or.inl (by omega))]
  rfl

theorem utf8DecodeChar?_ascii {c : UInt8} (hc : c < 128) (bs : List UInt8) :
    (c :: bs).toByteArray.utf8DecodeChar? 0 = some (Char.ofNat c.toNat) := by
  have hnat : c.toNat < 128 := UInt8.lt_iff_toNat_lt.mp hc
  have hchar := toNat_ofNat_ascii c.toNat hnat
  have henc : String.utf8EncodeChar (Char.ofNat c.toNat) = [c] := by
    rw [utf8EncodeChar_of_lt (by omega)]
    refine congrArg (fun x => [x]) (UInt8.toNat_inj.mp ?_)
    rw [toNat_toUInt8 (by omega), hchar]
  have h := utf8DecodeChar?_append (Char.ofNat c.toNat) bs
  rwa [henc] at h

/-- A byte of ASCII stands for itself, whatever is around it. -/
theorem decodeLossyAux_append {a b : List UInt8} {c : UInt8} (hc : c < 128) {fuel fuela fuelb : Nat}
    (hfuel : (a ++ c :: b).length ≤ fuel) (hfuela : a.length ≤ fuela) (hfuelb : b.length ≤ fuelb) :
    decodeLossyAux fuel (a ++ c :: b) =
      decodeLossyAux fuela a ++ Char.ofNat c.toNat :: decodeLossyAux fuelb b := by
  induction fuel generalizing a fuela with
  | zero =>
      rw [List.length_append, List.length_cons] at hfuel
      omega
  | succ fuel ih =>
      rw [List.length_append, List.length_cons] at hfuel
      cases a with
      | nil =>
          have hone : (Char.ofNat c.toNat).utf8Size = 1 := by
            have hnat : c.toNat < 128 := UInt8.lt_iff_toNat_lt.mp hc
            have hchar := toNat_ofNat_ascii c.toNat hnat
            rw [← String.length_utf8EncodeChar, utf8EncodeChar_of_lt (by omega)]
            rfl
          rw [List.length_nil] at hfuel
          have hnil : decodeLossyAux fuela [] = [] := by cases fuela <;> rfl
          rw [hnil, List.nil_append, List.nil_append, decodeLossyAux_cons, utf8DecodeChar?_ascii hc]
          simp only
          rw [hone, List.drop_succ_cons, List.drop_zero, decodeLossyAux_fuel (by omega) hfuelb]
      | cons x a =>
          rw [List.length_cons] at hfuel hfuela
          obtain ⟨f, rfl⟩ : ∃ f, fuela = f + 1 := ⟨fuela - 1, by omega⟩
          have hfirst := utf8DecodeChar?_append_ascii (b := b) (List.cons_ne_nil x a) hc
          rw [List.cons_append] at hfirst ⊢
          rw [decodeLossyAux_cons, decodeLossyAux_cons, hfirst]
          cases hd : (x :: a).toByteArray.utf8DecodeChar? 0 with
          | none =>
              refine congrArg _ (ih ?_ (by omega))
              rw [List.length_append, List.length_cons]
              omega
          | some d =>
              obtain ⟨rest, hrest⟩ := eq_append_of_utf8DecodeChar? hd
              have hpos := d.utf8Size_pos
              have hle : d.utf8Size ≤ (x :: a).length := by
                rw [hrest, List.length_append, String.length_utf8EncodeChar]
                omega
              have hdrop : (x :: (a ++ c :: b)).drop d.utf8Size = (x :: a).drop d.utf8Size ++ c :: b := by
                rw [← List.cons_append, List.drop_append_of_le_length hle]
              simp only
              rw [hdrop, List.cons_append]
              refine congrArg _ (ih ?_ ?_)
              · rw [List.length_append, List.length_drop, List.length_cons, List.length_cons]
                omega
              · rw [List.length_drop, List.length_cons]
                omega

theorem decodeLossy_append (a b : List UInt8) {c : UInt8} (hc : c < 128) :
    decodeLossy (a ++ c :: b) = decodeLossy a ++ Char.ofNat c.toNat :: decodeLossy b :=
  decodeLossyAux_append hc (Nat.le_refl _) (Nat.le_refl _) (Nat.le_refl _)

theorem decodeLossyAux_encode {s : List Char} {fuel : Nat} (h : s.length ≤ fuel) :
    decodeLossyAux fuel (encode s) = s := by
  induction s generalizing fuel with
  | nil => cases fuel <;> rfl
  | cons c s ih =>
      rw [List.length_cons] at h
      obtain ⟨f, rfl⟩ : ∃ f, fuel = f + 1 := ⟨fuel - 1, by omega⟩
      have hfirst := utf8DecodeChar?_append c (encode s)
      rw [encode_cons]
      cases hbs : String.utf8EncodeChar c ++ encode s with
      | nil =>
          have hpos := length_utf8EncodeChar_pos c
          rw [(List.append_eq_nil_iff.mp hbs).1] at hpos
          exact absurd hpos (Nat.lt_irrefl _)
      | cons b rest =>
          rw [hbs] at hfirst
          rw [decodeLossyAux_cons, hfirst, ← hbs]
          simp only
          rw [← String.length_utf8EncodeChar, List.drop_left, ih (by omega)]

@[simp] theorem decodeLossy_encode (s : List Char) : decodeLossy (encode s) = s :=
  decodeLossyAux_encode (length_le_length_encode s)

/-- A character of ASCII comes from its byte only. -/
theorem eq_nil_of_decodeLossy {bs : List UInt8} (h : decodeLossy bs = []) : bs = [] := by
  cases bs with
  | nil => rfl
  | cons b bs =>
      unfold decodeLossy at h
      rw [List.length_cons, decodeLossyAux_cons] at h
      split at h <;> cases h

theorem mem_of_mem_decodeLossyAux {c : Char} (hc : c.toNat < 128) {fuel : Nat} {bs : List UInt8}
    (h : c ∈ decodeLossyAux fuel bs) : c.toUInt8 ∈ bs := by
  induction fuel generalizing bs with
  | zero => cases bs <;> cases h
  | succ fuel ih =>
      cases bs with
      | nil => cases h
      | cons b bs =>
          rw [decodeLossyAux_cons] at h
          cases hd : (b :: bs).toByteArray.utf8DecodeChar? 0 with
          | none =>
              simp only [hd] at h
              rcases List.mem_cons.mp h with rfl | h
              · exact absurd hc (by decide)
              · exact List.mem_cons_of_mem _ (ih h)
          | some d =>
              simp only [hd] at h
              rcases List.mem_cons.mp h with rfl | h
              · obtain ⟨rest, hrest⟩ := eq_append_of_utf8DecodeChar? hd
                rw [hrest, utf8EncodeChar_of_lt hc]
                exact List.mem_cons_self
              · exact List.mem_of_mem_drop (ih h)

theorem mem_of_mem_decodeLossy {c : Char} (hc : c.toNat < 128) {bs : List UInt8}
    (h : c ∈ decodeLossy bs) : c.toUInt8 ∈ bs := mem_of_mem_decodeLossyAux hc h

end Utf8
