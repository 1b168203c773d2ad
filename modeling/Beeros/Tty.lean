import Mathlib.Data.Int.Bitwise
import Mathlib.Tactic.SplitIfs
import Beeros.Beerlang
import Beeros.Utf8

/-! The keystroke decoder of `lib/tty.beer`: bytes of the UART become keystrokes. All bytes are there when they are
read, so a read finds none only at the end of the input. -/

namespace Beeros.Tty

/-- The keywords of `:key`. -/
inductive Key
  | up | down | right | left | home | end | backtab | insert | delete | pageUp | pageDown
  | f1 | f2 | f3 | f4 | f5 | f6 | f7 | f8 | f9 | f10 | f11 | f12
  | enter | tab | backspace | escape | space | unknown
  /-- `(keyword s)`. -/
  | keyword (s : Str)
  deriving DecidableEq

/-- A set of `:shift`, `:alt` and `:ctrl`. -/
structure Mods where
  shift : Bool
  alt : Bool
  ctrl : Bool
  deriving DecidableEq

def noMods : Mods := ⟨false, false, false⟩

def ctrlMods : Mods := ⟨false, false, true⟩

/-- The map of a keystroke: `{:char c}` or `{:key k :mods m}`. -/
structure Keystroke where
  char : Option Str
  key : Option Key
  mods : Option Mods
  deriving DecidableEq

def Keystroke.ofChar (s : Str) : Keystroke := ⟨some s, none, none⟩

def Keystroke.ofKey (k : Key) (mods : Mods) : Keystroke := ⟨none, some k, some mods⟩

/-- `last-byte`, and the bytes that `uart-byte` will give. -/
structure In where
  lastByte : UInt8
  bytes : List UInt8

def ctrlLetter (b : UInt8) : Key := .keyword [Char.ofNat (b.toNat + 96)]

def csiMods : Option Int → Mods
  | none => noMods
  | some p => ⟨(p - 1).testBit 0, (p - 1).testBit 1, (p - 1).testBit 2⟩

def csiFinal (b : UInt8) : Key :=
  if b = 65 then .up else if b = 66 then .down else if b = 67 then .right else if b = 68 then .left
  else if b = 72 then .home else if b = 70 then .end else if b = 90 then .backtab else .unknown

def csiTilde (p : Option Int) : Key :=
  match p with
  | some 1 => .home | some 2 => .insert | some 3 => .delete | some 4 => .end | some 5 => .pageUp
  | some 6 => .pageDown | some 7 => .home | some 8 => .end | some 15 => .f5 | some 17 => .f6 | some 18 => .f7
  | some 19 => .f8 | some 20 => .f9 | some 21 => .f10 | some 23 => .f11 | some 24 => .f12
  | _ => .unknown

def ss3Final (b : UInt8) : Key :=
  if b = 65 then .up else if b = 66 then .down else if b = 67 then .right else if b = 68 then .left
  else if b = 72 then .home else if b = 70 then .end else if b = 80 then .f1 else if b = 81 then .f2
  else if b = 82 then .f3 else if b = 83 then .f4 else .unknown

section Decoder

-- `read-string`: `none` for a form that is no number. `bytes/->string-lossy`: the text of the bytes.
variable (readString : Str → Except Error (Option Int)) (toStringLossy : List UInt8 → Str)

def parseInt (s : Str) : Option Int :=
  match readString s with
  | .ok r => r
  | .error _ => none

def csiKeystroke (params : Str) (b : UInt8) : Keystroke :=
  let ps := (params.splitOn ';').filter (· ≠ [])
  let nums := ps.map (parseInt readString)
  let p1 := nums.headD none
  let mods := csiMods (if nums.length > 1 then nums.getD 1 none else none)
  if b = 126 then .ofKey (csiTilde p1) mods
  else if b = 90 then .ofKey .tab ⟨true, false, false⟩
  else .ofKey (csiFinal b) mods

/-- `decode-csi` with the parameters it has read. -/
def decodeCsi (params : Str) : List UInt8 → Keystroke × List UInt8
  | [] => (.ofKey .escape noMods, [])
  | b :: bytes =>
      if 0x40 ≤ b ∧ b ≤ 0x7E then (csiKeystroke readString params b, bytes)
      else decodeCsi (params ++ [Char.ofNat b.toNat]) bytes

def decodeUtf8 (lead : UInt8) (bytes : List UInt8) : Keystroke × List UInt8 :=
  let n := if lead ≥ 0xF0 then 3 else if lead ≥ 0xE0 then 2 else if lead ≥ 0xC0 then 1 else 0
  -- the loop stops early when no byte is there
  (.ofChar (toStringLossy (lead :: bytes.take n)), bytes.drop n)

mutual

def decodeEscape (st : In) : Keystroke × In :=
  match _h : st.bytes with
  | [] => (.ofKey .escape noMods, st)
  | b :: bytes =>
      if b = 91 then
        let (k, bytes) := decodeCsi readString [] bytes
        (k, { st with bytes := bytes })
      else if b = 79 then
        match bytes with
        | [] => (.ofKey .unknown noMods, { st with bytes := [] })
        | f :: bytes => (.ofKey (ss3Final f) noMods, { st with bytes := bytes })
      else
        let (k, st) := decode b { st with bytes := bytes }
        let k := k.getD ⟨none, none, none⟩
        match k.char with
        | some c => (.ofKey (.keyword c) ⟨false, true, false⟩, st)
        | none => ({ k with mods := some { k.mods.getD noMods with alt := true } }, st)
termination_by (st.bytes.length, 0)
decreasing_by
  simp only [_h, List.length_cons]
  exact Prod.Lex.left _ _ (Nat.lt_succ_self _)

def decode (b : UInt8) (st : In) : Option Keystroke × In :=
  let prev := st.lastByte
  let st := { st with lastByte := b }
  if b = 13 then (some (.ofKey .enter noMods), st)
  else if b = 10 then (if prev ≠ 13 then some (.ofKey .enter noMods) else none, st)
  else if b = 9 then (some (.ofKey .tab noMods), st)
  else if b = 127 ∨ b = 8 then (some (.ofKey .backspace noMods), st)
  else if b = 27 then
    let (k, st) := decodeEscape st
    (some k, st)
  else if b = 0 then (some (.ofKey .space ctrlMods), st)
  else if b < 32 then (some (.ofKey (ctrlLetter b) ctrlMods), st)
  else if b < 128 then (some (.ofChar [Char.ofNat b.toNat]), st)
  else
    let (k, bytes) := decodeUtf8 toStringLossy b st.bytes
    (some k, { st with bytes := bytes })
termination_by (st.bytes.length, 1)

end

/-- The keystrokes that `serial-read-key` returns one after the other until no byte is left. -/
def keystrokes : Nat → In → List Keystroke
  | 0, _ => []
  | fuel + 1, st =>
      match st.bytes with
      | [] => []
      | b :: bytes =>
          let (k, st) := decode readString toStringLossy b { st with bytes := bytes }
          k.toList ++ keystrokes fuel st

end Decoder

/-! ### What xterm sends -/

/-- Keys with a final byte of their own. -/
inductive Cursor
  | up | down | right | left | home | end

def Cursor.key : Cursor → Key
  | up => .up | down => .down | right => .right | left => .left | home => .home | .end => .end

def Cursor.final : Cursor → UInt8
  | up => 65 | down => 66 | right => 67 | left => 68 | home => 72 | .end => 70

/-- Keys with a number before a tilde. -/
inductive Edit
  | insert | delete | pageUp | pageDown | f5 | f6 | f7 | f8 | f9 | f10 | f11 | f12

def Edit.key : Edit → Key
  | insert => .insert | delete => .delete | pageUp => .pageUp | pageDown => .pageDown
  | f5 => .f5 | f6 => .f6 | f7 => .f7 | f8 => .f8 | f9 => .f9 | f10 => .f10 | f11 => .f11 | f12 => .f12

def Edit.number : Edit → Nat
  | insert => 2 | delete => 3 | pageUp => 5 | pageDown => 6
  | f5 => 15 | f6 => 17 | f7 => 18 | f8 => 19 | f9 => 20 | f10 => 21 | f11 => 23 | f12 => 24

/-- Function keys that are sent as SS3. -/
inductive Function
  | f1 | f2 | f3 | f4

def Function.key : Function → Key
  | f1 => .f1 | f2 => .f2 | f3 => .f3 | f4 => .f4

def Function.final : Function → UInt8
  | f1 => 80 | f2 => 81 | f3 => 82 | f4 => 83

/-- The letters whose control codes are no keys of their own. -/
def chordLetters : Str := "abcdefgklnopqrstuvwxyz".toList

def chordSigns : Str := "]^_".toList

inductive Stroke
  | text (c : Char) (h : ' ' ≤ c ∧ c ≠ '\x7f')
  | enter (lf : Bool)
  | tab
  | backspace (del : Bool)
  | ctrlSpace
  | ctrl (c : Char) (h : c ∈ chordLetters ++ chordSigns)
  | cursor (k : Cursor) (mods : Mods)
  | edit (k : Edit) (mods : Mods)
  | function (k : Function)
  | alt (c : Char) (h : ' ' ≤ c ∧ c < '\x7f' ∧ c ≠ '[' ∧ c ≠ 'O')

def Stroke.keystroke : Stroke → Keystroke
  | text c _ => .ofChar [c]
  | enter _ => .ofKey .enter noMods
  | tab => .ofKey .tab noMods
  | backspace _ => .ofKey .backspace noMods
  | ctrlSpace => .ofKey .space ctrlMods
  | ctrl c _ => .ofKey (.keyword [c]) ctrlMods
  | cursor k mods => .ofKey k.key mods
  | edit k mods => .ofKey k.key mods
  | function k => .ofKey k.key noMods
  | alt c _ => .ofKey (.keyword [c]) ⟨false, true, false⟩

/-- xterm's modifier parameter. -/
def modifier (m : Mods) : Nat := 1 + m.shift.toNat + 2 * m.alt.toNat + 4 * m.ctrl.toNat

def csiText (ns : List Nat) : Str := [';'].intercalate (ns.map Beerlang.decimal)

def csiBytes (ns : List Nat) (final : UInt8) : List UInt8 := 27 :: 91 :: (Utf8.encode (csiText ns) ++ [final])

def Stroke.bytes : Stroke → List UInt8
  | text c _ => Utf8.encode [c]
  | enter lf => if lf then [13, 10] else [13]
  | tab => [9]
  | backspace del => if del then [127] else [8]
  | ctrlSpace => [0]
  | ctrl c _ => [c.toUInt8 &&& 0x1F]
  | cursor k mods => csiBytes (if mods = noMods then [] else [1, modifier mods]) k.final
  | edit k mods => csiBytes (if mods = noMods then [k.number] else [k.number, modifier mods]) 126
  | function k => [27, 79, k.final]
  | alt c _ => [27, c.toUInt8]

/-- The chords that `ctrl-letter` takes for letters after `z`. -/
def Stroke.IsSign : Stroke → Prop
  | ctrl c _ => c ∈ chordSigns
  | _ => False

section Inverse

variable {readString : Str → Except Error (Option Int)} {toStringLossy : List UInt8 → Str}
  {c : Char} {s : Str} {b last : UInt8} {rest : List UInt8} {ns : List Nat}

/-! ### Control sequences -/

theorem decodeCsi_text (hs : ∀ c ∈ s, c.isDigit = true ∨ c = ';') (hb : 0x40 ≤ b ∧ b ≤ 0x7E) (params : Str) :
    decodeCsi readString params (Utf8.encode s ++ b :: rest) = (csiKeystroke readString (params ++ s) b, rest) := by
  induction s generalizing params with
  | nil =>
      rw [List.append_nil]
      exact if_pos hb
  | cons c s ih =>
      have hc : 48 ≤ c.toNat ∧ c.toNat ≤ 59 := by
        rcases hs c (List.mem_cons_self ..) with hd | rfl
        · have hdigit : 48 ≤ c.toNat ∧ c.toNat ≤ 57 := Char.isDigit_iff_toNat.mp hd
          omega
        · decide
      have hlt : c.toNat < 128 := by omega
      rw [Utf8.encode_cons, Utf8.utf8EncodeChar_of_lt hlt]
      show decodeCsi readString params (c.toUInt8 :: (Utf8.encode s ++ b :: rest)) = _
      have hnot : ¬(0x40 ≤ c.toUInt8 ∧ c.toUInt8 ≤ 0x7E) := by
        rw [UInt8.le_iff_toNat_le, Utf8.toNat_toUInt8 hlt]
        intro h
        have h40 : 64 ≤ c.toNat := h.1
        omega
      rw [decodeCsi, if_neg hnot, Utf8.toNat_toUInt8 hlt, Char.ofNat_toNat,
        ih fun d hd => hs d (List.mem_cons_of_mem _ hd), List.append_assoc]
      rfl

/-- The numbers of a control sequence. -/
theorem params_csiText : ((csiText ns).splitOn ';').filter (· ≠ []) = ns.map Beerlang.decimal := by
  cases ns with
  | nil => rfl
  | cons n ns =>
      unfold csiText
      rw [Beerlang.splitOn_intercalate_decimal (by decide) (List.cons_ne_nil n ns), List.filter_eq_self]
      intro l hl
      obtain ⟨m, -, rfl⟩ := List.mem_map.mp hl
      exact decide_eq_true Nat.toDigits_ne_nil

theorem csiKeystroke_csiText (hread : ∀ n, readString (Beerlang.decimal n) = .ok (some n)) :
    csiKeystroke readString (csiText ns) b =
      if b = 126 then .ofKey (csiTilde (ns.head?.map Int.ofNat)) (csiMods (ns[1]?.map Int.ofNat))
      else if b = 90 then .ofKey .tab ⟨true, false, false⟩
      else .ofKey (csiFinal b) (csiMods (ns[1]?.map Int.ofNat)) := by
  have hnums : (ns.map Beerlang.decimal).map (parseInt readString) = ns.map fun n => some (Int.ofNat n) := by
    rw [List.map_map]
    refine List.map_congr_left fun n _ => ?_
    show parseInt readString (Beerlang.decimal n) = _
    rw [parseInt, hread]
    rfl
  unfold csiKeystroke
  dsimp only
  rw [params_csiText, hnums]
  cases ns with
  | nil => rfl
  | cons n ns =>
      cases ns with
      | nil => rfl
      | cons n' ns => rfl

theorem csiMods_modifier (m : Mods) : csiMods (some (modifier m)) = m := by
  obtain ⟨s, a, c⟩ := m
  cases s <;> cases a <;> cases c <;> rfl

theorem decode_csi (hb : 0x40 ≤ b ∧ b ≤ 0x7E) :
    decode readString toStringLossy 27 ⟨last, 91 :: (Utf8.encode (csiText ns) ++ [b] ++ rest)⟩ =
      (some (csiKeystroke readString (csiText ns) b), ⟨27, rest⟩) := by
  have hesc : decodeEscape readString toStringLossy ⟨27, 91 :: (Utf8.encode (csiText ns) ++ [b] ++ rest)⟩ =
      (csiKeystroke readString (csiText ns) b, ⟨27, rest⟩) := by
    rw [decodeEscape]
    show (let (k, bytes) := decodeCsi readString [] (Utf8.encode (csiText ns) ++ [b] ++ rest);
      ((k, ⟨27, bytes⟩) : Keystroke × In)) = _
    rw [List.append_assoc, List.singleton_append, decodeCsi_text (s := csiText ns) (fun c => Beerlang.mem_intercalate_decimal) hb]
    rfl
  rw [decode]
  show (let (k, st) := decodeEscape readString toStringLossy ⟨27, _⟩; (some k, st)) = _
  rw [hesc]

/-! ### One keystroke -/

/-- What is decoded: the signs come out as other characters. -/
def Stroke.decoded : Stroke → Keystroke
  | ctrl c _ => .ofKey (ctrlLetter (c.toUInt8 &&& 0x1F)) ctrlMods
  | k => k.keystroke

theorem decode_ascii (hc : ' ' ≤ c ∧ c < '\x7f') :
    decode readString toStringLossy c.toUInt8 ⟨last, rest⟩ = (some (.ofChar [c]), ⟨c.toUInt8, rest⟩) := by
  have hle : 32 ≤ c.toNat := hc.1
  have hlt : c.toNat < 127 := hc.2
  have hb : c.toUInt8.toNat = c.toNat := Utf8.toNat_toUInt8 (Nat.lt_trans hlt (by decide))
  have hne : ∀ b : UInt8, b.toNat < 32 ∨ b.toNat = 127 → c.toUInt8 ≠ b := by
    rintro b hor rfl
    omega
  have h32 : ¬c.toUInt8 < 32 := by
    rw [UInt8.lt_iff_toNat_lt, hb]
    exact Nat.not_lt.mpr hle
  have h128 : c.toUInt8 < 128 := by
    rw [UInt8.lt_iff_toNat_lt, hb]
    exact Nat.lt_trans hlt (by decide)
  have hback : ¬(c.toUInt8 = 127 ∨ c.toUInt8 = 8) := by
    rintro (h | h)
    · exact hne 127 (by decide) h
    · exact hne 8 (by decide) h
  rw [decode]
  dsimp only
  rw [if_neg (hne 13 (by decide)), if_neg (hne 10 (by decide)), if_neg (hne 9 (by decide)), if_neg hback,
    if_neg (hne 27 (by decide)), if_neg (hne 0 (by decide)), if_neg h32, if_pos h128, hb, Char.ofNat_toNat]

theorem decode_text (hlossy : ∀ s, toStringLossy (Utf8.encode s) = s) (hc : ' ' ≤ c ∧ c ≠ '\x7f') :
    ∃ b bytes last', Utf8.encode [c] = b :: bytes ∧
      decode readString toStringLossy b ⟨last, bytes ++ rest⟩ = (some (.ofChar [c]), ⟨last', rest⟩) := by
  have hencode : Utf8.encode [c] = String.utf8EncodeChar c := by
    rw [Utf8.encode_cons, Utf8.encode_nil, List.append_nil]
  by_cases hlt : c.toNat < 128
  · refine ⟨c.toUInt8, [], c.toUInt8, by rw [hencode, Utf8.utf8EncodeChar_of_lt hlt], decode_ascii ⟨hc.1, ?_⟩⟩
    have hne : c.toNat ≠ 127 := fun h => hc.2 (Char.toNat_inj.mp h)
    show c.toNat < 127
    omega
  · obtain ⟨b, bs, hshape, -, hlen, -⟩ := Utf8.utf8EncodeChar_shape c
    have hle : 128 ≤ b := Utf8.le_of_mem_utf8EncodeChar (Nat.le_of_not_lt hlt) (hshape ▸ List.mem_cons_self ..)
    have hn : (if b ≥ 0xF0 then 3 else if b ≥ 0xE0 then 2 else if b ≥ 0xC0 then 1 else 0) = bs.length := by
      unfold Utf8.seqLength at hlen
      split_ifs at hlen ⊢ <;> omega
    have hutf8 : decodeUtf8 toStringLossy b (bs ++ rest) = (.ofChar [c], rest) := by
      unfold decodeUtf8
      dsimp only
      rw [hn, List.take_left, List.drop_left, ← hshape, ← hencode, hlossy]
    have hnot : ∀ x : UInt8, x.toNat < 128 → b ≠ x := by
      rintro x hx rfl
      exact absurd (UInt8.le_iff_toNat_le.mp hle) (Nat.not_le.mpr hx)
    have hback : ¬(b = 127 ∨ b = 8) := by
      rintro (h | h)
      · exact hnot 127 (by decide) h
      · exact hnot 8 (by decide) h
    have h32 : ¬b < 32 := fun h => by
      have h128 := UInt8.le_iff_toNat_le.mp hle
      have h32 := UInt8.lt_iff_toNat_lt.mp h
      exact absurd (Nat.lt_of_le_of_lt h128 h32) (by decide)
    refine ⟨b, bs, b, hencode.trans hshape, ?_⟩
    rw [decode]
    dsimp only
    rw [if_neg (hnot 13 (by decide)), if_neg (hnot 10 (by decide)), if_neg (hnot 9 (by decide)), if_neg hback,
      if_neg (hnot 27 (by decide)), if_neg (hnot 0 (by decide)), if_neg h32, if_neg (UInt8.not_lt.mpr hle), hutf8]

theorem decode_ctrl (hc : c ∈ chordLetters ++ chordSigns) :
    decode readString toStringLossy (c.toUInt8 &&& 0x1F) ⟨last, rest⟩ =
      (some (.ofKey (ctrlLetter (c.toUInt8 &&& 0x1F)) ctrlMods), ⟨c.toUInt8 &&& 0x1F, rest⟩) := by
  have hcode : ∀ c ∈ chordLetters ++ chordSigns, c.toUInt8 &&& 0x1F < 32 ∧
      [13, 10, 9, 127, 8, 27, 0].all fun b => c.toUInt8 &&& 0x1F ≠ b := List.all_iff_forall_prop.mp (by decide)
  obtain ⟨h32, hall⟩ := hcode c hc
  have hne := List.all_iff_forall_prop.mp hall
  have hback : ¬(c.toUInt8 &&& 0x1F = 127 ∨ c.toUInt8 &&& 0x1F = 8) := by
    rintro (h | h)
    · exact hne 127 (by decide) h
    · exact hne 8 (by decide) h
  rw [decode]
  dsimp only
  rw [if_neg (hne 13 (by decide)), if_neg (hne 10 (by decide)), if_neg (hne 9 (by decide)), if_neg hback,
    if_neg (hne 27 (by decide)), if_neg (hne 0 (by decide)), if_pos h32]

theorem decode_alt (hc : ' ' ≤ c ∧ c < '\x7f' ∧ c ≠ '[' ∧ c ≠ 'O') :
    decode readString toStringLossy 27 ⟨last, c.toUInt8 :: rest⟩ =
      (some (.ofKey (.keyword [c]) ⟨false, true, false⟩), ⟨c.toUInt8, rest⟩) := by
  have hlt : c.toNat < 128 := Nat.lt_trans (show c.toNat < 127 from hc.2.1) (by decide)
  have hesc : decodeEscape readString toStringLossy ⟨27, c.toUInt8 :: rest⟩ =
      (.ofKey (.keyword [c]) ⟨false, true, false⟩, ⟨c.toUInt8, rest⟩) := by
    have h91 : c.toUInt8 ≠ 91 := fun h => hc.2.2.1 ((Utf8.toUInt8_inj hlt (by decide)).mp h)
    have h79 : c.toUInt8 ≠ 79 := fun h => hc.2.2.2 ((Utf8.toUInt8_inj hlt (by decide)).mp h)
    rw [decodeEscape]
    dsimp only
    rw [if_neg h91, if_neg h79, decode_ascii ⟨hc.1, hc.2.1⟩]
    rfl
  rw [decode]
  show (let (k, st) := decodeEscape readString toStringLossy ⟨27, _⟩; (some k, st)) = _
  rw [hesc]

theorem csiKeystroke_cursor (hread : ∀ n, readString (Beerlang.decimal n) = .ok (some n)) (k : Cursor) (mods : Mods) :
    csiKeystroke readString (csiText (if mods = noMods then [] else [1, modifier mods])) k.final = .ofKey k.key mods := by
  have hkey : csiFinal k.final = k.key ∧ k.final ≠ 126 ∧ k.final ≠ 90 := by cases k <;> decide
  have hmods : csiMods ((if mods = noMods then [] else [1, modifier mods])[1]?.map Int.ofNat) = mods := by
    split_ifs with h
    · rw [h]
      rfl
    · exact csiMods_modifier mods
  rw [csiKeystroke_csiText hread, if_neg hkey.2.1, if_neg hkey.2.2, hkey.1, hmods]

theorem csiKeystroke_edit (hread : ∀ n, readString (Beerlang.decimal n) = .ok (some n)) (k : Edit) (mods : Mods) :
    csiKeystroke readString (csiText (if mods = noMods then [k.number] else [k.number, modifier mods])) 126 =
      .ofKey k.key mods := by
  have hkey : csiTilde (some k.number) = k.key := by cases k <;> rfl
  rw [csiKeystroke_csiText hread, if_pos rfl]
  split_ifs with h
  · rw [h]
    exact congrArg (Keystroke.ofKey · noMods) hkey
  · show Keystroke.ofKey (csiTilde (some k.number)) (csiMods (some (modifier mods))) = _
    rw [hkey, csiMods_modifier]

theorem decode_function (k : Function) :
    decode readString toStringLossy 27 ⟨last, 79 :: k.final :: rest⟩ = (some (.ofKey k.key noMods), ⟨27, rest⟩) := by
  have hesc : decodeEscape readString toStringLossy ⟨27, 79 :: k.final :: rest⟩ =
      (.ofKey k.key noMods, ⟨27, rest⟩) := by
    rw [decodeEscape]
    cases k <;> rfl
  rw [decode]
  show (let (k, st) := decodeEscape readString toStringLossy ⟨27, _⟩; (some k, st)) = _
  rw [hesc]

/-- Where the bytes of a stroke begin, some calls of `decode` give its keystroke and leave what follows. -/
theorem keystrokes_stroke (hread : ∀ n, readString (Beerlang.decimal n) = .ok (some n))
    (hlossy : ∀ s, toStringLossy (Utf8.encode s) = s) (k : Stroke) (last : UInt8) (rest : List UInt8) :
    ∃ n last', 0 < n ∧ n ≤ k.bytes.length ∧ ∀ fuel, keystrokes readString toStringLossy (fuel + n) ⟨last, k.bytes ++ rest⟩ =
      k.decoded :: keystrokes readString toStringLossy fuel ⟨last', rest⟩ := by
  have hone : ∀ {b bytes last'}, k.bytes = b :: bytes →
      decode readString toStringLossy b ⟨last, bytes ++ rest⟩ = (some k.decoded, ⟨last', rest⟩) →
      ∃ n last', 0 < n ∧ n ≤ k.bytes.length ∧ ∀ fuel,
        keystrokes readString toStringLossy (fuel + n) ⟨last, k.bytes ++ rest⟩ =
          k.decoded :: keystrokes readString toStringLossy fuel ⟨last', rest⟩ := by
    intro b bytes last' hbytes hdec
    refine ⟨1, last', Nat.one_pos, by rw [hbytes]; exact Nat.succ_pos _, fun fuel => ?_⟩
    rw [hbytes]
    show (let (k, st) := decode readString toStringLossy b ⟨last, bytes ++ rest⟩;
      k.toList ++ keystrokes readString toStringLossy fuel st) = _
    rw [hdec]
    rfl
  cases k with
  | text c hc =>
      obtain ⟨b, bytes, last', hbytes, hdec⟩ := decode_text hlossy hc
      exact hone hbytes hdec
  | enter lf =>
      cases lf with
      | false => exact hone rfl (by rw [decode]; rfl)
      | true =>
          -- the LF of a CR LF is skipped
          refine ⟨2, 10, by decide, Nat.le_refl 2, fun fuel => ?_⟩
          show (let (k, st) := decode readString toStringLossy 13 ⟨last, 10 :: rest⟩;
            k.toList ++ keystrokes readString toStringLossy (fuel + 1) st) = _
          have hcr : decode readString toStringLossy 13 ⟨last, 10 :: rest⟩ =
              (some (.ofKey .enter noMods), ⟨13, 10 :: rest⟩) := by rw [decode]; rfl
          have hlf : decode readString toStringLossy 10 ⟨13, rest⟩ = (none, ⟨10, rest⟩) := by rw [decode]; rfl
          rw [hcr]
          show Keystroke.ofKey .enter noMods :: (let (k, st) := decode readString toStringLossy 10 ⟨13, rest⟩;
            k.toList ++ keystrokes readString toStringLossy fuel st) = _
          rw [hlf]
          rfl
  | tab => exact hone rfl (by rw [decode]; rfl)
  | backspace del => cases del <;> exact hone rfl (by rw [decode]; rfl)
  | ctrlSpace => exact hone rfl (by rw [decode]; rfl)
  | ctrl c hc => exact hone rfl (decode_ctrl hc)
  | cursor k mods =>
      have hfinal : 0x40 ≤ k.final ∧ k.final ≤ 0x7E := by cases k <;> decide
      have hdec : decode readString toStringLossy 27 ⟨last, _⟩ = (some (.ofKey k.key mods), ⟨27, rest⟩) :=
        (decode_csi hfinal).trans (by rw [csiKeystroke_cursor hread])
      exact hone rfl hdec
  | edit k mods =>
      have hfinal : (0x40 : UInt8) ≤ 126 ∧ (126 : UInt8) ≤ 0x7E := by decide
      have hdec : decode readString toStringLossy 27 ⟨last, _⟩ = (some (.ofKey k.key mods), ⟨27, rest⟩) :=
        (decode_csi hfinal).trans (by rw [csiKeystroke_edit hread])
      exact hone rfl hdec
  | function k => exact hone rfl (decode_function k)
  | alt c hc => exact hone rfl (decode_alt hc)

theorem keystrokes_strokes (hread : ∀ n, readString (Beerlang.decimal n) = .ok (some n))
    (hlossy : ∀ s, toStringLossy (Utf8.encode s) = s) (ks : List Stroke) {fuel : Nat} (last : UInt8)
    (hfuel : (ks.flatMap Stroke.bytes).length ≤ fuel) :
    keystrokes readString toStringLossy fuel ⟨last, ks.flatMap Stroke.bytes⟩ = ks.map Stroke.decoded := by
  induction ks generalizing fuel last with
  | nil => cases fuel <;> rfl
  | cons k ks ih =>
      obtain ⟨n, last', -, hn, hstep⟩ := keystrokes_stroke hread hlossy k last (ks.flatMap Stroke.bytes)
      rw [List.flatMap_cons, List.length_append] at hfuel
      obtain ⟨f, rfl⟩ : ∃ f, fuel = f + n := ⟨fuel - n, by omega⟩
      rw [List.flatMap_cons, hstep, ih last' (by omega)]
      rfl

theorem decoded_eq_iff (k : Stroke) : k.decoded = k.keystroke ↔ ¬k.IsSign := by
  cases k with
  | ctrl c hc =>
      have hletters : ∀ c ∈ chordLetters, ctrlLetter (c.toUInt8 &&& 0x1F) = .keyword [c] ∧ c ∉ chordSigns :=
        List.all_iff_forall_prop.mp (by decide)
      have hsigns : ∀ c ∈ chordSigns, ctrlLetter (c.toUInt8 &&& 0x1F) ≠ .keyword [c] :=
        List.all_iff_forall_prop.mp (by decide)
      show Keystroke.ofKey _ _ = Keystroke.ofKey _ _ ↔ c ∉ chordSigns
      rcases List.mem_append.mp hc with hc | hc
      · rw [(hletters c hc).1]
        exact iff_of_true rfl (hletters c hc).2
      · refine iff_of_false (fun h => hsigns c hc ?_) fun h => h hc
        exact Option.some.inj (congrArg Keystroke.key h)
  | _ => exact iff_of_true rfl nofun

/-- Decoding what xterm sends gives the keystrokes back exactly when none of them is one of C-] C-^ C-_. -/
theorem keystrokes_eq_iff (hread : ∀ n, readString (Beerlang.decimal n) = .ok (some n))
    (hlossy : ∀ s, toStringLossy (Utf8.encode s) = s) (ks : List Stroke) {fuel : Nat} (last : UInt8)
    (hfuel : (ks.flatMap Stroke.bytes).length ≤ fuel) :
    keystrokes readString toStringLossy fuel ⟨last, ks.flatMap Stroke.bytes⟩ = ks.map Stroke.keystroke ↔
      ∀ k ∈ ks, ¬k.IsSign := by
  rw [keystrokes_strokes hread hlossy ks last hfuel, List.map_inj_left]
  exact forall₂_congr fun k _ => decoded_eq_iff k

end Inverse

/-- Reads texts of digits, and no others are read here. -/
def readDigits (s : Str) : Except Error (Option Int) := .ok (some (Nat.ofDigitChars 10 s 0))

def lossy (bs : List UInt8) : Str := (Utf8.decode bs).getD []

theorem readDigits_decimal (n : Nat) : readDigits (Beerlang.decimal n) = .ok (some n) := by
  unfold readDigits Beerlang.decimal
  rw [Nat.ofDigitChars_ten_toDigits]

theorem lossy_encode (s : Str) : lossy (Utf8.encode s) = s := by
  unfold lossy
  rw [Utf8.decode_encode]
  rfl

/-- C-Right, CR LF and a lambda. -/
def someStrokes : List Stroke := [.cursor .right ctrlMods, .enter true, .text 'λ' (by decide)]

theorem keystrokes_eq_iff_someStrokes :
    keystrokes readDigits lossy 10 ⟨0, someStrokes.flatMap Stroke.bytes⟩ =
      [.ofKey .right ctrlMods, .ofKey .enter noMods, .ofChar ['λ']] := by
  refine (keystrokes_eq_iff readDigits_decimal lossy_encode someStrokes 0 (by decide)).mpr fun k hk => ?_
  simp only [someStrokes, List.mem_cons, List.not_mem_nil, or_false] at hk
  rcases hk with rfl | rfl | rfl <;> exact nofun

/-- C-_ comes out as the chord of DEL. -/
theorem not_keystrokes_underscore :
    keystrokes readDigits lossy 1 ⟨0, (Stroke.ctrl '_' (by decide)).bytes⟩ ≠
      [(Stroke.ctrl '_' (by decide)).keystroke] := by
  have hdec : decode readDigits lossy 31 ⟨0, []⟩ = (some (.ofKey (.keyword ['\x7f']) ctrlMods), ⟨31, []⟩) := by
    rw [decode]
    rfl
  show (let (k, st) := decode readDigits lossy 31 ⟨0, []⟩; k.toList ++ keystrokes readDigits lossy 0 st) ≠ _
  rw [hdec]
  decide

end Beeros.Tty
