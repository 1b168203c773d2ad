import Mathlib.Tactic.Ring
import Beeros.Ustar

/-! Archives as they are written, and what `index` makes of them: the name of an entry stands in its header, or in a
GNU long-name header or a pax header before it. -/

namespace Beeros.Ustar

/-! ### Fields -/

variable {a b f : List UInt8} {buf : List UInt8} {off i : Int} {s : Str} {x : UInt8}
  {readString : Str → Except Failure Form} {toStringLossy : List UInt8 → Str}

theorem u8_append (h : i = a.length) : u8 (a ++ x :: b) i = .ok x := by
  subst h
  unfold u8
  rw [if_neg (Int.not_lt.mpr (Int.natCast_nonneg _)), Int.toNat_natCast, List.getElem?_append_right (Nat.le_refl _),
    Nat.sub_self]
  rfl

theorem cstringLength_append (h : off + i = a.length) :
    cstringLength (a ++ (f ++ b)) off f.length i = .ok (i + (f.takeWhile (· ≠ 0)).length) := by
  induction f generalizing a i with
  | nil => exact congrArg Except.ok (Int.add_zero i).symm
  | cons x f ih =>
      rw [List.length_cons, cstringLength, List.cons_append, u8_append h]
      show (if x ≠ 0 then _ else _) = _
      split_ifs with hx
      · have happ : a ++ x :: (f ++ b) = (a ++ [x]) ++ (f ++ b) := by rw [List.append_assoc]; rfl
        rw [happ, ih (by rw [List.length_append, List.length_singleton]; omega),
          List.takeWhile_cons_of_pos (by exact decide_eq_true hx), List.length_cons]
        exact congrArg Except.ok (by push_cast; omega)
      · rw [List.takeWhile_cons_of_neg (by simpa using hx)]
        exact congrArg Except.ok (Int.add_zero i).symm

/-- A field is read up to its first zero byte, or whole. -/
theorem cstring_append {len : Int} (h : off = a.length) (hlen : len = f.length) :
    cstring (a ++ (f ++ b)) toStringLossy off len = .ok (toStringLossy (f.takeWhile (· ≠ 0))) := by
  have hle : (f.takeWhile (· ≠ 0)).length ≤ f.length := (List.takeWhile_prefix _).length_le
  have htake : (f ++ b).take (f.takeWhile (· ≠ 0)).length = f.takeWhile (· ≠ 0) := by
    rw [List.take_append_of_le_length hle]
    exact (List.prefix_iff_eq_take.mp (List.takeWhile_prefix _)).symm
  unfold cstring
  rw [hlen, Int.toNat_natCast, cstringLength_append (by omega), Beerlang.ok_bind, Int.zero_add, h, slice_ok (by omega) (by omega),
    Beerlang.ok_bind, Int.toNat_natCast, Int.toNat_natCast, List.drop_left, htake]
  · rfl
  · rw [List.length_append, List.length_append]
    omega

theorem slice_append {start len : Int} (h : start = a.length) (hlen : len = f.length) :
    slice (a ++ (f ++ b)) start len = .ok f := by
  rw [h, hlen, slice_ok (by omega) (by omega), Int.toNat_natCast, Int.toNat_natCast, List.drop_left, List.take_left]
  rw [List.length_append, List.length_append]
  omega

/-- What `octal` makes of a field. -/
def octalValue : List UInt8 → Nat → Bool → Nat
  | [], v, _ => v
  | x :: f, v, seen =>
      if 48 ≤ x ∧ x ≤ 55 then octalValue f (v * 8 + (x.toNat - 48)) true
      else if x = 32 ∧ seen = false then octalValue f v false
      else v

theorem octalLoop_append {v : Nat} {seen : Bool} (h : off + i = a.length) :
    octalLoop (a ++ (f ++ b)) off f.length i v seen = .ok (octalValue f v seen) := by
  induction f generalizing a i v seen with
  | nil => rfl
  | cons x f ih =>
      have happ : a ++ x :: (f ++ b) = (a ++ [x]) ++ (f ++ b) := by rw [List.append_assoc]; rfl
      have hlen : off + (i + 1) = ((a ++ [x]).length : Int) := by
        rw [List.length_append, List.length_singleton]
        omega
      rw [List.length_cons, octalLoop, List.cons_append, u8_append h, octalValue]
      show (if 48 ≤ x ∧ x ≤ 55 then _ else if x = 32 ∧ seen = false then _ else _) = _
      split_ifs
      · rw [happ, ih hlen]
      · rw [happ, ih hlen]
      · rfl

theorem octal_append {len : Nat} (h : off = a.length) (hlen : len = f.length) :
    octal (a ++ (f ++ b)) off len = .ok (octalValue f 0 false) := by
  rw [hlen]
  exact octalLoop_append (by omega)

theorem zeroLoop_append (h : off + i = a.length) :
    zeroLoop (a ++ (f ++ b)) off f.length i = .ok (f.all (· = 0)) := by
  induction f generalizing a i with
  | nil => rfl
  | cons x f ih =>
      rw [List.length_cons, zeroLoop, List.cons_append, u8_append h, List.all_cons]
      show (if x ≠ 0 then _ else _) = _
      split_ifs with hx
      · rw [decide_eq_false hx]
        rfl
      · have happ : a ++ x :: (f ++ b) = (a ++ [x]) ++ (f ++ b) := by rw [List.append_assoc]; rfl
        rw [happ, ih (by rw [List.length_append, List.length_singleton]; omega),
          decide_eq_true (not_not.mp hx), Bool.true_and]

/-- The field holds the text, whole or ended by a zero byte. -/
def Holds (f : List UInt8) (s : Str) : Prop :=
  '\x00' ∉ s ∧ ∃ tail, f = Utf8.encode s ++ tail ∧ (tail = [] ∨ tail.head? = some 0)

theorem zero_not_mem_encode (h : '\x00' ∉ s) : (0 : UInt8) ∉ Utf8.encode s := by
  intro hmem
  obtain ⟨c, hc, hmem⟩ := List.mem_flatMap.mp hmem
  by_cases hlt : c.toNat < 128
  · rw [Utf8.utf8EncodeChar_of_lt hlt, List.mem_singleton] at hmem
    have heq : '\x00' = c := (Utf8.toUInt8_inj (by decide) hlt).mp hmem
    exact h (heq ▸ hc)
  · exact absurd (Utf8.le_of_mem_utf8EncodeChar (Nat.le_of_not_lt hlt) hmem) (by decide)

theorem takeWhile_holds (h : Holds f s) : f.takeWhile (· ≠ 0) = Utf8.encode s := by
  obtain ⟨h0, tail, rfl, htail⟩ := h
  have hne : ∀ x ∈ Utf8.encode s, decide (x ≠ 0) = true := by
    intro x hx
    refine decide_eq_true ?_
    rintro rfl
    exact zero_not_mem_encode h0 hx
  rw [List.takeWhile_append_of_pos hne]
  have hnil : tail.takeWhile (· ≠ 0) = [] := by
    cases tail with
    | nil => rfl
    | cons x tail =>
        obtain rfl : x = 0 := Option.some.inj (htail.resolve_left (List.cons_ne_nil x tail))
        rfl
  rw [hnil, List.append_nil]

/-- The field holds the number in octal, after spaces and up to a byte that is no octal digit. -/
def OctalField (f : List UInt8) (n : Nat) : Prop :=
  ∃ spaces digits tail, f = List.replicate spaces 32 ++ (digits ++ tail) ∧ digits ≠ [] ∧
    (∀ x ∈ digits, 48 ≤ x ∧ x ≤ 55) ∧ (∀ x, tail.head? = some x → ¬(48 ≤ x ∧ x ≤ 55)) ∧
    digits.foldl (fun v x => v * 8 + (x.toNat - 48)) 0 = n

theorem octalValue_tail {v : Nat} (h : ∀ x, f.head? = some x → ¬(48 ≤ x ∧ x ≤ 55)) : octalValue f v true = v := by
  cases f with
  | nil => rfl
  | cons x f =>
      rw [octalValue, if_neg (h x rfl), if_neg fun h => by cases h.2]

theorem octalValue_digits {digits tail : List UInt8} {v : Nat} (hdigits : ∀ x ∈ digits, 48 ≤ x ∧ x ≤ 55)
    (htail : ∀ x, tail.head? = some x → ¬(48 ≤ x ∧ x ≤ 55)) :
    octalValue (digits ++ tail) v true = digits.foldl (fun v x => v * 8 + (x.toNat - 48)) v := by
  induction digits generalizing v with
  | nil => exact octalValue_tail htail
  | cons x digits ih =>
      rw [List.cons_append, octalValue, if_pos (hdigits x (List.mem_cons_self ..)), List.foldl_cons]
      exact ih fun y hy => hdigits y (List.mem_cons_of_mem _ hy)

theorem octalValue_octalField {n : Nat} (h : OctalField f n) : octalValue f 0 false = n := by
  obtain ⟨spaces, digits, tail, rfl, hne, hdigits, htail, rfl⟩ := h
  induction spaces with
  | zero =>
      cases digits with
      | nil => exact absurd rfl hne
      | cons x digits =>
          show octalValue (x :: (digits ++ tail)) 0 false = _
          rw [octalValue, if_pos (hdigits x (List.mem_cons_self ..)), List.foldl_cons]
          exact octalValue_digits (fun y hy => hdigits y (List.mem_cons_of_mem _ hy)) htail
  | succ spaces ih =>
      rw [List.replicate_succ, List.cons_append, octalValue, if_neg (by decide), if_pos ⟨rfl, rfl⟩]
      exact ih

theorem not_all_zero_of_octalField {n : Nat} (h : OctalField f n) : f.all (· = 0) = false := by
  obtain ⟨spaces, digits, tail, rfl, hne, hdigits, -, -⟩ := h
  obtain ⟨x, digits, rfl⟩ := List.exists_cons_of_ne_nil hne
  rw [List.all_eq_false]
  refine ⟨x, List.mem_append_right _ (List.mem_cons_self ..), fun hx => ?_⟩
  rw [of_decide_eq_true hx] at hdigits
  exact absurd (hdigits 0 (List.mem_cons_self ..)).1 (by decide)

/-! ### Headers -/

inductive Magic
  /-- `ustar` and a zero byte: the name may be split. -/
  | posix
  /-- `ustar` and a space. -/
  | gnu
  | v7

def Magic.bytes : Magic → List UInt8
  | posix => Utf8.encode "ustar".toList ++ [0]
  | gnu => Utf8.encode "ustar ".toList
  | v7 => List.replicate 6 0

/-- A block of 512 bytes; `ids`, `times`, `link`, `owner` and `pad` are not read. -/
structure Header where
  name : List UInt8
  ids : List UInt8
  size : List UInt8
  times : List UInt8
  flag : UInt8
  link : List UInt8
  magic : Magic
  owner : List UInt8
  pre : List UInt8
  pad : List UInt8
  length_name : name.length = 100
  length_ids : ids.length = 24
  length_size : size.length = 12
  length_times : times.length = 20
  length_link : link.length = 100
  length_owner : owner.length = 82
  length_pre : pre.length = 155
  length_pad : pad.length = 12

def Header.bytes (h : Header) : List UInt8 :=
  h.name ++ (h.ids ++ (h.size ++ (h.times ++ (h.flag :: (h.link ++ (h.magic.bytes ++ (h.owner ++ (h.pre ++ h.pad))))))))

theorem Magic.length_bytes (m : Magic) : m.bytes.length = 6 := by cases m <;> rfl

theorem Header.length_bytes (h : Header) : h.bytes.length = 512 := by
  simp only [Header.bytes, List.length_append, List.length_cons, h.length_name, h.length_ids, h.length_size,
    h.length_times, h.length_link, Magic.length_bytes, h.length_owner, h.length_pre, h.length_pad]

section Fields

variable {h : Header} {before rest : List UInt8}

theorem Header.octal_size {n : Nat} (hn : OctalField h.size n) :
    octal (before ++ (h.bytes ++ rest)) (before.length + 124) 12 = .ok n := by
  have hsplit : before ++ (h.bytes ++ rest) = (before ++ (h.name ++ h.ids)) ++ (h.size ++ (h.times ++ (h.flag ::
      (h.link ++ (h.magic.bytes ++ (h.owner ++ (h.pre ++ h.pad))))) ++ rest)) := by
    simp only [Header.bytes, List.append_assoc, List.cons_append]
  rw [hsplit, octal_append _ h.length_size.symm, octalValue_octalField hn]
  simp only [List.length_append, h.length_name, h.length_ids]
  omega

theorem Header.u8_flag : u8 (before ++ (h.bytes ++ rest)) (before.length + 156) = .ok h.flag := by
  have hsplit : before ++ (h.bytes ++ rest) = (before ++ (h.name ++ (h.ids ++ (h.size ++ h.times)))) ++ h.flag ::
      (h.link ++ (h.magic.bytes ++ (h.owner ++ (h.pre ++ h.pad))) ++ rest) := by
    simp only [Header.bytes, List.append_assoc, List.cons_append]
  rw [hsplit, u8_append]
  simp only [List.length_append, h.length_name, h.length_ids, h.length_size, h.length_times]
  omega

theorem Header.zeroBlock {n : Nat} (hn : OctalField h.size n) :
    zeroBlock (before ++ (h.bytes ++ rest)) before.length = .ok false := by
  have hzero : h.bytes.all (· = 0) = false := by
    simp only [Header.bytes, List.all_append, not_all_zero_of_octalField hn, Bool.false_and, Bool.and_false]
  have hloop : zeroLoop (before ++ (h.bytes ++ rest)) before.length h.bytes.length 0 = .ok false := by
    rw [zeroLoop_append (Int.add_zero _), hzero]
  rw [h.length_bytes] at hloop
  exact hloop

theorem Header.cstring_name (h : Header) (before rest : List UInt8) :
    cstring (before ++ (h.bytes ++ rest)) toStringLossy before.length 100 =
      .ok (toStringLossy (h.name.takeWhile (· ≠ 0))) := by
  have hsplit : before ++ (h.bytes ++ rest) = before ++ (h.name ++ (h.ids ++ (h.size ++ (h.times ++ (h.flag ::
      (h.link ++ (h.magic.bytes ++ (h.owner ++ (h.pre ++ h.pad))))))) ++ rest)) := by
    simp only [Header.bytes, List.append_assoc, List.cons_append]
  rw [hsplit]
  exact cstring_append rfl (by rw [h.length_name]; rfl)

/-- The bytes of the magic field up to the zero byte. -/
theorem Header.cstring_magic :
    cstring (before ++ (h.bytes ++ rest)) toStringLossy (before.length + 257) 6 =
      .ok (toStringLossy (h.magic.bytes.takeWhile (· ≠ 0))) := by
  have hsplit : before ++ (h.bytes ++ rest) = (before ++ (h.name ++ (h.ids ++ (h.size ++ (h.times ++ (h.flag ::
      h.link)))))) ++ (h.magic.bytes ++ ((h.owner ++ (h.pre ++ h.pad)) ++ rest)) := by
    simp only [Header.bytes, List.append_assoc, List.cons_append]
  rw [hsplit, cstring_append _ (by rw [h.magic.length_bytes]; rfl)]
  simp only [List.length_append, List.length_cons, h.length_name, h.length_ids, h.length_size, h.length_times,
    h.length_link]
  omega

theorem Header.cstring_pre :
    cstring (before ++ (h.bytes ++ rest)) toStringLossy (before.length + 345) 155 =
      .ok (toStringLossy (h.pre.takeWhile (· ≠ 0))) := by
  have hsplit : before ++ (h.bytes ++ rest) = (before ++ (h.name ++ (h.ids ++ (h.size ++ (h.times ++ (h.flag ::
      (h.link ++ (h.magic.bytes ++ h.owner)))))))) ++ (h.pre ++ (h.pad ++ rest)) := by
    simp only [Header.bytes, List.append_assoc, List.cons_append]
  rw [hsplit, cstring_append _ (by rw [h.length_pre]; rfl)]
  simp only [List.length_append, List.length_cons, h.length_name, h.length_ids, h.length_size, h.length_times,
    h.length_link, h.magic.length_bytes, h.length_owner]
  omega

/-- The name in the header's own fields is `w`. -/
def Named (h : Header) (w : Str) : Prop :=
  (Holds h.name w ∧ (h.magic = .posix → Holds h.pre [])) ∨
    ∃ p nm, h.magic = .posix ∧ p ≠ [] ∧ Holds h.pre p ∧ Holds h.name nm ∧ w = p ++ "/".toList ++ nm

/-- The name in the header's own fields, whatever bytes they hold. -/
def Header.own (h : Header) (toStringLossy : List UInt8 → Str) : Str :=
  let pre := if toStringLossy (h.magic.bytes.takeWhile (· ≠ 0)) = "ustar".toList then
    toStringLossy (h.pre.takeWhile (· ≠ 0)) else []
  let nm := toStringLossy (h.name.takeWhile (· ≠ 0))
  if pre = [] then nm else pre ++ "/".toList ++ nm

theorem Header.fieldName_eq (h : Header) (before rest : List UInt8) :
    fieldName (before ++ (h.bytes ++ rest)) toStringLossy before.length = .ok (h.own toStringLossy) := by
  unfold fieldName Header.own
  rw [h.cstring_magic, Beerlang.ok_bind, h.cstring_pre, h.cstring_name]
  split_ifs <;> rfl

theorem Header.fieldName_named {w : Str} (hw : Named h w) (hlossy : ∀ s, toStringLossy (Utf8.encode s) = s) :
    fieldName (before ++ (h.bytes ++ rest)) toStringLossy before.length = .ok w := by
  rw [h.fieldName_eq]
  unfold Header.own
  dsimp only
  rcases hw with ⟨hname, hpre⟩ | ⟨p, nm, hmagic, hp, hpre, hname, rfl⟩
  · rw [takeWhile_holds hname, hlossy]
    cases hm : h.magic with
    | posix =>
        rw [takeWhile_holds (hpre hm), hlossy, ite_self]
        exact congrArg Except.ok (if_pos rfl)
    | gnu =>
        have hgnu : toStringLossy (Magic.gnu.bytes.takeWhile (· ≠ 0)) = "ustar ".toList := hlossy "ustar ".toList
        rw [hgnu, if_neg (show "ustar ".toList ≠ "ustar".toList by decide)]
        exact congrArg Except.ok (if_pos rfl)
    | v7 =>
        have hv7 : toStringLossy (Magic.v7.bytes.takeWhile (· ≠ 0)) = [] := hlossy []
        rw [hv7, if_neg (show [] ≠ "ustar".toList by decide)]
        exact congrArg Except.ok (if_pos rfl)
  · have hposix : toStringLossy (Magic.posix.bytes.takeWhile (· ≠ 0)) = "ustar".toList := hlossy "ustar".toList
    rw [takeWhile_holds hname, hlossy, hmagic, hposix, if_pos rfl, takeWhile_holds hpre, hlossy]
    show Except.ok (if p = [] then nm else p ++ "/".toList ++ nm) = _
    rw [if_neg hp]

end Fields

/-! ### Data -/

/-- Data and zeros up to a whole number of blocks. -/
def padded (data : List UInt8) : List UInt8 := data ++ List.replicate ((512 - data.length % 512) % 512) 0

theorem length_padded (data : List UInt8) : (padded data).length = 512 * ((data.length + 511) / 512) := by
  rw [padded, List.length_append, List.length_replicate]
  omega

theorem after_eq (off : Nat) (data : List UInt8) :
    after off data.length = off + (512 + (padded data).length : Nat) := by
  rw [length_padded]
  unfold after block
  have hdiv : ((data.length : Int) + (512 - 1)).tdiv 512 = ((data.length + 511) / 512 : Nat) := by
    rw [Int.tdiv_eq_ediv_of_nonneg (by omega)]
    omega
  rw [hdiv]
  push_cast
  ring

/-! ### One header -/

/-- The round at a header in the middle of the archive. -/
theorem Header.round_eq {h : Header} {before rest : List UInt8} {st : State} {n : Nat}
    (hoff : st.off = before.length) (hn : OctalField h.size n) :
    round (before ++ (h.bytes ++ rest)) readString toStringLossy st = (do
      let size ← headerSize (before ++ (h.bytes ++ rest)) st
      if st.off + block + size > (before ++ (h.bytes ++ rest)).length then .error (.truncated st.off)
      else return .inr (← readHeader (before ++ (h.bytes ++ rest)) readString toStringLossy st h.flag size)) := by
  have hlen : (before ++ (h.bytes ++ rest)).length = before.length + (512 + rest.length) := by
    simp only [List.length_append, h.length_bytes]
  unfold round
  rw [if_neg (by rw [hlen, hoff]; unfold block; omega), hoff, h.zeroBlock hn, Beerlang.ok_bind,
    if_neg Bool.false_ne_true, h.u8_flag, Beerlang.ok_bind]

/-- A header in the middle of the archive, with its data. -/
theorem round_header {h : Header} {data before rest : List UInt8} {st : State} {st' : State} {n : Nat}
    (hoff : st.off = before.length) (hn : OctalField h.size n)
    (hsize : headerSize (before ++ (h.bytes ++ (padded data ++ rest))) st = .ok data.length)
    (hread : readHeader (before ++ (h.bytes ++ (padded data ++ rest))) readString toStringLossy st h.flag data.length =
      .ok st') :
    round (before ++ (h.bytes ++ (padded data ++ rest))) readString toStringLossy st = .ok (.inr st') := by
  have hlen : (before ++ (h.bytes ++ (padded data ++ rest))).length =
      before.length + (512 + ((padded data).length + rest.length)) := by
    simp only [List.length_append, h.length_bytes]
  have hdata : data.length ≤ (padded data).length := by
    rw [padded, List.length_append]
    omega
  rw [Header.round_eq hoff hn, hsize, Beerlang.ok_bind, if_neg (by rw [hlen, hoff]; unfold block; omega), hread]
  rfl

/-! ### Members -/

/-- A file or directory to be written: its relative name has no empty and no `.` component. -/
structure Member where
  name : Str
  dir : Bool
  data : List UInt8
  component : ∀ c ∈ name.splitOn '/', c ≠ [] ∧ c ≠ ['.']
  noNul : '\x00' ∉ name
  noNewline : '\n' ∉ name

/-- The name as it is written; a directory's may end with a slash. -/
def Written (m : Member) (w : Str) : Prop := w = m.name ∨ (m.dir = true ∧ w = m.name ++ ['/'])

def Member.type (m : Member) : EntryType := if m.dir then .dir else .file

def FlagOf (m : Member) (flag : UInt8) : Prop := if m.dir then flag = 53 else flag = 0 ∨ flag = 48 ∨ flag = 55

variable {m : Member} {w : Str}

theorem Member.name_ne_nil (m : Member) : m.name ≠ [] := by
  intro h
  have hc := m.component
  rw [h] at hc
  exact (hc [] (List.mem_singleton_self [])).1 rfl

theorem Member.name_ne_dot (m : Member) : m.name ≠ ".".toList := by
  intro h
  have hc := m.component
  rw [h] at hc
  exact (hc ['.'] (by decide)).2 rfl

theorem Member.not_dot_slash (m : Member) (r : Str) : m.name ≠ '.' :: '/' :: r := by
  intro h
  have hc := m.component
  rw [h, show '.' :: '/' :: r = ['.'] ++ '/' :: r from rfl, List.splitOn_append_cons_self_of_not_mem (by decide)] at hc
  exact (hc ['.'] (List.mem_cons_self ..)).2 rfl

theorem Member.not_slash_end (m : Member) (r : Str) : m.name ≠ r ++ ['/'] := by
  intro h
  have hc := m.component
  rw [h, List.splitOn_append_cons_self] at hc
  exact (hc [] (List.mem_append_right _ (List.mem_singleton_self []))).1 rfl

theorem cleanName_written (hw : Written m w) : cleanName w = m.name := by
  have hdot : "./".toList.isPrefixOf w = false := by
    rw [Bool.eq_false_iff, ne_eq, List.isPrefixOf_iff_prefix]
    rintro ⟨r, hr⟩
    rcases hw with rfl | ⟨-, rfl⟩
    · exact m.not_dot_slash r hr.symm
    · cases hlast : r.getLast? with
      | none =>
          rw [List.getLast?_eq_none_iff] at hlast
          subst hlast
          exact m.name_ne_dot (List.append_cancel_right hr).symm
      | some c =>
          obtain ⟨r', rfl⟩ := List.getLast?_eq_some_iff.mp hlast
          rw [← List.append_assoc] at hr
          have hcut := List.append_inj' hr rfl
          exact m.not_dot_slash r' hcut.1.symm
  unfold cleanName
  dsimp only
  rw [hdot, if_neg Bool.false_ne_true]
  rcases hw with rfl | ⟨-, rfl⟩
  · rw [if_neg]
    rintro ⟨-, hend⟩
    obtain ⟨r, hr⟩ := List.isSuffixOf_iff_suffix.mp hend
    exact m.not_slash_end r hr.symm
  · rw [if_pos ⟨by rw [List.length_append]; exact Nat.succ_pos _, List.isSuffixOf_iff_suffix.mpr ⟨m.name, rfl⟩⟩,
      List.length_append, List.length_singleton, Nat.add_sub_cancel, List.take_left]

/-! ### Pax headers -/

/-- A record of a pax header, with its length in decimal. -/
inductive Record
  | path (len : Nat)
  | size (len : Nat)

def Record.len : Record → Nat
  | path n => n
  | size n => n

def Record.key : Record → Str
  | path _ => "path".toList
  | size _ => "size".toList

def Record.value (w : Str) (n : Nat) : Record → Str
  | path _ => w
  | size _ => Beerlang.decimal n

def Record.line (w : Str) (n : Nat) (r : Record) : Str :=
  Beerlang.decimal r.len ++ ' ' :: (r.key ++ '=' :: r.value w n)

def paxText (w : Str) (n : Nat) (records : List Record) : Str := records.flatMap fun r => r.line w n ++ ['\n']

theorem Record.key_eq (r : Record) : r.key = "path".toList ∨ r.key = "size".toList := by
  cases r with
  | path => exact .inl rfl
  | size => exact .inr rfl

theorem not_mem_decimal {c : Char} (hc : c.isDigit = false) (n : Nat) : c ∉ Beerlang.decimal n := fun h => by
  rw [Nat.isDigit_of_mem_toDigits (by decide) (by decide) h] at hc
  cases hc

theorem not_mem_line {c : Char} (hc : c.isDigit = false) (hw : c ∉ w) (hother : c ∉ " =pathsize".toList) (n : Nat)
    (r : Record) : c ∉ r.line w n := by
  have hkey : ∀ d ∈ r.key, d ∈ " =pathsize".toList := by
    rcases r.key_eq with h | h <;> rw [h] <;> exact List.all_iff_forall_prop.mp (by decide)
  have hvalue : c ∉ r.value w n := by
    cases r with
    | path => exact hw
    | size => exact not_mem_decimal hc n
  unfold Record.line
  rw [List.mem_append, List.mem_cons, List.mem_append, List.mem_cons]
  rintro (h | rfl | h | rfl | h)
  · exact not_mem_decimal hc _ h
  · exact hother (by decide)
  · exact hother (hkey c h)
  · exact hother (by decide)
  · exact hvalue h

theorem paxRecord_line (n : Nat) (r : Record) : paxRecord (r.line w n) = some (r.key, r.value w n) := by
  have hkey : '=' ∉ r.key := by rcases r.key_eq with h | h <;> rw [h] <;> decide
  have hsplit : (r.line w n).splitOn ' ' = Beerlang.decimal r.len :: (r.key ++ '=' :: r.value w n).splitOn ' ' :=
    List.splitOn_append_cons_self_of_not_mem (not_mem_decimal (by decide) r.len) _
  have hparts : (r.key ++ '=' :: r.value w n).splitOn '=' = r.key :: (r.value w n).splitOn '=' :=
    List.splitOn_append_cons_self_of_not_mem hkey _
  have hlen : 1 < (r.key :: (r.value w n).splitOn '=').length := by
    rw [List.length_cons]
    exact Nat.succ_lt_succ (List.length_pos_iff.mpr (List.splitOn_ne_nil _ _))
  unfold paxRecord
  dsimp only
  rw [hsplit, List.tail_cons, List.intercalate_splitOn, hparts, if_pos hlen, List.tail_cons, List.intercalate_splitOn]
  rfl

theorem paxRecords_paxText (hw : '\n' ∉ w) (n : Nat) (records : List Record) :
    paxRecords (paxText w n records) = records.map fun r => (r.key, r.value w n) := by
  have hlines : ((paxText w n records).splitOn '\n').filter (· ≠ []) = records.map (Record.line w n) := by
    induction records with
    | nil => rfl
    | cons r records ih =>
        have hne : r.line w n ≠ [] := fun h => by
          have hmem : ' ' ∈ r.line w n := List.mem_append_right _ (List.mem_cons_self ..)
          rw [h] at hmem
          cases hmem
        have hcons : paxText w n (r :: records) = r.line w n ++ '\n' :: paxText w n records := by
          rw [paxText, List.flatMap_cons, List.append_assoc]
          rfl
        rw [hcons, List.splitOn_append_cons_self_of_not_mem (not_mem_line rfl hw (by decide) n r), List.filter_cons,
          if_pos (decide_eq_true hne), ih, List.map_cons]
  have hrecords : ∀ rs : List Record, (rs.map (Record.line w n)).filterMap paxRecord =
      rs.map fun r => (r.key, r.value w n) := by
    intro rs
    induction rs with
    | nil => rfl
    | cons r rs ih => rw [List.map_cons, List.filterMap_cons_some (paxRecord_line n r), ih, List.map_cons]
  unfold paxRecords
  rw [hlines, hrecords]

theorem lookup_eq_some {ps : List (Str × Str)} {k v : Str} (hex : ∃ p ∈ ps, p.1 = k)
    (h : ∀ p ∈ ps, p.1 = k → p.2 = v) : ps.lookup k = some v := by
  obtain ⟨p, hp, hpk⟩ := hex
  obtain ⟨v', hv'⟩ := Option.isSome_iff_exists.mp (List.lookup_isSome_iff.mpr ⟨p, hp, beq_iff_eq.mpr hpk.symm⟩)
  obtain ⟨l₁, l₂, rfl, -⟩ := List.lookup_eq_some_iff.mp hv'
  exact hv'.trans (congrArg some (h (k, v') (List.mem_append_right _ (List.mem_cons_self ..)) rfl))

theorem Record.value_of_key {n : Nat} {r r' : Record} (h : r'.key = r.key) : r'.value w n = r.value w n := by
  cases r with
  | path =>
      cases r' with
      | path => rfl
      | size => exact absurd h (show "size".toList ≠ "path".toList by decide)
  | size =>
      cases r' with
      | path => exact absurd h (show "path".toList ≠ "size".toList by decide)
      | size => rfl

theorem paxGet_of_record {n : Nat} {records : List Record} {r : Record} (hw : '\n' ∉ w) (hr : r ∈ records) :
    paxGet (paxRecords (paxText w n records)) r.key = some (r.value w n) := by
  unfold paxGet
  rw [paxRecords_paxText hw]
  refine lookup_eq_some ⟨(r.key, r.value w n), List.mem_reverse.mpr (List.mem_map_of_mem hr), rfl⟩ fun p hp hkey => ?_
  obtain ⟨r', -, rfl⟩ := List.mem_map.mp (List.mem_reverse.mp hp)
  exact Record.value_of_key hkey

theorem paxGet_none {n : Nat} {records : List Record} {key : Str} (hw : '\n' ∉ w) (hr : ∀ r ∈ records, r.key ≠ key) :
    paxGet (paxRecords (paxText w n records)) key = none := by
  unfold paxGet
  rw [paxRecords_paxText hw, List.lookup_eq_none_iff]
  intro p hp
  obtain ⟨r, hmem, rfl⟩ := List.mem_map.mp (List.mem_reverse.mp hp)
  exact bne_iff_ne.mpr (Ne.symm (hr r hmem))

/-! ### Written members -/

/-- What is written of a member: its name in its header, in a GNU long-name header before it, or in a pax header
that may give its size too. -/
inductive Encodes (m : Member) : List UInt8 → Prop
  | own {h : Header} {w : Str} (hw : Written m w) (hflag : FlagOf m h.flag) (hname : Named h w)
      (hsize : OctalField h.size m.data.length) : Encodes m (h.bytes ++ padded m.data)
  | long {l h : Header} {w : Str} {text : List UInt8} (hw : Written m w) (hl : l.flag = 76)
      (hlsize : OctalField l.size text.length) (htext : Holds text w) (hflag : FlagOf m h.flag)
      (hsize : OctalField h.size m.data.length) :
      Encodes m (l.bytes ++ (padded text ++ (h.bytes ++ padded m.data)))
  | pax {x h : Header} {w : Str} {records : List Record} {n : Nat} (hw : Written m w) (hx : x.flag = 120)
      (hxsize : OctalField x.size (Utf8.encode (paxText w m.data.length records)).length) (hflag : FlagOf m h.flag)
      (hname : (∀ r ∈ records, r.key ≠ "path".toList) → Named h w) (hn : OctalField h.size n)
      (hsize : (∀ r ∈ records, r.key ≠ "size".toList) → n = m.data.length) :
      Encodes m (x.bytes ++ (padded (Utf8.encode (paxText w m.data.length records)) ++ (h.bytes ++ padded m.data)))

/-- Written members, then a zero block and whatever follows it. -/
inductive Archive : List Member → List UInt8 → Prop
  | nil (rest : List UInt8) : Archive [] (List.replicate 512 0 ++ rest)
  | cons {m : Member} {ms : List Member} {e rest : List UInt8} (h : Encodes m e) (hrest : Archive ms rest) :
      Archive (m :: ms) (e ++ rest)

theorem Written.noNul (hw : Written m w) : '\x00' ∉ w := by
  rcases hw with rfl | ⟨-, rfl⟩
  · exact m.noNul
  · rw [List.mem_append, List.mem_singleton]
    rintro (h | h)
    · exact m.noNul h
    · exact absurd h (by decide)

theorem Written.noNewline (hw : Written m w) : '\n' ∉ w := by
  rcases hw with rfl | ⟨-, rfl⟩
  · exact m.noNewline
  · rw [List.mem_append, List.mem_singleton]
    rintro (h | h)
    · exact m.noNewline h
    · exact absurd h (by decide)

theorem noNul_paxText (hw : '\x00' ∉ w) (n : Nat) (records : List Record) : '\x00' ∉ paxText w n records := by
  intro h
  obtain ⟨r, -, h⟩ := List.mem_flatMap.mp h
  rcases List.mem_append.mp h with h | h
  · exact not_mem_line (by decide) hw (by decide) n r h
  · exact absurd h (by decide)

theorem entryType_flagOf {flag : UInt8} (h : FlagOf m flag) :
    entryType flag = m.type ∧ flag ≠ 120 ∧ flag ≠ 103 ∧ flag ≠ 76 := by
  unfold FlagOf Member.type at *
  split_ifs at h ⊢ with hdir
  · subst h
    decide
  · rcases h with rfl | rfl | rfl <;> decide

section Walk

variable {before rest : List UInt8} {acc : Index} {h : Header}

/-- The header of the member itself, wherever its name and size come from. -/
theorem round_member {st : State} {n : Nat} (hoff : st.off = before.length) (hw : Written m w)
    (hlossy : ∀ s, toStringLossy (Utf8.encode s) = s) (hflag : FlagOf m h.flag) (hn : OctalField h.size n)
    (hname : st.nextName = some w ∨ (st.nextName = none ∧ Named h w))
    (hsize : st.nextSize = .number m.data.length ∨ (st.nextSize = .nothing ∧ n = m.data.length)) :
    round (before ++ (h.bytes ++ (padded m.data ++ rest))) readString toStringLossy st =
      .ok (.inr ⟨before.length + (512 + (padded m.data).length : Nat),
        st.acc.insert m.name ⟨m.type, before.length + 512, m.data.length⟩, none, .nothing⟩) := by
  obtain ⟨htype, h120, h103, h76⟩ := entryType_flagOf hflag
  have hheader : headerSize (before ++ (h.bytes ++ (padded m.data ++ rest))) st = .ok m.data.length := by
    unfold headerSize
    rcases hsize with hst | ⟨hst, rfl⟩
    · rw [hst]
    · rw [hst, hoff]
      show (octal _ _ _ >>= fun v => pure (v : Int)) = _
      rw [h.octal_size hn]
      rfl
  refine round_header hoff hn hheader ?_
  obtain ⟨own, hown, hfull⟩ : ∃ own, fieldName (before ++ (h.bytes ++ (padded m.data ++ rest))) toStringLossy st.off =
      .ok own ∧ st.nextName.getD own = w := by
    rcases hname with hst | ⟨hst, hnamed⟩
    · rw [hoff, hst]
      exact ⟨_, h.fieldName_eq before (padded m.data ++ rest), rfl⟩
    · rw [hoff, hst]
      exact ⟨w, h.fieldName_named hnamed hlossy, rfl⟩
  unfold readHeader
  dsimp only
  rw [if_neg h120, if_neg h103, if_neg h76, hown, Beerlang.ok_bind, hfull, cleanName_written hw,
    if_neg (not_or.mpr ⟨m.name_ne_nil, m.name_ne_dot⟩), htype, hoff, after_eq]
  rfl

/-- The data after a header, as `cstring` reads it. -/
theorem cstring_padded (before rest : List UInt8) (h : Header) (text : List UInt8) :
    cstring (before ++ (h.bytes ++ (padded text ++ rest))) toStringLossy (before.length + block) text.length =
      .ok (toStringLossy (text.takeWhile (· ≠ 0))) := by
  have hsplit : before ++ (h.bytes ++ (padded text ++ rest)) = (before ++ h.bytes) ++ (text ++
      (List.replicate ((512 - text.length % 512) % 512) 0 ++ rest)) := by
    simp only [padded, List.append_assoc]
  rw [hsplit, cstring_append _ rfl]
  rw [List.length_append, h.length_bytes]
  rfl

theorem cstring_data {text : List UInt8} {w : Str} (htext : Holds text w)
    (hlossy : ∀ s, toStringLossy (Utf8.encode s) = s) :
    cstring (before ++ (h.bytes ++ (padded text ++ rest))) toStringLossy (before.length + block) text.length =
      .ok w := by
  rw [cstring_padded, takeWhile_holds htext, hlossy]

/-- A GNU long-name header. -/
theorem round_long {text : List UInt8} {w : Str} (hflag : h.flag = 76) (hn : OctalField h.size text.length)
    (htext : Holds text w) (hlossy : ∀ s, toStringLossy (Utf8.encode s) = s) :
    round (before ++ (h.bytes ++ (padded text ++ rest))) readString toStringLossy ⟨before.length, acc, none, .nothing⟩ =
      .ok (.inr ⟨before.length + (512 + (padded text).length : Nat), acc, some w, .nothing⟩) := by
  refine round_header rfl hn ?_ ?_
  · show (octal _ _ _ >>= fun v => pure (v : Int)) = _
    rw [h.octal_size hn]
    rfl
  · unfold readHeader
    dsimp only
    rw [if_neg (by rw [hflag]; decide), if_neg (by rw [hflag]; decide), if_pos hflag, cstring_data htext hlossy,
      Beerlang.ok_bind, after_eq]
    rfl

/-- A pax header. -/
theorem round_pax {records : List Record} {w : Str} {k : Nat} (hflag : h.flag = 120)
    (hn : OctalField h.size (Utf8.encode (paxText w k records)).length) (hw0 : '\x00' ∉ w) (hw : '\n' ∉ w)
    (hlossy : ∀ s, toStringLossy (Utf8.encode s) = s)
    (hread : ∀ n : Nat, readString (Beerlang.decimal n) = .ok (.number n)) :
    ∃ nextName nextSize,
      round (before ++ (h.bytes ++ (padded (Utf8.encode (paxText w k records)) ++ rest))) readString toStringLossy
        ⟨before.length, acc, none, .nothing⟩ =
        .ok (.inr ⟨before.length + (512 + (padded (Utf8.encode (paxText w k records))).length : Nat), acc, nextName,
          nextSize⟩) ∧
      (nextName = some w ∨ nextName = none ∧ ∀ r ∈ records, r.key ≠ "path".toList) ∧
      (nextSize = .number k ∨ nextSize = .nothing ∧ ∀ r ∈ records, r.key ≠ "size".toList) := by
  have htext : Holds (Utf8.encode (paxText w k records)) (paxText w k records) :=
    ⟨noNul_paxText hw0 k records, [], (List.append_nil _).symm, .inl rfl⟩
  have hname : paxGet (paxRecords (paxText w k records)) "path".toList = some w ∨
      paxGet (paxRecords (paxText w k records)) "path".toList = none ∧ ∀ r ∈ records, r.key ≠ "path".toList := by
    by_cases hex : ∃ r ∈ records, r.key = "path".toList
    · obtain ⟨r, hr, hkey⟩ := hex
      have hget := paxGet_of_record (n := k) hw hr
      cases r with
      | path len => exact .inl hget
      | size len => exact absurd hkey (show "size".toList ≠ "path".toList by decide)
    · have hnone : ∀ r ∈ records, r.key ≠ "path".toList := fun r hr hkey => hex ⟨r, hr, hkey⟩
      exact .inr ⟨paxGet_none hw hnone, hnone⟩
  have hsize : readSize readString (paxRecords (paxText w k records)) = .ok (.number k) ∨
      readSize readString (paxRecords (paxText w k records)) = .ok .nothing ∧ ∀ r ∈ records, r.key ≠ "size".toList := by
    unfold readSize
    by_cases hex : ∃ r ∈ records, r.key = "size".toList
    · obtain ⟨r, hr, hkey⟩ := hex
      have hget := paxGet_of_record (n := k) hw hr
      cases r with
      | path len => exact absurd hkey (show "path".toList ≠ "size".toList by decide)
      | size len =>
          rw [show "size".toList = (Record.size len).key from rfl, hget]
          exact .inl (hread k)
    · have hnone : ∀ r ∈ records, r.key ≠ "size".toList := fun r hr hkey => hex ⟨r, hr, hkey⟩
      rw [paxGet_none hw hnone]
      exact .inr ⟨rfl, hnone⟩
  obtain ⟨nextSize, hnext, hor⟩ : ∃ nextSize, readSize readString (paxRecords (paxText w k records)) = .ok nextSize ∧
      (nextSize = .number k ∨ nextSize = .nothing ∧ ∀ r ∈ records, r.key ≠ "size".toList) := by
    rcases hsize with hsize | ⟨hsize, hnone⟩
    · exact ⟨_, hsize, .inl rfl⟩
    · exact ⟨_, hsize, .inr ⟨rfl, hnone⟩⟩
  refine ⟨_, nextSize, round_header rfl hn ?_ ?_, hname, hor⟩
  · show (octal _ _ _ >>= fun v => pure (v : Int)) = _
    rw [h.octal_size hn]
    rfl
  · unfold readHeader
    dsimp only
    rw [if_pos hflag, cstring_data htext hlossy, Beerlang.ok_bind, hnext, Beerlang.ok_bind, after_eq]
    rfl

/-! ### The walk over an archive -/

/-- Some rounds lead from one state to another. -/
def Leads (buf : List UInt8) (readString : Str → Except Failure Form) (toStringLossy : List UInt8 → Str)
    (st st' : State) : Prop :=
  ∃ k, ∀ fuel, loop buf readString toStringLossy (fuel + k) st = loop buf readString toStringLossy fuel st'

theorem leads_round {buf : List UInt8} {st st' : State}
    (h : round buf readString toStringLossy st = .ok (.inr st')) : Leads buf readString toStringLossy st st' :=
  ⟨1, fun fuel => by rw [loop, h]⟩

theorem Leads.trans {buf : List UInt8} {st st' st'' : State} (h : Leads buf readString toStringLossy st st')
    (h' : Leads buf readString toStringLossy st' st'') : Leads buf readString toStringLossy st st'' := by
  obtain ⟨k, hk⟩ := h
  obtain ⟨k', hk'⟩ := h'
  exact ⟨k' + k, fun fuel => by rw [← Nat.add_assoc, hk, hk']⟩

/-- Some rounds from `st` on take the member into the index, with its type and data, and stop at `off`. -/
def Enters (buf : List UInt8) (readString : Str → Except Failure Form) (toStringLossy : List UInt8 → Str) (st : State)
    (m : Member) (off : Nat) : Prop :=
  ∃ entry, Leads buf readString toStringLossy st ⟨off, st.acc.insert m.name entry, none, .nothing⟩ ∧
    entry.type = m.type ∧ entryBytes buf entry = .ok m.data

theorem Enters.of_round {buf : List UInt8} {off o : Nat} {nextName : Option Str} {nextSize : Form}
    (hround : round buf readString toStringLossy ⟨off, acc, none, .nothing⟩ = .ok (.inr ⟨(o : Nat), acc, nextName, nextSize⟩))
    {stop : Nat} (h : Enters buf readString toStringLossy ⟨(o : Nat), acc, nextName, nextSize⟩ m stop) :
    Enters buf readString toStringLossy ⟨off, acc, none, .nothing⟩ m stop := by
  obtain ⟨entry, hleads, hrest⟩ := h
  exact ⟨entry, (leads_round hround).trans hleads, hrest⟩

/-- Over the header of the member itself. -/
theorem enters_last {nextName : Option Str} {nextSize : Form} {n : Nat} (hw : Written m w)
    (hlossy : ∀ s, toStringLossy (Utf8.encode s) = s) (hflag : FlagOf m h.flag) (hn : OctalField h.size n)
    (hname : nextName = some w ∨ (nextName = none ∧ Named h w))
    (hsize : nextSize = .number m.data.length ∨ (nextSize = .nothing ∧ n = m.data.length)) :
    Enters (before ++ (h.bytes ++ (padded m.data ++ rest))) readString toStringLossy
      ⟨before.length, acc, nextName, nextSize⟩ m (before.length + (512 + (padded m.data).length)) := by
  have hsplit : before ++ (h.bytes ++ (padded m.data ++ rest)) = (before ++ h.bytes) ++ (m.data ++
      (List.replicate ((512 - m.data.length % 512) % 512) 0 ++ rest)) := by
    simp only [padded, List.append_assoc]
  refine ⟨⟨m.type, before.length + 512, m.data.length⟩,
    leads_round (round_member rfl hw hlossy hflag hn hname hsize), rfl, ?_⟩
  unfold entryBytes
  rw [hsplit, slice_append _ rfl]
  rw [List.length_append, h.length_bytes]
  rfl

/-- Over a header that stands before the member's own, and that one. -/
theorem enters_after {x : Header} {data : List UInt8} {nextName : Option Str} {nextSize : Form} {n : Nat}
    (hround : round (before ++ (x.bytes ++ (padded data ++ (h.bytes ++ (padded m.data ++ rest))))) readString
      toStringLossy ⟨before.length, acc, none, .nothing⟩ =
      .ok (.inr ⟨before.length + (512 + (padded data).length : Nat), acc, nextName, nextSize⟩))
    (hw : Written m w) (hlossy : ∀ s, toStringLossy (Utf8.encode s) = s) (hflag : FlagOf m h.flag)
    (hn : OctalField h.size n) (hname : nextName = some w ∨ (nextName = none ∧ Named h w))
    (hsize : nextSize = .number m.data.length ∨ (nextSize = .nothing ∧ n = m.data.length)) :
    Enters (before ++ ((x.bytes ++ (padded data ++ (h.bytes ++ padded m.data))) ++ rest)) readString toStringLossy
      ⟨before.length, acc, none, .nothing⟩ m
      (before.length + (x.bytes ++ (padded data ++ (h.bytes ++ padded m.data))).length) := by
  have hlen : (before ++ (x.bytes ++ padded data)).length = before.length + (512 + (padded data).length) := by
    rw [List.length_append, List.length_append, x.length_bytes]
  have hbuf : before ++ (x.bytes ++ (padded data ++ (h.bytes ++ (padded m.data ++ rest)))) =
      (before ++ (x.bytes ++ padded data)) ++ (h.bytes ++ (padded m.data ++ rest)) := by
    simp only [List.append_assoc]
  have hstop : before.length + (x.bytes ++ (padded data ++ (h.bytes ++ padded m.data))).length =
      (before ++ (x.bytes ++ padded data)).length + (512 + (padded m.data).length) := by
    rw [hlen, List.length_append, List.length_append, List.length_append, x.length_bytes, h.length_bytes]
    omega
  have hcut : before ++ ((x.bytes ++ (padded data ++ (h.bytes ++ padded m.data))) ++ rest) =
      before ++ (x.bytes ++ (padded data ++ (h.bytes ++ (padded m.data ++ rest)))) := by
    simp only [List.append_assoc]
  rw [hcut, hstop]
  rw [hbuf] at hround ⊢
  have hoff : (before.length : Int) + (512 + (padded data).length : Nat) =
      ((before ++ (x.bytes ++ padded data)).length : Nat) := by
    rw [hlen]
    rfl
  rw [hoff] at hround
  exact .of_round hround (enters_last hw hlossy hflag hn hname hsize)

/-- Over a written member. -/
theorem enters_member {e : List UInt8} (he : Encodes m e) (hlossy : ∀ s, toStringLossy (Utf8.encode s) = s)
    (hread : ∀ n : Nat, readString (Beerlang.decimal n) = .ok (.number n)) :
    Enters (before ++ (e ++ rest)) readString toStringLossy ⟨before.length, acc, none, .nothing⟩ m
      (before.length + e.length) := by
  cases he with
  | @own h w hw hflag hname hsize =>
      rw [List.append_assoc, List.length_append, h.length_bytes]
      exact enters_last hw hlossy hflag hsize (.inr ⟨rfl, hname⟩) (.inr ⟨rfl, rfl⟩)
  | @long l h w text hw hl hlsize htext hflag hsize =>
      exact enters_after (round_long hl hlsize htext hlossy) hw hlossy hflag hsize (.inl rfl) (.inr ⟨rfl, rfl⟩)
  | @pax x h w records n hw hx hxsize hflag hname hn hsize =>
      obtain ⟨nextName, nextSize, hround, hnext, hsize'⟩ :=
        round_pax hx hxsize hw.noNul hw.noNewline hlossy hread
      refine enters_after hround hw hlossy hflag hn ?_ ?_
      · rcases hnext with hnext | ⟨hnext, hnone⟩
        · exact .inl hnext
        · exact .inr ⟨hnext, hname hnone⟩
      · rcases hsize' with hnext | ⟨hnext, hnone⟩
        · exact .inl hnext
        · exact .inr ⟨hnext, hsize hnone⟩

/-- The member that `index` should find under a name: the last one. -/
def lastOf (ms : List Member) (name : Str) : Option Member := ms.reverse.find? fun m => m.name = name

/-- The index entry is right for the member, or is the one that was there before. -/
def Found (buf : List UInt8) (acc : Index) (name : Str) (result : Index) : Option Member → Prop
  | none => result.lookup name = acc.lookup name
  | some m => ∃ entry, result.lookup name = some entry ∧ entry.type = m.type ∧ entryBytes buf entry = .ok m.data

theorem loop_archive {ms : List Member} {bytes : List UInt8} (h : Archive ms bytes)
    (hlossy : ∀ s, toStringLossy (Utf8.encode s) = s)
    (hread : ∀ n : Nat, readString (Beerlang.decimal n) = .ok (.number n)) (before : List UInt8) (acc : Index) :
    ∃ fuel result, (∀ more, loop (before ++ bytes) readString toStringLossy (fuel + more)
        ⟨before.length, acc, none, .nothing⟩ = some (.ok result)) ∧
      ∀ name, Found (before ++ bytes) acc name result (lastOf ms name) := by
  induction h generalizing before acc with
  | nil rest =>
      have hround : round (before ++ (List.replicate 512 0 ++ rest)) readString toStringLossy
          ⟨before.length, acc, none, .nothing⟩ = .ok (.inl acc) := by
        have hzero : zeroBlock (before ++ (List.replicate 512 0 ++ rest)) before.length = .ok true := by
          have hloop := zeroLoop_append (f := List.replicate 512 0) (b := rest) (Int.add_zero (before.length : Int))
          rw [List.length_replicate, List.all_replicate] at hloop
          exact hloop
        unfold round
        rw [if_neg, hzero]
        · rfl
        · rw [List.length_append, List.length_append, List.length_replicate]
          show ¬((before.length : Int) + 512 > _)
          omega
      exact ⟨1, acc, fun more => by rw [Nat.add_comm, loop, hround], fun name => rfl⟩
  | @cons m ms e rest he hrest ih =>
      have henters : Enters (before ++ (e ++ rest)) readString toStringLossy ⟨before.length, acc, none, .nothing⟩ m
          (before.length + e.length) := enters_member he hlossy hread
      obtain ⟨entry, ⟨k, hk⟩, htype, hbytes⟩ := henters
      obtain ⟨fuel, result, hloop, hfound⟩ := ih (before ++ e) (acc.insert m.name entry)
      rw [List.append_assoc] at hloop hfound
      rw [List.length_append] at hloop
      refine ⟨fuel + k, result, fun more => ?_, fun name => ?_⟩
      · rw [Nat.add_right_comm, hk]
        exact hloop more
      · have hname := hfound name
        unfold lastOf at hname ⊢
        rw [List.reverse_cons, List.find?_append]
        cases hlast : ms.reverse.find? fun m => m.name = name with
        | some m' =>
            rw [hlast] at hname
            exact hname
        | none =>
            rw [hlast] at hname
            rw [Option.none_or, List.find?_singleton]
            by_cases heq : m.name = name
            · rw [if_pos (decide_eq_true heq)]
              subst heq
              exact ⟨entry, hname.trans (AList.lookup_insert acc), htype, hbytes⟩
            · rw [if_neg fun h => heq (of_decide_eq_true h)]
              exact hname.trans (AList.lookup_insert_ne (Ne.symm heq))

/-- Decoding undoes encoding: the index of an archive has an entry for every name in it and no other, that of the
last member of the name. -/
theorem index_archive {ms : List Member} {buf : List UInt8} (h : Archive ms buf)
    (hlossy : ∀ s, toStringLossy (Utf8.encode s) = s)
    (hread : ∀ n : Nat, readString (Beerlang.decimal n) = .ok (.number n)) :
    ∃ fuel acc, (∀ more, index buf readString toStringLossy (fuel + more) = some (.ok acc)) ∧
      ∀ name, match lastOf ms name with
        | none => acc.lookup name = none
        | some m => ∃ entry, acc.lookup name = some entry ∧ entry.type = m.type ∧ entryBytes buf entry = .ok m.data := by
  obtain ⟨fuel, acc, hloop, hfound⟩ := loop_archive h hlossy hread [] ∅
  refine ⟨fuel, acc, hloop, fun name => ?_⟩
  have hname := hfound name
  cases hlast : lastOf ms name with
  | none =>
      rw [hlast] at hname
      exact hname
  | some m =>
      rw [hlast] at hname
      exact hname

end Walk

/-! ### Two archives -/

def zeros (n : Nat) : List UInt8 := List.replicate n 0

/-- A header with a name, a size field and a flag; all else is zero. -/
def plainHeader (name size : List UInt8) (flag : UInt8) (hname : name.length ≤ 100) (hsize : size.length = 12) : Header where
  name := name ++ zeros (100 - name.length)
  ids := zeros 24
  size := size
  times := zeros 20
  flag := flag
  link := zeros 100
  magic := .v7
  owner := zeros 82
  pre := zeros 155
  pad := zeros 12
  length_name := by
    rw [List.length_append, zeros, List.length_replicate]
    omega
  length_ids := List.length_replicate
  length_size := hsize
  length_times := List.length_replicate
  length_link := List.length_replicate
  length_owner := List.length_replicate
  length_pre := List.length_replicate
  length_pad := List.length_replicate

/-- Eleven octal digits and a zero byte. -/
def sizeField (digits : String) : List UInt8 := Utf8.encode digits.toList ++ [0]

theorem octalField_sizeField {digits : String} {n : Nat} (hne : Utf8.encode digits.toList ≠ [])
    (hdigits : (Utf8.encode digits.toList).all fun x => 48 ≤ x ∧ x ≤ 55)
    (hn : (Utf8.encode digits.toList).foldl (fun v x => v * 8 + (x.toNat - 48)) 0 = n) :
    OctalField (sizeField digits) n := by
  refine ⟨0, Utf8.encode digits.toList, [0], rfl, hne, List.all_iff_forall_prop.mp hdigits, fun x hx => ?_, hn⟩
  cases hx
  decide

/-- A reader of whole numbers with an optional sign. -/
def readInt : Str → Except Failure Form
  | '-' :: ds => if ds.all Char.isDigit then .ok (.number (-(Nat.ofDigitChars 10 ds 0 : Nat))) else .error .unreadable
  | ds => if ds.all Char.isDigit then .ok (.number (Nat.ofDigitChars 10 ds 0 : Nat)) else .error .unreadable

def lossy (bs : List UInt8) : Str := (Utf8.decode bs).getD []

theorem lossy_encode (s : Str) : lossy (Utf8.encode s) = s := by
  unfold lossy
  rw [Utf8.decode_encode]
  rfl

theorem readInt_decimal (n : Nat) : readInt (Beerlang.decimal n) = .ok (.number n) := by
  have hall : (Beerlang.decimal n).all Char.isDigit = true :=
    List.all_eq_true.mpr fun c hc => Nat.isDigit_of_mem_toDigits (by decide) (by decide) hc
  unfold readInt
  split
  · next ds h =>
      rw [h] at hall
      cases hall
  · rw [if_pos hall]
    unfold Beerlang.decimal
    rw [Nat.ofDigitChars_ten_toDigits]

def note : Member where
  name := "note".toList
  dir := false
  data := [104, 105]
  component := by decide
  noNul := by decide
  noNewline := by decide

def noteHeader : Header := plainHeader (Utf8.encode "note".toList) (sizeField "00000000002") 48 (by decide) rfl

def noteArchive : List UInt8 := (noteHeader.bytes ++ padded note.data) ++ (List.replicate 512 0 ++ [])

theorem archive_note : Archive [note] noteArchive := by
  refine .cons (.own (.inl rfl) (.inr (.inl rfl)) (.inl ⟨⟨by decide, zeros 96, rfl, .inr rfl⟩, nofun⟩) ?_) (.nil [])
  exact octalField_sizeField (by decide) (by decide) (by decide)

theorem index_archive_note :
    ∃ fuel acc, (∀ more, index noteArchive readInt lossy (fuel + more) = some (.ok acc)) ∧
      ∃ entry, acc.lookup "note".toList = some entry ∧ entry.type = .file ∧
        entryBytes noteArchive entry = .ok [104, 105] := by
  obtain ⟨fuel, acc, hindex, hname⟩ := index_archive archive_note lossy_encode readInt_decimal
  exact ⟨fuel, acc, hindex, hname "note".toList⟩

/-- A reader of natural numbers. -/
def readNat (s : Str) : Except Failure Form :=
  if s.all Char.isDigit then .ok (.number (Nat.ofDigitChars 10 s 0 : Nat)) else .error .unreadable

theorem readNat_nonneg (s : Str) (n : Int) (h : readNat s = .ok (.number n)) : 0 ≤ n := by
  unfold readNat at h
  split_ifs at h
  cases h
  exact Int.natCast_nonneg _

theorem index_ends_note :
    ∃ r, (∃ fuel, ∀ more, index noteArchive readNat lossy (fuel + more) = some r) ∧
      ∀ acc, r = .ok acc → ∀ name e, acc.lookup name = some e →
        Inside noteArchive e ∧ ∃ bytes, entryBytes noteArchive e = .ok bytes :=
  index_ends (sized_of_nonneg readNat_nonneg noteArchive)

/-- A pax header that gives the next header, a global one, the size -1024: that one sends the walk back to itself. -/
def backText : Str := "14 size=-1024\n".toList

theorem length_noName : ([] : List UInt8).length ≤ 100 := Nat.zero_le 100

theorem length_sizeField_zero : (sizeField "00000000000").length = 12 := rfl

def backHeader : Header := plainHeader [] (sizeField "00000000016") 120 length_noName rfl

def globalHeader : Header := plainHeader [] (sizeField "00000000000") 103 length_noName length_sizeField_zero

def backArchive : List UInt8 := [] ++ (backHeader.bytes ++ (padded (Utf8.encode backText) ++ (globalHeader.bytes ++ [])))

theorem round_back :
    round backArchive readInt lossy start = .ok (.inr ⟨1024, ∅, none, .number (-1024)⟩) := by
  have hsize : OctalField backHeader.size (Utf8.encode backText).length :=
    octalField_sizeField (by decide) (by decide) (by decide)
  have hread : readSize readInt (paxRecords backText) = .ok (.number (-1024)) := by decide
  refine round_header rfl hsize ?_ ?_
  · show (octal _ _ _ >>= fun v => pure (v : Int)) = _
    rw [show start.off + 124 = (([] : List UInt8).length : Int) + 124 from rfl, backHeader.octal_size hsize]
    rfl
  · unfold readHeader
    dsimp only
    rw [if_pos (show backHeader.flag = 120 from rfl)]
    rw [show start.off + block = (([] : List UInt8).length : Int) + block from rfl,
      cstring_data ⟨by decide, [], (List.append_nil _).symm, .inl rfl⟩ lossy_encode, Beerlang.ok_bind, hread,
      show paxGet (paxRecords backText) "path".toList = none by decide]
    rfl

theorem round_global :
    round backArchive readInt lossy ⟨1024, ∅, none, .number (-1024)⟩ =
      .ok (.inr ⟨1024, ∅, none, .number (-1024)⟩) := by
  have hbuf : backArchive = (backHeader.bytes ++ padded (Utf8.encode backText)) ++ (globalHeader.bytes ++ []) := by
    rw [backArchive, List.nil_append, List.append_assoc]
  have hlen : (backHeader.bytes ++ padded (Utf8.encode backText)).length = 1024 := by
    rw [List.length_append, backHeader.length_bytes, length_padded]
    rfl
  have hoff : (1024 : Int) = ((backHeader.bytes ++ padded (Utf8.encode backText)).length : Nat) := by
    rw [hlen]
    rfl
  have hsize : OctalField globalHeader.size 0 :=
    octalField_sizeField (by decide) (by decide) (by decide)
  have hend : backArchive.length = 1536 := by
    rw [hbuf, List.length_append, hlen, List.length_append, globalHeader.length_bytes]
    rfl
  have hzero : zeroBlock backArchive 1024 = .ok false := by
    rw [hbuf, hoff]
    exact globalHeader.zeroBlock hsize
  have hflag : u8 backArchive (1024 + 156) = .ok 103 := by
    rw [hbuf, hoff]
    exact globalHeader.u8_flag
  unfold round
  dsimp only
  rw [hend, if_neg (by decide), hzero, Beerlang.ok_bind, if_neg Bool.false_ne_true, hflag, Beerlang.ok_bind]
  rfl

/-- The walk never ends. -/
theorem not_index_ends_back : ¬ ∃ fuel, index backArchive readInt lossy fuel ≠ none := by
  have hstuck : ∀ fuel, loop backArchive readInt lossy fuel ⟨1024, ∅, none, .number (-1024)⟩ = none := by
    intro fuel
    induction fuel with
    | zero => rfl
    | succ fuel ih =>
        rw [loop, round_global]
        exact ih
  rintro ⟨fuel, hends⟩
  apply hends
  cases fuel with
  | zero => rfl
  | succ fuel =>
      unfold index
      rw [loop, round_back]
      exact hstuck fuel

end Beeros.Ustar
