import Mathlib.Data.List.AList
import Mathlib.Tactic.SplitIfs
import Beeros.Beerlang
import Beeros.Utf8

/-! The tar reader of `lib/ustar.beer`: `index` walks over the headers of an archive held in a buffer. When does the
walk end, and which entries lie inside the buffer? -/

namespace Beeros.Ustar

open Beerlang (bind_eq_ok)

inductive Failure
  | outOfRange
  | unreadable
  /-- Arithmetic on what is no number. -/
  | type
  | truncated (offset : Int)
  deriving DecidableEq

/-- The message of what `index` throws itself. -/
def truncatedMessage : Str := "ustar: archive is truncated".toList

/-- What `read-string` gives. -/
inductive Form
  /-- `nil` or `false`. -/
  | nothing
  | number (n : Int)
  | other
  deriving DecidableEq

inductive EntryType
  | file
  | dir
  | link
  | other
  deriving DecidableEq

structure Entry where
  type : EntryType
  offset : Int
  size : Int
  deriving DecidableEq

/-- `{name {:type :offset :size}}`. -/
abbrev Index := AList fun _ : Str => Entry

def block : Int := 512

variable (buf : List UInt8)

def u8 (i : Int) : Except Failure UInt8 :=
  match if i < 0 then none else buf[i.toNat]? with
  | some b => .ok b
  | none => .error .outOfRange

def slice (start len : Int) : Except Failure (List UInt8) :=
  if 0 ≤ start ∧ 0 ≤ len ∧ start + len ≤ buf.length then .ok ((buf.drop start.toNat).take len.toNat)
  else .error .outOfRange

/-- The loop of `cstring` at `i`, with the bytes of the field that are left. -/
def cstringLength (off : Int) : Nat → Int → Except Failure Int
  | 0, i => .ok i
  | left + 1, i => do
      let b ← u8 buf (off + i)
      if b ≠ 0 then cstringLength off left (i + 1) else .ok i

/-- The loop of `octal`. -/
def octalLoop (off : Int) : Nat → Int → Nat → Bool → Except Failure Nat
  | 0, _, v, _ => .ok v
  | left + 1, i, v, seen => do
      let b ← u8 buf (off + i)
      if 48 ≤ b ∧ b ≤ 55 then octalLoop off left (i + 1) (v * 8 + (b.toNat - 48)) true
      else if b = 32 ∧ seen = false then octalLoop off left (i + 1) v false
      else .ok v

def octal (off : Int) (len : Nat) : Except Failure Nat := octalLoop buf off len 0 0 false

def zeroLoop (off : Int) : Nat → Int → Except Failure Bool
  | 0, _ => .ok true
  | left + 1, i => do
      let b ← u8 buf (off + i)
      if b ≠ 0 then .ok false else zeroLoop off left (i + 1)

def zeroBlock (off : Int) : Except Failure Bool := zeroLoop buf off block.toNat 0

def cleanName (s : Str) : Str :=
  let s := if "./".toList.isPrefixOf s then s.drop 2 else s
  if s.length > 0 ∧ "/".toList.isSuffixOf s then s.take (s.length - 1) else s

/-- One line of a pax header. -/
def paxRecord (line : Str) : Option (Str × Str) :=
  let kv := [' '].intercalate (line.splitOn ' ').tail
  let parts := kv.splitOn '='
  if parts.length > 1 then some (parts.headD [], ['='].intercalate parts.tail) else none

def paxRecords (s : Str) : List (Str × Str) := ((s.splitOn '\n').filter (· ≠ [])).filterMap paxRecord

/-- `(get r key)`: of two records with one key the later one counts. -/
def paxGet (r : List (Str × Str)) (key : Str) : Option Str := r.reverse.lookup key

def entryType (flag : UInt8) : EntryType :=
  if flag = 0 ∨ flag = 48 ∨ flag = 55 then .file else if flag = 53 then .dir
  else if flag = 49 ∨ flag = 50 then .link else .other

/-- The variables of `index`'s loop. -/
structure State where
  off : Int
  acc : Index
  nextName : Option Str
  nextSize : Form

def start : State := ⟨0, ∅, none, .nothing⟩

/-- `after` of a header at `off`. -/
def after (off size : Int) : Int := off + block + block * (size + (block - 1)).tdiv block

section Reader

variable (readString : Str → Except Failure Form) (toStringLossy : List UInt8 → Str)

def cstring (off len : Int) : Except Failure Str := do
  let n ← cstringLength buf off len.toNat 0
  return toStringLossy (← slice buf off n)

/-- `size` of the header. -/
def headerSize (st : State) : Except Failure Int :=
  match st.nextSize with
  | .nothing => do return (← octal buf (st.off + 124) 12)
  | .number n => .ok n
  | .other => .error .type

/-- The name in the header's own fields. -/
def fieldName (off : Int) : Except Failure Str := do
  let magic ← cstring buf toStringLossy (off + 257) 6
  let pre ← if magic = "ustar".toList then cstring buf toStringLossy (off + 345) 155 else .ok []
  let nm ← cstring buf toStringLossy off 100
  return if pre = [] then nm else pre ++ "/".toList ++ nm

/-- The size that a pax header gives to the next one. -/
def readSize (r : List (Str × Str)) : Except Failure Form :=
  match paxGet r "size".toList with
  | none => .ok .nothing
  | some s => readString s

/-- The header at `off` with its flag and size. -/
def readHeader (st : State) (flag : UInt8) (size : Int) : Except Failure State :=
  let data := st.off + block
  if flag = 120 then do
    let r := paxRecords (← cstring buf toStringLossy data size)
    let nextSize ← readSize readString r
    return ⟨after st.off size, st.acc, paxGet r "path".toList, nextSize⟩
  else if flag = 103 then .ok ⟨after st.off size, st.acc, st.nextName, st.nextSize⟩
  else if flag = 76 then do
    return ⟨after st.off size, st.acc, some (← cstring buf toStringLossy data size), st.nextSize⟩
  else do
    let own ← fieldName buf toStringLossy st.off
    let full := cleanName (st.nextName.getD own)
    let acc := if full = [] ∨ full = ".".toList then st.acc else st.acc.insert full ⟨entryType flag, data, size⟩
    return ⟨after st.off size, acc, none, .nothing⟩

/-- A round of the loop: it ends with the index, or goes on. -/
def round (st : State) : Except Failure (Index ⊕ State) :=
  if st.off + block > buf.length then .ok (.inl st.acc)
  else do
    if ← zeroBlock buf st.off then return .inl st.acc
    else
      let flag ← u8 buf (st.off + 156)
      let size ← headerSize buf st
      if st.off + block + size > buf.length then .error (.truncated st.off)
      else return .inr (← readHeader buf readString toStringLossy st flag size)

/-- The loop; without a result when the rounds do not suffice. -/
def loop : Nat → State → Option (Except Failure Index)
  | 0, _ => none
  | fuel + 1, st =>
      match round buf readString toStringLossy st with
      | .error e => some (.error e)
      | .ok (.inl acc) => some (.ok acc)
      | .ok (.inr st') => loop fuel st'

def index (fuel : Nat) : Option (Except Failure Index) := loop buf readString toStringLossy fuel start

def entryBytes (e : Entry) : Except Failure (List UInt8) := slice buf e.offset e.size

/-- The states of the loop. -/
inductive Reaches : State → Prop
  | start : Reaches start
  | round {st st' : State} (h : Reaches st) (hround : round buf readString toStringLossy st = .ok (.inr st')) :
      Reaches st'

/-- Wherever a header is read, no pax record has given it a negative size. -/
def Sized : Prop :=
  ∀ st n, Reaches buf readString toStringLossy st → st.nextSize = .number n → st.off + block ≤ buf.length →
    zeroBlock buf st.off = .ok false → 0 ≤ n

/-- The entry's data lies in the buffer. -/
structure Inside (e : Entry) : Prop where
  offset : 0 ≤ e.offset
  size : 0 ≤ e.size
  stop : e.offset + e.size ≤ buf.length

variable {buf readString toStringLossy} {st st' : State} {acc : Index} {flag : UInt8} {size : Int} {e : Entry}

theorem slice_ok {start len : Int} (h0 : 0 ≤ start) (hlen : 0 ≤ len) (h : start + len ≤ buf.length) :
    slice buf start len = .ok ((buf.drop start.toNat).take len.toNat) := if_pos ⟨h0, hlen, h⟩

theorem entryBytes_ok (h : Inside buf e) :
    entryBytes buf e = .ok ((buf.drop e.offset.toNat).take e.size.toNat) := slice_ok h.offset h.size h.stop

/-! ### One round -/

theorem le_after (h : 0 ≤ size) (off : Int) : off + block ≤ after off size := by
  have hdiv : 0 ≤ (size + (block - 1)).tdiv block := Int.tdiv_nonneg (by unfold block; omega) (by unfold block; omega)
  unfold after block at *
  omega

/-- What a header with an entry, or without, makes of the state. -/
theorem readHeader_ok (h : readHeader buf readString toStringLossy st flag size = .ok st') :
    st'.off = after st.off size ∧
      (st'.acc = st.acc ∨ ∃ name type, st'.acc = st.acc.insert name ⟨type, st.off + block, size⟩) ∧
      (st'.nextSize = .nothing ∨ st'.nextSize = st.nextSize ∨ ∃ s, readString s = .ok st'.nextSize) := by
  unfold readHeader at h
  dsimp only at h
  split_ifs at h
  · obtain ⟨text, -, h⟩ := bind_eq_ok.mp h
    obtain ⟨nextSize, hnext, h⟩ := bind_eq_ok.mp h
    cases h
    refine ⟨rfl, .inl rfl, ?_⟩
    unfold readSize at hnext
    split at hnext
    · cases hnext
      exact .inl rfl
    · exact .inr (.inr ⟨_, hnext⟩)
  · cases h
    exact ⟨rfl, .inl rfl, .inr (.inl rfl)⟩
  · obtain ⟨name, -, h⟩ := bind_eq_ok.mp h
    cases h
    exact ⟨rfl, .inl rfl, .inr (.inl rfl)⟩
  · obtain ⟨own, -, h⟩ := bind_eq_ok.mp h
    cases h
    refine ⟨rfl, ?_, .inl rfl⟩
    dsimp only
    split_ifs
    · exact .inl rfl
    · exact .inr ⟨_, _, rfl⟩

/-- A round that goes on has read a header whose data lies before the end. -/
theorem round_next (h : round buf readString toStringLossy st = .ok (.inr st')) :
    ∃ flag size, st.off + block ≤ buf.length ∧ zeroBlock buf st.off = .ok false ∧ headerSize buf st = .ok size ∧
      st.off + block + size ≤ buf.length ∧ readHeader buf readString toStringLossy st flag size = .ok st' := by
  unfold round at h
  split_ifs at h with hend
  · cases h
  · obtain ⟨zero, hzero, h⟩ := bind_eq_ok.mp h
    cases zero with
    | true => cases h
    | false =>
        rw [if_neg Bool.false_ne_true] at h
        obtain ⟨flag, -, h⟩ := bind_eq_ok.mp h
        obtain ⟨size, hsize, h⟩ := bind_eq_ok.mp h
        split_ifs at h with hlen
        obtain ⟨st₁, hread, h⟩ := bind_eq_ok.mp h
        cases h
        exact ⟨flag, size, Int.not_lt.mp hend, hzero, hsize, Int.not_lt.mp hlen, hread⟩

theorem round_done (h : round buf readString toStringLossy st = .ok (.inl acc)) : acc = st.acc := by
  unfold round at h
  split_ifs at h with hend
  · cases h
    rfl
  · obtain ⟨zero, -, h⟩ := bind_eq_ok.mp h
    cases zero with
    | true =>
        cases h
        rfl
    | false =>
        rw [if_neg Bool.false_ne_true] at h
        obtain ⟨flag, -, h⟩ := bind_eq_ok.mp h
        obtain ⟨size, -, h⟩ := bind_eq_ok.mp h
        split_ifs at h
        obtain ⟨st₁, -, h⟩ := bind_eq_ok.mp h
        cases h

/-- A size from the octal field is not negative. -/
theorem headerSize_nonneg (h : headerSize buf st = .ok size) (hsized : ∀ n, st.nextSize = .number n → 0 ≤ n) :
    0 ≤ size := by
  unfold headerSize at h
  split at h
  · obtain ⟨n, -, h⟩ := bind_eq_ok.mp h
    cases h
    exact Int.natCast_nonneg n
  · next n hn =>
      cases h
      exact hsized _ hn
  · cases h

/-! ### The walk -/

/-- The walk is at or after the begin of the buffer, and every entry so far lies inside it. -/
structure Good (buf : List UInt8) (st : State) : Prop where
  off : 0 ≤ st.off
  inside : ∀ name e, st.acc.lookup name = some e → Inside buf e

theorem good_start : Good buf start := ⟨Int.le_refl 0, fun _ _ h => by cases h⟩

theorem Good.round (h : Good buf st) (hreach : Reaches buf readString toStringLossy st)
    (hsized : Sized buf readString toStringLossy) (hround : round buf readString toStringLossy st = .ok (.inr st')) :
    Good buf st' ∧ st.off + block ≤ st'.off ∧ st.off + block ≤ buf.length := by
  obtain ⟨flag, size, hlen, hzero, hsize, hdata, hread⟩ := round_next hround
  have hnonneg := headerSize_nonneg hsize fun n hn => hsized st n hreach hn hlen hzero
  obtain ⟨hoff, hacc, -⟩ := readHeader_ok hread
  have hle := le_after hnonneg st.off
  have h0 := h.off
  have hpos : 0 ≤ block := by decide
  refine ⟨⟨by omega, fun name e hl => ?_⟩, by omega, hlen⟩
  rcases hacc with hacc | ⟨name', type, hacc⟩
  · rw [hacc] at hl
    exact h.inside name e hl
  · rw [hacc] at hl
    by_cases hname : name = name'
    · subst hname
      rw [AList.lookup_insert] at hl
      cases hl
      exact ⟨show 0 ≤ st.off + block by omega, hnonneg, hdata⟩
    · rw [AList.lookup_insert_ne hname] at hl
      exact h.inside name e hl

/-- With the rounds it has, the loop ends at the latest when the headers have used up the buffer. -/
theorem loop_ends (hsized : Sized buf readString toStringLossy) {fuel : Nat} (h : Good buf st)
    (hreach : Reaches buf readString toStringLossy st) (hfuel : (buf.length - st.off).toNat < fuel) :
    ∃ r, (∀ more, loop buf readString toStringLossy (fuel + more) st = some r) ∧
      ∀ acc, r = .ok acc → ∀ name e, acc.lookup name = some e → Inside buf e := by
  induction fuel generalizing st with
  | zero => exact absurd hfuel (Nat.not_lt_zero _)
  | succ fuel ih =>
      cases hround : round buf readString toStringLossy st with
      | error e =>
          refine ⟨.error e, fun more => ?_, fun _ => nofun⟩
          rw [Nat.add_right_comm, loop, hround]
      | ok next =>
          cases next with
          | inl acc =>
              refine ⟨.ok acc, fun more => ?_, fun acc' heq => ?_⟩
              · rw [Nat.add_right_comm, loop, hround]
              · cases heq
                rw [round_done hround]
                exact h.inside
          | inr st' =>
              obtain ⟨hgood, hoff, hlen⟩ := h.round hreach hsized hround
              have hless : (buf.length - st'.off).toNat < fuel := by
                have h0 := h.off
                unfold block at hoff hlen
                omega
              obtain ⟨r, hr, hinside⟩ := ih hgood (.round hreach hround) hless
              refine ⟨r, fun more => ?_, hinside⟩
              rw [Nat.add_right_comm, loop, hround]
              exact hr more

/-- Where no header is given a negative size, the walk ends, and what it returns lies in the buffer. -/
theorem index_ends (hsized : Sized buf readString toStringLossy) :
    ∃ r, (∃ fuel, ∀ more, index buf readString toStringLossy (fuel + more) = some r) ∧
      ∀ acc, r = .ok acc → ∀ name e, acc.lookup name = some e →
        Inside buf e ∧ ∃ bytes, entryBytes buf e = .ok bytes := by
  obtain ⟨r, hr, hinside⟩ := loop_ends hsized good_start .start (Nat.lt_succ_self (buf.length - start.off).toNat)
  refine ⟨r, ⟨_, hr⟩, fun acc hacc name e hl => ?_⟩
  have he := hinside acc hacc name e hl
  exact ⟨he, _, entryBytes_ok he⟩

/-- A reader that gives no negative numbers. -/
theorem sized_of_nonneg (hread : ∀ s n, readString s = .ok (.number n) → 0 ≤ n) (buf : List UInt8) :
    Sized buf readString toStringLossy := by
  intro st n hreach hn hlen hzero
  clear hlen hzero
  induction hreach generalizing n with
  | start => cases hn
  | round _ hround ih =>
      obtain ⟨flag, size, -, -, -, -, hheader⟩ := round_next hround
      obtain ⟨-, -, hnext | hnext | ⟨s, hs⟩⟩ := readHeader_ok hheader
      · rw [hnext] at hn
        cases hn
      · rw [hnext] at hn
        exact ih n hn
      · rw [hn] at hs
        exact hread s n hs

end Reader

end Beeros.Ustar
