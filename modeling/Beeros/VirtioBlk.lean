import Mathlib.Data.UInt
import Mathlib.Logic.Function.Basic

/-! The two virtio-blk drivers: `kernel/virtio_blk.c` with its natives in `kernel/blk_natives.c`, and
`lib/virtio_blk.beer` on `lib/virtio.beer`. Both keep one split virtqueue of eight entries with one
request header and one status byte, so one record holds the state of either. Integers of the C code
are natural numbers reduced to their width; integers of the beerlang code are exact. -/

namespace Beeros.VirtioBlk

/-- `VIRTIO_BLK_SECTOR`, `beer.virtio-blk/sector`. -/
def sector : Nat := 512
/-- `DESC_F_NEXT`, `desc-next`. -/
def descNext : Nat := 1
/-- `DESC_F_WRITE`, `desc-write`: the device writes this buffer. -/
def descWrite : Nat := 2
def reqIn : Nat := 0
def reqOut : Nat := 1
def reqFlush : Nat := 4
/-- `QSIZE`, `qsize`. -/
def qsize : Nat := 8

/-- A descriptor as it is handed to the ring. -/
structure Desc where
  addr : Int
  len : Int
  flags : Nat
  next : Nat
  deriving DecidableEq

/-- The request header: `type u32, reserved u32, sector u64`. -/
structure Header where
  type : Nat
  reserved : Nat
  sector : Int
  deriving DecidableEq

/-- The keywords of `status_value` and of the natives' own argument checks. -/
inductive Error
  | ioError
  | unsupported
  | timeout
  | outOfRange
  | readOnly
  | noDevice
  | badArgs
  | bufferTooSmall
  deriving DecidableEq

/-- A driver's view of one device: `VBlk` in C, the map returned by `init` in beerlang. `hdrAddr` and
`statusAddr` are the addresses of the header and the status byte in the driver's own memory. -/
structure Driver where
  desc : Nat → Desc
  availIdx : UInt16
  availRing : Nat → Nat
  usedIdx : UInt16
  hdr : Header
  status : UInt8
  hdrAddr : Nat
  statusAddr : Nat
  sectors : Nat
  readOnly : Bool
  canFlush : Bool
  usedSeen : UInt16

/-- The descriptor table after the three stores `desc[0] = a; desc[1] = b; desc[2] = c`. -/
def setDescs (desc : Nat → Desc) (a b c : Desc) : Nat → Desc :=
  Function.update (Function.update (Function.update desc 0 a) 1 b) 2 c

/-- The part of `virtio_blk_rw` before `submit`; `lba` is a `uint64_t`, `n` a `uint32_t`. -/
def prepareRw (d : Driver) (write : Bool) (lba n buf : Nat) : Except Error Driver :=
  if n = 0 ∨ lba > d.sectors ∨ n > d.sectors - lba then .error .outOfRange
  else if write ∧ d.readOnly then .error .readOnly
  else .ok { d with
    hdr := ⟨if write then reqOut else reqIn, 0, lba⟩
    desc := setDescs d.desc
      ⟨d.hdrAddr, 16, descNext, 1⟩
      ⟨buf, (n * sector % 2 ^ 32 : Nat), descNext ||| (if write then 0 else descWrite), 2⟩
      ⟨d.statusAddr, 1, descWrite, 0⟩ }

/-- The part of `virtio_blk_flush` before `submit`. -/
def prepareFlush (d : Driver) : Except Error Driver :=
  if !d.canFlush then .error .unsupported
  else .ok { d with
    hdr := ⟨reqFlush, 0, 0⟩
    desc := Function.update (Function.update d.desc 0 ⟨d.hdrAddr, 16, descNext, 1⟩) 1
      ⟨d.statusAddr, 1, descWrite, 0⟩ }

/-- The stores of `submit` (and of `submit!` with `publish!`) that offer chain 0 to the device: the
status byte is set to `0xff`, the ring slot gets the head and the index moves on. -/
def publish (d : Driver) : Driver :=
  { d with
    status := 0xff
    availRing := Function.update d.availRing (d.availIdx.toNat % qsize) 0
    availIdx := d.availIdx + 1 }

/-- A 64-bit beerlang integer. -/
def Fixnum : Type := { x : Int // -2 ^ 63 ≤ x ∧ x < 2 ^ 63 }

/-- A ByteBuffer: the address of its bytes and its capacity, a `uint32_t`. -/
structure Buffer where
  addr : Nat
  capacity : Nat
  capacity_lt : capacity < 2 ^ 32
  end_le : addr + capacity ≤ 2 ^ 64

/-- `fixnum_arg`: the argument's value when it is at least `min`. -/
def fixnumArg (v : Fixnum) (min : Int) : Option Nat :=
  if v.val < min then none else some v.val.toNat

/-- `rw` of `blk_natives.c` on an initialised device, up to `submit`. -/
def nativeRw (d : Driver) (write : Bool) (lba n : Fixnum) (buf : Buffer) (off : Fixnum) :
    Except Error Driver :=
  match fixnumArg lba 0, fixnumArg n 1, fixnumArg off 0 with
  | some lba, some n, some off =>
      let bytes := n * sector % 2 ^ 64
      if (off + bytes) % 2 ^ 64 > buf.capacity then .error .bufferTooSmall
      else prepareRw d write lba (n % 2 ^ 32) ((buf.addr + off) % 2 ^ 64)
  | _, _, _ => .error .badArgs

/-- `beer.virtio-blk/rw!` up to `submit!`. -/
def beerRw (d : Driver) (write : Bool) (lba n : Fixnum) (buf : Buffer) (off : Fixnum) :
    Except Error Driver :=
  if n.val < 1 ∨ lba.val < 0 ∨ lba.val + n.val > d.sectors then .error .outOfRange
  else if write ∧ d.readOnly then .error .readOnly
  else if off.val + n.val * sector > buf.capacity then .error .bufferTooSmall
  else .ok { d with
    hdr := ⟨if write then reqOut else reqIn, 0, lba.val⟩
    desc := setDescs d.desc
      ⟨d.hdrAddr, 16, descNext, 1⟩
      ⟨buf.addr + off.val, n.val * sector,
        if write then descNext else descNext ||| descWrite, 2⟩
      ⟨d.statusAddr, 1, descWrite, 0⟩ }

/-- `beer.virtio-blk/flush-cache!` up to `submit!`. -/
def beerFlush (d : Driver) : Except Error Driver :=
  if d.canFlush then .ok { d with
    hdr := ⟨reqFlush, 0, 0⟩
    desc := Function.update (Function.update d.desc 0 ⟨d.hdrAddr, 16, descNext, 1⟩) 1
      ⟨d.statusAddr, 1, descWrite, 0⟩ }
  else .error .unsupported

/-! ### When the two drivers agree -/

/-- The same descriptor but for the driver's own address in it. -/
def Desc.SameLayout (a b : Desc) : Prop := a.len = b.len ∧ a.flags = b.flags ∧ a.next = b.next

/-- Two drivers about to publish the same request: header, data descriptor, and the layout of the
header and status descriptors. -/
def SameRequest (a b : Driver) : Prop :=
  a.hdr = b.hdr ∧ (a.desc 0).SameLayout (b.desc 0) ∧ a.desc 1 = b.desc 1 ∧
    (a.desc 2).SameLayout (b.desc 2)

/-- Both refuse with the same keyword, or both publish the same request. -/
def SameOutcome : Except Error Driver → Except Error Driver → Prop
  | .error e, .error e' => e = e'
  | .ok a, .ok b => SameRequest a b
  | _, _ => False

@[simp] theorem sameOutcome_error {e e' : Error} :
    SameOutcome (.error e) (.error e') ↔ e = e' := Iff.rfl

@[simp] theorem not_sameOutcome_error_ok {e : Error} {b : Driver} :
    ¬SameOutcome (.error e) (.ok b) := id

/-- What the two drivers know about one device. -/
def SameDevice (a b : Driver) : Prop := a.sectors = b.sectors ∧ a.readOnly = b.readOnly

/-- The C natives' 64-bit sum of offset and byte count. -/
def nativeEnd (n off : Fixnum) : Nat :=
  (off.val.toNat + n.val.toNat * sector % 2 ^ 64) % 2 ^ 64

/-- The range check of `virtio_blk_rw` on the count cut to 32 bits. -/
def nativeOutOfRange (sectors : Nat) (lba n : Fixnum) : Prop :=
  n.val.toNat % 2 ^ 32 = 0 ∨ lba.val.toNat > sectors ∨
    n.val.toNat % 2 ^ 32 > sectors - lba.val.toNat

/-- The inputs on which the drivers are interchangeable. The arguments are not negative and `n` is
at least 1; the transfer fits the buffer, or it does not and both get as far as finding that out, or
the C sum wraps around to a value within the capacity and the check that stops the C driver is the
one that stops the beerlang driver. -/
def Interchangeable (sectors : Nat) (readOnly write : Bool) (lba n : Fixnum) (buf : Buffer)
    (off : Fixnum) : Prop :=
  0 ≤ lba.val ∧ 1 ≤ n.val ∧ 0 ≤ off.val ∧
    (off.val + n.val * sector ≤ buf.capacity ∨
      buf.capacity < off.val + n.val * sector ∧
        (buf.capacity < nativeEnd n off ∧ lba.val + n.val ≤ sectors ∧ ¬(write ∧ readOnly) ∨
          nativeEnd n off ≤ buf.capacity ∧
            (lba.val + n.val > sectors ∧ nativeOutOfRange sectors lba n ∨
              lba.val + n.val ≤ sectors ∧ ¬nativeOutOfRange sectors lba n ∧ write ∧ readOnly)))

theorem fixnumArg_of_lt {v : Fixnum} {min : Int} (h : v.val < min) : fixnumArg v min = none :=
  if_pos h

theorem fixnumArg_of_le {v : Fixnum} {min : Int} (h : min ≤ v.val) :
    fixnumArg v min = some v.val.toNat := if_neg (not_lt.mpr h)

/-- With a negative argument or an empty transfer the C natives answer `:bad-args`, a keyword the
beerlang driver does not have. -/
theorem nativeRw_badArgs {d : Driver} {write : Bool} {lba n off : Fixnum} {buf : Buffer}
    (h : lba.val < 0 ∨ n.val < 1 ∨ off.val < 0) :
    nativeRw d write lba n buf off = .error .badArgs := by
  unfold nativeRw
  rcases h with h | h | h <;> rw [fixnumArg_of_lt h]
  · cases fixnumArg lba 0 <;> rfl
  · cases fixnumArg lba 0 <;> cases fixnumArg n 1 <;> rfl

theorem beerRw_ne_badArgs (d : Driver) (write : Bool) (lba n off : Fixnum) (buf : Buffer) :
    beerRw d write lba n buf off ≠ .error .badArgs := by
  unfold beerRw
  split_ifs <;> simp

theorem not_sameOutcome_badArgs {r : Except Error Driver} (h : r ≠ .error .badArgs) :
    ¬SameOutcome r (.error .badArgs) := by
  cases r with
  | error e =>
      intro heq
      exact h (congrArg _ heq)
  | ok a => exact id

section Valid

variable {a b : Driver} {write : Bool} {lba n off : Fixnum} {buf : Buffer}
  (hlba : 0 ≤ lba.val) (hn : 1 ≤ n.val) (hoff : 0 ≤ off.val)

include hlba hn hoff in
/-- On arguments it accepts the native is its buffer check followed by `virtio_blk_rw`. -/
theorem nativeRw_eq : nativeRw b write lba n buf off =
    if nativeEnd n off > buf.capacity then .error .bufferTooSmall
    else prepareRw b write lba.val.toNat (n.val.toNat % 2 ^ 32)
      ((buf.addr + off.val.toNat) % 2 ^ 64) := by
  unfold nativeRw
  rw [fixnumArg_of_le hlba, fixnumArg_of_le hn, fixnumArg_of_le hoff]
  rfl

include hlba hn hoff in
/-- A transfer that fits its buffer: 32-bit and 64-bit sums are exact, and the two drivers do the
same checks in the same order. -/
theorem sameOutcome_of_fits (hdev : SameDevice a b)
    (hfits : off.val + n.val * sector ≤ buf.capacity) :
    SameOutcome (beerRw a write lba n buf off) (nativeRw b write lba n buf off) := by
  have hcap := buf.capacity_lt
  have haddr := buf.end_le
  simp only [sector, Nat.cast_ofNat] at hfits
  have hend : nativeEnd n off ≤ buf.capacity := by
    simp only [nativeEnd, sector]
    omega
  have hcount : n.val.toNat % 2 ^ 32 = n.val.toNat := Nat.mod_eq_of_lt (by omega)
  have hrange : (n.val.toNat = 0 ∨ lba.val.toNat > b.sectors ∨
      n.val.toNat > b.sectors - lba.val.toNat) ↔ lba.val + n.val > a.sectors := by
    rw [hdev.1]
    omega
  have hbeer : ¬off.val + n.val * sector > buf.capacity := by
    simp only [sector, Nat.cast_ofNat]
    omega
  have hdata : (buf.addr + off.val.toNat) % 2 ^ 64 = buf.addr + off.val.toNat :=
    Nat.mod_eq_of_lt (by omega)
  have hlen : n.val.toNat * sector % 2 ^ 32 = n.val.toNat * sector :=
    Nat.mod_eq_of_lt (by simp only [sector]; omega)
  rw [nativeRw_eq hlba hn hoff, if_neg (not_lt.mpr hend), beerRw, prepareRw, hcount]
  by_cases hr : lba.val + n.val > a.sectors
  · rw [if_pos (Or.inr (Or.inr hr)), if_pos (hrange.mpr hr)]
    exact rfl
  rw [if_neg (by omega), if_neg (hrange.not.mpr hr), hdev.2]
  by_cases hro : write ∧ b.readOnly
  · rw [if_pos hro, if_pos hro]
    exact rfl
  rw [if_neg hro, if_neg hro, if_neg hbeer]
  refine ⟨?_, ⟨rfl, rfl, rfl⟩, ?_, ⟨rfl, rfl, rfl⟩⟩
  · simp only [Header.mk.injEq, true_and]
    omega
  · simp only [setDescs, ne_eq, OfNat.one_ne_ofNat, not_false_eq_true, Function.update_of_ne,
      Function.update_self, Desc.mk.injEq, hdata, hlen]
    refine ⟨by omega, by simp only [sector]; omega, ?_, trivial⟩
    cases write <;> rfl

include hlba hn hoff in
/-- A transfer that does not fit: the beerlang driver ends in `:out-of-range`, `:read-only` or
`:buffer-too-small`, in this order; the C driver checks the buffer first. -/
theorem sameOutcome_of_not_fits (hdev : SameDevice a b)
    (hfits : buf.capacity < off.val + n.val * sector) :
    SameOutcome (beerRw a write lba n buf off) (nativeRw b write lba n buf off) ↔
      buf.capacity < nativeEnd n off ∧ lba.val + n.val ≤ a.sectors ∧ ¬(write ∧ a.readOnly) ∨
        nativeEnd n off ≤ buf.capacity ∧
          (lba.val + n.val > a.sectors ∧ nativeOutOfRange a.sectors lba n ∨
            lba.val + n.val ≤ a.sectors ∧ ¬nativeOutOfRange a.sectors lba n ∧
              write ∧ a.readOnly) := by
  have hbeer : beerRw a write lba n buf off =
      if lba.val + n.val > a.sectors then .error .outOfRange
      else if write ∧ a.readOnly then .error .readOnly else .error .bufferTooSmall := by
    rw [beerRw, if_pos (show off.val + n.val * sector > buf.capacity from hfits)]
    by_cases hr : lba.val + n.val > a.sectors
    · rw [if_pos (Or.inr (Or.inr hr)), if_pos hr]
    · rw [if_neg (by omega), if_neg hr]
  rw [hbeer, nativeRw_eq hlba hn hoff]
  have hfit : lba.val + n.val ≤ a.sectors ↔ ¬lba.val + n.val > a.sectors := not_lt.symm
  rw [hfit]
  by_cases hend : buf.capacity < nativeEnd n off
  · have hle := not_le.mpr hend
    rw [if_pos hend]
    by_cases hr : lba.val + n.val > a.sectors
    · simp [hr, hle]
    · by_cases hro : write ∧ a.readOnly <;> simp [hr, hro, hend, hle]
  have hle := not_lt.mp hend
  rw [if_neg hend, prepareRw, ← hdev.1, ← hdev.2]
  by_cases hor : nativeOutOfRange a.sectors lba n
  · rw [if_pos (show _ ∨ _ from hor)]
    by_cases hr : lba.val + n.val > a.sectors
    · simp [hr, hor, hle]
    · by_cases hro : write ∧ a.readOnly <;> simp [hr, hor, hro, hend]
  · rw [if_neg (show ¬(_ ∨ _) from hor)]
    by_cases hr : lba.val + n.val > a.sectors
    · by_cases hro : write ∧ a.readOnly <;> simp [hr, hor, hro, hend]
    · by_cases hro : write ∧ a.readOnly <;> simp [hr, hor, hro, hend, hle]

end Valid

/-- **Interchangeability.** On one device and any arguments the two drivers refuse alike or publish
alike exactly on the inputs of `Interchangeable`. -/
theorem sameOutcome_iff {a b : Driver} (hdev : SameDevice a b) (write : Bool) (lba n off : Fixnum)
    (buf : Buffer) :
    SameOutcome (beerRw a write lba n buf off) (nativeRw b write lba n buf off) ↔
      Interchangeable a.sectors a.readOnly write lba n buf off := by
  by_cases hargs : 0 ≤ lba.val ∧ 1 ≤ n.val ∧ 0 ≤ off.val
  · obtain ⟨hlba, hn, hoff⟩ := hargs
    by_cases hfits : off.val + n.val * sector ≤ buf.capacity
    · exact iff_of_true (sameOutcome_of_fits hlba hn hoff hdev hfits)
        ⟨hlba, hn, hoff, Or.inl hfits⟩
    · rw [sameOutcome_of_not_fits hlba hn hoff hdev (not_le.mp hfits)]
      have hgt := not_le.mp hfits
      simp only [Interchangeable, hlba, hn, hoff, hfits, hgt, true_and, false_or]
  · have hbad : lba.val < 0 ∨ n.val < 1 ∨ off.val < 0 := by omega
    rw [nativeRw_badArgs hbad]
    refine iff_of_false (not_sameOutcome_badArgs (beerRw_ne_badArgs a write lba n off buf)) ?_
    exact fun h => hargs ⟨h.1, h.2.1, h.2.2.1⟩

/-- A driver of an eight-sector device before its first request. -/
def freshDriver : Driver where
  desc := fun _ => ⟨0, 0, 0, 0⟩
  availIdx := 0
  availRing := fun _ => 0
  usedIdx := 0
  hdr := ⟨0, 0, 0⟩
  status := 0
  hdrAddr := 0x80300000
  statusAddr := 0x80300010
  sectors := 8
  readOnly := false
  canFlush := true
  usedSeen := 0

/-- A one-sector buffer. -/
def sectorBuffer : Buffer := ⟨0x80400000, 512, by decide, by decide⟩

theorem sameOutcome_iff_one_sector :
    SameOutcome (beerRw freshDriver true ⟨7, by decide⟩ ⟨1, by decide⟩ sectorBuffer ⟨0, by decide⟩)
        (nativeRw freshDriver true ⟨7, by decide⟩ ⟨1, by decide⟩ sectorBuffer ⟨0, by decide⟩) ↔
      Interchangeable 8 false true ⟨7, by decide⟩ ⟨1, by decide⟩ sectorBuffer ⟨0, by decide⟩ :=
  sameOutcome_iff ⟨rfl, rfl⟩ true _ _ _ sectorBuffer

/-- A negative offset: the C natives refuse it, the beerlang driver publishes a transfer that starts
before the buffer. -/
theorem not_sameOutcome_negative_offset :
    SameDevice freshDriver freshDriver ∧
      ¬SameOutcome
        (beerRw freshDriver false ⟨0, by decide⟩ ⟨1, by decide⟩ sectorBuffer ⟨-512, by decide⟩)
        (nativeRw freshDriver false ⟨0, by decide⟩ ⟨1, by decide⟩ sectorBuffer ⟨-512, by decide⟩) :=
  ⟨⟨rfl, rfl⟩, id⟩

end Beeros.VirtioBlk
