import Beeros.VirtioBlk

/-! Where a published transfer reads or writes memory. The beerlang driver stores the address and the
length of its data descriptor into fields of 64 and 32 bits; what the runtime does with a value that
does not fit is a parameter. -/

namespace Beeros.VirtioBlk

/-- A store into a field of `bits` bits. `wide` answers for the values that do not fit: what the field
holds then, or `none` when the store throws. -/
def fieldStore (wide : Nat → Int → Option Nat) (bits : Nat) (x : Int) : Option Nat :=
  if 0 ≤ x ∧ x < 2 ^ bits then some x.toNat else wide bits x

/-- Address and length of the data descriptor that the beerlang driver publishes, if it publishes. -/
def beerData (wide : Nat → Int → Option Nat) (d : Driver) (write : Bool) (lba n : Fixnum)
    (buf : Buffer) (off : Fixnum) : Option (Nat × Nat) :=
  match beerRw d write lba n buf off with
  | .error _ => none
  | .ok d' => do
      let addr ← fieldStore wide 64 (d'.desc 1).addr
      let len ← fieldStore wide 32 (d'.desc 1).len
      pure (addr, len)

/-- The same for the C driver, whose fields are already reduced to their width. -/
def nativeData (d : Driver) (write : Bool) (lba n : Fixnum) (buf : Buffer) (off : Fixnum) :
    Option (Nat × Nat) :=
  match nativeRw d write lba n buf off with
  | .error _ => none
  | .ok d' => some ((d'.desc 1).addr.toNat, (d'.desc 1).len.toNat)

/-- The range is the `n` sectors from `off` of the buffer, within it, and the sectors are on the device. -/
def Inside (sectors : Nat) (lba n : Fixnum) (buf : Buffer) (off : Fixnum) (r : Nat × Nat) : Prop :=
  (r.1 : Int) = buf.addr + off.val ∧ (r.2 : Int) = n.val * sector ∧ buf.addr ≤ r.1 ∧
    r.1 + r.2 ≤ buf.addr + buf.capacity ∧ 0 ≤ lba.val ∧ lba.val + n.val ≤ sectors

/-- Whatever the two drivers publish for these arguments stays inside the buffer and the device. -/
def DmaInside (wide : Nat → Int → Option Nat) (a b : Driver) (write : Bool) (lba n : Fixnum)
    (buf : Buffer) (off : Fixnum) : Prop :=
  (∀ r, beerData wide a write lba n buf off = some r → Inside a.sectors lba n buf off r) ∧
    ∀ r, nativeData b write lba n buf off = some r → Inside b.sectors lba n buf off r

/-- The checks of `rw!` let the arguments through. -/
def BeerAccepts (d : Driver) (write : Bool) (lba n : Fixnum) (buf : Buffer) (off : Fixnum) : Prop :=
  1 ≤ n.val ∧ 0 ≤ lba.val ∧ lba.val + n.val ≤ d.sectors ∧ ¬(write ∧ d.readOnly) ∧
    off.val + n.val * sector ≤ buf.capacity

/-- The checks of the natives and of `virtio_blk_rw` let the arguments through. -/
def NativeAccepts (d : Driver) (write : Bool) (lba n : Fixnum) (buf : Buffer) (off : Fixnum) : Prop :=
  0 ≤ lba.val ∧ 1 ≤ n.val ∧ 0 ≤ off.val ∧ nativeEnd n off ≤ buf.capacity ∧
    ¬nativeOutOfRange d.sectors lba n ∧ ¬(write ∧ d.readOnly)

/-- The store of the address or of the length throws. -/
def StoreThrows (wide : Nat → Int → Option Nat) (n : Fixnum) (buf : Buffer) (off : Fixnum) : Prop :=
  fieldStore wide 64 (buf.addr + off.val) = none ∨ fieldStore wide 32 (n.val * sector) = none

variable {wide : Nat → Int → Option Nat} {a b d : Driver} {write : Bool} {lba n off : Fixnum}
  {buf : Buffer} {r : Nat × Nat}

theorem fieldStore_of_fits {bits : Nat} {x : Int} (h : 0 ≤ x ∧ x < 2 ^ bits) :
    fieldStore wide bits x = some x.toNat := if_pos h

theorem beerData_eq_some : beerData wide d write lba n buf off = some r ↔
    BeerAccepts d write lba n buf off ∧ fieldStore wide 64 (buf.addr + off.val) = some r.1 ∧
      fieldStore wide 32 (n.val * sector) = some r.2 := by
  unfold beerData beerRw BeerAccepts
  by_cases h₁ : n.val < 1 ∨ lba.val < 0 ∨ lba.val + n.val > d.sectors
  · rw [if_pos h₁]
    refine iff_of_false nofun ?_
    rintro ⟨⟨hn, hlba, hr, -⟩, -⟩
    omega
  by_cases h₂ : write ∧ d.readOnly
  · rw [if_neg h₁, if_pos h₂]
    exact iff_of_false nofun fun h => h.1.2.2.2.1 h₂
  by_cases h₃ : off.val + n.val * sector > buf.capacity
  · rw [if_neg h₁, if_neg h₂, if_pos h₃]
    exact iff_of_false nofun fun h => absurd h.1.2.2.2.2 (not_le.mpr h₃)
  rw [if_neg h₁, if_neg h₂, if_neg h₃]
  have hacc : 1 ≤ n.val ∧ 0 ≤ lba.val ∧ lba.val + n.val ≤ d.sectors ∧ ¬(write ∧ d.readOnly) ∧
      off.val + n.val * sector ≤ buf.capacity :=
    ⟨by omega, by omega, by omega, h₂, not_lt.mp h₃⟩
  simp only [setDescs, ne_eq, OfNat.one_ne_ofNat, not_false_eq_true, Function.update_of_ne,
    Function.update_self, hacc, true_and]
  cases fieldStore wide 64 (buf.addr + off.val) with
  | none => simp
  | some x =>
      cases fieldStore wide 32 (n.val * sector) with
      | none => simp
      | some y => simp [Prod.ext_iff]

theorem nativeData_eq_some : nativeData d write lba n buf off = some r ↔
    NativeAccepts d write lba n buf off ∧ r.1 = (buf.addr + off.val.toNat) % 2 ^ 64 ∧
      r.2 = n.val.toNat % 2 ^ 32 * sector % 2 ^ 32 := by
  by_cases hargs : 0 ≤ lba.val ∧ 1 ≤ n.val ∧ 0 ≤ off.val
  · obtain ⟨hlba, hn, hoff⟩ := hargs
    unfold nativeData NativeAccepts
    rw [nativeRw_eq hlba hn hoff]
    by_cases hend : nativeEnd n off > buf.capacity
    · rw [if_pos hend]
      refine iff_of_false (Option.some_ne_none r).symm ?_
      rintro ⟨⟨-, -, -, hle, -⟩, -⟩
      omega
    · rw [if_neg hend]
      unfold prepareRw
      by_cases h₁ : nativeOutOfRange d.sectors lba n
      · rw [if_pos (show _ ∨ _ from h₁)]
        exact iff_of_false (Option.some_ne_none r).symm fun h => h.1.2.2.2.2.1 h₁
      rw [if_neg (show ¬(_ ∨ _) from h₁)]
      by_cases h₂ : write ∧ d.readOnly
      · rw [if_pos h₂]
        exact iff_of_false (Option.some_ne_none r).symm fun h => h.1.2.2.2.2.2 h₂
      rw [if_neg h₂]
      have hacc : 0 ≤ lba.val ∧ 1 ≤ n.val ∧ 0 ≤ off.val ∧ nativeEnd n off ≤ buf.capacity ∧
          ¬nativeOutOfRange d.sectors lba n ∧ ¬(write ∧ d.readOnly) :=
        ⟨hlba, hn, hoff, not_lt.mp hend, h₁, h₂⟩
      simp only [setDescs, ne_eq, OfNat.one_ne_ofNat, not_false_eq_true, Function.update_of_ne,
        Function.update_self, hacc, true_and, Option.some.injEq, Int.toNat_natCast, Prod.ext_iff]
      exact and_congr eq_comm eq_comm
  · have hbad : lba.val < 0 ∨ n.val < 1 ∨ off.val < 0 := by omega
    unfold nativeData
    rw [nativeRw_badArgs hbad]
    exact iff_of_false (Option.some_ne_none r).symm fun h => hargs ⟨h.1.1, h.1.2.1, h.1.2.2.1⟩

/-- Exact integers: behind the checks of the beerlang driver only a negative offset leaves the buffer. -/
theorem beerInside_iff :
    (∀ r, beerData wide d write lba n buf off = some r → Inside d.sectors lba n buf off r) ↔
      (BeerAccepts d write lba n buf off → 0 ≤ off.val ∨ StoreThrows wide n buf off) := by
  have hcap := buf.capacity_lt
  have hend := buf.end_le
  constructor
  · intro h hacc
    by_contra hnot
    obtain ⟨hoff, hstore⟩ := not_or.mp hnot
    obtain ⟨h₁, h₂⟩ := not_or.mp hstore
    obtain ⟨x, hx⟩ := Option.ne_none_iff_exists'.mp h₁
    obtain ⟨y, hy⟩ := Option.ne_none_iff_exists'.mp h₂
    obtain ⟨haddr, -, hle, -⟩ := h (x, y) (beerData_eq_some.mpr ⟨hacc, hx, hy⟩)
    simp only at haddr hle
    omega
  · intro h r hr
    obtain ⟨hacc, hx, hy⟩ := beerData_eq_some.mp hr
    rcases h hacc with hoff | hthrow | hthrow
    · obtain ⟨hn, hlba, hsec, -, hfit⟩ := hacc
      simp only [sector, Nat.cast_ofNat] at hfit hy
      rw [fieldStore_of_fits (by omega), Option.some.injEq] at hx hy
      simp only [Inside, sector, Nat.cast_ofNat]
      omega
    · rw [hthrow] at hx
      cases hx
    · rw [hthrow] at hy
      cases hy

/-- 64-bit sums: behind the checks of the C driver only a sum that wraps leaves the buffer. -/
theorem nativeInside_iff :
    (∀ r, nativeData d write lba n buf off = some r → Inside d.sectors lba n buf off r) ↔
      (NativeAccepts d write lba n buf off → off.val + n.val * sector < 2 ^ 64) := by
  have hcap := buf.capacity_lt
  have hend := buf.end_le
  constructor
  · intro h hacc
    obtain ⟨-, hlen, -, hle, -⟩ := h (_, _) (nativeData_eq_some.mpr ⟨hacc, rfl, rfl⟩)
    obtain ⟨-, hn, hoff, -⟩ := hacc
    have hlt := off.property.2
    simp only [sector, Nat.cast_ofNat] at hlen hle ⊢
    omega
  · intro h r hr
    obtain ⟨hacc, hx, hy⟩ := nativeData_eq_some.mp hr
    have hsum := h hacc
    obtain ⟨hlba, hn, hoff, hfit, hrange, -⟩ := hacc
    simp only [nativeEnd, nativeOutOfRange, Inside, sector, Nat.cast_ofNat] at *
    omega

/-- **DMA range.** The two drivers keep every transfer inside its buffer and the device exactly when
the offset is not negative where the beerlang driver accepts, and offset and byte count do not add up
past `2^64` where the C driver accepts. -/
theorem dmaInside_iff (wide : Nat → Int → Option Nat) (a b : Driver) (write : Bool) (lba n : Fixnum)
    (buf : Buffer) (off : Fixnum) : DmaInside wide a b write lba n buf off ↔
      (BeerAccepts a write lba n buf off → 0 ≤ off.val ∨ StoreThrows wide n buf off) ∧
        (NativeAccepts b write lba n buf off → off.val + n.val * sector < 2 ^ 64) :=
  and_congr beerInside_iff nativeInside_iff

/-- A read with offset -512 goes to the 512 bytes before the buffer. -/
theorem not_dmaInside_negative_offset : ¬DmaInside (fun _ _ => none) freshDriver freshDriver false
    ⟨0, by decide⟩ ⟨1, by decide⟩ sectorBuffer ⟨-512, by decide⟩ := by
  rintro ⟨h, -⟩
  rcases beerInside_iff.mp h ⟨by decide, by decide, by decide, by decide, by decide⟩ with h | h | h
  · exact absurd h (by decide)
  · exact absurd h (by decide)
  · exact absurd h (by decide)

end Beeros.VirtioBlk
