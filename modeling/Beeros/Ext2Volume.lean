import Beeros.Ext2Write

/-! Well-formed mounted file systems, and what their disk holds. `Volume` is the map `mount` returns
together with what makes it sound: the sizes fit, and every metadata block has one place in the
layout. `Vol` takes the disk apart into the superblock, the group descriptors, the two bitmaps, the
inode records and the data blocks. Each write of the code changes one of these, and the theorems here
say which: above them no proof speaks of byte addresses again. -/

namespace Beeros.Ext2

open Memory

/-- What a block is for. `reserved` is metadata the code never writes: backup superblocks, the blocks
of reserved inodes, and whatever lies outside the volume. -/
inductive Kind
  | superblock
  | descriptors (i : Nat)
  | blockBitmap (g : Nat)
  | inodeBitmap (g : Nat)
  | inodeTable (g i : Nat)
  | reserved
  | data
  deriving DecidableEq

def Fs.group (fs : Fs) (g : Nat) : Group := fs.groups.getD g ⟨0, 0, 0⟩

theorem lt_ceilDiv {x n k : Nat} (hn : 0 < n) : k < ceilDiv x n ↔ k * n < x := by
  rw [ceilDiv, Nat.lt_iff_add_one_le, Nat.le_div_iff_mul_le hn, Nat.succ_mul]
  omega

theorem ceilDiv_le {a n : Nat} (hn : 0 < n) : ceilDiv a n ≤ a / n + 1 := by
  unfold ceilDiv
  calc (a + (n - 1)) / n ≤ (a + n) / n := Nat.div_le_div_right (by omega)
    _ = a / n + 1 := Nat.add_div_right a hn

/-- A file system whose geometry is sound, with the layout of its blocks. The runtime throws at a
store of a value too wide for its field. -/
structure Volume extends Fs where
  kind : Nat → Kind
  firstIno : Nat
  wide_none : ∀ n x, rt.wide n x = none
  blockSize_eq : ∃ k, blockSize = 1024 <<< k
  sectorSize_dvd : dev.sectorSize ∣ 1024
  spb_mul : spb * dev.sectorSize = blockSize
  firstDataBlock_eq : firstDataBlock = 1024 / blockSize
  firstDataBlock_lt : firstDataBlock < blocks
  blocks_lt : blocks < 2 ^ 32
  blocks_fit : blocks * spb ≤ dev.sectors
  blocksPerGroup_pos : 0 < blocksPerGroup
  blocksPerGroup_le : blocksPerGroup ≤ 8 * blockSize
  inodesPerGroup_pos : 0 < inodesPerGroup
  inodesPerGroup_le : inodesPerGroup ≤ 8 * blockSize
  groups_length : groups.length = ceilDiv (blocks - firstDataBlock) blocksPerGroup
  inodes_eq : inodes = groups.length * inodesPerGroup
  inodes_lt : inodes < 2 ^ 32
  inodeSize_ge : 128 ≤ inodeSize
  inodeSize_dvd : inodeSize ∣ blockSize
  rootIno_lt : rootIno < firstIno
  kind_superblock : kind firstDataBlock = .superblock
  kind_descriptors : ∀ i < ceilDiv (groups.length * 32) blockSize,
    kind (firstDataBlock + 1 + i) = .descriptors i
  kind_blockBitmap : ∀ g < groups.length, kind (groups.getD g ⟨0, 0, 0⟩).blockBitmap = .blockBitmap g
  kind_inodeBitmap : ∀ g < groups.length, kind (groups.getD g ⟨0, 0, 0⟩).inodeBitmap = .inodeBitmap g
  kind_inodeTable : ∀ g < groups.length,
    ∀ i < ceilDiv (inodesPerGroup * inodeSize) blockSize,
      kind ((groups.getD g ⟨0, 0, 0⟩).inodeTable + i) = .inodeTable g i
  kind_inRange : ∀ b, kind b ≠ .reserved → firstDataBlock ≤ b ∧ b < blocks

/-- A disk taken apart. -/
structure Vol where
  sb : Bytes
  gd : Nat → Bytes
  blockBit : Nat → Bool
  inodeBit : Nat → Bool
  inode : Nat → Bytes
  block : Nat → Bytes

theorem record_of_dvd {isz bs x : Nat} (hbs : 0 < bs) (h : isz ∣ bs) :
    x * isz % bs + isz ≤ bs := by
  obtain ⟨k, rfl⟩ := h
  have hk : 0 < k := Nat.pos_of_mul_pos_left hbs
  rw [Nat.mul_comm isz k, Nat.mul_mod_mul_right, ← Nat.succ_mul]
  exact Nat.mul_le_mul_right _ (Nat.mod_lt _ hk)

namespace Volume

variable (v : Volume)

def blockGroup (b : Nat) : Nat := (b - v.firstDataBlock) / v.blocksPerGroup
def blockIndex (b : Nat) : Nat := (b - v.firstDataBlock) % v.blocksPerGroup
def inodeGroup (ino : Nat) : Nat := (ino - 1) / v.inodesPerGroup
def inodeIndex (ino : Nat) : Nat := (ino - 1) % v.inodesPerGroup

/-- A block of the volume, one with a bit in the block bitmaps. -/
def InRange (b : Nat) : Prop := v.firstDataBlock ≤ b ∧ b < v.blocks

/-- An inode number of the volume. -/
def IsInode (ino : Nat) : Prop := 1 ≤ ino ∧ ino ≤ v.inodes

instance (b : Nat) : Decidable (v.InRange b) := inferInstanceAs (Decidable (_ ∧ _))

instance (ino : Nat) : Decidable (v.IsInode ino) := inferInstanceAs (Decidable (_ ∧ _))

def gdAddr (g : Nat) : Nat := (v.firstDataBlock + 1) * v.blockSize + g * 32

def inodeAddr (ino : Nat) : Nat :=
  (v.group (v.inodeGroup ino)).inodeTable * v.blockSize + v.inodeIndex ino * v.inodeSize

/-- Bit `i` of the bitmap in block `blk`. -/
def bitAt (d : Bytes) (blk i : Nat) : Bool := (d (blk * v.blockSize + i / 8)).toNat.testBit (i % 8)

def view (d : Bytes) : Vol where
  sb := window d 1024 1024
  gd g := if g < v.groups.length then window d (v.gdAddr g) 32 else fun _ => 0
  blockBit b := v.InRange b && v.bitAt d (v.group (v.blockGroup b)).blockBitmap (v.blockIndex b)
  inodeBit i := v.IsInode i && v.bitAt d (v.group (v.inodeGroup i)).inodeBitmap (v.inodeIndex i)
  inode i := if v.IsInode i then window d (v.inodeAddr i) v.inodeSize else fun _ => 0
  block b := if v.kind b = .data then window d (b * v.blockSize) v.blockSize else fun _ => 0

/-! ### Geometry -/

theorem bs_eq : ∃ k, v.blockSize = 1024 * 2 ^ k := by
  obtain ⟨k, hk⟩ := v.blockSize_eq
  exact ⟨k, by rw [hk, Nat.shiftLeft_eq]⟩

theorem le_bs : 1024 ≤ v.blockSize := by
  obtain ⟨k, hk⟩ := v.bs_eq
  have := Nat.two_pow_pos k
  omega

theorem bs_pos : 0 < v.blockSize := by have := v.le_bs; omega

theorem four_dvd_blockSize : 4 ∣ v.blockSize := by
  obtain ⟨k, hk⟩ := v.bs_eq
  rw [hk]
  exact Dvd.dvd.mul_right (by decide) _

theorem blockGroup_lt {b : Nat} (h : v.InRange b) : v.blockGroup b < v.groups.length := by
  unfold blockGroup
  rw [v.groups_length, lt_ceilDiv v.blocksPerGroup_pos]
  have hle := Nat.div_mul_le_self (b - v.firstDataBlock) v.blocksPerGroup
  have h1 := h.1
  have h2 := h.2
  omega

theorem blockIndex_lt (b : Nat) : v.blockIndex b < v.blocksPerGroup := Nat.mod_lt _ v.blocksPerGroup_pos

theorem inodeIndex_lt (ino : Nat) : v.inodeIndex ino < v.inodesPerGroup := Nat.mod_lt _ v.inodesPerGroup_pos

theorem inodeGroup_lt {ino : Nat} (h : v.IsInode ino) : v.inodeGroup ino < v.groups.length := by
  unfold inodeGroup
  rw [Nat.div_lt_iff_lt_mul v.inodesPerGroup_pos, ← v.inodes_eq]
  have h1 := h.1
  have h2 := h.2
  omega

theorem ng_pos : 0 < v.groups.length := by
  have h : v.InRange v.firstDataBlock := ⟨le_rfl, v.firstDataBlock_lt⟩
  exact (Nat.zero_le _).trans_lt (v.blockGroup_lt h)

theorem data_inRange {b : Nat} (h : v.kind b = .data) : v.InRange b :=
  v.kind_inRange b (by simp [h])

/-- Block 0 is the boot block or the superblock. -/
theorem ne_zero_of_kind {b : Nat} (h : v.kind b ≠ .reserved) (h' : v.kind b ≠ .superblock) :
    b ≠ 0 := by
  rintro rfl
  have hfdb : v.firstDataBlock = 0 := Nat.le_zero.mp (v.kind_inRange 0 h).1
  have hsb := v.kind_superblock
  rw [hfdb] at hsb
  exact h' hsb

/-- Two different blocks do not overlap. -/
theorem blocks_apart {b b' : Nat} (h : b ≠ b') :
    b * v.blockSize + v.blockSize ≤ b' * v.blockSize ∨ b' * v.blockSize + v.blockSize ≤ b * v.blockSize := by
  rcases Nat.lt_or_gt_of_ne h with hlt | hlt
  · left
    rw [← Nat.succ_mul]
    exact Nat.mul_le_mul_right _ hlt
  · right
    rw [← Nat.succ_mul]
    exact Nat.mul_le_mul_right _ hlt

/-- A range inside block `l` is not touched by a change of another block. -/
theorem agreeOn_of_ne {d d' : Bytes} {b l a n : Nat}
    (hd : AgreeOutside d d' (b * v.blockSize) (b * v.blockSize + v.blockSize)) (hl : b ≠ l) (ha : l * v.blockSize ≤ a)
    (hn : a + n ≤ l * v.blockSize + v.blockSize) : AgreeOn d d' a n :=
  hd.agreeOn (by have := v.blocks_apart hl; omega)

/-! ### Where the parts are -/

theorem sb_in_block : v.firstDataBlock * v.blockSize ≤ 1024 ∧ 1024 + 1024 ≤ v.firstDataBlock * v.blockSize + v.blockSize := by
  obtain ⟨k, hk⟩ := v.bs_eq
  rw [v.firstDataBlock_eq, hk]
  rcases k with - | k
  · omega
  · have hpos := Nat.two_pow_pos k
    rw [Nat.pow_succ, Nat.div_eq_of_lt (by omega)]
    omega

/-- The block of the table with group `g`'s descriptor. -/
def gdBlock (g : Nat) : Nat := v.firstDataBlock + 1 + g * 32 / v.blockSize

theorem gdAddr_eq (g : Nat) :
    v.gdAddr g = v.gdBlock g * v.blockSize + g * 32 % v.blockSize := by
  unfold gdAddr gdBlock
  rw [Nat.add_mul (v.firstDataBlock + 1), Nat.add_assoc, Nat.mul_comm (g * 32 / v.blockSize),
    Nat.div_add_mod]

theorem gdOffset_le (g : Nat) : g * 32 % v.blockSize + 32 ≤ v.blockSize := by
  obtain ⟨k, hk⟩ := v.bs_eq
  have hpos := Nat.two_pow_pos k
  rw [hk, show 1024 * 2 ^ k = 32 * (32 * 2 ^ k) by omega, Nat.mul_comm g, Nat.mul_mod_mul_left]
  have := Nat.mod_lt g (show 0 < 32 * 2 ^ k by omega)
  omega

theorem gd_in_block (g : Nat) : v.gdBlock g * v.blockSize ≤ v.gdAddr g ∧
    v.gdAddr g + 32 ≤ v.gdBlock g * v.blockSize + v.blockSize := by
  have hmod := v.gdOffset_le g
  rw [v.gdAddr_eq]
  omega

theorem kind_gdBlock {g : Nat} (h : g < v.groups.length) : v.kind (v.gdBlock g) = .descriptors (g * 32 / v.blockSize) := by
  apply v.kind_descriptors
  rw [lt_ceilDiv v.bs_pos]
  have hle := Nat.div_mul_le_self (g * 32) v.blockSize
  omega

/-- The block of the inode table with the record of `ino`. -/
def inodeBlock (ino : Nat) : Nat :=
  (v.group (v.inodeGroup ino)).inodeTable + v.inodeIndex ino * v.inodeSize / v.blockSize

/-- The offset of the record of `ino` in its block. -/
def inodeOffset (ino : Nat) : Nat := v.inodeIndex ino * v.inodeSize % v.blockSize

theorem inodeAddr_eq (ino : Nat) :
    v.inodeAddr ino = v.inodeBlock ino * v.blockSize + v.inodeOffset ino := by
  unfold inodeAddr inodeBlock inodeOffset
  rw [Nat.add_mul, Nat.add_assoc, Nat.mul_comm (_ / v.blockSize), Nat.div_add_mod]

theorem inodeOffset_le (ino : Nat) : v.inodeOffset ino + v.inodeSize ≤ v.blockSize :=
  record_of_dvd v.bs_pos v.inodeSize_dvd

theorem kind_inodeBlock {ino : Nat} (h : v.IsInode ino) : v.kind (v.inodeBlock ino) =
    .inodeTable (v.inodeGroup ino) (v.inodeIndex ino * v.inodeSize / v.blockSize) := by
  apply v.kind_inodeTable _ (v.inodeGroup_lt h)
  rw [lt_ceilDiv v.bs_pos]
  have hle := Nat.div_mul_le_self (v.inodeIndex ino * v.inodeSize) v.blockSize
  have hidx : v.inodeIndex ino * v.inodeSize + v.inodeSize ≤ v.inodesPerGroup * v.inodeSize := by
    rw [← Nat.succ_mul]
    exact Nat.mul_le_mul_right _ (v.inodeIndex_lt ino)
  have hsize := v.inodeSize_ge
  omega

/-! ### A change of one block -/

section Change

variable {v} {d d' : Bytes} {b : Nat}
  (hd : AgreeOutside d d' (b * v.blockSize) (b * v.blockSize + v.blockSize))

include hd

theorem sb_same (hb : v.kind b ≠ .superblock) : (v.view d').sb = (v.view d).sb := by
  apply window_congr
  apply v.agreeOn_of_ne hd (l := v.firstDataBlock) _ v.sb_in_block.1 v.sb_in_block.2
  rintro rfl
  exact hb v.kind_superblock

theorem gd_of_ne {g : Nat} (hb : g < v.groups.length → b ≠ v.gdBlock g) :
    (v.view d').gd g = (v.view d).gd g := by
  simp only [view]
  split_ifs with hg
  · exact window_congr
      (v.agreeOn_of_ne hd (hb hg) (v.gd_in_block g).1 (v.gd_in_block g).2)
  · rfl

theorem bitAt_of_ne {blk i : Nat} (hb : b ≠ blk) (hi : i < 8 * v.blockSize) :
    v.bitAt d' blk i = v.bitAt d blk i := by
  have h := v.agreeOn_of_ne hd (l := blk) (a := blk * v.blockSize + i / 8) (n := 1) hb
    (by omega) (by omega)
  unfold bitAt
  rw [h _ le_rfl (Nat.lt_succ_self _)]

theorem blockBit_of_ne {x : Nat}
    (hb : v.InRange x → b ≠ (v.group (v.blockGroup x)).blockBitmap) :
    (v.view d').blockBit x = (v.view d).blockBit x := by
  simp only [view]
  by_cases hx : v.InRange x
  · rw [bitAt_of_ne hd (hb hx) ((v.blockIndex_lt x).trans_le v.blocksPerGroup_le)]
  · simp [hx]

theorem inodeBit_of_ne {x : Nat}
    (hb : v.IsInode x → b ≠ (v.group (v.inodeGroup x)).inodeBitmap) :
    (v.view d').inodeBit x = (v.view d).inodeBit x := by
  simp only [view]
  by_cases hx : v.IsInode x
  · rw [bitAt_of_ne hd (hb hx) ((v.inodeIndex_lt x).trans_le v.inodesPerGroup_le)]
  · simp [hx]

theorem inode_of_ne {x : Nat} (hb : v.IsInode x → b ≠ v.inodeBlock x) :
    (v.view d').inode x = (v.view d).inode x := by
  simp only [view]
  split_ifs with hx
  · have hle := v.inodeOffset_le x
    exact window_congr (v.agreeOn_of_ne hd (hb hx) (by rw [v.inodeAddr_eq]; omega)
      (by rw [v.inodeAddr_eq]; omega))
  · rfl

theorem block_of_ne {x : Nat} (hb : b ≠ x) : (v.view d').block x = (v.view d).block x := by
  simp only [view]
  split_ifs with hx
  · exact window_congr (v.agreeOn_of_ne hd hb le_rfl le_rfl)
  · rfl

end Change

theorem ne_of_kind {b b' : Nat} (h : v.kind b ≠ v.kind b') : b ≠ b' := fun he => h (he ▸ rfl)

theorem ne_blockBitmap {b g : Nat} (h : v.kind b ≠ .blockBitmap g) (hg : g < v.groups.length) :
    b ≠ (v.group g).blockBitmap := by
  apply v.ne_of_kind
  rwa [show v.kind (v.group g).blockBitmap = _ from v.kind_blockBitmap g hg]

theorem ne_inodeBitmap {b g : Nat} (h : v.kind b ≠ .inodeBitmap g) (hg : g < v.groups.length) :
    b ≠ (v.group g).inodeBitmap := by
  apply v.ne_of_kind
  rwa [show v.kind (v.group g).inodeBitmap = _ from v.kind_inodeBitmap g hg]

theorem ne_gdBlock {b g : Nat} (h : ∀ i, v.kind b ≠ .descriptors i) (hg : g < v.groups.length) :
    b ≠ v.gdBlock g := by
  apply v.ne_of_kind
  rw [v.kind_gdBlock hg]
  exact h _

theorem ne_inodeBlock {b ino : Nat} (h : ∀ g i, v.kind b ≠ .inodeTable g i) (hi : v.IsInode ino) :
    b ≠ v.inodeBlock ino := by
  apply v.ne_of_kind
  rw [v.kind_inodeBlock hi]
  exact h _ _

section Frame

variable {v} {d d' : Bytes} {b : Nat}
  (hd : AgreeOutside d d' (b * v.blockSize) (b * v.blockSize + v.blockSize))

include hd

theorem gd_same (h : ∀ i, v.kind b ≠ .descriptors i) : (v.view d').gd = (v.view d).gd :=
  funext fun _ => gd_of_ne hd (v.ne_gdBlock h)

theorem blockBit_same (h : ∀ g, v.kind b ≠ .blockBitmap g) :
    (v.view d').blockBit = (v.view d).blockBit :=
  funext fun _ => blockBit_of_ne hd fun hx => v.ne_blockBitmap (h _) (v.blockGroup_lt hx)

theorem inodeBit_same (h : ∀ g, v.kind b ≠ .inodeBitmap g) :
    (v.view d').inodeBit = (v.view d).inodeBit :=
  funext fun _ => inodeBit_of_ne hd fun hx => v.ne_inodeBitmap (h _) (v.inodeGroup_lt hx)

theorem inode_same (h : ∀ g i, v.kind b ≠ .inodeTable g i) :
    (v.view d').inode = (v.view d).inode :=
  funext fun _ => inode_of_ne hd (v.ne_inodeBlock h)

theorem block_same (h : v.kind b ≠ .data) : (v.view d').block = (v.view d).block := by
  funext x
  by_cases hx : b = x
  · rw [← hx]
    simp only [view, if_neg h]
  · exact block_of_ne hd hx

end Frame

/-- The records of two inodes do not overlap. -/
theorem inodeAddr_apart {i j : Nat} (hi : v.IsInode i) (hj : v.IsInode j) (h : i ≠ j) :
    v.inodeAddr i + v.inodeSize ≤ v.inodeAddr j ∨ v.inodeAddr j + v.inodeSize ≤ v.inodeAddr i := by
  by_cases hb : v.inodeBlock i = v.inodeBlock j
  · have hk := v.kind_inodeBlock hi
    rw [hb, v.kind_inodeBlock hj] at hk
    injection hk with hg _
    have hidx : v.inodeIndex i ≠ v.inodeIndex j := by
      intro he
      have hi' := Nat.div_add_mod (i - 1) v.inodesPerGroup
      have hj' := Nat.div_add_mod (j - 1) v.inodesPerGroup
      unfold inodeGroup at hg
      unfold inodeIndex at he
      rw [hg, ← he, hi'] at hj'
      have := hi.1
      have := hj.1
      omega
    unfold inodeAddr
    rw [hg]
    rcases Nat.lt_or_gt_of_ne hidx with hlt | hlt
    · have := Nat.mul_le_mul_right v.inodeSize hlt
      rw [Nat.succ_mul] at this
      omega
    · have := Nat.mul_le_mul_right v.inodeSize hlt
      rw [Nat.succ_mul] at this
      omega
  · have hapart := v.blocks_apart hb
    have hi' := v.inodeOffset_le i
    have hj' := v.inodeOffset_le j
    rw [v.inodeAddr_eq, v.inodeAddr_eq]
    omega

end Volume

/-! ### Changes of a view -/

def Vol.setBlock (x : Vol) (b : Nat) (m : Bytes) : Vol :=
  { x with block := Function.update x.block b m }

def Vol.setInode (x : Vol) (ino : Nat) (m : Bytes) : Vol :=
  { x with inode := Function.update x.inode ino m }

def Vol.setGd (x : Vol) (g : Nat) (m : Bytes) : Vol := { x with gd := Function.update x.gd g m }

def Vol.setSb (x : Vol) (m : Bytes) : Vol := { x with sb := m }

def Vol.setBlockBits (x : Vol) (f : Nat → Bool) : Vol := { x with blockBit := f }

def Vol.setInodeBits (x : Vol) (f : Nat → Bool) : Vol := { x with inodeBit := f }

/-- A write of a data block. -/
theorem Volume.view_setBlock {v : Volume} {d d' : Bytes} {b : Nat}
    (hd : AgreeOutside d d' (b * v.blockSize) (b * v.blockSize + v.blockSize))
    (hb : v.kind b = .data) :
    v.view d' = (v.view d).setBlock b (window d' (b * v.blockSize) v.blockSize) := by
  have hbl : (v.view d').block = Function.update (v.view d).block b
      (window d' (b * v.blockSize) v.blockSize) := by
    funext x
    by_cases hx : x = b
    · rw [hx, Function.update_self]
      simp only [Volume.view, if_pos hb]
    · rw [Function.update_of_ne hx, block_of_ne hd (Ne.symm hx)]
  unfold Vol.setBlock
  rw [← hbl, ← sb_same hd (by simp [hb]), ← gd_same hd (by simp [hb]),
    ← blockBit_same hd (by simp [hb]), ← inodeBit_same hd (by simp [hb]),
    ← inode_same hd (by simp [hb])]

/-- A write inside one inode record. -/
theorem Volume.view_setInode {v : Volume} {d d' : Bytes} {ino : Nat} (hi : v.IsInode ino)
    (hd : AgreeOutside d d' (v.inodeAddr ino) (v.inodeAddr ino + v.inodeSize)) :
    v.view d' = (v.view d).setInode ino (window d' (v.inodeAddr ino) v.inodeSize) := by
  have hle := v.inodeOffset_le ino
  have hblk : AgreeOutside d d' (v.inodeBlock ino * v.blockSize)
      (v.inodeBlock ino * v.blockSize + v.blockSize) := by
    apply hd.mono <;> rw [v.inodeAddr_eq] <;> omega
  have hk := v.kind_inodeBlock hi
  have hin : (v.view d').inode = Function.update (v.view d).inode ino
      (window d' (v.inodeAddr ino) v.inodeSize) := by
    funext x
    by_cases hx : x = ino
    · rw [hx, Function.update_self]
      simp only [Volume.view, if_pos hi]
    · rw [Function.update_of_ne hx]
      simp only [Volume.view]
      split_ifs with hxi
      · exact window_congr (hd.agreeOn (v.inodeAddr_apart hxi hi hx))
      · rfl
  unfold Vol.setInode
  rw [← hin, ← sb_same hblk (by simp [hk]), ← gd_same hblk (by simp [hk]),
    ← blockBit_same hblk (by simp [hk]), ← inodeBit_same hblk (by simp [hk]),
    ← block_same hblk (by simp [hk])]

/-- A write inside one group descriptor. -/
theorem Volume.view_setGd {v : Volume} {d d' : Bytes} {g : Nat} (hg : g < v.groups.length)
    (hd : AgreeOutside d d' (v.gdAddr g) (v.gdAddr g + 32)) :
    v.view d' = (v.view d).setGd g (window d' (v.gdAddr g) 32) := by
  have hin := v.gd_in_block g
  have hblk : AgreeOutside d d' (v.gdBlock g * v.blockSize)
      (v.gdBlock g * v.blockSize + v.blockSize) := hd.mono hin.1 hin.2
  have hk := v.kind_gdBlock hg
  have hgd : (v.view d').gd = Function.update (v.view d).gd g (window d' (v.gdAddr g) 32) := by
    funext x
    by_cases hx : x = g
    · rw [hx, Function.update_self]
      simp only [Volume.view, if_pos hg]
    · rw [Function.update_of_ne hx]
      simp only [Volume.view]
      split_ifs with hxg
      · exact window_congr (hd.agreeOn (by unfold gdAddr; omega))
      · rfl
  unfold Vol.setGd
  rw [← hgd, ← sb_same hblk (by simp [hk]), ← blockBit_same hblk (by simp [hk]),
    ← inodeBit_same hblk (by simp [hk]), ← inode_same hblk (by simp [hk]),
    ← block_same hblk (by simp [hk])]

/-- A write inside the superblock. -/
theorem Volume.view_setSb {v : Volume} {d d' : Bytes} (hd : AgreeOutside d d' 1024 2048) :
    v.view d' = (v.view d).setSb (window d' 1024 1024) := by
  have hin := v.sb_in_block
  have hblk : AgreeOutside d d' (v.firstDataBlock * v.blockSize)
      (v.firstDataBlock * v.blockSize + v.blockSize) := hd.mono hin.1 hin.2
  have hk := v.kind_superblock
  unfold Vol.setSb
  rw [← gd_same hblk (by simp [hk]), ← blockBit_same hblk (by simp [hk]),
    ← inodeBit_same hblk (by simp [hk]), ← inode_same hblk (by simp [hk]),
    ← block_same hblk (by simp [hk])]
  rfl

/-- A new block bitmap of group `g`. -/
theorem Volume.view_blockBitmap {v : Volume} {d d' : Bytes} {g : Nat} (hg : g < v.groups.length)
    (hd : AgreeOutside d d' ((v.group g).blockBitmap * v.blockSize)
      ((v.group g).blockBitmap * v.blockSize + v.blockSize)) :
    v.view d' = (v.view d).setBlockBits (v.view d').blockBit ∧
      ∀ x, v.blockGroup x ≠ g → (v.view d').blockBit x = (v.view d).blockBit x := by
  have hk : v.kind (v.group g).blockBitmap = .blockBitmap g := v.kind_blockBitmap g hg
  constructor
  · unfold Vol.setBlockBits
    rw [← sb_same hd (by simp [hk]), ← gd_same hd (by simp [hk]),
      ← inodeBit_same hd (by simp [hk]), ← inode_same hd (by simp [hk]),
      ← block_same hd (by simp [hk])]
  · intro x hx
    refine blockBit_of_ne hd fun hr => v.ne_blockBitmap ?_ (v.blockGroup_lt hr)
    rw [hk]
    simpa using Ne.symm hx

/-- A new inode bitmap of group `g`. -/
theorem Volume.view_inodeBitmap {v : Volume} {d d' : Bytes} {g : Nat} (hg : g < v.groups.length)
    (hd : AgreeOutside d d' ((v.group g).inodeBitmap * v.blockSize)
      ((v.group g).inodeBitmap * v.blockSize + v.blockSize)) :
    v.view d' = (v.view d).setInodeBits (v.view d').inodeBit ∧
      ∀ x, v.inodeGroup x ≠ g → (v.view d').inodeBit x = (v.view d).inodeBit x := by
  have hk : v.kind (v.group g).inodeBitmap = .inodeBitmap g := v.kind_inodeBitmap g hg
  constructor
  · unfold Vol.setInodeBits
    rw [← sb_same hd (by simp [hk]), ← gd_same hd (by simp [hk]),
      ← blockBit_same hd (by simp [hk]), ← inode_same hd (by simp [hk]),
      ← block_same hd (by simp [hk])]
  · intro x hx
    refine inodeBit_of_ne hd fun hr => v.ne_inodeBitmap ?_ (v.inodeGroup_lt hr)
    rw [hk]
    simpa using Ne.symm hx

/-! ### Counters -/

namespace Vol

variable (x : Vol)

def freeBlocks (g : Nat) : Nat := loadLE (x.gd g) 2 gdFreeBlocks
def freeInodes (g : Nat) : Nat := loadLE (x.gd g) 2 gdFreeInodes
def usedDirs (g : Nat) : Nat := loadLE (x.gd g) 2 gdUsedDirs
def sbFreeBlocks : Nat := loadLE x.sb 4 Ext2.sbFreeBlocks
def sbFreeInodes : Nat := loadLE x.sb 4 Ext2.sbFreeInodes

/-- The superblock without its counters and its write time. -/
def sbStatic : Bytes := fill (fill x.sb 12 8 0) 48 4 0

/-- The group descriptors without their counters. -/
def gdStatic (g : Nat) : Bytes := fill (x.gd g) 12 6 0

end Vol

/-- The counters of group `g` and the superblock have moved by these amounts, and nothing else has
changed. -/
structure CountsMoved (x x' : Vol) (g : Nat) (dblocks dinodes ddirs : Int) : Prop where
  freeBlocks : ∀ k, (x'.freeBlocks k : Int) = x.freeBlocks k + if k = g then dblocks else 0
  freeInodes : ∀ k, (x'.freeInodes k : Int) = x.freeInodes k + if k = g then dinodes else 0
  usedDirs : ∀ k, (x'.usedDirs k : Int) = x.usedDirs k + if k = g then ddirs else 0
  sbFreeBlocks : (x'.sbFreeBlocks : Int) = x.sbFreeBlocks + dblocks
  sbFreeInodes : (x'.sbFreeInodes : Int) = x.sbFreeInodes + dinodes
  sbStatic : x'.sbStatic = x.sbStatic
  gdStatic : x'.gdStatic = x.gdStatic
  blockBit : x'.blockBit = x.blockBit
  inodeBit : x'.inodeBit = x.inodeBit
  inode : x'.inode = x.inode
  block : x'.block = x.block

/-- The descriptor after three counter stores. -/
def gdWith (m : Bytes) (fb fi ud : Nat) : Bytes :=
  storeLE (storeLE (storeLE m 2 gdFreeBlocks fb) 2 gdFreeInodes fi) 2 gdUsedDirs ud

/-- The superblock after the stores of `sb-update!` in `adjust-counts!`. -/
def sbWith (m : Bytes) (fb fi t : Nat) : Bytes :=
  storeLE (storeLE (storeLE m 4 sbFreeBlocks fb) 4 sbFreeInodes fi) 4 sbWtime t

theorem fill_gdWith (m : Bytes) (fb fi ud : Nat) : fill (gdWith m fb fi ud) 12 6 0 = fill m 12 6 0 := by
  funext i
  unfold fill
  split_ifs with h
  · rfl
  · unfold gdWith storeLE gdFreeBlocks gdFreeInodes gdUsedDirs
    rw [if_neg (by omega), if_neg (by omega), if_neg (by omega)]

theorem fill_sbWith (m : Bytes) (fb fi t : Nat) :
    fill (fill (sbWith m fb fi t) 12 8 0) 48 4 0 = fill (fill m 12 8 0) 48 4 0 := by
  funext i
  unfold fill
  split_ifs with h h'
  · rfl
  · rfl
  · unfold sbWith storeLE sbFreeBlocks sbFreeInodes sbWtime
    rw [if_neg (by omega), if_neg (by omega), if_neg (by omega)]

theorem countsMoved_of_stores {x : Vol} {g fb fi ud sfb sfi t : Nat} {dblocks dinodes ddirs : Int}
    (hfb : (fb : Int) = x.freeBlocks g + dblocks) (hfi : (fi : Int) = x.freeInodes g + dinodes)
    (hud : (ud : Int) = x.usedDirs g + ddirs) (hsfb : (sfb : Int) = x.sbFreeBlocks + dblocks)
    (hsfi : (sfi : Int) = x.sbFreeInodes + dinodes) (bfb : fb < 256 ^ 2) (bfi : fi < 256 ^ 2)
    (bud : ud < 256 ^ 2) (bsfb : sfb < 256 ^ 4) (bsfi : sfi < 256 ^ 4) :
    CountsMoved x ((x.setGd g (gdWith (x.gd g) fb fi ud)).setSb (sbWith x.sb sfb sfi t)) g
      dblocks dinodes ddirs := by
  have hgd : ∀ k, (((x.setGd g (gdWith (x.gd g) fb fi ud)).setSb (sbWith x.sb sfb sfi t)).gd k) =
      if k = g then gdWith (x.gd g) fb fi ud else x.gd k := by
    intro k
    simp only [Vol.setSb, Vol.setGd, Function.update_apply]
  refine ⟨?_, ?_, ?_, ?_, ?_, fill_sbWith _ _ _ _, ?_, rfl, rfl, rfl, rfl⟩
  · intro k
    unfold Vol.freeBlocks at *
    rw [hgd]
    split_ifs with hk
    · rw [gdWith, loadLE_storeLE_of_disjoint (by decide), loadLE_storeLE_of_disjoint (by decide),
        loadLE_storeLE_of_lt bfb, hk, hfb]
    · omega
  · intro k
    unfold Vol.freeInodes at *
    rw [hgd]
    split_ifs with hk
    · rw [gdWith, loadLE_storeLE_of_disjoint (by decide), loadLE_storeLE_of_lt bfi, hk, hfi]
    · omega
  · intro k
    unfold Vol.usedDirs at *
    rw [hgd]
    split_ifs with hk
    · rw [gdWith, loadLE_storeLE_of_lt bud, hk, hud]
    · omega
  · show ((loadLE (sbWith x.sb sfb sfi t) 4 sbFreeBlocks : Nat) : Int) = _
    rw [sbWith, loadLE_storeLE_of_disjoint (by decide), loadLE_storeLE_of_disjoint (by decide),
      loadLE_storeLE_of_lt bsfb, hsfb]
  · show ((loadLE (sbWith x.sb sfb sfi t) 4 sbFreeInodes : Nat) : Int) = _
    rw [sbWith, loadLE_storeLE_of_disjoint (by decide), loadLE_storeLE_of_lt bsfi, hsfi]
  · funext k
    unfold Vol.gdStatic
    rw [hgd]
    split_ifs with hk
    · rw [fill_gdWith, hk]
    · rfl

end Beeros.Ext2
