import Beeros.Ext2Check

/-! What `mount` accepts. It checks the magic number, the features and the block size; the other
fields of the superblock go unchecked into the divisions and indices of `read-inode` and
`free-blocks!`. `Geometry.Sound` says when these stay in bounds. -/

namespace Beeros.Ext2

open Memory Exec

/-! ### The superblock -/

/-- The bytes that `read-superblock` gets. -/
def Device.superblock (dev : Device) (d : Bytes) : Bytes :=
  window d (1024 / dev.sectorSize * dev.sectorSize) (max 1 (1024 / dev.sectorSize) * dev.sectorSize)

/-- The fields of a superblock that the arithmetic on inode and block numbers rests on. -/
structure Geometry where
  blockSize : Nat
  inodes : Nat
  blocks : Nat
  firstDataBlock : Nat
  blocksPerGroup : Nat
  inodesPerGroup : Nat
  inodeSize : Nat

def geometry (sb : Bytes) : Geometry where
  blockSize := 1024 <<< loadLE sb 4 24
  inodes := loadLE sb 4 0
  blocks := loadLE sb 4 4
  firstDataBlock := loadLE sb 4 20
  blocksPerGroup := loadLE sb 4 32
  inodesPerGroup := loadLE sb 4 40
  inodeSize := if loadLE sb 4 76 ≥ 1 then loadLE sb 2 88 else 128

def Geometry.groups (g : Geometry) : Nat :=
  ceilDiv (g.blocks - g.firstDataBlock) g.blocksPerGroup

/-- The groups have room for all the inodes, no inode record crosses the end of a block, and a bitmap
of one block has a bit for every block of a group. -/
structure Geometry.Sound (g : Geometry) : Prop where
  inodes : g.inodes ≠ 0 → g.inodesPerGroup ≠ 0 ∧ g.inodes ≤ g.groups * g.inodesPerGroup ∧
    (g.inodeSize ∣ g.blockSize ∨ min g.inodesPerGroup g.inodes * g.inodeSize ≤ g.blockSize)
  bitmap : min g.blocksPerGroup (g.blocks - g.firstDataBlock) ≤ 8 * g.blockSize

instance (g : Geometry) : Decidable g.Sound :=
  decidable_of_iff (_ ∧ _) ⟨fun h => ⟨h.1, h.2⟩, fun h => ⟨h.1, h.2⟩⟩

/-! ### Mounted file systems that are safe to use -/

/-- What `read-inode` computes with `ino` stays in bounds: it divides by numbers other than 0, the
group exists, and the record lies inside its block. -/
structure Fs.InodeFits (fs : Fs) (ino : Nat) : Prop where
  perGroup : fs.inodesPerGroup ≠ 0
  blockSize : fs.blockSize ≠ 0
  group : (ino - 1) / fs.inodesPerGroup < fs.groups.length
  record : (ino - 1) % fs.inodesPerGroup * fs.inodeSize % fs.blockSize + fs.inodeSize ≤ fs.blockSize

/-- What `free-blocks!` computes with `b` stays in bounds: the group exists, and its bitmap of one
block has the bit. -/
structure Fs.BlockFits (fs : Fs) (b : Nat) : Prop where
  perGroup : fs.blocksPerGroup ≠ 0
  group : 0 ≤ groupOfBlock fs b ∧ groupOfBlock fs b < fs.groups.length
  bit : 0 ≤ (b : Int) - fs.firstDataBlock - groupOfBlock fs b * fs.blocksPerGroup ∧
    (b : Int) - fs.firstDataBlock - groupOfBlock fs b * fs.blocksPerGroup < 8 * fs.blockSize

structure Fs.Safe (fs : Fs) : Prop where
  inode : ∀ ino, 1 ≤ ino → ino ≤ fs.inodes → fs.InodeFits ino
  block : ∀ b, fs.firstDataBlock ≤ b → b < fs.blocks → fs.BlockFits b

/-! ### `mount` -/

theorem readSuperblock_disk {dev : Device} {r : Buf} {w w' : World}
    (h : readSuperblock dev w = .ok r w') : w'.disk = w.disk ∧ r.bytes = dev.superblock w.disk := by
  obtain ⟨hd, -, rfl⟩ := read_ok h
  refine ⟨hd, ?_⟩
  funext i
  simp only [Buf.alloc, copy, Device.superblock, window]
  by_cases hi : i < max 1 (1024 / dev.sectorSize) * dev.sectorSize
  · rw [if_pos (by omega), if_pos hi, Nat.sub_zero]
  · rw [if_neg (by omega), if_neg hi]

theorem groupsAt_length {buf : Buf} {o n : Nat} {r : List Group} {w w' : World}
    (h : groupsAt buf o n w = .ok r w') : r.length = n := by
  induction n generalizing o r w w' with
  | zero =>
      obtain ⟨rfl, -⟩ := pure_ok.mp h
      rfl
  | succ n ih =>
      obtain ⟨bb, w1, -, h⟩ := bind_ok.mp h
      obtain ⟨ib, w2, -, h⟩ := bind_ok.mp h
      obtain ⟨it, w3, -, h⟩ := bind_ok.mp h
      obtain ⟨gs, w4, hgs, h⟩ := bind_ok.mp h
      obtain ⟨rfl, -⟩ := pure_ok.mp h
      rw [List.length_cons, ih hgs]

/-- The map that `mount` returns has the superblock's fields, and a descriptor for every group. -/
structure Fs.Mounted (fs : Fs) (g : Geometry) : Prop where
  blockSize : fs.blockSize = g.blockSize
  inodes : fs.inodes = g.inodes
  blocks : fs.blocks = g.blocks
  firstDataBlock : fs.firstDataBlock = g.firstDataBlock
  blocksPerGroup : fs.blocksPerGroup = g.blocksPerGroup
  inodesPerGroup : fs.inodesPerGroup = g.inodesPerGroup
  inodeSize : fs.inodeSize = g.inodeSize
  groups : fs.groups.length = g.groups
  perGroup : g.blocksPerGroup ≠ 0

theorem ite_bind_ok {α β : Type} {c : Prop} [Decidable c] {m m' : Io α} {f : α → Io β} {b : β}
    {w w' : World} (h : (if c then m >>= f else m' >>= f) w = .ok b w') :
    ∃ a w₁, (if c then m else m') w = .ok a w₁ ∧ f a w₁ = .ok b w' := by
  split_ifs at h ⊢ <;> exact bind_ok.mp h

theorem mount_ok {rt : Runtime} {dev : Device} {fs : Fs} {w w' : World}
    (h : mount rt dev w = .ok fs w') : fs.Mounted (geometry (dev.superblock w.disk)) := by
  obtain ⟨sb, w1, hsb, h⟩ := bind_ok.mp h
  obtain ⟨-, hsb⟩ := readSuperblock_disk hsb
  have hload : ∀ {n o x : Nat} {w₁ w₂ : World}, load n sb o w₁ = .ok x w₂ →
      x = loadLE (dev.superblock w.disk) n o := by
    intro n o x w₁ w₂ h
    rw [(load_ok.mp h).2.1, hsb]
  obtain ⟨magic, w2, -, h⟩ := bind_ok.mp h
  obtain ⟨_, w3, -, h⟩ := bind_ok.mp h
  obtain ⟨rev, w4, hrev, h⟩ := bind_ok.mp h
  obtain rfl := hload hrev
  obtain ⟨incompat, w5, -, h⟩ := ite_bind_ok h
  obtain ⟨ro, w6, -, h⟩ := ite_bind_ok h
  obtain ⟨logBs, w7, hlog, h⟩ := bind_ok.mp h
  obtain ⟨fdb, w8, hfdb, h⟩ := bind_ok.mp h
  obtain ⟨bpg, w9, hbpg, h⟩ := bind_ok.mp h
  obtain ⟨_, w10, -, h⟩ := bind_ok.mp h
  obtain ⟨_, w11, -, h⟩ := bind_ok.mp h
  obtain ⟨spb, w12, -, h⟩ := bind_ok.mp h
  obtain ⟨blocks, w13, hblocks, h⟩ := bind_ok.mp h
  obtain ⟨inodes, w14, hinodes, h⟩ := bind_ok.mp h
  obtain ⟨ipg, w15, hipg, h⟩ := bind_ok.mp h
  obtain ⟨inodeSize, w16, hisize, h⟩ := ite_bind_ok h
  obtain ⟨ngroups, w17, hng, h⟩ := bind_ok.mp h
  obtain ⟨groups, w18, hgroups, h⟩ := bind_ok.mp h
  obtain ⟨rfl, -⟩ := pure_ok.mp h
  obtain ⟨hperGroup, rfl, -⟩ := quot_ok.mp hng
  obtain ⟨buf, w19, -, hat⟩ := bind_ok.mp hgroups
  have hsize : inodeSize = (geometry (dev.superblock w.disk)).inodeSize := by
    unfold geometry
    simp only
    split_ifs at hisize ⊢
    · exact hload hisize
    · exact (pure_ok.mp hisize).1.symm
  obtain rfl := hload hlog
  obtain rfl := hload hfdb
  obtain rfl := hload hbpg
  obtain rfl := hload hblocks
  obtain rfl := hload hinodes
  obtain rfl := hload hipg
  exact ⟨rfl, rfl, rfl, rfl, rfl, rfl, hsize, groupsAt_length hat, hperGroup⟩

/-! ### When the map is safe -/

/-- Record `bs / isz` is the first that crosses the end of the block. -/
theorem record_crosses {isz bs : Nat} (hpos : 0 < isz) (h : ¬isz ∣ bs) :
    bs < bs / isz * isz % bs + isz := by
  have hdm := Nat.div_add_mod bs isz
  have hmod : bs % isz ≠ 0 := fun h0 => h (Nat.dvd_of_mod_eq_zero h0)
  have hlt := Nat.mod_lt bs hpos
  rw [Nat.mul_comm] at hdm
  rw [Nat.mod_eq_of_lt (by omega)]
  omega

theorem geometry_blockSize_pos (sb : Bytes) : 0 < (geometry sb).blockSize := by
  show 0 < 1024 <<< loadLE sb 4 24
  rw [Nat.shiftLeft_eq]
  exact Nat.mul_pos (by decide) (Nat.two_pow_pos _)

section Mounted

variable {fs : Fs} {g : Geometry} (h : fs.Mounted g) (hbs : 0 < g.blockSize)

include h

theorem Fs.Mounted.group_lt (k : Nat) :
    k < fs.groups.length ↔ k * g.blocksPerGroup < g.blocks - g.firstDataBlock := by
  rw [h.groups]
  exact lt_ceilDiv (Nat.pos_of_ne_zero h.perGroup)

include hbs

theorem Fs.Mounted.inodes_iff : (∀ ino, 1 ≤ ino → ino ≤ fs.inodes → fs.InodeFits ino) ↔
    (g.inodes ≠ 0 → g.inodesPerGroup ≠ 0 ∧ g.inodes ≤ g.groups * g.inodesPerGroup ∧
      (g.inodeSize ∣ g.blockSize ∨ min g.inodesPerGroup g.inodes * g.inodeSize ≤ g.blockSize)) := by
  rw [h.inodes]
  constructor
  · intro hfits hne
    have hfirst := (hfits 1 le_rfl (by omega)).perGroup
    rw [h.inodesPerGroup] at hfirst
    have hlast := (hfits g.inodes (by omega) le_rfl).group
    rw [h.inodesPerGroup, h.groups, Nat.div_lt_iff_lt_mul (Nat.pos_of_ne_zero hfirst)] at hlast
    refine ⟨hfirst, by omega, ?_⟩
    by_contra hnot
    obtain ⟨hdvd, hlarge⟩ := not_or.mp hnot
    have hpos : 0 < g.inodeSize := by
      rcases Nat.eq_zero_or_pos g.inodeSize with h0 | hpos
      · rw [h0, Nat.mul_zero] at hlarge
        omega
      · exact hpos
    -- the record that crosses is one of the first group's
    have hk : g.blockSize / g.inodeSize < min g.inodesPerGroup g.inodes :=
      (Nat.div_lt_iff_lt_mul hpos).mpr (by omega)
    have hrec := (hfits (g.blockSize / g.inodeSize + 1) (Nat.le_add_left 1 _)
      (lt_of_lt_of_le hk (Nat.min_le_right _ _))).record
    rw [Nat.add_sub_cancel, h.inodesPerGroup, h.inodeSize, h.blockSize,
      Nat.mod_eq_of_lt (lt_of_lt_of_le hk (Nat.min_le_left _ _))] at hrec
    have := record_crosses hpos hdvd
    omega
  · intro hsound ino hge hle
    obtain ⟨hper, hgroups, hrec⟩ := hsound (by omega)
    refine ⟨by rwa [h.inodesPerGroup], by rw [h.blockSize]; omega, ?_, ?_⟩
    · rw [h.inodesPerGroup, h.groups, Nat.div_lt_iff_lt_mul (Nat.pos_of_ne_zero hper)]
      omega
    · rw [h.inodesPerGroup, h.inodeSize, h.blockSize]
      rcases hrec with hdvd | hsmall
      · exact record_of_dvd hbs hdvd
      · have hidx : (ino - 1) % g.inodesPerGroup + 1 ≤ min g.inodesPerGroup g.inodes := by
          have := Nat.mod_lt (ino - 1) (Nat.pos_of_ne_zero hper)
          have := Nat.mod_le (ino - 1) g.inodesPerGroup
          omega
        have hmul := Nat.mul_le_mul_right g.inodeSize hidx
        rw [Nat.succ_mul] at hmul
        have := Nat.mod_le ((ino - 1) % g.inodesPerGroup * g.inodeSize) g.blockSize
        omega

theorem Fs.Mounted.blocks_iff :
    (∀ b, fs.firstDataBlock ≤ b → b < fs.blocks → fs.BlockFits b) ↔
      min g.blocksPerGroup (g.blocks - g.firstDataBlock) ≤ 8 * g.blockSize := by
  have hper := Nat.pos_of_ne_zero h.perGroup
  -- the group and the bit of block `fdb + x`
  have hgroup : ∀ x, groupOfBlock fs (fs.firstDataBlock + x) = (x / g.blocksPerGroup : Nat) := by
    intro x
    unfold groupOfBlock
    have hsub : ((fs.firstDataBlock + x : Nat) : Int) - fs.firstDataBlock = x := by omega
    rw [h.blocksPerGroup, hsub, Int.tdiv_eq_ediv_of_nonneg (Int.natCast_nonneg x)]
    rfl
  have hbit : ∀ x, ((fs.firstDataBlock + x : Nat) : Int) - fs.firstDataBlock -
      groupOfBlock fs (fs.firstDataBlock + x) * fs.blocksPerGroup = (x % g.blocksPerGroup : Nat) := by
    intro x
    rw [hgroup, h.blocksPerGroup]
    have hdm := congrArg (Nat.cast (R := Int)) (Nat.div_add_mod x g.blocksPerGroup)
    rw [Nat.mul_comm, Nat.cast_add, Nat.cast_mul] at hdm
    omega
  constructor
  · intro hfits
    rcases Nat.eq_zero_or_pos (min g.blocksPerGroup (g.blocks - g.firstDataBlock)) with h0 | hpos
    · omega
    · have hlast := (hfits (fs.firstDataBlock +
        (min g.blocksPerGroup (g.blocks - g.firstDataBlock) - 1)) (by omega)
        (by rw [h.blocks, h.firstDataBlock]; omega)).bit.2
      rw [hbit, h.blockSize, Nat.mod_eq_of_lt (by omega)] at hlast
      omega
  · intro hle b hge hlt
    obtain ⟨x, rfl⟩ := Nat.exists_eq_add_of_le hge
    rw [h.blocks, h.firstDataBlock] at hlt
    refine ⟨by rw [h.blocksPerGroup]; exact h.perGroup, ?_, ?_⟩
    · rw [hgroup]
      refine ⟨Int.natCast_nonneg _, ?_⟩
      have := (h.group_lt (x / g.blocksPerGroup)).mpr
        (lt_of_le_of_lt (Nat.div_mul_le_self x g.blocksPerGroup) (by omega))
      exact_mod_cast this
    · rw [hbit, h.blockSize]
      have := Nat.mod_lt x hper
      have := Nat.mod_le x g.blocksPerGroup
      omega

end Mounted

/-- The sample image with no inodes per group. -/
def looseWorld : World :=
  { sampleWorld with disk := fun i => if i / 4 = 266 then 0 else sampleWorld.disk i }

end Beeros.Ext2
