import Beeros.Ext2Image

/-! The accounts of a disk as a finite check, and a small image that passes it. -/

namespace Beeros.Ext2

open Memory Exec

variable {v : Volume} {x : Vol} {d : Bytes}

instance decidableTiled (fs : Fs) (m : Bytes) : ∀ (o e : Nat) (os : List Nat), Decidable (Tiled fs m o e os)
  | o, e, [] => inferInstanceAs (Decidable (o = e))
  | o, e, p :: os =>
      have := decidableTiled fs m (o + recLen m o) e os
      inferInstanceAs (Decidable (p = o ∧ RecOk fs m o ∧ Tiled fs m (o + recLen m o) e os))

instance (fs : Fs) (m : Bytes) : Decidable (DirBlock fs m) := inferInstanceAs (Decidable (Tiled _ _ _ _ _))

instance (get : Nat → Bytes) (i : Inode) : Decidable (Sound v get i) :=
  decidable_of_iff (i.fileAcl = 0 ∧ i.sectors = (i.refs v.toFs get).length * (v.blockSize / 512) ∧
      (fastSymlink v.toFs i → i.size ≤ 60) ∧
      (¬fastSymlink v.toFs i → i.size ≤ (i.blocksIn v.toFs get).length * v.blockSize) ∧
      (¬fastSymlink v.toFs i → ceilDiv i.size v.blockSize ≤ 12 → i.block.getD 12 0 = 0) ∧
      (¬fastSymlink v.toFs i → ceilDiv i.size v.blockSize ≤ 12 + v.ppb → i.block.getD 13 0 = 0) ∧
      (¬fastSymlink v.toFs i → ceilDiv i.size v.blockSize ≤ 12 + v.ppb + v.ppb * v.ppb →
        i.block.getD 14 0 = 0) ∧
      (i.type = .dir → i.size = (i.blocksIn v.toFs get).length * v.blockSize) ∧
      (i.type = .dir → ∀ b ∈ i.blocksIn v.toFs get, b ≠ 0 ∧ DirBlock v.toFs (get b)))
    ⟨fun ⟨h1, h2, h3, h4, h5, h6, h7, h8, h9⟩ => ⟨h1, h2, h3, h4, h5, h6, h7, h8, h9⟩,
      fun ⟨h1, h2, h3, h4, h5, h6, h7, h8, h9⟩ => ⟨h1, h2, h3, h4, h5, h6, h7, h8, h9⟩⟩

/-- What the accounts say of one inode in use. -/
def InodeChecked (v : Volume) (x : Vol) (i : Nat) : Prop :=
  Sound v x.block (x.node v.toFs i) ∧ (∀ b ∈ (v.table x).refs i, v.kind b = .data) ∧
    ((v.table x).refs i).Nodup ∧
    (∀ j ∈ List.range (v.inodes + 1), i ≠ j → ∀ b ∈ (v.table x).refs i, b ∉ (v.table x).refs j) ∧
    (∀ j ∈ (v.table x).names i, v.inUse x j) ∧ (x.node v.toFs i).links = nameCount v (v.table x) i

instance (i : Nat) : Decidable (InodeChecked v x i) := inferInstanceAs (Decidable (_ ∧ _))

/-- The accounts of a view, with every quantifier over the blocks, inodes and groups of the volume. -/
structure Checked (v : Volume) (x : Vol) : Prop where
  inode : ∀ i ∈ List.range (v.inodes + 1), v.inUse x i → InodeChecked v x i
  blockBit : ∀ b ∈ List.range v.blocks, x.blockBit b = true ↔ v.InRange b ∧ (v.kind b ≠ .data ∨
    ∃ i ∈ List.range (v.inodes + 1), b ∈ (v.table x).refs i)
  inodeBit : ∀ i ∈ List.range (v.inodes + 1),
    x.inodeBit i = true ↔ v.IsInode i ∧ (i < v.firstIno ∨ v.inUse x i)
  group : ∀ g ∈ List.range v.groups.length, x.freeBlocks g = freeBlockCount v x g ∧
    x.freeInodes g = freeInodeCount v x g ∧ x.usedDirs g = dirCount v (v.table x) g
  total : x.sbFreeBlocks = ∑ g ∈ Finset.range v.groups.length, x.freeBlocks g ∧
    x.sbFreeInodes = ∑ g ∈ Finset.range v.groups.length, x.freeInodes g
  root : (x.node v.toFs rootIno).type = .dir
  firstIno : x.firstIno = v.firstIno

instance : Decidable (Checked v x) :=
  decidable_of_iff (_ ∧ _ ∧ _ ∧ _ ∧ _ ∧ _ ∧ _)
    ⟨fun ⟨h1, h2, h3, h4, h5, h6, h7⟩ => ⟨h1, h2, h3, h4, h5, h6, h7⟩,
      fun ⟨h1, h2, h3, h4, h5, h6, h7⟩ => ⟨h1, h2, h3, h4, h5, h6, h7⟩⟩

section Far

variable {g : Nat} (hg : v.groups.length ≤ g)

include hg

theorem gd_far : (v.view d).gd g = fun _ => 0 := if_neg (by omega)

theorem freeBlockCount_far : freeBlockCount v x g = 0 := by
  refine Finset.card_eq_zero.mpr (Finset.filter_eq_empty_iff.mpr ?_)
  rintro b - ⟨hr, rfl, -⟩
  have := v.blockGroup_lt hr
  omega

theorem freeInodeCount_far : freeInodeCount v x g = 0 := by
  refine Finset.card_eq_zero.mpr (Finset.filter_eq_empty_iff.mpr ?_)
  rintro i - ⟨hi, rfl, -⟩
  have := v.inodeGroup_lt hi
  omega

theorem dirCount_far : dirCount v (v.table x) g = 0 := by
  refine Finset.card_eq_zero.mpr (Finset.filter_eq_empty_iff.mpr ?_)
  rintro i - ⟨rfl, hdir⟩
  have hi : v.inUse x i := by
    refine inUse_of_isSome ?_
    unfold Table.isDir at hdir
    cases hs : v.table x i with
    | none =>
        rw [hs] at hdir
        cases hdir
    | some t => rfl
  have := v.inodeGroup_lt hi.1
  omega

end Far

theorem mem_range_of_inUse {i : Nat} (h : v.inUse x i) : i ∈ List.range (v.inodes + 1) :=
  List.mem_range.mpr (Nat.lt_succ_of_le h.1.2)

theorem inUse_of_mem_refs {i b : Nat} (h : b ∈ (v.table x).refs i) : v.inUse x i := by
  by_contra hi
  have hnone : v.table x i = none := if_neg hi
  unfold Table.refs at h
  rw [hnone] at h
  cases h

theorem inUse_of_mem_names {i j : Nat} (h : j ∈ (v.table x).names i) : v.inUse x i :=
  inUse_of_isSome (Table.isSome_of_mem_names h)

theorem isSome_table {i : Nat} : (v.table x i).isSome ↔ v.inUse x i := by
  refine ⟨inUse_of_isSome, fun h => ?_⟩
  rw [table_of_inUse h]
  rfl

/-- Behind the last group there is nothing to count. -/
theorem counted_of_groups
    (hgroup : ∀ g < v.groups.length, (v.view d).freeBlocks g = freeBlockCount v (v.view d) g ∧
      (v.view d).freeInodes g = freeInodeCount v (v.view d) g)
    (htotal : (v.view d).sbFreeBlocks = ∑ g ∈ Finset.range v.groups.length, (v.view d).freeBlocks g ∧
      (v.view d).sbFreeInodes = ∑ g ∈ Finset.range v.groups.length, (v.view d).freeInodes g) :
    Counted v (v.view d) where
  freeBlocks g := by
    rcases Nat.lt_or_ge g v.groups.length with hg | hg
    · exact (hgroup g hg).1
    · rw [freeBlockCount_far hg]
      unfold Vol.freeBlocks
      rw [gd_far hg, loadLE_zero]
  freeInodes g := by
    rcases Nat.lt_or_ge g v.groups.length with hg | hg
    · exact (hgroup g hg).2
    · rw [freeInodeCount_far hg]
      unfold Vol.freeInodes
      rw [gd_far hg, loadLE_zero]
  sbFreeBlocks := htotal.1
  sbFreeInodes := htotal.2

/-- The finite check is enough. -/
theorem Checked.accounted (h : Checked v (v.view d)) : Accounted v (v.view d) 0 where
  sound i hi := (h.inode i (mem_range_of_inUse hi) hi).1
  root := h.root
  firstIno := h.firstIno
  books := by
    have hinode : ∀ i, v.inUse (v.view d) i → InodeChecked v (v.view d) i :=
      fun i hi => h.inode i (mem_range_of_inUse hi) hi
    refine ⟨⟨fun i b hb => ?_, nofun, fun i => ?_, fun i j b hi hj => ?_, fun b => ?_⟩,
      ⟨fun i hi => ?_, fun i => ?_, fun g => ?_⟩, ?_, ⟨fun i j hj => ?_, fun i t hi => ?_⟩⟩
    · exact (hinode i (inUse_of_mem_refs hb)).2.1 b hb
    · rw [List.append_nil]
      by_cases hi : v.inUse (v.view d) i
      · exact (hinode i hi).2.2.1
      · have hnil : (v.table (v.view d)).refs i = [] :=
          List.eq_nil_iff_forall_not_mem.mpr fun b hb => hi (inUse_of_mem_refs hb)
        rw [hnil]
        exact List.nodup_nil
    · by_contra hne
      exact (hinode i (inUse_of_mem_refs hi)).2.2.2.1 j (mem_range_of_inUse (inUse_of_mem_refs hj))
        hne b hi hj
    · rcases Nat.lt_or_ge b v.blocks with hb | hb
      · rw [h.blockBit b (List.mem_range.mpr hb)]
        refine and_congr_right fun _ => or_congr_right ?_
        constructor
        · rintro ⟨i, -, hi⟩
          exact .inr ⟨i, hi⟩
        · rintro (hnil | ⟨i, hi⟩)
          · cases hnil
          · exact ⟨i, mem_range_of_inUse (inUse_of_mem_refs hi), hi⟩
      · have hr : ¬v.InRange b := fun hr => Nat.not_lt.mpr hb hr.2
        simp [Volume.view, hr]
    · have hi := inUse_of_isSome hi
      exact ⟨hi.1, hi.2.imp_right And.left⟩
    · rw [isSome_table]
      rcases Nat.lt_or_ge i (v.inodes + 1) with hi | hi
      · exact h.inodeBit i (List.mem_range.mpr hi)
      · have hi' : ¬v.IsInode i := fun hi' => Nat.not_lt.mpr hi (Nat.lt_succ_of_le hi'.2)
        simp [Volume.view, hi']
    · rcases Nat.lt_or_ge g v.groups.length with hg | hg
      · exact (h.group g (List.mem_range.mpr hg)).2.2
      · rw [dirCount_far hg]
        unfold Vol.usedDirs
        rw [gd_far hg, loadLE_zero]
    · exact counted_of_groups (fun g hg => ⟨(h.group g (List.mem_range.mpr hg)).1,
        (h.group g (List.mem_range.mpr hg)).2.1⟩) h.total
    · exact isSome_table.mpr ((hinode i (inUse_of_mem_names hj)).2.2.2.2.1 j hj)
    · have hu := inUse_of_isSome (x := v.view d) (by rw [hi]; rfl)
      have ht : v.row (v.view d).block ((v.view d).node v.toFs i) = t :=
        Option.some.inj ((table_of_inUse hu).symm.trans hi)
      have hlinks := (hinode i hu).2.2.2.2.2
      rw [← ht]
      show (((v.view d).node v.toFs i).links : Int) = _ + 0
      rw [hlinks, add_zero]

/-! ### A small image -/

/-- Words of given widths stored over zeros: width, offset, value. -/
def stores (l : List (Nat × Nat × Nat)) : Bytes :=
  l.foldl (fun m w => storeLE m w.1 w.2.1 w.2.2) fun _ => 0

/-- An image of `n` blocks of 1024 bytes with an empty root directory: superblock, descriptors, two
bitmaps, the table of 16 inodes in two blocks, and the root's block. -/
def smallDisk (n : Nat) : Bytes := fun i =>
  match i / 1024 with
  | 1 => stores [(4, 0, 16), (4, 4, n), (4, 12, n - 8), (4, 16, 6), (4, 20, 1), (4, 32, 8192),
      (4, 40, 16), (2, 56, 0xEF53), (4, 76, 1), (4, 84, 11), (2, 88, 128), (4, 96, 2)] (i % 1024)
  | 2 => stores [(4, 0, 3), (4, 4, 4), (4, 8, 5), (2, 12, n - 8), (2, 14, 6), (2, 16, 1)] (i % 1024)
  | 3 => stores [(1, 0, 0x7F)] (i % 1024)
  | 4 => stores [(2, 0, 0x3FF)] (i % 1024)
  | 5 => stores [(2, 128, 0x41ED), (4, 132, 1024), (2, 154, 2), (4, 156, 2), (4, 168, 7)] (i % 1024)
  | 7 => stores [(4, 0, 2), (2, 4, 12), (1, 6, 1), (1, 7, 2), (1, 8, 46), (4, 12, 2), (2, 16, 1012),
      (1, 18, 2), (1, 19, 2), (1, 20, 46), (1, 21, 46)] (i % 1024)
  | _ => 0

/-- A runtime that throws at values too wide and lists keys in order. -/
def strictRuntime : Runtime := ⟨fun _ _ => none, id, fun l => List.Perm.refl l⟩

def smallDevice (n : Nat) : Device := ⟨512, 2 * n, false, true⟩

def smallFs (n : Nat) : Fs :=
  ⟨strictRuntime, smallDevice n, 1024, 2, n, 16, 1, 8192, 16, 128, true, false, 0, [⟨3, 4, 5⟩]⟩

def smallKind (n b : Nat) : Kind :=
  if b = 1 then .superblock else if b = 2 then .descriptors 0 else if b = 3 then .blockBitmap 0
  else if b = 4 then .inodeBitmap 0 else if b = 5 then .inodeTable 0 0 else if b = 6 then .inodeTable 0 1
  else if 7 ≤ b ∧ b < n then .data else .reserved

def smallVolume (n : Nat) (h : 8 ≤ n) (h' : n ≤ 8192) : Volume where
  toFs := smallFs n
  kind := smallKind n
  firstIno := 11
  wide_none _ _ := rfl
  blockSize_eq := ⟨0, rfl⟩
  sectorSize_dvd := show 512 ∣ 1024 by decide
  spb_mul := show 2 * 512 = 1024 by omega
  firstDataBlock_eq := show 1 = 1024 / 1024 by omega
  firstDataBlock_lt := show 1 < n by omega
  blocks_lt := show n < 2 ^ 32 by omega
  blocks_fit := show n * 2 ≤ 2 * n by omega
  blocksPerGroup_pos := show 0 < 8192 by omega
  blocksPerGroup_le := show 8192 ≤ 8 * 1024 by omega
  inodesPerGroup_pos := show 0 < 16 by omega
  inodesPerGroup_le := show 16 ≤ 8 * 1024 by omega
  groups_length := show 1 = (n - 1 + (8192 - 1)) / 8192 by omega
  inodes_eq := rfl
  inodes_lt := show 16 < 2 ^ 32 by omega
  inodeSize_ge := show 128 ≤ 128 by omega
  inodeSize_dvd := show 128 ∣ 1024 by decide
  rootIno_lt := by decide
  kind_superblock := rfl
  kind_descriptors i hi := by
    replace hi : i < (1 * 32 + 1023) / 1024 := hi
    obtain rfl : i = 0 := by omega
    rfl
  kind_blockBitmap g hg := by
    obtain rfl : g = 0 := Nat.lt_one_iff.mp hg
    rfl
  kind_inodeBitmap g hg := by
    obtain rfl : g = 0 := Nat.lt_one_iff.mp hg
    rfl
  kind_inodeTable g hg i hi := by
    obtain rfl : g = 0 := Nat.lt_one_iff.mp hg
    replace hi : i < (16 * 128 + 1023) / 1024 := hi
    obtain rfl | rfl : i = 0 ∨ i = 1 := by omega
    · rfl
    · rfl
  kind_inRange b := by
    show smallKind n b ≠ .reserved → 1 ≤ b ∧ b < n
    unfold smallKind
    split_ifs <;> simp <;> omega

/-- The small volume with room for eight more blocks. -/
def sampleVolume : Volume := smallVolume 16 (by decide) (by decide)

def sampleWorld : World := ⟨smallDisk 16, 0, fun _ => 0, fun _ => false⟩

theorem accounted_sample : Accounted sampleVolume (sampleVolume.view sampleWorld.disk) 0 :=
  Checked.accounted (by decide)

end Beeros.Ext2
