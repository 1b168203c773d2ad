import Beeros.Ext2Bitmap

/-! `alloc-blocks!`, `free-blocks!`, `alloc-inode!` and `free-inode!` on a volume. -/

namespace Beeros.Ext2

open Memory Exec

variable {v : Volume}

/-! ### Where a block's bit is -/

theorem blockGroup_add {g j : Nat} (hj : j < v.blocksPerGroup) :
    v.blockGroup (v.firstDataBlock + g * v.blocksPerGroup + j) = g := by
  unfold Volume.blockGroup
  rw [Nat.add_assoc, Nat.add_sub_cancel_left, Nat.add_comm, Nat.add_mul_div_right _ _
    v.blocksPerGroup_pos, Nat.div_eq_of_lt hj, Nat.zero_add]

theorem blockIndex_add {g j : Nat} (hj : j < v.blocksPerGroup) :
    v.blockIndex (v.firstDataBlock + g * v.blocksPerGroup + j) = j := by
  unfold Volume.blockIndex
  rw [Nat.add_assoc, Nat.add_sub_cancel_left, Nat.add_comm, Nat.add_mul_mod_self_right,
    Nat.mod_eq_of_lt hj]

theorem block_eq {b : Nat} (h : v.firstDataBlock ≤ b) :
    v.firstDataBlock + v.blockGroup b * v.blocksPerGroup + v.blockIndex b = b := by
  have := Nat.div_add_mod (b - v.firstDataBlock) v.blocksPerGroup
  rw [Nat.mul_comm] at this
  unfold Volume.blockGroup Volume.blockIndex
  omega

/-- The blocks `base + j` of one group, by their indices. -/
theorem mem_map_base {g b : Nat} {idx : List Nat} (hidx : ∀ j ∈ idx, j < v.blocksPerGroup) :
    b ∈ idx.map (v.firstDataBlock + g * v.blocksPerGroup + ·) ↔
      v.firstDataBlock ≤ b ∧ v.blockGroup b = g ∧ v.blockIndex b ∈ idx := by
  rw [List.mem_map]
  constructor
  · rintro ⟨j, hj, rfl⟩
    rw [blockGroup_add (hidx j hj), blockIndex_add (hidx j hj)]
    exact ⟨by omega, rfl, hj⟩
  · rintro ⟨hb, rfl, hj⟩
    exact ⟨_, hj, block_eq hb⟩

/-! ### Allocation -/

/-- The blocks that a scan of the bitmap of group `g` takes. -/
theorem clear_of_scan {d : Bytes} {g n k b : Nat} {idx : List Nat} {bm : Buf}
    (hs : Scanned 0 (min v.blocksPerGroup
      (v.blocks - (v.firstDataBlock + g * v.blocksPerGroup))) n k
      (blockBuf v d (v.group g).blockBitmap) bm idx)
    (hb : b ∈ idx.map (v.firstDataBlock + g * v.blocksPerGroup + ·)) :
    v.InRange b ∧ v.blockGroup b = g ∧ (v.view d).blockBit b = false := by
  obtain ⟨hfb, hgb, hib⟩ := (mem_map_base fun j hj => by
    have := (hs.clear j hj).2.1
    omega).mp hb
  obtain ⟨-, hlim, hclear⟩ := hs.clear _ hib
  have hbeq := block_eq hfb
  rw [hgb] at hbeq
  have hr : v.InRange b := ⟨hfb, by omega⟩
  refine ⟨hr, hgb, ?_⟩
  rw [blockBit_eq _ hr, hgb]
  exact hclear

/-- The bits taken by one scan, written back with the counters. -/
theorem taken_of_scan {g n k : Nat} {idx : List Nat} {bm : Buf} {w w1 w2 : World} {u u' : Unit}
    (hg : g < v.groups.length)
    (hs : Scanned 0 (min v.blocksPerGroup
      (v.blocks - (v.firstDataBlock + g * v.blocksPerGroup))) n k
      (blockBuf v w.disk (v.group g).blockBitmap) bm idx)
    (hw : writeBlock v.toFs (v.group g).blockBitmap bm w = .ok u w1)
    (hc : adjustCounts v.toFs g (-(idx.map
      (v.firstDataBlock + g * v.blocksPerGroup + ·)).length) 0 0 w1 = .ok u' w2) :
    Taken v (v.view w.disk) (v.view w2.disk)
      (idx.map (v.firstDataBlock + g * v.blocksPerGroup + ·)) := by
  have hlt : ∀ j ∈ idx, j < v.blocksPerGroup := fun j hj => by
    have := (hs.clear j hj).2.1
    omega
  have hmoved := adjustCounts_ok hg hc
  rw [writeBlock_blockBitmap hg hw] at hmoved
  refine taken_of_group ?_ (fun b hb => clear_of_scan hs hb) ?_ hmoved
  · exact hs.nodup.map fun a b hab => Nat.add_left_cancel hab
  · intro b
    split_ifs with hb
    · rw [hs.bits, blockBit_eq _ hb.1, hb.2]
      congr 1
      rw [decide_eq_decide, mem_map_base hlt]
      exact ⟨fun h => ⟨hb.1.1, hb.2, h⟩, fun h => h.2.2⟩
    · rw [decide_eq_false, Bool.or_false]
      intro hmem
      obtain ⟨hr, hgb, -⟩ := clear_of_scan hs hmem
      exact hb ⟨hr, hgb⟩

theorem allocLoop_ok {goal n fuel k : Nat} {acc r : List Nat} {w w' : World}
    (h : allocLoop v.toFs goal n fuel k acc w = .ok r w') :
    ∃ l, r = acc ++ l ∧ Taken v (v.view w.disk) (v.view w'.disk) l ∧ n ≤ r.length ∧
      (acc.length ≤ n → r.length ≤ n) := by
  induction fuel generalizing k acc w with
  | zero =>
      unfold allocLoop at h
      split_ifs at h with hn
      · obtain ⟨rfl, rfl⟩ := pure_ok.mp h
        exact ⟨[], by simp, taken_refl _ _, hn, id⟩
      · obtain ⟨_, _, -, h⟩ := bind_ok.mp h
        exact absurd h throw_ok
  | succ fuel ih =>
      unfold allocLoop at h
      split_ifs at h with hn
      · obtain ⟨rfl, rfl⟩ := pure_ok.mp h
        exact ⟨[], by simp, taken_refl _ _, hn, id⟩
      · obtain ⟨gd, _, h1, h⟩ := bind_ok.mp h
        obtain ⟨hgd, rfl⟩ := nth_ok.mp h1
        obtain ⟨hg, rfl⟩ := group_of_getElem? hgd
        obtain ⟨bm, w1, h2, h⟩ := bind_ok.mp h
        have hk : v.kind (v.group _).blockBitmap = _ := v.kind_blockBitmap _ hg
        obtain ⟨hd1, rfl⟩ := readBlock_meta h2 (by simp [hk]) (by simp [hk])
        obtain ⟨⟨bm', got⟩, _, h3, h⟩ := bind_ok.mp h
        obtain ⟨rfl, idx, hgot, hs⟩ := scanBits_ok (by omega) h3
        simp only [List.nil_append, List.length_nil, Nat.add_zero] at hgot hs
        subst hgot
        have hacc : acc.length ≤ n → (acc ++ idx.map (v.firstDataBlock +
            (goal + k) % v.groups.length * v.blocksPerGroup + ·)).length ≤ n := by
          intro hle
          rw [List.length_append, List.length_map]
          exact hs.le hle
        simp only at h
        split_ifs at h with hempty
        · obtain ⟨_, w2, h4, h⟩ := bind_ok.mp h
          obtain ⟨_, w3, h5, h⟩ := bind_ok.mp h
          obtain ⟨l, rfl, ht, hlen, hle⟩ := ih h
          rw [← hd1] at hs ⊢
          refine ⟨_, List.append_assoc _ _ _, (taken_of_scan hg hs h4 h5).trans ht, hlen, ?_⟩
          exact fun hn => hle (hacc hn)
        · obtain ⟨l, rfl, ht, hlen, hle⟩ := ih h
          rw [hd1] at ht
          push Not at hempty
          rw [hempty, List.append_nil] at hlen hle ⊢
          exact ⟨l, rfl, ht, hlen, hle⟩

/-- `alloc-blocks!` returns exactly `n` blocks that were free. -/
theorem allocBlocks_ok {goal n : Nat} {l : List Nat} {w w' : World}
    (h : allocBlocks v.toFs goal n w = .ok l w') :
    Taken v (v.view w.disk) (v.view w'.disk) l ∧ l.length = n := by
  obtain ⟨l', rfl, ht, hge, hle⟩ := allocLoop_ok h
  exact ⟨ht, le_antisymm (hle (by simp)) hge⟩

theorem allocBlock_ok {goal b : Nat} {w w' : World} (h : allocBlock v.toFs goal w = .ok b w') :
    Taken v (v.view w.disk) (v.view w'.disk) [b] := by
  unfold allocBlock at h
  obtain ⟨l, w1, h1, h⟩ := bind_ok.mp h
  obtain ⟨ht, hlen⟩ := allocBlocks_ok h1
  obtain ⟨b', rfl⟩ := List.length_eq_one_iff.mp hlen
  obtain ⟨rfl, rfl⟩ := pure_ok.mp h
  exact ht

/-! ### Freeing -/

theorem groupOfBlock_eq {b : Nat} (h : v.firstDataBlock ≤ b) :
    groupOfBlock v.toFs b = (v.blockGroup b : Int) := by
  unfold groupOfBlock Volume.blockGroup
  rw [← Nat.cast_sub h, Int.ofNat_tdiv]

theorem clearBits_ok {g : Nat} {bs : List Nat} {bm r : Buf} {w w' : World}
    (h : clearBits v.toFs g bs bm w = .ok r w')
    (hbs : ∀ b ∈ bs, v.firstDataBlock ≤ b ∧ v.blockGroup b = g) :
    w = w' ∧ r.capacity = bm.capacity ∧
      ∀ j, bufBit r j = (bufBit bm j && !decide (j ∈ bs.map v.blockIndex)) := by
  induction bs generalizing bm w with
  | nil =>
      obtain ⟨rfl, rfl⟩ := pure_ok.mp h
      simp
  | cons b bs ih =>
      unfold clearBits at h
      have hb := hbs b List.mem_cons_self
      have heq := block_eq hb.1
      rw [hb.2] at heq
      have hidx : (b : Int) - v.firstDataBlock - g * v.blocksPerGroup = v.blockIndex b := by
        rw [← Nat.cast_mul]
        omega
      simp only [hidx] at h
      rw [if_neg (by omega), Int.toNat_natCast] at h
      obtain ⟨bm1, w1, h1, h⟩ := bind_ok.mp h
      obtain ⟨rfl, hcap, hbits⟩ := setBit_ok h1
      obtain ⟨rfl, hcap', hbits'⟩ := ih h fun b hb => hbs b (List.mem_cons_of_mem _ hb)
      refine ⟨rfl, hcap'.trans hcap, fun j => ?_⟩
      rw [hbits', hbits, List.map_cons]
      by_cases hj : j = v.blockIndex b
      · simp [hj]
      · simp [hj]

/-- The blocks of the list that belong to the groups. -/
def blocksOfGroups (fs : Fs) (blocks : List Nat) (gs : List Int) : List Nat :=
  gs.flatMap fun g => blocks.filter fun b => groupOfBlock fs b = g

theorem freeGroups_ok {blocks : List Nat} {gs : List Int} {w w' : World} {u : Unit}
    (h : freeGroups v.toFs blocks gs w = .ok u w') (hgs : gs.Nodup) (hnodup : blocks.Nodup)
    (hr : ∀ b ∈ blocks, v.InRange b)
    (hset : ∀ b ∈ blocks, groupOfBlock v.toFs b ∈ gs → (v.view w.disk).blockBit b = true) :
    Taken v (v.view w'.disk) (v.view w.disk) (blocksOfGroups v.toFs blocks gs) := by
  induction gs generalizing w with
  | nil =>
      obtain ⟨rfl, rfl⟩ := pure_ok.mp h
      exact taken_refl _ _
  | cons g gs ih =>
      unfold freeGroups at h
      split_ifs at h with hneg
      · exact absurd h throw_ok
      · obtain ⟨n, rfl⟩ : ∃ n : Nat, g = n := ⟨g.toNat, by omega⟩
        rw [Int.toNat_natCast] at h
        obtain ⟨gd, _, h1, h⟩ := bind_ok.mp h
        obtain ⟨hgd, rfl⟩ := nth_ok.mp h1
        obtain ⟨hg, rfl⟩ := group_of_getElem? hgd
        obtain ⟨bm, w1, h2, h⟩ := bind_ok.mp h
        have hk : v.kind (v.group n).blockBitmap = _ := v.kind_blockBitmap n hg
        obtain ⟨hd1, rfl⟩ := readBlock_meta h2 (by simp [hk]) (by simp [hk])
        obtain ⟨bm', _, h3, h⟩ := bind_ok.mp h
        obtain ⟨_, w2, h4, h⟩ := bind_ok.mp h
        obtain ⟨_, w3, h5, h6⟩ := bind_ok.mp h
        have hmem : ∀ b, b ∈ blocks.filter (fun b => groupOfBlock v.toFs b = (n : Int)) ↔
            b ∈ blocks ∧ v.InRange b ∧ v.blockGroup b = n := by
          intro b
          rw [List.mem_filter, decide_eq_true_iff]
          constructor
          · rintro ⟨hb, hbg⟩
            rw [groupOfBlock_eq (hr b hb).1] at hbg
            exact ⟨hb, hr b hb, by exact_mod_cast hbg⟩
          · rintro ⟨hb, hrb, hbg⟩
            rw [groupOfBlock_eq hrb.1, hbg]
            exact ⟨hb, rfl⟩
        obtain ⟨rfl, hcap, hbits⟩ := clearBits_ok h3 fun b hb =>
          ⟨((hmem b).mp hb).2.1.1, ((hmem b).mp hb).2.2⟩
        have hmoved := adjustCounts_ok hg h5
        rw [writeBlock_blockBitmap hg h4, hd1] at hmoved
        have hfirst : Taken v (v.view w3.disk) (v.view w.disk)
            (blocks.filter fun b => groupOfBlock v.toFs b = (n : Int)) := by
          refine taken_of_free_group (hnodup.filter _) ?_ ?_ hmoved
          · intro b hb
            obtain ⟨hb', hrb, hbg⟩ := (hmem b).mp hb
            refine ⟨hrb, hbg, hset b hb' ?_⟩
            rw [groupOfBlock_eq hrb.1, hbg]
            exact List.mem_cons_self
          · intro b
            split_ifs with hb
            · rw [hbits, blockBit_eq _ hb.1, hb.2]
              congr 2
              rw [decide_eq_decide, List.mem_map]
              constructor
              · rintro ⟨b', hb', hidx⟩
                have hb'' := (hmem b').mp hb'
                have h1 := block_eq hb.1.1
                have h2 := block_eq hb''.2.1.1
                rw [hidx, hb''.2.2] at h2
                rw [hb.2] at h1
                rwa [← h1, h2]
              · exact fun hmem' => ⟨b, hmem', rfl⟩
            · have hnot : b ∉ blocks.filter fun b => groupOfBlock v.toFs b = (n : Int) :=
                fun hmem' => hb ((hmem b).mp hmem').2
              simp only [hnot, decide_false, Bool.not_false, Bool.and_true]
        have hrest := ih h6 (List.nodup_cons.mp hgs).2 fun b hb hbg => by
          have hold := hset b hb (List.mem_cons_of_mem _ hbg)
          rw [hfirst.blockBit] at hold
          have hnot : b ∉ blocks.filter fun b => groupOfBlock v.toFs b = (n : Int) := by
            intro hmem'
            rw [List.mem_filter, decide_eq_true_iff] at hmem'
            rw [hmem'.2] at hbg
            exact (List.nodup_cons.mp hgs).1 hbg
          simpa [hnot] using hold
        exact (hrest.trans hfirst).perm List.perm_append_comm

/-- The groups of some blocks share them out. -/
theorem blocksOfGroups_perm {fs : Fs} {blocks : List Nat} {gs : List Int} (hgs : gs.Nodup)
    (hnodup : blocks.Nodup) (hall : ∀ b ∈ blocks, groupOfBlock fs b ∈ gs) :
    (blocksOfGroups fs blocks gs).Perm blocks := by
  have hshare : (blocksOfGroups fs blocks gs).Nodup := by
    refine List.nodup_flatMap.mpr ⟨fun g _ => hnodup.filter _, hgs.imp fun hne b hb hb' => ?_⟩
    rw [List.mem_filter, decide_eq_true_iff] at hb hb'
    exact hne (hb.2.symm.trans hb'.2)
  refine (List.perm_ext_iff_of_nodup hshare hnodup).mpr fun b => ?_
  unfold blocksOfGroups
  rw [List.mem_flatMap]
  constructor
  · rintro ⟨g, -, hb⟩
    exact (List.mem_filter.mp hb).1
  · intro hb
    exact ⟨groupOfBlock fs b, hall b hb, by simpa using hb⟩

/-- The keys that `free-blocks!` goes over are the groups of the blocks. -/
theorem keyOrder_groups (fs : Fs) (blocks : List Nat) :
    (fs.rt.keyOrder (blocks.map (groupOfBlock fs)).dedup).Nodup ∧
      ∀ g, g ∈ fs.rt.keyOrder (blocks.map (groupOfBlock fs)).dedup ↔
        ∃ b ∈ blocks, groupOfBlock fs b = g := by
  have hperm := fs.rt.keyOrder_perm (blocks.map (groupOfBlock fs)).dedup
  refine ⟨hperm.nodup_iff.mpr (List.nodup_dedup _), fun g => ?_⟩
  rw [hperm.mem_iff, List.mem_dedup, List.mem_map]

/-- `free-blocks!` gives back blocks that are marked used. -/
theorem freeBlocks_ok {blocks : List Nat} {w w' : World} {u : Unit}
    (h : freeBlocks v.toFs blocks w = .ok u w') (hnodup : (blocks.filter (· ≠ 0)).Nodup)
    (hset : ∀ b ∈ blocks, b ≠ 0 → v.InRange b ∧ (v.view w.disk).blockBit b = true) :
    Taken v (v.view w'.disk) (v.view w.disk) (blocks.filter (· ≠ 0)) := by
  unfold freeBlocks at h
  rw [if_neg (by simp [v.blocksPerGroup_pos.ne'])] at h
  have hmem : ∀ b ∈ blocks.filter (· ≠ 0), v.InRange b ∧ (v.view w.disk).blockBit b = true := by
    intro b hb
    rw [List.mem_filter, decide_eq_true_iff] at hb
    exact hset b hb.1 hb.2
  obtain ⟨hgs, hkeys⟩ := keyOrder_groups v.toFs (blocks.filter (· ≠ 0))
  have ht := freeGroups_ok h hgs hnodup (fun b hb => (hmem b hb).1) (fun b hb _ => (hmem b hb).2)
  exact ht.perm (blocksOfGroups_perm hgs hnodup fun b hb => (hkeys _).mpr ⟨b, hb, rfl⟩)

/-! ### Inodes -/

/-- Inode `ino` was free in `x` and is marked in `x'`, as a directory or not, with the counters moved
along; nothing else differs. -/
structure InodeTaken (v : Volume) (x x' : Vol) (ino : Nat) (dir : Bool) : Prop where
  isInode : v.IsInode ino
  clear : x.inodeBit ino = false
  inodeBit : ∀ i, x'.inodeBit i = (x.inodeBit i || decide (i = ino))
  freeInodes : ∀ g, x.freeInodes g = x'.freeInodes g + if g = v.inodeGroup ino then 1 else 0
  usedDirs : ∀ g, x'.usedDirs g = x.usedDirs g + if g = v.inodeGroup ino ∧ dir then 1 else 0
  sbFreeInodes : x.sbFreeInodes = x'.sbFreeInodes + 1
  freeBlocks : x'.freeBlocks = x.freeBlocks
  sbFreeBlocks : x'.sbFreeBlocks = x.sbFreeBlocks
  sbStatic : x'.sbStatic = x.sbStatic
  gdStatic : x'.gdStatic = x.gdStatic
  blockBit : x'.blockBit = x.blockBit
  inode : x'.inode = x.inode
  block : x'.block = x.block

theorem inodeGroup_add {g i : Nat} (hi : i < v.inodesPerGroup) :
    v.inodeGroup (1 + i + g * v.inodesPerGroup) = g := by
  unfold Volume.inodeGroup
  rw [Nat.add_assoc, Nat.add_sub_cancel_left, Nat.add_mul_div_right _ _ v.inodesPerGroup_pos,
    Nat.div_eq_of_lt hi, Nat.zero_add]

theorem inodeIndex_add {g i : Nat} (hi : i < v.inodesPerGroup) :
    v.inodeIndex (1 + i + g * v.inodesPerGroup) = i := by
  unfold Volume.inodeIndex
  rw [Nat.add_assoc, Nat.add_sub_cancel_left, Nat.add_mul_mod_self_right, Nat.mod_eq_of_lt hi]

theorem inode_eq {i : Nat} (h : 1 ≤ i) :
    1 + v.inodeIndex i + v.inodeGroup i * v.inodesPerGroup = i := by
  have := Nat.div_add_mod (i - 1) v.inodesPerGroup
  rw [Nat.mul_comm] at this
  unfold Volume.inodeGroup Volume.inodeIndex
  omega

theorem isInode_add {g i : Nat} (hg : g < v.groups.length) (hi : i < v.inodesPerGroup) :
    v.IsInode (1 + i + g * v.inodesPerGroup) := by
  refine ⟨by omega, ?_⟩
  have := Nat.mul_le_mul_right v.inodesPerGroup hg
  rw [Nat.succ_mul] at this
  rw [v.inodes_eq]
  omega

/-- The first inode number `alloc-inode!` may return. -/
def Vol.firstIno (x : Vol) : Nat :=
  if loadLE x.sb 4 sbRevLevel ≥ 1 then loadLE x.sb 4 sbFirstIno else 11

theorem firstIno_ok {w w' : World} {r : Nat} (h : firstIno v.toFs w = .ok r w') :
    w'.disk = w.disk ∧ r = (v.view w.disk).firstIno := by
  unfold firstIno at h
  obtain ⟨sb, w1, h1, h⟩ := bind_ok.mp h
  obtain ⟨hd, rfl⟩ := readSuperblock_ok h1
  obtain ⟨rev, _, h2, h⟩ := bind_ok.mp h
  obtain ⟨-, rfl, rfl⟩ := load_ok.mp h2
  unfold Vol.firstIno
  simp only at h
  split_ifs at h ⊢ with hrev
  · obtain ⟨-, rfl, rfl⟩ := load_ok.mp h
    exact ⟨hd, rfl⟩
  · obtain ⟨rfl, rfl⟩ := pure_ok.mp h
    exact ⟨hd, rfl⟩

theorem inodeTaken_of_set {x x' : Vol} {ino : Nat} {dir : Bool} {f : Nat → Bool}
    (hino : v.IsInode ino) (hclear : x.inodeBit ino = false)
    (hf : ∀ i, f i = (x.inodeBit i || decide (i = ino)))
    (hc : CountsMoved (x.setInodeBits f) x' (v.inodeGroup ino) 0 (-1) (if dir then 1 else 0)) :
    InodeTaken v x x' ino dir := by
  refine ⟨hino, hclear, ?_, ?_, ?_, ?_, ?_, ?_, hc.sbStatic, hc.gdStatic, hc.blockBit, hc.inode,
    hc.block⟩
  · intro i
    rw [hc.inodeBit, ← hf]
    rfl
  · intro k
    have h : (x'.freeInodes k : Int) = x.freeInodes k + _ := hc.freeInodes k
    split_ifs at h ⊢ <;> omega
  · intro k
    have h : (x'.usedDirs k : Int) = x.usedDirs k + _ := hc.usedDirs k
    cases dir <;> simp only [Bool.false_eq_true, and_false, and_true, if_false, if_true] at h ⊢ <;>
      split_ifs at h ⊢ <;> omega
  · have h : (x'.sbFreeInodes : Int) = x.sbFreeInodes + _ := hc.sbFreeInodes
    omega
  · funext k
    have h : (x'.freeBlocks k : Int) = x.freeBlocks k + _ := hc.freeBlocks k
    split_ifs at h <;> omega
  · have h : (x'.sbFreeBlocks : Int) = x.sbFreeBlocks + _ := hc.sbFreeBlocks
    omega

theorem inodeTaken_of_clear {x x' : Vol} {ino : Nat} {dir : Bool} {f : Nat → Bool}
    (hino : v.IsInode ino) (hset : x.inodeBit ino = true)
    (hf : ∀ i, f i = (x.inodeBit i && !decide (i = ino)))
    (hc : CountsMoved (x.setInodeBits f) x' (v.inodeGroup ino) 0 1 (if dir then -1 else 0)) :
    InodeTaken v x' x ino dir := by
  have hbit : ∀ i, x'.inodeBit i = (x.inodeBit i && !decide (i = ino)) := by
    intro i
    rw [hc.inodeBit, ← hf]
    rfl
  refine ⟨hino, by simp [hbit], ?_, ?_, ?_, ?_, ?_, ?_, hc.sbStatic.symm, hc.gdStatic.symm,
    hc.blockBit.symm, hc.inode.symm, hc.block.symm⟩
  · intro i
    rw [hbit]
    by_cases hi : i = ino
    · simp [hi, hset]
    · simp [hi]
  · intro k
    have h : (x'.freeInodes k : Int) = x.freeInodes k + _ := hc.freeInodes k
    split_ifs at h ⊢ <;> omega
  · intro k
    have h : (x'.usedDirs k : Int) = x.usedDirs k + _ := hc.usedDirs k
    cases dir <;> simp only [Bool.false_eq_true, and_false, and_true, if_false, if_true] at h ⊢ <;>
      split_ifs at h ⊢ <;> omega
  · have h : (x'.sbFreeInodes : Int) = x.sbFreeInodes + _ := hc.sbFreeInodes
    omega
  · funext k
    have h : (x'.freeBlocks k : Int) = x.freeBlocks k + _ := hc.freeBlocks k
    split_ifs at h <;> omega
  · have h : (x'.sbFreeBlocks : Int) = x.sbFreeBlocks + _ := hc.sbFreeBlocks
    omega

/-- Only inode `ino` has its number's group and index. -/
theorem inode_eq_iff {i ino : Nat} (hi : 1 ≤ i) (hino : 1 ≤ ino)
    (hg : v.inodeGroup i = v.inodeGroup ino) : v.inodeIndex i = v.inodeIndex ino ↔ i = ino := by
  constructor
  · intro hidx
    have h1 := inode_eq (v := v) hi
    rw [hg, hidx] at h1
    exact h1.symm.trans (inode_eq hino)
  · rintro rfl
    rfl

theorem allocInodeLoop_ok {goal fi fuel k r : Nat} {dir : Bool} {w w' : World}
    (h : allocInodeLoop v.toFs goal dir fi fuel k w = .ok r w') :
    fi ≤ r ∧ InodeTaken v (v.view w.disk) (v.view w'.disk) r dir := by
  induction fuel generalizing k w with
  | zero => exact absurd h throw_ok
  | succ fuel ih =>
      unfold allocInodeLoop at h
      obtain ⟨gd, _, h1, h⟩ := bind_ok.mp h
      obtain ⟨hgd, rfl⟩ := nth_ok.mp h1
      obtain ⟨hg, rfl⟩ := group_of_getElem? hgd
      obtain ⟨bm, w1, h2, h⟩ := bind_ok.mp h
      have hk : v.kind (v.group _).inodeBitmap = _ := v.kind_inodeBitmap _ hg
      obtain ⟨hd1, rfl⟩ := readBlock_meta h2 (by simp [hk]) (by simp [hk])
      obtain ⟨o, _, h3, h⟩ := bind_ok.mp h
      obtain ⟨rfl, hscan⟩ := scanInodes_ok h3
      cases o with
      | none =>
          obtain ⟨hfi, ht⟩ := ih h
          rw [hd1] at ht
          exact ⟨hfi, ht⟩
      | some i =>
          obtain ⟨hi, hclear, hfi⟩ := hscan i rfl
          simp only at h
          obtain ⟨bm', _, h4, h⟩ := bind_ok.mp h
          obtain ⟨rfl, -, hbits⟩ := setBit_ok h4
          obtain ⟨_, w2, h5, h⟩ := bind_ok.mp h
          obtain ⟨_, w3, h6, h⟩ := bind_ok.mp h
          obtain ⟨rfl, rfl⟩ := pure_ok.mp h
          have hino := isInode_add hg hi
          have hgrp := inodeGroup_add (v := v) (g := (goal + k) % v.groups.length) hi
          have hidx := inodeIndex_add (v := v) (g := (goal + k) % v.groups.length) hi
          have hmoved := adjustCounts_ok hg h6
          rw [writeBlock_inodeBitmap hg h5, hd1, ← hgrp] at hmoved
          refine ⟨hfi, inodeTaken_of_set hino ?_ ?_ hmoved⟩
          · rw [inodeBit_eq _ hino, hgrp, hidx]
            exact hclear
          · intro j
            split_ifs with hj
            · rw [hbits, inodeBit_eq _ hj.1, hj.2, hgrp]
              have hiff := inode_eq_iff hj.1.1 hino.1 hj.2
              rw [hidx] at hiff
              by_cases hji : v.inodeIndex j = i
              · rw [if_pos hji, decide_eq_true (hiff.mp hji), Bool.or_true]
              · have hne : j ≠ 1 + i + (goal + k) % v.groups.length * v.inodesPerGroup :=
                  fun he => hji (hiff.mpr he)
                simp [hji, hne]
            · have hne : j ≠ 1 + i + (goal + k) % v.groups.length * v.inodesPerGroup := by
                rintro rfl
                exact hj ⟨hino, rfl⟩
              simp [hne]

/-- `alloc-inode!` returns a free inode that is not a reserved one. -/
theorem allocInode_ok {goal r : Nat} {dir : Bool} {w w' : World}
    (h : allocInode v.toFs goal dir w = .ok r w') : (v.view w.disk).firstIno ≤ r ∧
      InodeTaken v (v.view w.disk) (v.view w'.disk) r dir := by
  unfold allocInode at h
  obtain ⟨fi, w1, h1, h⟩ := bind_ok.mp h
  obtain ⟨hd, rfl⟩ := firstIno_ok h1
  obtain ⟨hfi, ht⟩ := allocInodeLoop_ok h
  rw [hd] at ht
  exact ⟨hfi, ht⟩

theorem freeInode_ok {ino : Nat} {dir : Bool} {w w' : World} {u : Unit}
    (h : freeInode v.toFs ino dir w = .ok u w') (hino : v.IsInode ino)
    (hset : (v.view w.disk).inodeBit ino = true) :
    InodeTaken v (v.view w'.disk) (v.view w.disk) ino dir := by
  unfold freeInode at h
  obtain ⟨q, _, h1, h⟩ := bind_ok.mp h
  obtain ⟨-, rfl, rfl⟩ := quot_ok.mp h1
  obtain ⟨gd, _, h2, h⟩ := bind_ok.mp h
  obtain ⟨hgd, rfl⟩ := nth_ok.mp h2
  obtain ⟨hg, rfl⟩ := group_of_getElem? hgd
  obtain ⟨bm, w1, h3, h⟩ := bind_ok.mp h
  have hk : v.kind (v.group _).inodeBitmap = _ := v.kind_inodeBitmap _ hg
  obtain ⟨hd1, rfl⟩ := readBlock_meta h3 (by simp [hk]) (by simp [hk])
  obtain ⟨bm', _, h4, h⟩ := bind_ok.mp h
  obtain ⟨rfl, -, hbits⟩ := setBit_ok h4
  obtain ⟨_, w2, h5, h6⟩ := bind_ok.mp h
  have hmoved := adjustCounts_ok hg h6
  rw [writeBlock_inodeBitmap hg h5, hd1] at hmoved
  refine inodeTaken_of_clear hino hset ?_ hmoved
  intro j
  split_ifs with hj
  · have hgrp : v.inodeGroup j = v.inodeGroup ino := hj.2
    rw [hbits, inodeBit_eq _ hj.1, hgrp]
    have hiff := inode_eq_iff hj.1.1 hino.1 hgrp
    change (if v.inodeIndex j = v.inodeIndex ino then _ else _) = _
    by_cases hji : j = ino
    · simp [hji]
    · rw [if_neg fun he => hji (hiff.mp he)]
      simp only [hji, decide_false, Bool.not_false, Bool.and_true]
      rfl
  · have hne : j ≠ ino := by
      rintro rfl
      exact hj ⟨hino, rfl⟩
    simp [hne]

end Beeros.Ext2
