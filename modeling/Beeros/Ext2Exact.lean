import Beeros.Ext2Check
import Mathlib.Algebra.Order.BigOperators.Group.Finset

/-! `alloc-blocks!` on an image whose free counts are right: it takes exactly as many blocks as it is
asked for if there are so many, and otherwise throws and gives back what it took. -/

namespace Beeros.Ext2

open Memory Exec

/-! ### Programs that finish -/

/-- The device carries out its transfers and takes writes, and the clock fits its fields. -/
structure Up (fs : Fs) (w : World) : Prop where
  fails : ∀ n, w.fails n = false
  writable : fs.dev.readOnly = false
  clock : ∀ n, w.clock n < 2 ^ 32

/-- Started in `w`, `m` finishes with the device still up. -/
def Finishes {α : Type} (fs : Fs) (m : Io α) (w : World) : Prop := ∃ a w', m w = .ok a w' ∧ Up fs w'

section Finishes

variable {α β : Type} {fs : Fs} {m : Io α} {f : α → Io β} {w : World}

theorem finishes_pure (a : α) (h : Up fs w) : Finishes fs (pure a) w := ⟨a, w, rfl, h⟩

theorem Finishes.bind (h : Finishes fs m w)
    (hf : ∀ a w', m w = .ok a w' → Up fs w' → Finishes fs (f a) w') : Finishes fs (m >>= f) w := by
  obtain ⟨a, w', hm, hw'⟩ := h
  obtain ⟨b, w'', hb, hw''⟩ := hf a w' hm hw'
  exact ⟨b, w'', bind_ok.mpr ⟨a, w', hm, hb⟩, hw''⟩

theorem finishes_load {n o : Nat} {b : Buf} (ho : o + n ≤ b.capacity) (h : Up fs w) :
    Finishes fs (load n b o) w := ⟨_, w, load_ok.mpr ⟨ho, rfl, rfl⟩, h⟩

theorem finishes_now (h : Up fs w) : Finishes fs now w :=
  ⟨_, _, rfl, h.fails, h.writable, h.clock⟩

theorem now_lt {t : Nat} {w' : World} (h : Up fs w) (ht : now w = .ok t w') : (t : Int) < 256 ^ 4 := by
  have hclock := h.clock w.steps
  injection ht with ht
  rw [← ht]
  omega

theorem finishes_transfer (h : Up fs w) : Finishes fs transfer w := by
  refine ⟨(), { w with steps := w.steps + 1 }, ?_, h.fails, h.writable, h.clock⟩
  show (if w.fails w.steps = true then _ else _) = _
  rw [if_neg (by rw [h.fails]; exact Bool.false_ne_true)]

theorem finishes_read {lba n off : Nat} {buf : Buf} (hn : 1 ≤ n) (hlba : lba + n ≤ fs.dev.sectors)
    (hbuf : off + n * fs.dev.sectorSize ≤ buf.capacity) (h : Up fs w) :
    Finishes fs (fs.dev.read lba n buf off) w := by
  unfold Device.read
  rw [if_neg (by omega)]
  exact (finishes_transfer h).bind fun _ w' _ h' => ⟨_, w', rfl, h'⟩

theorem finishes_write {lba n off : Nat} {buf : Buf} (hn : 1 ≤ n) (hlba : lba + n ≤ fs.dev.sectors)
    (hbuf : off + n * fs.dev.sectorSize ≤ buf.capacity) (h : Up fs w) :
    Finishes fs (fs.dev.write lba n buf off) w := by
  unfold Device.write
  rw [if_neg (by rw [h.writable]; simp; omega)]
  exact (finishes_transfer h).bind fun _ w' _ h' =>
    ⟨_, _, rfl, h'.fails, h'.writable, h'.clock⟩

end Finishes

variable {v : Volume} {w : World}

theorem finishes_store {n o : Nat} {x : Int} {b : Buf} (ho : o + n ≤ b.capacity) (h0 : 0 ≤ x)
    (hx : x < 256 ^ n) (h : Up v.toFs w) : Finishes v.toFs (store v.toFs n b o x) w :=
  ⟨_, w, store_ok.mpr ⟨ho, h0, hx, rfl, rfl⟩, h⟩

theorem finishes_addField {n o : Nat} {x : Int} {b : Buf} (ho : o + n ≤ b.capacity)
    (h0 : 0 ≤ loadLE b.bytes n o + x) (hx : loadLE b.bytes n o + x < 256 ^ n) (h : Up v.toFs w) :
    Finishes v.toFs (addField v.toFs n b o x) w :=
  ⟨_, w, addField_ok.mpr ⟨ho, h0, hx, rfl, rfl⟩, h⟩

theorem finishes_readBlock {b : Nat} (hb : b < v.blocks) (h : Up v.toFs w) :
    Finishes v.toFs (readBlock v.toFs b) w := by
  unfold readBlock
  simp only
  split_ifs
  · have hon := onDevice_of_le (v := v) (b := b) (n := 1) hb
    unfold Fs.OnDevice at hon
    rw [Nat.add_mul] at hon
    refine finishes_read (Nat.mul_pos Nat.one_pos v.sized.spb_pos) hon ?_ h
    rw [v.sized.mul_sectorSize]
    simp [Buf.alloc]
  · exact finishes_pure _ h

theorem finishes_writeBlock {b : Nat} {buf : Buf} (hb : b < v.blocks)
    (hbuf : v.blockSize ≤ buf.capacity) (h : Up v.toFs w) :
    Finishes v.toFs (writeBlock v.toFs b buf) w := by
  have hon := onDevice_of_le (v := v) (b := b) (n := 1) hb
  unfold Fs.OnDevice at hon
  rw [Nat.add_mul] at hon
  refine finishes_write (Nat.mul_pos Nat.one_pos v.sized.spb_pos) hon ?_ h
  rw [v.sized.mul_sectorSize]
  omega

/-! ### Counters -/

theorem lt_of_kind {b : Nat} (h : v.kind b ≠ .reserved) : b < v.blocks := (v.kind_inRange b h).2

theorem loadLE_gdBlock {d : Bytes} {g n k : Nat} (hg : g < v.groups.length) (hk : k + n ≤ 32) :
    loadLE (blockBuf v d (v.gdBlock g)).bytes n (g * 32 % v.blockSize + k) =
      loadLE ((v.view d).gd g) n k := by
  have hle := v.gdOffset_le g
  simp only [blockBuf, Volume.view, if_pos hg]
  rw [loadLE_window (by omega), loadLE_window (by omega), v.gdAddr_eq, Nat.add_assoc]

/-- A counter that is stored back as it is. -/
theorem finishes_addField_zero {n o : Nat} {b : Buf} (ho : o + n ≤ b.capacity) (h : Up v.toFs w) :
    Finishes v.toFs (addField v.toFs n b o 0) w := by
  refine finishes_addField ho (by omega) ?_ h
  rw [add_zero]
  exact_mod_cast loadLE_lt _ _ _

theorem superblock_sectors : 1024 / v.dev.sectorSize + 1024 / v.dev.sectorSize ≤ v.dev.sectors := by
  have hmul : 1024 / v.dev.sectorSize * v.dev.sectorSize = 1024 :=
    Nat.div_mul_cancel v.sectorSize_dvd
  have hpos : 0 < v.dev.sectorSize := Nat.pos_of_dvd_of_pos v.sectorSize_dvd (by decide)
  have hblock : v.firstDataBlock * v.blockSize + v.blockSize ≤ v.blocks * v.blockSize := by
    rw [← Nat.succ_mul]
    exact Nat.mul_le_mul_right _ v.firstDataBlock_lt
  have hdev := Nat.mul_le_mul_right v.dev.sectorSize v.blocks_fit
  rw [v.sized.mul_sectorSize] at hdev
  apply Nat.le_of_mul_le_mul_right _ hpos
  rw [Nat.add_mul, hmul]
  exact v.sb_in_block.2.trans (hblock.trans hdev)

theorem finishes_readSuperblock (h : Up v.toFs w) : Finishes v.toFs (readSuperblock v.dev) w := by
  have hmul : 1024 / v.dev.sectorSize * v.dev.sectorSize = 1024 :=
    Nat.div_mul_cancel v.sectorSize_dvd
  refine finishes_read (le_max_left _ _) ?_ ?_ h
  · rw [max_one_div]
    exact superblock_sectors
  · simp [Buf.alloc]

/-- The descriptor half of `adjust-counts!`. -/
theorem finishes_gdUpdate {g : Nat} {x : Int} (hg : g < v.groups.length) (h : Up v.toFs w)
    (h0 : 0 ≤ (v.view w.disk).freeBlocks g + x) (hx : (v.view w.disk).freeBlocks g + x < 256 ^ 2) :
    Finishes v.toFs (gdUpdate v.toFs g fun b o => do
      let b ← addField v.toFs 2 b (o + gdFreeBlocks) x
      let b ← addField v.toFs 2 b (o + gdFreeInodes) 0
      addField v.toFs 2 b (o + gdUsedDirs) 0) w := by
  have hk := v.kind_gdBlock hg
  have hle := v.gdOffset_le g
  have hblk : v.gdBlock g < v.blocks := lt_of_kind (by simp [hk])
  have hload := loadLE_gdBlock (d := w.disk) hg (show gdFreeBlocks + 2 ≤ 32 by decide)
  unfold gdUpdate
  refine (finishes_readBlock hblk h).bind fun buf w1 h1 hup1 => ?_
  obtain ⟨hd1, rfl⟩ := readBlock_meta h1 (by simp [hk]) (by simp [hk])
  have hin : ∀ j, j + 2 ≤ 32 → g * 32 % v.blockSize + j + 2 ≤ v.blockSize := fun j hj => by omega
  refine Finishes.bind ?_ fun buf' w2 h2 hup2 => finishes_writeBlock hblk ?_ hup2
  · refine (finishes_addField (hin _ (by decide)) ?_ ?_ hup1).bind fun b1 w2 h2 hup2 => ?_
    · rw [hload]
      exact h0
    · rw [hload]
      exact hx
    obtain ⟨-, -, -, rfl, rfl⟩ := addField_ok.mp h2
    refine (finishes_addField_zero (hin _ (by decide)) hup2).bind fun b2 w3 h3 hup3 => ?_
    obtain ⟨-, -, -, rfl, rfl⟩ := addField_ok.mp h3
    exact finishes_addField_zero (hin _ (by decide)) hup3
  · obtain ⟨b1, w3, h3, h2⟩ := bind_ok.mp h2
    obtain ⟨b2, w4, h4, h2⟩ := bind_ok.mp h2
    obtain ⟨-, -, -, rfl, rfl⟩ := addField_ok.mp h3
    obtain ⟨-, -, -, rfl, rfl⟩ := addField_ok.mp h4
    obtain ⟨-, -, -, rfl, rfl⟩ := addField_ok.mp h2
    exact le_rfl

theorem finishes_sbUpdate {x : Int} (h : Up v.toFs w) (h0 : 0 ≤ (v.view w.disk).sbFreeBlocks + x)
    (hx : (v.view w.disk).sbFreeBlocks + x < 256 ^ 4) :
    Finishes v.toFs (sbUpdate v.toFs fun b => do
      let b ← addField v.toFs 4 b sbFreeBlocks x
      addField v.toFs 4 b sbFreeInodes 0) w := by
  have hmul : 1024 / v.dev.sectorSize * v.dev.sectorSize = 1024 :=
    Nat.div_mul_cancel v.sectorSize_dvd
  unfold sbUpdate
  refine (finishes_readSuperblock h).bind fun buf w1 h1 hup1 => ?_
  obtain ⟨-, rfl⟩ := readSuperblock_ok h1
  have hin : ∀ j, j + 4 ≤ 1024 → j + 4 ≤ (⟨1024, (v.view w.disk).sb⟩ : Buf).capacity := fun _ hj => hj
  refine Finishes.bind ?_ fun b2 w2 h2 hup2 => ?_
  · refine (finishes_addField (hin _ (by decide)) h0 hx hup1).bind fun b1 w2 h2 hup2 => ?_
    obtain ⟨-, -, -, rfl, rfl⟩ := addField_ok.mp h2
    exact finishes_addField_zero (hin _ (by decide)) hup2
  obtain ⟨b1, w3, h3, h2⟩ := bind_ok.mp h2
  obtain ⟨-, -, -, rfl, rfl⟩ := addField_ok.mp h3
  obtain ⟨-, -, -, rfl, rfl⟩ := addField_ok.mp h2
  refine (finishes_now hup2).bind fun t w4 h4 hup4 => ?_
  have ht := now_lt hup2 h4
  refine Finishes.bind (finishes_store ?_ (Int.natCast_nonneg t) ht hup4) fun b5 w5 h5 hup5 => ?_
  · exact hin sbWtime (by decide)
  obtain ⟨-, -, -, rfl, rfl⟩ := store_ok.mp h5
  refine finishes_write (le_max_left _ _) ?_ ?_ hup5
  · rw [max_one_div]
    exact superblock_sectors
  · rw [max_one_div, hmul]

theorem finishes_adjustCounts {g : Nat} {x : Int} (hg : g < v.groups.length) (h : Up v.toFs w)
    (hgd : 0 ≤ (v.view w.disk).freeBlocks g + x) (hgd' : (v.view w.disk).freeBlocks g + x < 256 ^ 2)
    (hsb : 0 ≤ (v.view w.disk).sbFreeBlocks + x) (hsb' : (v.view w.disk).sbFreeBlocks + x < 256 ^ 4) :
    Finishes v.toFs (adjustCounts v.toFs g x 0 0) w := by
  refine (finishes_gdUpdate hg h hgd hgd').bind fun _ w1 h1 hup1 => ?_
  obtain ⟨m, -, hview⟩ := gdUpdate_ok ((editsRecord_addField (by decide)).seq
    ((editsRecord_addField (by decide)).seq (editsRecord_addField (by decide)))) hg h1
  have hsame : (v.view w1.disk).sbFreeBlocks = (v.view w.disk).sbFreeBlocks := by
    rw [hview]
    rfl
  exact finishes_sbUpdate hup1 (hsame ▸ hsb) (hsame ▸ hsb')

/-! ### Bitmaps -/

theorem finishes_setBit {bm : Buf} {i : Nat} {on : Bool} (hi : i / 8 + 1 ≤ bm.capacity)
    (h : Up v.toFs w) : Finishes v.toFs (setBit v.toFs bm i on) w := by
  refine (finishes_load hi h).bind fun x w1 h1 hup1 => ?_
  obtain ⟨-, rfl, rfl⟩ := load_ok.mp h1
  have hx : loadLE bm.bytes 1 (i / 8) < 2 ^ 8 := loadLE_lt _ _ _
  have hm : 1 <<< (i % 8) < 2 ^ 8 := by
    rw [Nat.one_shiftLeft]
    exact Nat.pow_lt_pow_right (by decide) (Nat.mod_lt _ (by decide))
  have hval : (if on then loadLE bm.bytes 1 (i / 8) ||| 1 <<< (i % 8)
      else loadLE bm.bytes 1 (i / 8) &&& (0xFF ^^^ 1 <<< (i % 8))) < 2 ^ 8 := by
    split_ifs
    · exact Nat.or_lt_two_pow hx hm
    · exact Nat.and_le_left.trans_lt hx
  refine finishes_store hi ?_ ?_ hup1
  · split_ifs <;> exact Int.natCast_nonneg _
  · split_ifs at hval ⊢
    · exact Int.ofNat_lt.mpr hval
    · exact Int.ofNat_lt.mpr hval

theorem finishes_testBit {bm : Buf} {i : Nat} (hi : i / 8 + 1 ≤ bm.capacity) (h : Up v.toFs w) :
    Finishes v.toFs (testBit bm i) w := ⟨_, w, testBit_ok.mpr ⟨hi, rfl, rfl⟩, h⟩

theorem finishes_scanBits {base limit n k fuel i : Nat} {bm : Buf} {got : List Nat}
    (hlimit : limit ≤ 8 * bm.capacity) (h : Up v.toFs w) :
    Finishes v.toFs (scanBits v.toFs base limit n k fuel i bm got) w := by
  induction fuel generalizing i bm got w with
  | zero => exact finishes_pure _ h
  | succ fuel ih =>
      unfold scanBits
      split_ifs with hstop
      · exact finishes_pure _ h
      · have hi : i / 8 + 1 ≤ bm.capacity := by omega
        refine (finishes_load hi h).bind fun x w1 _ hup1 => ?_
        split_ifs
        · exact ih hlimit hup1
        · refine (finishes_testBit hi hup1).bind fun used w2 _ hup2 => ?_
          split_ifs
          · exact ih hlimit hup2
          · refine (finishes_setBit hi hup2).bind fun bm' w3 h3 hup3 => ?_
            obtain ⟨-, hcap, -⟩ := setBit_ok h3
            exact ih (hcap ▸ hlimit) hup3

/-- The bits of blocks of group `g` lie in its bitmap. -/
theorem finishes_clearBits {g : Nat} {bs : List Nat} {bm : Buf} (hbm : bm.capacity = v.blockSize)
    (hbs : ∀ b ∈ bs, v.firstDataBlock ≤ b ∧ v.blockGroup b = g) (h : Up v.toFs w) :
    Finishes v.toFs (clearBits v.toFs g bs bm) w := by
  induction bs generalizing bm w with
  | nil => exact finishes_pure _ h
  | cons b bs ih =>
      have hb := hbs b List.mem_cons_self
      have heq := block_eq hb.1
      rw [hb.2] at heq
      have hidx : (b : Int) - v.firstDataBlock - g * v.blocksPerGroup = v.blockIndex b := by
        rw [← Nat.cast_mul]
        omega
      have hlt := (v.blockIndex_lt b).trans_le v.blocksPerGroup_le
      unfold clearBits
      simp only [hidx]
      rw [if_neg (by omega), Int.toNat_natCast]
      refine (finishes_setBit (by omega) h).bind fun bm' w1 h1 hup1 => ?_
      obtain ⟨-, hcap, -⟩ := setBit_ok h1
      exact ih (hcap.trans hbm) (fun b hb => hbs b (List.mem_cons_of_mem _ hb)) hup1

/-! ### Taking blocks -/

section Take

variable {x x' : Vol} {l l' : List Nat} {g : Nat}

/-- The free blocks of a group are as many as its counter says. -/
theorem Counted.length_le (hc : Counted v x) (hg : g < v.groups.length) (hnodup : l.Nodup)
    (hl : ∀ b ∈ l, v.InRange b ∧ v.blockGroup b = g ∧ x.blockBit b = false) :
    l.length ≤ x.freeBlocks g ∧ l.length ≤ x.sbFreeBlocks := by
  have hle : l.length ≤ x.freeBlocks g := by
    rw [hc.freeBlocks g, freeBlockCount, ← List.toFinset_card_of_nodup hnodup]
    apply Finset.card_le_card
    intro b hb
    have hb := hl b (List.mem_toFinset.mp hb)
    exact Finset.mem_filter.mpr ⟨Finset.mem_range.mpr hb.1.2, hb⟩
  refine ⟨hle, hle.trans ?_⟩
  rw [hc.sbFreeBlocks]
  exact Finset.single_le_sum (f := x.freeBlocks) (fun _ _ => Nat.zero_le _) (Finset.mem_range.mpr hg)

/-- Every block of group `g` is in use. -/
def GroupFull (v : Volume) (x : Vol) (g : Nat) : Prop :=
  ∀ b, v.InRange b → v.blockGroup b = g → x.blockBit b = true

theorem GroupFull.taken (h : GroupFull v x g) (ht : Taken v x x' l) : GroupFull v x' g := by
  intro b hb hbg
  rw [ht.blockBit, h b hb hbg, Bool.true_or]

/-- A scan that ran over the whole group leaves none of its blocks. -/
theorem groupFull_of_scan {d : Bytes} {n k : Nat} {idx : List Nat} {bm : Buf}
    (hs : Scanned 0 (min v.blocksPerGroup (v.blocks - (v.firstDataBlock + g * v.blocksPerGroup))) n k
      (blockBuf v d (v.group g).blockBitmap) bm idx)
    (ht : Taken v (v.view d) x' (idx.map (v.firstDataBlock + g * v.blocksPerGroup + ·)))
    (hn : k + idx.length < n) : GroupFull v x' g := by
  intro b hb hbg
  have heq := block_eq hb.1
  rw [hbg] at heq
  have hidx := v.blockIndex_lt b
  have hlast := hb.2
  have hset := hs.full hn (v.blockIndex b) (Nat.zero_le _) (by omega)
  rw [hs.bits, Bool.or_eq_true, decide_eq_true_iff] at hset
  rw [ht.blockBit, Bool.or_eq_true, decide_eq_true_iff]
  rcases hset with hset | hmem
  · left
    rw [blockBit_eq d hb, hbg]
    exact hset
  · right
    exact (mem_map_base fun j hj => by have := (hs.clear j hj).2.1; omega).mpr ⟨hb.1, hbg, hmem⟩

/-- The groups from `goal` on are all there are. -/
theorem exists_visited (goal : Nat) {n g : Nat} (hg : g < n) : ∃ j < n, (goal + j) % n = g := by
  have hmod : goal % n < n := Nat.mod_lt goal (by omega)
  have hsum : ∀ j, (goal + j) % n = (goal % n + j) % n := fun j => (Nat.mod_add_mod goal n j).symm
  by_cases hle : goal % n ≤ g
  · refine ⟨g - goal % n, by omega, ?_⟩
    rw [hsum, Nat.add_sub_cancel' hle, Nat.mod_eq_of_lt hg]
  · refine ⟨g + n - goal % n, by omega, ?_⟩
    rw [hsum, show goal % n + (g + n - goal % n) = g + n by omega, Nat.add_mod_right, Nat.mod_eq_of_lt hg]

theorem nth_group (hg : g < v.groups.length) (w : World) :
    nth v.groups g w = .ok (v.group g) w := by
  refine nth_ok.mpr ⟨?_, rfl⟩
  unfold Fs.group
  rw [List.getD_eq_getElem?_getD, List.getElem?_eq_getElem hg]
  rfl

/-- The blocks that a scan took can be written back. -/
theorem finishes_take {n k : Nat} {idx : List Nat} {bm : Buf} {w : World} (h : Up v.toFs w)
    (hc : Counted v (v.view w.disk)) (hg : g < v.groups.length)
    (hs : Scanned 0 (min v.blocksPerGroup (v.blocks - (v.firstDataBlock + g * v.blocksPerGroup))) n k
      (blockBuf v w.disk (v.group g).blockBitmap) bm idx) :
    ∃ w', Up v.toFs w' ∧ Taken v (v.view w.disk) (v.view w'.disk)
        (idx.map (v.firstDataBlock + g * v.blocksPerGroup + ·)) ∧
      ∃ w1, writeBlock v.toFs (v.group g).blockBitmap bm w = .ok () w1 ∧
        adjustCounts v.toFs g (-(idx.map (v.firstDataBlock + g * v.blocksPerGroup + ·)).length) 0 0 w1 =
          .ok () w' := by
  have hkind : v.kind (v.group g).blockBitmap = _ := v.kind_blockBitmap g hg
  have hbb : (v.group g).blockBitmap < v.blocks := lt_of_kind (by simp [hkind])
  obtain ⟨_, w1, h1, hup1⟩ := finishes_writeBlock hbb hs.capacity.ge h
  have hview := writeBlock_blockBitmap hg h1
  have hgd : (v.view w1.disk).freeBlocks g = (v.view w.disk).freeBlocks g := by
    rw [hview]
    rfl
  have hsb : (v.view w1.disk).sbFreeBlocks = (v.view w.disk).sbFreeBlocks := by
    rw [hview]
    rfl
  -- the counters cover the blocks that are taken
  obtain ⟨hle, hle'⟩ := hc.length_le hg (l := idx.map (v.firstDataBlock + g * v.blocksPerGroup + ·))
    (hs.nodup.map fun a b hab => Nat.add_left_cancel hab) fun b hb => clear_of_scan hs hb
  have hlt2 : (v.view w.disk).freeBlocks g < 256 ^ 2 := loadLE_lt _ _ _
  have hlt4 : (v.view w.disk).sbFreeBlocks < 256 ^ 4 := loadLE_lt _ _ _
  rw [← hgd] at hle hlt2
  rw [← hsb] at hle' hlt4
  obtain ⟨_, w2, h2, hup2⟩ := finishes_adjustCounts (v := v) (w := w1) (g := g)
    (x := -(idx.map (v.firstDataBlock + g * v.blocksPerGroup + ·)).length) hg hup1 (by omega)
    (by omega) (by omega) (by omega)
  exact ⟨w2, hup2, taken_of_scan hg hs h1 h2, w1, h1, h2⟩

/-- One round of `alloc-blocks!`: what a group has is taken, and the loop goes on behind it. -/
theorem allocLoop_step {goal n k : Nat} (fuel : Nat) {acc : List Nat} {w : World} (h : Up v.toFs w)
    (hc : Counted v (v.view w.disk)) (hn : acc.length < n) (hgk : (goal + k) % v.groups.length = g) :
    ∃ got w', Up v.toFs w' ∧ Taken v (v.view w.disk) (v.view w'.disk) got ∧
      (acc ++ got).length ≤ n ∧ ((acc ++ got).length < n → GroupFull v (v.view w'.disk) g) ∧
      allocLoop v.toFs goal n (fuel + 1) k acc w =
        allocLoop v.toFs goal n fuel (k + 1) (acc ++ got) w' := by
  have hg : g < v.groups.length := hgk ▸ Nat.mod_lt _ v.ng_pos
  have hkind : v.kind (v.group g).blockBitmap = _ := v.kind_blockBitmap g hg
  have hbb : (v.group g).blockBitmap < v.blocks := lt_of_kind (by simp [hkind])
  obtain ⟨bm, w1, h1, hup1⟩ := finishes_readBlock hbb h
  obtain ⟨hd1, rfl⟩ := readBlock_meta h1 (by simp [hkind]) (by simp [hkind])
  have hbpg := v.blocksPerGroup_le
  obtain ⟨limit, hlimit⟩ : ∃ limit, min v.blocksPerGroup
      (v.blocks - (v.firstDataBlock + g * v.blocksPerGroup)) = limit := ⟨_, rfl⟩
  have hscan : Finishes v.toFs (scanBits v.toFs (v.firstDataBlock + g * v.blocksPerGroup) limit n
      acc.length limit 0 (blockBuf v w.disk (v.group g).blockBitmap) []) w1 :=
    finishes_scanBits (show limit ≤ 8 * v.blockSize by omega) hup1
  obtain ⟨⟨bm', got⟩, w2, h2, hup2⟩ := hscan
  obtain ⟨rfl, idx, hgot, hs⟩ := scanBits_ok (Nat.le_add_left _ _) h2
  simp only [List.nil_append, List.length_nil, Nat.add_zero] at hgot hs
  subst hgot
  have hlen := hs.le hn.le
  -- the round up to the end of the scan
  have hrun : allocLoop v.toFs goal n (fuel + 1) k acc w = (if idx.map
      (v.firstDataBlock + g * v.blocksPerGroup + ·) ≠ [] then do
        writeBlock v.toFs (v.group g).blockBitmap bm'
        adjustCounts v.toFs g (-(idx.map (v.firstDataBlock + g * v.blocksPerGroup + ·)).length) 0 0
        allocLoop v.toFs goal n fuel (k + 1)
          (acc ++ idx.map (v.firstDataBlock + g * v.blocksPerGroup + ·))
      else allocLoop v.toFs goal n fuel (k + 1)
        (acc ++ idx.map (v.firstDataBlock + g * v.blocksPerGroup + ·))) w1 := by
    rw [allocLoop, if_neg (Nat.not_le.mpr hn)]
    simp only [hgk, hlimit]
    rw [bind_apply (nth_group hg w), bind_apply h1, bind_apply h2]
  rw [← hlimit] at hs
  refine ⟨idx.map (v.firstDataBlock + g * v.blocksPerGroup + ·), ?_⟩
  rw [List.length_append, List.length_map, hrun]
  by_cases hempty : idx = []
  · subst hempty
    have ht := taken_refl v (v.view w1.disk)
    rw [hd1] at ht
    refine ⟨w1, hup1, ?_, hlen, fun hlt => ?_, rfl⟩
    · rw [hd1]
      exact ht
    · rw [hd1]
      exact groupFull_of_scan hs ht hlt
  · rw [← hd1] at hs hc ⊢
    obtain ⟨w2, hup2, ht, w3, h3, h4⟩ := finishes_take hup1 hc hg hs
    refine ⟨w2, hup2, ht, hlen, fun hlt => groupFull_of_scan hs ht hlt, ?_⟩
    rw [if_pos (fun hmap => hempty (List.map_eq_nil_iff.mp hmap)), bind_apply h3, bind_apply h4]

/-- The loop of `alloc-blocks!` takes blocks until it has `n`, or until there are none left. -/
theorem allocLoop_run (goal : Nat) {n fuel k : Nat} {acc : List Nat} {w : World}
    (hk : k + fuel = v.groups.length) (h : Up v.toFs w) (hc : Counted v (v.view w.disk))
    (hacc : acc.length ≤ n)
    (hseen : acc.length < n →
      ∀ j < k, GroupFull v (v.view w.disk) ((goal + j) % v.groups.length)) :
    ∃ l w', Up v.toFs w' ∧ Taken v (v.view w.disk) (v.view w'.disk) l ∧
      ((acc ++ l).length = n ∧ allocLoop v.toFs goal n fuel k acc w = .ok (acc ++ l) w' ∨
      (acc ++ l).length < n ∧ (∀ g < v.groups.length, GroupFull v (v.view w'.disk) g) ∧
        allocLoop v.toFs goal n fuel k acc w = (do
          freeBlocks v.toFs (acc ++ l)
          fail .alloc .blocks .diskFull) w') := by
  induction fuel generalizing k acc w with
  | zero =>
      refine ⟨[], w, h, taken_refl _ _, ?_⟩
      unfold allocLoop
      rw [List.append_nil]
      split_ifs with hn
      · exact .inl ⟨le_antisymm hacc hn, rfl⟩
      · refine .inr ⟨by omega, fun g hg => ?_, rfl⟩
        obtain ⟨j, hj, rfl⟩ := exists_visited goal hg
        exact hseen (Nat.lt_of_not_le hn) j (by omega)
  | succ fuel ih =>
      by_cases hn : acc.length ≥ n
      · refine ⟨[], w, h, taken_refl _ _, .inl ?_⟩
        unfold allocLoop
        rw [List.append_nil, if_pos hn]
        exact ⟨le_antisymm hacc hn, rfl⟩
      · obtain ⟨got, w1, hup1, ht1, hacc1, hfull, hrun⟩ :=
          allocLoop_step fuel h hc (Nat.not_le.mp hn) rfl
        have hseen1 : (acc ++ got).length < n →
            ∀ j < k + 1, GroupFull v (v.view w1.disk) ((goal + j) % v.groups.length) := by
          intro hlt j hj
          rcases Nat.eq_or_lt_of_le (Nat.lt_succ_iff.mp hj) with rfl | hj
          · exact hfull hlt
          · exact (hseen (Nat.not_le.mp hn) j hj).taken ht1
        obtain ⟨l, w2, hup2, ht2, hend⟩ := ih (by omega) hup1 (ht1.counted_iff.mp hc) hacc1 hseen1
        refine ⟨got ++ l, w2, hup2, ht1.trans ht2, ?_⟩
        rw [← List.append_assoc, hrun]
        exact hend

/-! ### Giving them back -/

theorem freeGroups_cons {fs : Fs} {blocks : List Nat} {g : Int} {gs : List Int} :
    freeGroups fs blocks (g :: gs) = (do
      freeGroups fs blocks [g]
      freeGroups fs blocks gs) := by
  conv_lhs => rw [freeGroups]
  conv_rhs => rw [freeGroups, freeGroups]
  split_ifs
  · rfl
  · simp only [bind_assoc, pure_bind]

theorem length_filter_group (hl : ∀ b ∈ l, v.InRange b) (g : Nat) :
    (l.filter fun b => groupOfBlock v.toFs b = (g : Int)).length =
      l.countP fun b => v.blockGroup b = g := by
  rw [← List.countP_eq_length_filter]
  apply List.countP_congr
  intro b hb
  rw [groupOfBlock_eq (hl b hb).1, decide_eq_true_iff, decide_eq_true_iff, Int.natCast_inj]

/-- The blocks taken of a group can be given back. -/
theorem finishes_freeGroup {w : World} (h : Up v.toFs w) (hg : g < v.groups.length)
    (hl : ∀ b ∈ l, v.InRange b)
    (hgd : (v.view w.disk).freeBlocks g + l.countP (fun b => v.blockGroup b = g) < 256 ^ 2)
    (hsb : (v.view w.disk).sbFreeBlocks + l.countP (fun b => v.blockGroup b = g) < 256 ^ 4) :
    Finishes v.toFs (freeGroups v.toFs l [(g : Int)]) w := by
  have hkind : v.kind (v.group g).blockBitmap = _ := v.kind_blockBitmap g hg
  have hbb : (v.group g).blockBitmap < v.blocks := lt_of_kind (by simp [hkind])
  unfold freeGroups
  rw [if_neg (by omega), Int.toNat_natCast]
  refine Finishes.bind ⟨_, w, nth_group hg w, h⟩ fun gd w1 h1 hup1 => ?_
  obtain ⟨hgd1, rfl⟩ := nth_ok.mp h1
  obtain ⟨-, rfl⟩ := group_of_getElem? hgd1
  refine (finishes_readBlock hbb hup1).bind fun bm w2 h2 hup2 => ?_
  obtain ⟨hd2, rfl⟩ := readBlock_meta h2 (by simp [hkind]) (by simp [hkind])
  have hgroup : ∀ b ∈ l.filter fun b => groupOfBlock v.toFs b = (g : Int),
      v.firstDataBlock ≤ b ∧ v.blockGroup b = g := by
    intro b hb
    rw [List.mem_filter, decide_eq_true_iff] at hb
    have hr := hl b hb.1
    rw [groupOfBlock_eq hr.1, Int.natCast_inj] at hb
    exact ⟨hr.1, hb.2⟩
  refine (finishes_clearBits rfl hgroup hup2).bind fun bm w3 h3 hup3 => ?_
  obtain ⟨rfl, hcap, -⟩ := clearBits_ok h3 hgroup
  refine (finishes_writeBlock hbb hcap.ge hup3).bind fun _ w4 h4 hup4 => ?_
  have hview := writeBlock_blockBitmap hg h4
  rw [hd2] at hview
  have hgd4 : (v.view w4.disk).freeBlocks g = (v.view w.disk).freeBlocks g := by
    rw [hview]
    rfl
  have hsb4 : (v.view w4.disk).sbFreeBlocks = (v.view w.disk).sbFreeBlocks := by
    rw [hview]
    rfl
  refine Finishes.bind (finishes_adjustCounts hg hup4 ?_ ?_ ?_ ?_) fun _ w5 _ hup5 =>
    finishes_pure _ hup5
  · omega
  · rw [hgd4, length_filter_group hl]
    exact_mod_cast hgd
  · omega
  · rw [hsb4, length_filter_group hl]
    exact_mod_cast hsb

/-- All the blocks taken can be given back, group by group. -/
theorem finishes_freeGroups {gs : List Int} {w : World} (h : Up v.toFs w) (hgs : gs.Nodup)
    (hrange : ∀ g ∈ gs, ∃ k : Nat, g = k ∧ k < v.groups.length) (hnodup : l.Nodup)
    (hl : ∀ b ∈ l, v.InRange b)
    (hset : ∀ b ∈ l, groupOfBlock v.toFs b ∈ gs → (v.view w.disk).blockBit b = true)
    (hgd : ∀ k : Nat, (k : Int) ∈ gs →
      (v.view w.disk).freeBlocks k + l.countP (fun b => v.blockGroup b = k) < 256 ^ 2)
    (hsb : (v.view w.disk).sbFreeBlocks + (blocksOfGroups v.toFs l gs).length < 256 ^ 4) :
    Finishes v.toFs (freeGroups v.toFs l gs) w := by
  induction gs generalizing w with
  | nil => exact finishes_pure _ h
  | cons g gs ih =>
      obtain ⟨k, rfl, hk⟩ := hrange g List.mem_cons_self
      have hlen := length_filter_group hl k
      have hall : (blocksOfGroups v.toFs l ((k : Int) :: gs)).length =
          (l.filter fun b => groupOfBlock v.toFs b = (k : Int)).length +
            (blocksOfGroups v.toFs l gs).length := List.length_append
      rw [freeGroups_cons]
      refine (finishes_freeGroup h hk hl (hgd k List.mem_cons_self) (by omega)).bind
        fun _ w1 h1 hup1 => ?_
      have ht := freeGroups_ok h1 (List.nodup_singleton _) hnodup hl fun b hb hbg =>
        hset b hb (List.mem_singleton.mp hbg ▸ List.mem_cons_self)
      have hone : blocksOfGroups v.toFs l [(k : Int)] =
          l.filter fun b => groupOfBlock v.toFs b = (k : Int) := List.append_nil _
      rw [hone] at ht
      have hother : ∀ b, groupOfBlock v.toFs b ∈ gs → groupOfBlock v.toFs b ≠ (k : Int) :=
        fun b hb he => (List.nodup_cons.mp hgs).1 (he ▸ hb)
      refine ih hup1 (List.nodup_cons.mp hgs).2 (fun g hg => hrange g (List.mem_cons_of_mem _ hg))
        (fun b hb hbg => ?_) (fun j hj => ?_) ?_
      · have hold := hset b hb (List.mem_cons_of_mem _ hbg)
        rw [ht.blockBit] at hold
        simpa [hother b hbg] using hold
      · have hold := hgd j (List.mem_cons_of_mem _ hj)
        have hzero : (l.filter fun b => groupOfBlock v.toFs b = (k : Int)).countP
            (fun b => v.blockGroup b = j) = 0 := by
          rw [List.countP_eq_zero]
          intro b hb hbj
          rw [List.mem_filter, decide_eq_true_iff] at hb
          rw [decide_eq_true_iff] at hbj
          have hbg := groupOfBlock_eq (hl b hb.1).1
          rw [hbj] at hbg
          exact hother b (hbg ▸ hj) hb.2
        rw [ht.freeBlocks j, hzero]
        exact hold
      · rw [ht.sbFreeBlocks]
        omega

/-- What was taken can be given back. -/
theorem finishes_freeBlocks {w : World} (h : Up v.toFs w) (ht : Taken v x (v.view w.disk) l) :
    Finishes v.toFs (freeBlocks v.toFs l) w := by
  have hmem : ∀ b ∈ l.filter (· ≠ 0), b ∈ l := fun b hb => (List.mem_filter.mp hb).1
  have hset : ∀ b ∈ l.filter (· ≠ 0), (v.view w.disk).blockBit b = true := by
    intro b hb
    rw [ht.blockBit, decide_eq_true (hmem b hb), Bool.or_true]
  have hnodup : (l.filter (· ≠ 0)).Nodup := ht.nodup.filter _
  have hrange : ∀ b ∈ l.filter (· ≠ 0), v.InRange b := fun b hb => (ht.clear b (hmem b hb)).1
  obtain ⟨hgs, hkeys⟩ := keyOrder_groups v.toFs (l.filter (· ≠ 0))
  unfold freeBlocks
  rw [if_neg (by simp [v.blocksPerGroup_pos.ne'])]
  refine finishes_freeGroups h hgs (fun g hg => ?_) hnodup hrange (fun b hb _ => hset b hb)
    (fun k _ => ?_) ?_
  · obtain ⟨b, hb, rfl⟩ := (hkeys g).mp hg
    exact ⟨v.blockGroup b, groupOfBlock_eq (hrange b hb).1, v.blockGroup_lt (hrange b hb)⟩
  · have hcount := ht.freeBlocks k
    have hle : (l.filter (· ≠ 0)).countP (fun b => v.blockGroup b = k) ≤
        l.countP fun b => v.blockGroup b = k := List.Sublist.countP_le List.filter_sublist
    have hlt : x.freeBlocks k < 256 ^ 2 := loadLE_lt _ _ _
    omega
  · have hperm := blocksOfGroups_perm hgs hnodup fun b hb => (hkeys _).mpr ⟨b, hb, rfl⟩
    have htotal := ht.sbFreeBlocks
    have hle : (l.filter (· ≠ 0)).length ≤ l.length := List.length_filter_le _ _
    have hlt : x.sbFreeBlocks < 256 ^ 4 := loadLE_lt _ _ _
    rw [hperm.length_eq]
    omega

/-- Blocks taken and given back are as they were. -/
theorem Taken.cancel {x₀ x₁ x₂ : Vol} {r : List Nat} (h : Taken v x₀ x₁ (l ++ r))
    (h' : Taken v x₂ x₁ l) : Taken v x₀ x₂ r where
  nodup := (List.nodup_append.mp h.nodup).2.1
  clear b hb := h.clear b (List.mem_append_right _ hb)
  blockBit b := by
    have hb := h.blockBit b
    rw [h'.blockBit] at hb
    by_cases hl : b ∈ l
    · have hr : b ∉ r := fun hr => (List.nodup_append.mp h.nodup).2.2 b hl b hr rfl
      rw [(h'.clear b hl).2, (h.clear b (List.mem_append_left _ hl)).2, decide_eq_false hr]
      rfl
    · simpa [hl] using hb
  freeBlocks g := by
    have h1 := h.freeBlocks g
    have h2 := h'.freeBlocks g
    rw [List.countP_append] at h1
    omega
  sbFreeBlocks := by
    have h1 := h.sbFreeBlocks
    have h2 := h'.sbFreeBlocks
    rw [List.length_append] at h1
    omega
  freeInodes := h'.freeInodes.symm.trans h.freeInodes
  usedDirs := h'.usedDirs.symm.trans h.usedDirs
  sbFreeInodes := h'.sbFreeInodes.symm.trans h.sbFreeInodes
  sbStatic := h'.sbStatic.symm.trans h.sbStatic
  gdStatic := h'.gdStatic.symm.trans h.gdStatic
  inodeBit := h'.inodeBit.symm.trans h.inodeBit
  inode := h'.inode.symm.trans h.inode
  block := h'.block.symm.trans h.block

/-- How many blocks are free. -/
def freeTotal (v : Volume) (x : Vol) : Nat :=
  ((Finset.range v.blocks).filter fun b => v.InRange b ∧ x.blockBit b = false).card

/-- The blocks that `free-blocks!` does not give back: block 0, which stands for a hole. -/
def unreturned (v : Volume) (x : Vol) : List Nat :=
  if v.InRange 0 ∧ x.blockBit 0 = false then [0] else []

theorem mem_unreturned {b : Nat} :
    b ∈ unreturned v x ↔ b = 0 ∧ v.InRange 0 ∧ x.blockBit 0 = false := by
  unfold unreturned
  split_ifs with h <;> simp [h]

theorem Taken.length_le (ht : Taken v x x' l) : l.length ≤ freeTotal v x := by
  rw [← List.toFinset_card_of_nodup ht.nodup]
  apply Finset.card_le_card
  intro b hb
  have hb := ht.clear b (List.mem_toFinset.mp hb)
  exact Finset.mem_filter.mpr ⟨Finset.mem_range.mpr hb.1.2, hb⟩

/-- Where nothing is left, all that was free is taken. -/
theorem Taken.mem_of_full (ht : Taken v x x' l) (hfull : ∀ g < v.groups.length, GroupFull v x' g)
    {b : Nat} (hb : v.InRange b) (hclear : x.blockBit b = false) : b ∈ l := by
  have hset := hfull (v.blockGroup b) (v.blockGroup_lt hb) b hb rfl
  rw [ht.blockBit, hclear, Bool.false_or, decide_eq_true_iff] at hset
  exact hset

theorem Taken.freeTotal_le (ht : Taken v x x' l)
    (hfull : ∀ g < v.groups.length, GroupFull v x' g) : freeTotal v x ≤ l.length := by
  rw [← List.toFinset_card_of_nodup ht.nodup]
  apply Finset.card_le_card
  intro b hb
  obtain ⟨-, hr, hclear⟩ := Finset.mem_filter.mp hb
  exact List.mem_toFinset.mpr (ht.mem_of_full hfull hr hclear)

/-- The blocks taken are the ones that are given back, and block 0 if it was free. -/
theorem Taken.perm_unreturned (ht : Taken v x x' l)
    (hfull : ∀ g < v.groups.length, GroupFull v x' g) :
    l.Perm (l.filter (· ≠ 0) ++ unreturned v x) := by
  have hone : (unreturned v x).Nodup := by
    unfold unreturned
    split_ifs
    · exact List.nodup_singleton 0
    · exact List.nodup_nil
  have hnodup : (l.filter (· ≠ 0) ++ unreturned v x).Nodup := by
    refine List.nodup_append.mpr ⟨ht.nodup.filter _, hone, fun b hb b' hb' => ?_⟩
    rintro rfl
    rw [List.mem_filter, decide_eq_true_iff] at hb
    exact hb.2 (mem_unreturned.mp hb').1
  refine (List.perm_ext_iff_of_nodup ht.nodup hnodup).mpr fun b => ?_
  rw [List.mem_append, List.mem_filter, decide_eq_true_iff, mem_unreturned]
  constructor
  · intro hb
    by_cases h0 : b = 0
    · subst h0
      exact .inr ⟨rfl, ht.clear 0 hb⟩
    · exact .inl ⟨hb, h0⟩
  · rintro (⟨hb, -⟩ | ⟨rfl, hr, hclear⟩)
    · exact hb
    · exact ht.mem_of_full hfull hr hclear

/-- On an image whose counters match its bitmaps, `alloc-blocks!` takes exactly `n` blocks where so many
are free, and where not it throws and leaves every bit and counter as it was, except those of a free
block 0. -/
theorem allocBlocks_exact {w : World} (goal n : Nat) (h : Up v.toFs w)
    (hc : Counted v (v.view w.disk)) :
    (n ≤ freeTotal v (v.view w.disk) → ∃ l w', allocBlocks v.toFs goal n w = .ok l w' ∧
      l.length = n ∧ Taken v (v.view w.disk) (v.view w'.disk) l) ∧
    (freeTotal v (v.view w.disk) < n → ∃ w',
      allocBlocks v.toFs goal n w = .error (.fail .alloc .blocks .diskFull) w' ∧
      Taken v (v.view w.disk) (v.view w'.disk) (unreturned v (v.view w.disk))) := by
  have hnone : ([] : List Nat).length ≤ n := Nat.zero_le n
  obtain ⟨l, w1, hup1, ht, hend⟩ := allocLoop_run goal (Nat.zero_add _) h hc hnone fun _ j hj => by
    cases hj
  rw [List.nil_append] at hend
  constructor
  · intro hn
    rcases hend with ⟨hlen, hrun⟩ | ⟨hlen, hfull, -⟩
    · exact ⟨l, w1, hrun, hlen, ht⟩
    · have := ht.freeTotal_le hfull
      omega
  · intro hn
    rcases hend with ⟨hlen, -⟩ | ⟨hlen, hfull, hrun⟩
    · have := ht.length_le
      omega
    · obtain ⟨_, w2, h2, -⟩ := finishes_freeBlocks hup1 ht
      rw [bind_apply h2] at hrun
      refine ⟨w2, hrun, ?_⟩
      have hback := freeBlocks_ok h2 (ht.nodup.filter _) fun b hb _ =>
        ⟨(ht.clear b hb).1, by rw [ht.blockBit, decide_eq_true hb, Bool.or_true]⟩
      exact Taken.cancel (ht.perm (ht.perm_unreturned hfull)) hback

end Take

theorem up_sample : Up sampleVolume.toFs sampleWorld := ⟨fun _ => rfl, rfl, fun _ => show 0 < 2 ^ 32 by omega⟩

theorem allocBlocks_exact_sample :
    (5 ≤ freeTotal sampleVolume (sampleVolume.view sampleWorld.disk) → ∃ l w',
      allocBlocks sampleVolume.toFs 3 5 sampleWorld = .ok l w' ∧ l.length = 5 ∧
      Taken sampleVolume (sampleVolume.view sampleWorld.disk) (sampleVolume.view w'.disk) l) ∧
    (freeTotal sampleVolume (sampleVolume.view sampleWorld.disk) < 5 → ∃ w',
      allocBlocks sampleVolume.toFs 3 5 sampleWorld = .error (.fail .alloc .blocks .diskFull) w' ∧
      Taken sampleVolume (sampleVolume.view sampleWorld.disk) (sampleVolume.view w'.disk)
        (unreturned sampleVolume (sampleVolume.view sampleWorld.disk))) :=
  allocBlocks_exact 3 5 up_sample accounted_sample.books.counted

/-! ### An image with block 0 free

Blocks of 2048 bytes, so that the superblock is in block 0; the bit of block 0 is the only clear one. -/

def freeZeroDisk : Bytes := fun i =>
  match i / 2048 with
  | 0 => stores [(4, 1024, 16), (4, 1028, 8), (4, 1036, 1), (4, 1048, 1), (4, 1056, 16384),
      (4, 1064, 16), (2, 1080, 0xEF53), (4, 1100, 1), (4, 1108, 11), (2, 1112, 128), (4, 1120, 2)]
      (i % 2048)
  | 1 => stores [(4, 0, 2), (4, 4, 3), (4, 8, 4), (2, 12, 1)] (i % 2048)
  | 2 => stores [(1, 0, 0xFE)] (i % 2048)
  | 3 => stores [(2, 0, 0xFFFF)] (i % 2048)
  | _ => 0

def freeZeroFs : Fs :=
  ⟨strictRuntime, ⟨512, 32, false, true⟩, 2048, 4, 8, 16, 0, 16384, 16, 128, true, false, 0, [⟨2, 3, 4⟩]⟩

def freeZeroKind (b : Nat) : Kind :=
  if b = 0 then .superblock else if b = 1 then .descriptors 0 else if b = 2 then .blockBitmap 0
  else if b = 3 then .inodeBitmap 0 else if b = 4 then .inodeTable 0 0
  else if b < 8 then .data else .reserved

theorem sector_dvd_kib : 512 ∣ 1024 := by decide

theorem rootIno_lt_eleven : rootIno < 11 := by decide

def freeZeroVolume : Volume where
  toFs := freeZeroFs
  kind := freeZeroKind
  firstIno := 11
  wide_none _ _ := rfl
  blockSize_eq := ⟨1, rfl⟩
  sectorSize_dvd := sector_dvd_kib
  spb_mul := show 4 * 512 = 2048 by omega
  firstDataBlock_eq := show 0 = 1024 / 2048 by omega
  firstDataBlock_lt := show 0 < 8 by omega
  blocks_lt := show 8 < 2 ^ 32 by omega
  blocks_fit := show 8 * 4 ≤ 32 by omega
  blocksPerGroup_pos := show 0 < 16384 by omega
  blocksPerGroup_le := show 16384 ≤ 8 * 2048 by omega
  inodesPerGroup_pos := show 0 < 16 by omega
  inodesPerGroup_le := show 16 ≤ 8 * 2048 by omega
  groups_length := show 1 = (8 - 0 + (16384 - 1)) / 16384 by omega
  inodes_eq := rfl
  inodes_lt := show 16 < 2 ^ 32 by omega
  inodeSize_ge := show 128 ≤ 128 by omega
  inodeSize_dvd := show 128 ∣ 2048 by decide
  rootIno_lt := rootIno_lt_eleven
  kind_superblock := rfl
  kind_descriptors i hi := by
    replace hi : i < (1 * 32 + 2047) / 2048 := hi
    obtain rfl : i = 0 := by omega
    rfl
  kind_blockBitmap g hg := by
    obtain rfl : g = 0 := Nat.lt_one_iff.mp hg
    rfl
  kind_inodeBitmap g hg := by
    obtain rfl : g = 0 := Nat.lt_one_iff.mp hg
    rfl
  kind_inodeTable g hg i hi := by
    obtain rfl : g = 0 := Nat.lt_one_iff.mp hg
    replace hi : i < (16 * 128 + 2047) / 2048 := hi
    obtain rfl : i = 0 := by omega
    rfl
  kind_inRange b := by
    show freeZeroKind b ≠ .reserved → 0 ≤ b ∧ b < 8
    unfold freeZeroKind
    split_ifs <;> simp <;> omega

def freeZeroWorld : World := ⟨freeZeroDisk, 0, fun _ => 0, fun _ => false⟩

/-- Two blocks are asked for and one is free: it stays taken after the throw. -/
theorem not_allocBlocks_noop :
    Up freeZeroVolume.toFs freeZeroWorld ∧ Counted freeZeroVolume (freeZeroVolume.view freeZeroWorld.disk) ∧
      freeTotal freeZeroVolume (freeZeroVolume.view freeZeroWorld.disk) < 2 ∧
      thrown (allocBlocks freeZeroVolume.toFs 0 2 freeZeroWorld) = some (.fail .alloc .blocks .diskFull) ∧
      (freeZeroVolume.view freeZeroWorld.disk).blockBit 0 = false ∧
      (freeZeroVolume.view (final (allocBlocks freeZeroVolume.toFs 0 2 freeZeroWorld)).disk).blockBit 0 = true := by
  refine ⟨⟨fun _ => rfl, rfl, fun _ => show 0 < 2 ^ 32 by omega⟩, counted_of_groups ?_ ?_, ?_, ?_, ?_, ?_⟩
  · decide +kernel
  · decide +kernel
  · decide +kernel
  · decide +kernel
  · decide +kernel
  · decide +kernel

end Beeros.Ext2
