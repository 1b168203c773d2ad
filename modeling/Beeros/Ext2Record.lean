import Beeros.Ext2Build

/-! The updates of inode records that the code makes, each as a change of the inode in the record. -/

namespace Beeros.Ext2

open Memory Exec

/-! ### Stores into a record -/

section Store

variable {f : Fs} {i n a y : Nat} {m m' : Bytes}

/-- A change inside `i_block`. -/
theorem parse_block (h : AgreeOutside m m' iBlock (iBlock + 60)) : f.parse i m' =
    { f.parse i m with block := blockWords m', iBlock := ⟨60, window m' iBlock 60⟩ } := by
  have hload : ∀ n a, a + n ≤ iBlock ∨ iBlock + 60 ≤ a → loadLE m' n a = loadLE m n a :=
    fun n a ha => loadLE_congr (h.agreeOn ha)
  unfold Fs.parse
  simp (disch := decide) only [hload]

/-- Any other store leaves `i_block` alone. -/
theorem blockWords_store (h : iBlock + 60 ≤ a ∨ a + n ≤ iBlock) :
    blockWords (storeLE m n a y) = blockWords m ∧
      window (storeLE m n a y) iBlock 60 = window m iBlock 60 := by
  have hagree : AgreeOn m (storeLE m n a y) iBlock 60 := agreeOn_storeLE h
  refine ⟨List.map_congr_left fun k hk => ?_, window_congr hagree⟩
  have := List.mem_range.mp hk
  exact loadLE_congr (hagree.mono (by omega) (by omega))

theorem parse_links (hy : y < 256 ^ 2) :
    f.parse i (storeLE m 2 iLinks y) = { f.parse i m with links := y } := by
  obtain ⟨h1, h2⟩ := blockWords_store (m := m) (n := 2) (a := iLinks) (y := y) (by decide)
  unfold Fs.parse
  rw [h1, h2, loadLE_storeLE_of_lt hy]
  simp (disch := decide) only [loadLE_storeLE_of_disjoint]

theorem parse_sectors (hy : y < 256 ^ 4) :
    f.parse i (storeLE m 4 iBlocks y) = { f.parse i m with sectors := y } := by
  obtain ⟨h1, h2⟩ := blockWords_store (m := m) (n := 4) (a := iBlocks) (y := y) (by decide)
  unfold Fs.parse
  rw [h1, h2, loadLE_storeLE_of_lt hy]
  simp (disch := decide) only [loadLE_storeLE_of_disjoint]

theorem parse_mtime :
    f.parse i (storeLE m 4 iMtime y) = { f.parse i m with mtime := y % 256 ^ 4 } := by
  obtain ⟨h1, h2⟩ := blockWords_store (m := m) (n := 4) (a := iMtime) (y := y) (by decide)
  unfold Fs.parse
  rw [h1, h2, loadLE_storeLE]
  simp (disch := decide) only [loadLE_storeLE_of_disjoint]

/-- The stores that the inode does not show: `ctime`, `atime`, `dtime`, `extra_isize`. -/
theorem parse_other (ha : a = iCtime ∧ n = 4 ∨ a = iAtime ∧ n = 4 ∨ a = iDtime ∧ n = 4 ∨
    a = iExtraIsize ∧ n = 2) : f.parse i (storeLE m n a y) = f.parse i m := by
  obtain ⟨h1, h2⟩ := blockWords_store (m := m) (n := n) (a := a) (y := y) (by
    rcases ha with ⟨rfl, rfl⟩ | ⟨rfl, rfl⟩ | ⟨rfl, rfl⟩ | ⟨rfl, rfl⟩ <;> decide)
  unfold Fs.parse
  rw [h1, h2]
  rcases ha with ⟨rfl, rfl⟩ | ⟨rfl, rfl⟩ | ⟨rfl, rfl⟩ | ⟨rfl, rfl⟩ <;>
    simp (disch := decide) only [loadLE_storeLE_of_disjoint]

/-- The size of an inode that is not a regular file. -/
theorem parse_size (hy : y < 256 ^ 4) (ht : (f.parse i m).type ≠ .file) :
    f.parse i (storeLE m 4 iSize y) = { f.parse i m with size := y } := by
  have ht : modeType (loadLE m 2 iMode) ≠ .file := ht
  obtain ⟨h1, h2⟩ := blockWords_store (m := m) (n := 4) (a := iSize) (y := y) (by decide)
  unfold Fs.parse
  rw [h1, h2, loadLE_storeLE_of_lt hy]
  simp (disch := decide) only [loadLE_storeLE_of_disjoint]
  rw [if_neg fun h => ht h.1, Nat.zero_shiftLeft, Nat.zero_add]

/-- Both halves of the size of a file below 4 GiB. -/
theorem parse_sizes (hy : y < 256 ^ 4) :
    f.parse i (storeLE (storeLE m 4 iSize y) 4 iSizeHi 0) =
      { f.parse i m with size := y } := by
  obtain ⟨h1, h2⟩ := blockWords_store (m := storeLE m 4 iSize y) (n := 4) (a := iSizeHi) (y := 0)
    (by decide)
  obtain ⟨h3, h4⟩ := blockWords_store (m := m) (n := 4) (a := iSize) (y := y) (by decide)
  have hlo : loadLE (storeLE (storeLE m 4 iSize y) 4 iSizeHi 0) 4 iSize = y := by
    rw [loadLE_storeLE_of_disjoint (by decide), loadLE_storeLE_of_lt hy]
  have hhi : loadLE (storeLE (storeLE m 4 iSize y) 4 iSizeHi 0) 4 iSizeHi = 0 :=
    loadLE_storeLE_of_lt (by decide)
  unfold Fs.parse
  rw [h1, h2, h3, h4, hlo, hhi]
  simp (disch := decide) only [loadLE_storeLE_of_disjoint, ite_self, Nat.zero_shiftLeft,
    Nat.zero_add]

/-- The inode that `init-inode!` makes. -/
def freshInode (ino mode links t : Nat) : Inode where
  ino := ino
  mode := mode
  size := 0
  uid := 0
  gid := 0
  links := links
  mtime := t
  sectors := 0
  fileAcl := 0
  flags := 0
  block := List.replicate 15 0
  iBlock := ⟨60, fun _ => 0⟩

end Store

/-! ### Updates -/

variable {v : Volume} {x x' : Vol} {p : Nat} {i : Inode} {w w' : World} {u : Unit}

/-- The record of `p` has been changed so that it holds the inode `i`; nothing else differs. -/
def Updated (v : Volume) (x x' : Vol) (p : Nat) (i : Inode) : Prop :=
  ∃ m, x' = x.setInode p m ∧ v.parse p m = i

theorem Updated.node (h : Updated v x x' p i) : x'.node v.toFs p = i := by
  obtain ⟨m, rfl, rfl⟩ := h
  unfold Vol.node Vol.setInode
  simp only [Function.update_self]

theorem Updated.inode (h : Updated v x x' p i) {q : Nat} (hq : q ≠ p) : x'.inode q = x.inode q := by
  obtain ⟨m, rfl, rfl⟩ := h
  exact Function.update_of_ne hq _ _

theorem Updated.block (h : Updated v x x' p i) : x'.block = x.block := by
  obtain ⟨m, rfl, rfl⟩ := h
  rfl

theorem Updated.same (h : Updated v x x' p i) : x'.sb = x.sb ∧ x'.gd = x.gd ∧
    x'.blockBit = x.blockBit ∧ x'.inodeBit = x.inodeBit := by
  obtain ⟨m, rfl, rfl⟩ := h
  exact ⟨rfl, rfl, rfl, rfl⟩

theorem editsRecord_words {n : Nat} {blocks : List Nat} (hn : iBlock + 4 * blocks.length ≤ n) :
    EditsRecord n (fun b o => setBlockMap v.toFs b o blocks) (fun m m' =>
      AgreeOutside m m' iBlock (iBlock + 4 * blocks.length) ∧
        ∀ k < blocks.length, loadLE m' 4 (iBlock + 4 * k) = blocks.getD k 0) := by
  intro b o w b' w' h hb
  obtain ⟨rfl, hc, -, hout, hld⟩ := storeWords_ok h
  refine ⟨rfl, hc, hout.mono (by omega) (by omega), fun j hj => ?_, fun k hk => ?_⟩
  · unfold window
    split_ifs with hjn
    · exact hout _ (by omega)
    · rfl
  · rw [loadLE_window (by omega), ← Nat.add_assoc]
    exact hld k hk

theorem editsRecord_copy {n j k : Nat} {src : Buf} (hj : j + k ≤ n) :
    EditsRecord n (fun b o => copyBuf b (o + j) src 0 k)
      (fun m m' => m' = copy m j src.bytes 0 k) := by
  intro b o w b' w' h hb
  obtain ⟨-, rfl, rfl⟩ := copyBuf_ok.mp h
  exact ⟨rfl, rfl, agreeOutside_copy (by omega) (by omega), window_copy hj⟩

theorem editsRecord_fill {n : Nat} :
    EditsRecord n (fun b o => fillZero b o n) (fun _ m' => m' = fun _ => 0) := by
  intro b o w b' w' h hb
  obtain ⟨-, rfl, rfl⟩ := fillZero_ok.mp h
  exact ⟨rfl, rfl, agreeOutside_fill le_rfl le_rfl, window_fill⟩

theorem setTimes_edits {n : Nat} (hn : 128 ≤ n) : EditsRecord n (setTimes v.toFs)
    (fun m m' => ∃ t, ∀ ino, v.parse ino m' = { v.parse ino m with mtime := t }) := by
  have hm : iMtime + 4 ≤ n := le_trans (by decide) hn
  have hc : iCtime + 4 ≤ n := le_trans (by decide) hn
  intro b o w b' w' h hb
  obtain ⟨hd, hcap, hout, m1, ⟨t, rfl⟩, t', hm'⟩ :=
    ((editsRecord_now (v := v) hm).seq (editsRecord_now (v := v) hc)) (by
      simp only [bind_assoc]
      exact h) hb
  refine ⟨hd, hcap, hout, t % 256 ^ 4, fun ino => ?_⟩
  rw [hm', parse_other (.inl ⟨rfl, rfl⟩), parse_mtime]

/-- The inode of `p` with its times set. -/
theorem touch_ok (h : inodeUpdate v.toFs p (setTimes v.toFs) w = .ok u w') (hp : v.IsInode p) :
    ∃ t, Updated v (v.view w.disk) (v.view w'.disk) p
      { (v.view w.disk).node v.toFs p with mtime := t } := by
  obtain ⟨m, ⟨t, ht⟩, hview⟩ := inodeUpdate_ok (setTimes_edits v.inodeSize_ge) hp h
  exact ⟨t, m, hview, ht p⟩

theorem addLinks_ok {d : Int} (h : addLinks v.toFs p d w = .ok u w') (hp : v.IsInode p) :
    ∃ y : Nat, (y : Int) = ((v.view w.disk).node v.toFs p).links + d ∧
      Updated v (v.view w.disk) (v.view w'.disk) p
        { (v.view w.disk).node v.toFs p with links := y } := by
  have hn : iLinks + 2 ≤ v.inodeSize := le_trans (by decide) v.inodeSize_ge
  obtain ⟨m, ⟨y, hy, hlt, rfl⟩, hview⟩ := inodeUpdate_ok (editsRecord_addField hn) hp h
  exact ⟨y, hy, _, hview, parse_links hlt⟩

theorem setLinks_ok {d : Int} (h : setLinks v.toFs p d w = .ok u w') (hp : v.IsInode p) :
    0 ≤ d ∧ Updated v (v.view w.disk) (v.view w'.disk) p
      { (v.view w.disk).node v.toFs p with links := d.toNat } := by
  have hn : iLinks + 2 ≤ v.inodeSize := le_trans (by decide) v.inodeSize_ge
  obtain ⟨m, ⟨h0, hlt, rfl⟩, hview⟩ := inodeUpdate_ok (editsRecord_store hn) hp h
  refine ⟨h0, _, hview, parse_links ?_⟩
  exact (Int.toNat_lt h0).mpr (by exact_mod_cast hlt)

/-- The record update of `release-inode!`. -/
theorem clearLinks_ok (h : inodeUpdate v.toFs p (fun b o => do
      let b ← setU16 v.toFs b (o + iLinks) 0
      setU32 v.toFs b (o + iDtime) (← now)) w = .ok u w') (hp : v.IsInode p) :
    Updated v (v.view w.disk) (v.view w'.disk) p
      { (v.view w.disk).node v.toFs p with links := 0 } := by
  have hn : iLinks + 2 ≤ v.inodeSize := le_trans (by decide) v.inodeSize_ge
  have hd : iDtime + 4 ≤ v.inodeSize := le_trans (by decide) v.inodeSize_ge
  obtain ⟨m, ⟨m1, ⟨-, -, rfl⟩, t, rfl⟩, hview⟩ := inodeUpdate_ok
    ((editsRecord_store hn).seq (editsRecord_now hd)) hp h
  refine ⟨_, hview, ?_⟩
  rw [parse_other (.inr (.inr (.inl ⟨rfl, rfl⟩))), parse_links (by decide)]
  rfl

/-- The words of a block map that has been stored. -/
theorem blockWords_of_words {m : Bytes} {blocks : List Nat} (hlen : blocks.length = 15)
    (h : ∀ k < blocks.length, loadLE m 4 (iBlock + 4 * k) = blocks.getD k 0) :
    blockWords m = blocks := by
  unfold blockWords
  rw [← hlen]
  calc _ = (List.range blocks.length).map fun k => blocks.getD k 0 :=
        List.map_congr_left fun k hk => h k (List.mem_range.mp hk)
    _ = blocks := map_getD_range blocks

/-- The record update of `write-file!`. -/
theorem setContents_ok {bmap : List Nat} {size : Nat} {z : Int} (h : inodeUpdate v.toFs p (fun b o => do
      let b ← setBlockMap v.toFs b o bmap
      let b ← setU32 v.toFs b (o + iSize) (size % 2 ^ 32 : Nat)
      let b ← setU32 v.toFs b (o + iSizeHi) (size / 2 ^ 32 : Nat)
      let b ← setU32 v.toFs b (o + iBlocks) z
      setTimes v.toFs b o) w = .ok u w') (hp : v.IsInode p) (hlen : bmap.length = 15)
    (hsize : size < 2 ^ 32) :
    ∃ t a, 0 ≤ z ∧ Updated v (v.view w.disk) (v.view w'.disk) p
      { (v.view w.disk).node v.toFs p with
        block := bmap, size := size, sectors := z.toNat, mtime := t, iBlock := a } := by
  have hge := v.inodeSize_ge
  have hb : iBlock + 4 * bmap.length ≤ v.inodeSize := by
    rw [hlen]
    exact le_trans (by decide) hge
  have h1 : iSize + 4 ≤ v.inodeSize := le_trans (by decide) hge
  have h2 : iSizeHi + 4 ≤ v.inodeSize := le_trans (by decide) hge
  have h3 : iBlocks + 4 ≤ v.inodeSize := le_trans (by decide) hge
  obtain ⟨m, ⟨m1, ⟨hout, hwords⟩, m2, ⟨-, -, rfl⟩, m3, ⟨-, -, rfl⟩, m4, ⟨hz, hlt, rfl⟩, t, ht⟩,
    hview⟩ := inodeUpdate_ok ((editsRecord_words hb).seq ((editsRecord_store h1).seq
      ((editsRecord_store h2).seq ((editsRecord_store h3).seq (setTimes_edits hge))))) hp h
  refine ⟨t, ⟨60, window m1 iBlock 60⟩, hz, m, hview, ?_⟩
  rw [hlen] at hout
  have hsec : z.toNat < 256 ^ 4 := (Int.toNat_lt hz).mpr (by exact_mod_cast hlt)
  simp only [Int.toNat_natCast, Nat.mod_eq_of_lt hsize, Nat.div_eq_of_lt hsize] at ht
  rw [ht, parse_sectors hsec, parse_sizes hsize, parse_block hout, blockWords_of_words hlen hwords]
  rfl

/-- The record update of `add-entry!` for a directory that has grown. -/
theorem setGrown_ok {bmap : List Nat} {y z : Int} (h : inodeUpdate v.toFs p (fun b o => do
      let b ← setBlockMap v.toFs b o bmap
      let b ← setU32 v.toFs b (o + iSize) y
      setU32 v.toFs b (o + iBlocks) z) w = .ok u w') (hp : v.IsInode p) (hlen : bmap.length = 15)
    (ht : ((v.view w.disk).node v.toFs p).type ≠ .file) :
    ∃ a, 0 ≤ y ∧ 0 ≤ z ∧ Updated v (v.view w.disk) (v.view w'.disk) p
      { (v.view w.disk).node v.toFs p with
        block := bmap, size := y.toNat, sectors := z.toNat, iBlock := a } := by
  have hge := v.inodeSize_ge
  have hb : iBlock + 4 * bmap.length ≤ v.inodeSize := by
    rw [hlen]
    exact le_trans (by decide) hge
  have h1 : iSize + 4 ≤ v.inodeSize := le_trans (by decide) hge
  have h3 : iBlocks + 4 ≤ v.inodeSize := le_trans (by decide) hge
  obtain ⟨m, ⟨m1, ⟨hout, hwords⟩, m2, ⟨hy, hlty, rfl⟩, hz, hltz, rfl⟩, hview⟩ := inodeUpdate_ok
    ((editsRecord_words hb).seq ((editsRecord_store h1).seq (editsRecord_store h3))) hp h
  refine ⟨⟨60, window m1 iBlock 60⟩, hy, hz, _, hview, ?_⟩
  rw [hlen] at hout
  have hsec : z.toNat < 256 ^ 4 := (Int.toNat_lt hz).mpr (by exact_mod_cast hltz)
  have hsize : y.toNat < 256 ^ 4 := (Int.toNat_lt hy).mpr (by exact_mod_cast hlty)
  have hblock := parse_block (f := v.toFs) (i := p) hout
  have ht' : (v.parse p m1).type ≠ .file := by
    rw [hblock]
    exact ht
  rw [parse_sectors hsec, parse_size hsize ht', hblock, blockWords_of_words hlen hwords]
  rfl

/-- The first word of `i_block`. -/
theorem blockWords_first {m : Bytes} {y : Nat} (hy : y < 256 ^ 4) :
    blockWords (storeLE m 4 iBlock y) = y :: (blockWords m).tail := by
  unfold blockWords
  have hfirst : loadLE (storeLE m 4 iBlock y) 4 (iBlock + 4 * 0) = y := loadLE_storeLE_of_lt hy
  have hrest : ∀ k, loadLE (storeLE m 4 iBlock y) 4 (iBlock + 4 * (k + 1)) =
      loadLE m 4 (iBlock + 4 * (k + 1)) := fun k => loadLE_storeLE_of_disjoint (by omega)
  rw [List.range_succ_eq_map, List.map_cons, List.map_map, List.map_cons, List.tail_cons,
    List.map_map, hfirst]
  exact congrArg (y :: ·) (List.map_congr_left fun k _ => hrest k)

/-- The record update of `mkdir!` and of a long `symlink!`: one block, on a new inode. -/
theorem setOneBlock_ok {blk : Nat} {y z : Int} (h : inodeUpdate v.toFs p (fun b o => do
      let b ← setU32 v.toFs b (o + iBlock) blk
      let b ← setU32 v.toFs b (o + iSize) y
      setU32 v.toFs b (o + iBlocks) z) w = .ok u w') (hp : v.IsInode p)
    (ht : ((v.view w.disk).node v.toFs p).type ≠ .file) :
    ∃ a, 0 ≤ y ∧ 0 ≤ z ∧ Updated v (v.view w.disk) (v.view w'.disk) p
      { (v.view w.disk).node v.toFs p with
        block := blk :: ((v.view w.disk).node v.toFs p).block.tail
        size := y.toNat, sectors := z.toNat, iBlock := a } := by
  have hge := v.inodeSize_ge
  have hb : iBlock + 4 ≤ v.inodeSize := le_trans (by decide) hge
  have h1 : iSize + 4 ≤ v.inodeSize := le_trans (by decide) hge
  have h3 : iBlocks + 4 ≤ v.inodeSize := le_trans (by decide) hge
  obtain ⟨m, ⟨m1, ⟨-, hblk, rfl⟩, m2, ⟨hy, hlty, rfl⟩, hz, hltz, rfl⟩, hview⟩ := inodeUpdate_ok
    ((editsRecord_store hb).seq ((editsRecord_store h1).seq (editsRecord_store h3))) hp h
  rw [Int.toNat_natCast] at hview
  have hsec : z.toNat < 256 ^ 4 := (Int.toNat_lt hz).mpr (by exact_mod_cast hltz)
  have hsize : y.toNat < 256 ^ 4 := (Int.toNat_lt hy).mpr (by exact_mod_cast hlty)
  have hout : AgreeOutside ((v.view w.disk).inode p) (storeLE ((v.view w.disk).inode p) 4 iBlock
      blk) iBlock (iBlock + 60) := agreeOutside_storeLE le_rfl (by omega)
  have hblock := parse_block (f := v.toFs) (i := p) hout
  have ht' : (v.parse p (storeLE ((v.view w.disk).inode p) 4 iBlock blk)).type ≠ .file := by
    rw [hblock]
    exact ht
  refine ⟨⟨60, window (storeLE ((v.view w.disk).inode p) 4 iBlock blk) iBlock 60⟩, hy, hz, _, hview,
    ?_⟩
  rw [parse_sectors hsec, parse_size hsize ht', hblock, blockWords_first (by exact_mod_cast hblk)]
  rfl

/-- The record update of a short `symlink!`. -/
theorem setTarget_ok {tb : Buf} {n : Nat} (h : inodeUpdate v.toFs p (fun b o => do
      let b ← copyBuf b (o + iBlock) tb 0 n
      setU32 v.toFs b (o + iSize) n) w = .ok u w') (hp : v.IsInode p) (hn : n < 60)
    (ht : ((v.view w.disk).node v.toFs p).type ≠ .file) :
    ∃ a l, (∀ j < n, a.bytes j = tb.bytes j) ∧ Updated v (v.view w.disk) (v.view w'.disk) p
      { (v.view w.disk).node v.toFs p with size := n, block := l, iBlock := a } := by
  have hge := v.inodeSize_ge
  have hb : iBlock + n ≤ v.inodeSize := by
    have : iBlock + 60 ≤ v.inodeSize := le_trans (by decide) hge
    omega
  have h1 : iSize + 4 ≤ v.inodeSize := le_trans (by decide) hge
  obtain ⟨m, ⟨m1, rfl, -, -, rfl⟩, hview⟩ := inodeUpdate_ok
    ((editsRecord_copy hb).seq (editsRecord_store h1)) hp h
  have hout : AgreeOutside ((v.view w.disk).inode p) (copy ((v.view w.disk).inode p) iBlock
      tb.bytes 0 n) iBlock (iBlock + 60) := agreeOutside_copy le_rfl (by omega)
  have hblock := parse_block (f := v.toFs) (i := p) hout
  have ht' : (v.parse p (copy ((v.view w.disk).inode p) iBlock tb.bytes 0 n)).type ≠ .file := by
    rw [hblock]
    exact ht
  rw [Int.toNat_natCast] at hview
  refine ⟨⟨60, window (copy ((v.view w.disk).inode p) iBlock tb.bytes 0 n) iBlock 60⟩,
    blockWords (copy ((v.view w.disk).inode p) iBlock tb.bytes 0 n), fun j hj => ?_, _, hview, ?_⟩
  · show window (copy ((v.view w.disk).inode p) iBlock tb.bytes 0 n) iBlock 60 j = _
    unfold window copy
    rw [if_pos (by omega), if_pos (by omega), Nat.zero_add, Nat.add_sub_cancel_left]
  · rw [parse_size (hn.trans (by decide)) ht', hblock]
    rfl

theorem loadLE_zero (n a : Nat) : loadLE (fun _ => 0) n a = 0 := by
  induction n generalizing a with
  | zero => rfl
  | succ n ih => simp [loadLE, ih]

theorem parse_fresh {fs : Fs} {ino mode : Nat} (hmode : mode < 256 ^ 2) :
    fs.parse ino (storeLE (fun _ => 0) 2 iMode mode) = freshInode ino mode 0 0 := by
  obtain ⟨h1, h2⟩ := blockWords_store (m := fun _ => 0) (n := 2) (a := iMode) (y := mode) (by decide)
  have hwords : blockWords (fun _ => 0) = List.replicate 15 0 := by
    unfold blockWords
    rw [List.map_congr_left (g := fun _ => 0) fun k _ => loadLE_zero _ _, List.map_const',
      List.length_range]
  have hwin : window (fun _ => 0) iBlock 60 = fun _ => 0 := by
    funext j
    unfold window
    split_ifs <;> rfl
  unfold Fs.parse freshInode
  rw [h1, h2, hwords, hwin, loadLE_storeLE_of_lt hmode]
  simp (disch := decide) only [loadLE_storeLE_of_disjoint, loadLE_zero, ite_self,
    Nat.zero_shiftLeft, Nat.zero_add]

/-- A record of more than 128 bytes has at least 256. -/
theorem extraIsize_le (h : v.inodeSize > 128) : iExtraIsize + 2 ≤ v.inodeSize := by
  have hne : v.inodeSize ≠ 129 := by
    intro heq
    obtain ⟨k, hk⟩ := v.bs_eq
    have hdvd := v.inodeSize_dvd
    rw [heq, hk, show 1024 * 2 ^ k = 2 ^ (10 + k) by rw [Nat.pow_add]] at hdvd
    exact absurd ((Nat.Coprime.pow_right _ (by decide : Nat.Coprime 129 2)).eq_one_of_dvd hdvd)
      (by decide)
  unfold iExtraIsize
  omega

theorem initInode_ok {mode links : Nat} (h : initInode v.toFs p mode links w = .ok u w')
    (hp : v.IsInode p) :
    ∃ t, Updated v (v.view w.disk) (v.view w'.disk) p (freshInode p mode links t) := by
  have hge := v.inodeSize_ge
  unfold initInode at h
  obtain ⟨t, w1, h1, h⟩ := bind_ok.mp h
  have hd1 := now_disk h1
  obtain ⟨sb, w2, h2, h⟩ := bind_ok.mp h
  obtain ⟨hd2, rfl⟩ := readSuperblock_ok h2
  obtain ⟨want, w3, h3, h4⟩ := bind_ok.mp h
  obtain ⟨-, -, rfl⟩ := load_ok.mp h3
  have e1 : iMode + 2 ≤ v.inodeSize := le_trans (by decide) hge
  have e2 : iLinks + 2 ≤ v.inodeSize := le_trans (by decide) hge
  have e3 : iAtime + 4 ≤ v.inodeSize := le_trans (by decide) hge
  have e4 : iCtime + 4 ≤ v.inodeSize := le_trans (by decide) hge
  have e5 : iMtime + 4 ≤ v.inodeSize := le_trans (by decide) hge
  -- the last store is there for records of more than 128 bytes only
  have hlast : EditsRecord v.inodeSize (fun b o => if v.inodeSize > 128 then
      setU16 v.toFs b (o + iExtraIsize) (if want > 0 then want else 32) else pure b)
      (fun m m' => ∀ ino, v.parse ino m' = v.parse ino m) := by
    intro b o w b' w' h hb
    simp only at h
    by_cases hbig : v.inodeSize > 128
    · rw [if_pos hbig] at h
      obtain ⟨hd, hc, ha, -, -, hm⟩ := editsRecord_store (extraIsize_le hbig) h hb
      exact ⟨hd, hc, ha, fun ino => by rw [hm, parse_other (.inr (.inr (.inr ⟨rfl, rfl⟩)))]⟩
    · rw [if_neg hbig] at h
      obtain ⟨rfl, rfl⟩ := pure_ok.mp h
      exact ⟨rfl, rfl, fun _ _ => rfl, fun _ => rfl⟩
  obtain ⟨m, ⟨m0, rfl, m1, ⟨-, hmode, rfl⟩, m2, ⟨-, hlinks, rfl⟩, m3, ⟨-, -, rfl⟩, m4, ⟨-, -, rfl⟩,
    m5, ⟨-, -, rfl⟩, hm⟩, hview⟩ := inodeUpdate_ok (editsRecord_fill.seq
      ((editsRecord_store e1).seq ((editsRecord_store e2).seq ((editsRecord_store e3).seq
        ((editsRecord_store e4).seq ((editsRecord_store e5).seq hlast)))))) hp h4
  rw [hd2, hd1] at hview
  refine ⟨t % 256 ^ 4, m, hview, ?_⟩
  simp only [Int.toNat_natCast] at hm
  rw [hm, parse_mtime, parse_other (.inl ⟨rfl, rfl⟩), parse_other (.inr (.inl ⟨rfl, rfl⟩)),
    parse_links (by exact_mod_cast hlinks), parse_fresh (by exact_mod_cast hmode)]
  rfl

end Beeros.Ext2
