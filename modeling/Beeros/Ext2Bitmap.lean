import Beeros.Ext2Blocks
import Mathlib.Algebra.BigOperators.Group.Finset.Basic
import Mathlib.Data.Finset.Card
import Mathlib.Data.Nat.Bitwise
import Mathlib.Tactic.IntervalCases

/-! Allocation: the bitmap scans and the operations over them, as changes of the view. `Taken` says
that some blocks have been marked used with the counters moved along; freeing is the same relation
the other way round. -/

namespace Beeros.Ext2

open Memory Exec

/-! ### Bits of a buffer -/

def bufBit (b : Buf) (i : Nat) : Bool := (b.bytes (i / 8)).toNat.testBit (i % 8)

theorem loadLE_one (m : Bytes) (o : Nat) : loadLE m 1 o = (m o).toNat := by
  simp [loadLE]

theorem and_one_shiftLeft_ne_zero (x k : Nat) : (x &&& 1 <<< k ≠ 0) ↔ x.testBit k = true := by
  rw [Nat.one_shiftLeft, Nat.and_two_pow]
  cases x.testBit k <;> simp

theorem testBit_ok {buf : Buf} {i : Nat} {r : Bool} {w w' : World} :
    testBit buf i w = .ok r w' ↔ i / 8 + 1 ≤ buf.capacity ∧ r = bufBit buf i ∧ w = w' := by
  unfold testBit
  rw [bind_ok]
  constructor
  · rintro ⟨x, t, hx, h⟩
    obtain ⟨hc, rfl, rfl⟩ := load_ok.mp hx
    obtain ⟨rfl, rfl⟩ := pure_ok.mp h
    refine ⟨hc, ?_, rfl⟩
    rw [loadLE_one, bufBit, Bool.eq_iff_iff, decide_eq_true_iff]
    exact and_one_shiftLeft_ne_zero _ _
  · rintro ⟨hc, rfl, rfl⟩
    refine ⟨_, w, load_ok.mpr ⟨hc, rfl, rfl⟩, ?_⟩
    rw [pure_ok, loadLE_one, bufBit, Bool.eq_iff_iff, decide_eq_true_iff]
    exact ⟨and_one_shiftLeft_ne_zero _ _, rfl⟩

/-- Byte `i / 8` with bit `i` set or cleared. -/
theorem testBit_masked (x i j : Nat) (on : Bool) (hj : j < 8) :
    (if on then x ||| 1 <<< i else x &&& (0xFF ^^^ 1 <<< i)).testBit j =
      if j = i then on else x.testBit j := by
  have h255 : (0xFF : Nat).testBit j = true := by
    interval_cases j <;> rfl
  cases on with
  | true =>
      simp only [if_true, Nat.testBit_or, Nat.one_shiftLeft, Nat.testBit_two_pow]
      by_cases h : j = i
      · simp [h]
      · simp [h, Ne.symm h]
  | false =>
      simp only [Bool.false_eq_true, if_false, Nat.testBit_and, Nat.testBit_xor, h255,
        Nat.one_shiftLeft, Nat.testBit_two_pow]
      by_cases h : j = i
      · simp [h]
      · simp [h, Ne.symm h]

theorem setBit_ok {v : Volume} {buf r : Buf} {i : Nat} {on : Bool} {w w' : World}
    (h : setBit v.toFs buf i on w = .ok r w') :
    w = w' ∧ r.capacity = buf.capacity ∧ ∀ j, bufBit r j = if j = i then on else bufBit buf j := by
  unfold setBit at h
  obtain ⟨x, t, hx, h⟩ := bind_ok.mp h
  obtain ⟨hc, rfl, rfl⟩ := load_ok.mp hx
  obtain ⟨-, h0, hlt, rfl, rfl⟩ := store_ok.mp h
  refine ⟨rfl, rfl, fun j => ?_⟩
  rw [loadLE_one] at h0 hlt ⊢
  unfold bufBit
  simp only [storeLE]
  by_cases hj : j / 8 = i / 8
  · rw [if_pos (by omega), hj, Nat.sub_self, byteLE, pow_zero, Nat.div_one]
    have hval : ∀ y : Nat, (y : Int) < 256 ^ 1 → (UInt8.ofNat y).toNat = y := by
      intro y hy
      rw [UInt8.toNat_ofNat', Nat.mod_eq_of_lt]
      exact_mod_cast hy
    have hbit := testBit_masked (buf.bytes (i / 8)).toNat (i % 8) (j % 8) on
      (Nat.mod_lt _ (by omega))
    have hji : (j % 8 = i % 8) = (j = i) := by
      apply propext
      omega
    simp only [hji] at hbit
    cases on with
    | true =>
        simp only [if_true, Int.toNat_natCast] at hlt hbit ⊢
        rw [hval _ hlt, hbit]
    | false =>
        simp only [Bool.false_eq_true, if_false, Int.toNat_natCast] at hlt hbit ⊢
        rw [hval _ hlt, hbit]
  · rw [if_neg (by omega), if_neg (by rintro rfl; exact hj rfl)]

theorem bufBit_of_full {bm : Buf} {i j : Nat} (h : (bm.bytes (i / 8)).toNat = 0xFF)
    (hj : j / 8 = i / 8) : bufBit bm j = true := by
  unfold bufBit
  rw [hj, h]
  have : j % 8 < 8 := Nat.mod_lt _ (by omega)
  interval_cases j % 8 <;> rfl

/-! ### The scans -/

/-- What `scanBits` returns: the indices taken, in order, were clear, and there are no more than asked
for; when there are fewer, no bit is left clear. -/
structure Scanned (i limit n k : Nat) (bm bm' : Buf) (idx : List Nat) : Prop where
  capacity : bm'.capacity = bm.capacity
  nodup : idx.Nodup
  clear : ∀ j ∈ idx, i ≤ j ∧ j < limit ∧ bufBit bm j = false
  bits : ∀ j, bufBit bm' j = (bufBit bm j || decide (j ∈ idx))
  le : k ≤ n → k + idx.length ≤ n
  full : k + idx.length < n → ∀ j, i ≤ j → j < limit → bufBit bm' j = true

theorem scanned_nil {i limit n k : Nat} {bm : Buf} (h : i ≥ limit ∨ k ≥ n) :
    Scanned i limit n k bm bm [] where
  capacity := rfl
  nodup := List.nodup_nil
  clear := nofun
  bits := by simp
  le := by simp
  full := by
    intro hlt j hi hj
    simp only [List.length_nil, Nat.add_zero] at hlt
    omega

/-- Bits that are set are passed over. -/
theorem Scanned.skip {i i' limit n k : Nat} {bm bm' : Buf} {idx : List Nat}
    (h : Scanned i' limit n k bm bm' idx) (hi : i ≤ i')
    (hset : ∀ j, i ≤ j → j < i' → bufBit bm j = true) : Scanned i limit n k bm bm' idx where
  capacity := h.capacity
  nodup := h.nodup
  clear j hj := ⟨hi.trans (h.clear j hj).1, (h.clear j hj).2⟩
  bits := h.bits
  le := h.le
  full := by
    intro hlt j hij hj
    by_cases hlow : j < i'
    · rw [h.bits, hset j hij hlow, Bool.true_or]
    · exact h.full hlt j (not_lt.mp hlow) hj

/-- A clear bit is taken. -/
theorem Scanned.take {i limit n k : Nat} {bm bm1 bm' : Buf} {idx : List Nat}
    (h : Scanned (i + 1) limit n (k + 1) bm1 bm' idx) (hi : i < limit) (hk : k < n)
    (hclear : bufBit bm i = false) (hcap : bm1.capacity = bm.capacity)
    (hbm : ∀ j, bufBit bm1 j = if j = i then true else bufBit bm j) :
    Scanned i limit n k bm bm' (i :: idx) where
  capacity := h.capacity.trans hcap
  nodup := by
    refine List.nodup_cons.mpr ⟨fun hmem => ?_, h.nodup⟩
    have := (h.clear i hmem).1
    omega
  clear := by
    intro j hj
    rcases List.mem_cons.mp hj with rfl | hj
    · exact ⟨le_rfl, hi, hclear⟩
    · obtain ⟨h1, h2, h3⟩ := h.clear j hj
      rw [hbm, if_neg (by omega)] at h3
      exact ⟨by omega, h2, h3⟩
  bits := by
    intro j
    rw [h.bits, hbm]
    by_cases hj : j = i
    · simp [hj]
    · simp [hj]
  le := by
    intro _
    have := h.le hk
    simp only [List.length_cons]
    omega
  full := by
    intro hlt j hij hj
    simp only [List.length_cons] at hlt
    by_cases he : j = i
    · rw [h.bits, hbm, if_pos he, Bool.true_or]
    · exact h.full (by omega) j (by omega) hj

theorem scanBits_ok {v : Volume} {base limit n k fuel i : Nat} {bm : Buf} {got : List Nat}
    {r : Buf × List Nat} {w w' : World} (hfuel : limit ≤ i + fuel)
    (h : scanBits v.toFs base limit n k fuel i bm got w = .ok r w') :
    w = w' ∧ ∃ idx, r.2 = got ++ idx.map (base + ·) ∧
      Scanned i limit n (k + got.length) bm r.1 idx := by
  induction fuel generalizing i bm got with
  | zero =>
      obtain ⟨rfl, rfl⟩ := pure_ok.mp h
      exact ⟨rfl, [], by simp, scanned_nil (Or.inl (by omega))⟩
  | succ fuel ih =>
      unfold scanBits at h
      split_ifs at h with hstop
      · obtain ⟨rfl, rfl⟩ := pure_ok.mp h
        exact ⟨rfl, [], by simp, scanned_nil hstop⟩
      · push Not at hstop
        obtain ⟨x, w1, hx, h⟩ := bind_ok.mp h
        obtain ⟨-, rfl, rfl⟩ := load_ok.mp hx
        rw [loadLE_one] at h
        split_ifs at h with hfull
        · -- a full byte: on to the next one
          obtain ⟨hw, idx, hr, hs⟩ := ih (by omega) h
          refine ⟨hw, idx, hr, hs.skip (by omega) fun j hij hj => ?_⟩
          exact bufBit_of_full hfull (by omega)
        · obtain ⟨used, w2, hu, h⟩ := bind_ok.mp h
          obtain ⟨-, rfl, rfl⟩ := testBit_ok.mp hu
          split_ifs at h with hbit
          · obtain ⟨hw, idx, hr, hs⟩ := ih (by omega) h
            refine ⟨hw, idx, hr, hs.skip (by omega) fun j hij hj => ?_⟩
            obtain rfl : j = i := by omega
            exact hbit
          · obtain ⟨bm1, w3, hb, h⟩ := bind_ok.mp h
            obtain ⟨rfl, hcap, hbits⟩ := setBit_ok hb
            obtain ⟨hw, idx, hr, hs⟩ := ih (by omega) h
            rw [List.length_append, List.length_singleton, ← Nat.add_assoc] at hs
            refine ⟨hw, i :: idx, ?_, hs.take hstop.1 hstop.2 (by simpa using hbit) hcap hbits⟩
            rw [hr, List.append_assoc]
            rfl

theorem scanInodes_ok {fs : Fs} {bm : Buf} {g fi fuel i : Nat} {r : Option Nat} {w w' : World}
    (h : scanInodes fs bm g fi fuel i w = .ok r w') :
    w = w' ∧ ∀ j, r = some j → j < fs.inodesPerGroup ∧ bufBit bm j = false ∧
      fi ≤ 1 + j + g * fs.inodesPerGroup := by
  induction fuel generalizing i with
  | zero =>
      obtain ⟨rfl, rfl⟩ := pure_ok.mp h
      exact ⟨rfl, nofun⟩
  | succ fuel ih =>
      unfold scanInodes at h
      split_ifs at h with hstop
      · obtain ⟨rfl, rfl⟩ := pure_ok.mp h
        exact ⟨rfl, nofun⟩
      · obtain ⟨used, w1, hu, h⟩ := bind_ok.mp h
        obtain ⟨-, rfl, rfl⟩ := testBit_ok.mp hu
        split_ifs at h with hskip
        · exact ih h
        · obtain ⟨rfl, rfl⟩ := pure_ok.mp h
          refine ⟨rfl, ?_⟩
          rintro j ⟨⟩
          push Not at hskip
          exact ⟨not_le.mp hstop, by simpa using hskip.1, hskip.2⟩

/-! ### Bitmaps on the disk -/

section Volume

variable {v : Volume}

theorem bufBit_blockBuf {d : Bytes} {blk i : Nat} (hi : i < 8 * v.blockSize) :
    bufBit (blockBuf v d blk) i = v.bitAt d blk i := by
  unfold bufBit blockBuf Volume.bitAt
  simp only
  rw [window_apply (by omega)]

theorem bitAt_write {blk i : Nat} {bm : Buf} {w w' : World} {u : Unit}
    (h : writeBlock v.toFs blk bm w = .ok u w') (hi : i < 8 * v.blockSize) :
    v.bitAt w'.disk blk i = bufBit bm i := by
  have hw := congrFun (writeBlock_window h) (i / 8)
  rw [window_apply (by omega), window_apply (by omega), Nat.zero_add] at hw
  unfold Volume.bitAt bufBit
  rw [hw]

theorem writeBlock_blockBitmap {g : Nat} {bm : Buf} {w w' : World} {u : Unit}
    (hg : g < v.groups.length) (h : writeBlock v.toFs (v.group g).blockBitmap bm w = .ok u w') :
    v.view w'.disk = (v.view w.disk).setBlockBits fun b =>
      if v.InRange b ∧ v.blockGroup b = g then bufBit bm (v.blockIndex b)
      else (v.view w.disk).blockBit b := by
  obtain ⟨hview, hother⟩ := Volume.view_blockBitmap hg (writeBlock_agree h)
  rw [hview]
  unfold Vol.setBlockBits
  congr 1
  funext b
  split_ifs with hb
  · have hi := (v.blockIndex_lt b).trans_le v.blocksPerGroup_le
    simp only [Volume.view, hb.1, hb.2, bitAt_write h hi, decide_true, Bool.true_and]
  · by_cases hr : v.InRange b
    · exact hother b fun hbg => hb ⟨hr, hbg⟩
    · simp [Volume.view, hr]

theorem writeBlock_inodeBitmap {g : Nat} {bm : Buf} {w w' : World} {u : Unit}
    (hg : g < v.groups.length) (h : writeBlock v.toFs (v.group g).inodeBitmap bm w = .ok u w') :
    v.view w'.disk = (v.view w.disk).setInodeBits fun i =>
      if v.IsInode i ∧ v.inodeGroup i = g then bufBit bm (v.inodeIndex i)
      else (v.view w.disk).inodeBit i := by
  obtain ⟨hview, hother⟩ := Volume.view_inodeBitmap hg (writeBlock_agree h)
  rw [hview]
  unfold Vol.setInodeBits
  congr 1
  funext i
  split_ifs with hi
  · have hlt := (v.inodeIndex_lt i).trans_le v.inodesPerGroup_le
    simp only [Volume.view, hi.1, hi.2, bitAt_write h hlt, decide_true, Bool.true_and]
  · by_cases hr : v.IsInode i
    · exact hother i fun hig => hi ⟨hr, hig⟩
    · simp [Volume.view, hr]

/-- Reading a bitmap block that is really one. -/
theorem readBlock_meta {b : Nat} {r : Buf} {w w' : World} (h : readBlock v.toFs b w = .ok r w')
    (hk : v.kind b ≠ .reserved) (hk' : v.kind b ≠ .superblock) :
    w'.disk = w.disk ∧ r = blockBuf v w.disk b := by
  obtain ⟨hw, hr⟩ := readBlock_ok h
  rw [if_neg (v.ne_zero_of_kind hk hk')] at hr
  exact ⟨hw, hr⟩

theorem blockBit_eq {b : Nat} (d : Bytes) (hb : v.InRange b) : (v.view d).blockBit b =
    bufBit (blockBuf v d (v.group (v.blockGroup b)).blockBitmap) (v.blockIndex b) := by
  rw [bufBit_blockBuf ((v.blockIndex_lt b).trans_le v.blocksPerGroup_le)]
  simp [Volume.view, hb]

theorem inodeBit_eq {i : Nat} (d : Bytes) (hi : v.IsInode i) : (v.view d).inodeBit i =
    bufBit (blockBuf v d (v.group (v.inodeGroup i)).inodeBitmap) (v.inodeIndex i) := by
  rw [bufBit_blockBuf ((v.inodeIndex_lt i).trans_le v.inodesPerGroup_le)]
  simp [Volume.view, hi]

end Volume

/-! ### Blocks taken and given back -/

/-- The blocks of `l` were clear in `x` and are marked in `x'`, with the counters moved along;
nothing else differs. -/
structure Taken (v : Volume) (x x' : Vol) (l : List Nat) : Prop where
  nodup : l.Nodup
  clear : ∀ b ∈ l, v.InRange b ∧ x.blockBit b = false
  blockBit : ∀ b, x'.blockBit b = (x.blockBit b || decide (b ∈ l))
  freeBlocks : ∀ g, x.freeBlocks g = x'.freeBlocks g + l.countP fun b => v.blockGroup b = g
  sbFreeBlocks : x.sbFreeBlocks = x'.sbFreeBlocks + l.length
  freeInodes : x'.freeInodes = x.freeInodes
  usedDirs : x'.usedDirs = x.usedDirs
  sbFreeInodes : x'.sbFreeInodes = x.sbFreeInodes
  sbStatic : x'.sbStatic = x.sbStatic
  gdStatic : x'.gdStatic = x.gdStatic
  inodeBit : x'.inodeBit = x.inodeBit
  inode : x'.inode = x.inode
  block : x'.block = x.block

section Taken

variable {v : Volume} {x x' x'' : Vol} {l l' : List Nat}

theorem taken_refl (v : Volume) (x : Vol) : Taken v x x [] :=
  ⟨List.nodup_nil, nofun, by simp, by simp, by simp, rfl, rfl, rfl, rfl, rfl, rfl, rfl, rfl⟩

theorem Taken.trans (h : Taken v x x' l) (h' : Taken v x' x'' l') : Taken v x x'' (l ++ l') where
  nodup := by
    rw [List.nodup_append]
    refine ⟨h.nodup, h'.nodup, fun a ha b hb hab => ?_⟩
    have hbit := (h'.clear b hb).2
    rw [h.blockBit, ← hab, decide_eq_true ha, Bool.or_true] at hbit
    cases hbit
  clear := by
    intro b hb
    rcases List.mem_append.mp hb with hb | hb
    · exact h.clear b hb
    · obtain ⟨hr, hbit⟩ := h'.clear b hb
      rw [h.blockBit, Bool.or_eq_false_iff] at hbit
      exact ⟨hr, hbit.1⟩
  blockBit := by
    intro b
    rw [h'.blockBit, h.blockBit, Bool.or_assoc]
    simp [List.mem_append]
  freeBlocks := by
    intro g
    rw [h.freeBlocks, h'.freeBlocks, List.countP_append]
    omega
  sbFreeBlocks := by
    rw [h.sbFreeBlocks, h'.sbFreeBlocks, List.length_append]
    omega
  freeInodes := h'.freeInodes.trans h.freeInodes
  usedDirs := h'.usedDirs.trans h.usedDirs
  sbFreeInodes := h'.sbFreeInodes.trans h.sbFreeInodes
  sbStatic := h'.sbStatic.trans h.sbStatic
  gdStatic := h'.gdStatic.trans h.gdStatic
  inodeBit := h'.inodeBit.trans h.inodeBit
  inode := h'.inode.trans h.inode
  block := h'.block.trans h.block

theorem Taken.perm (h : Taken v x x' l) (hp : l.Perm l') : Taken v x x' l' :=
  { h with
    nodup := hp.nodup_iff.mp h.nodup
    clear := fun b hb => h.clear b (hp.mem_iff.mpr hb)
    blockBit := fun b => by rw [h.blockBit, decide_eq_decide.mpr hp.mem_iff]
    freeBlocks := fun g => by rw [h.freeBlocks, hp.countP_eq]
    sbFreeBlocks := by rw [h.sbFreeBlocks, hp.length_eq] }

end Taken

/-- One group's part of an allocation: bits set in its bitmap and the counters lowered. -/
theorem taken_of_group {v : Volume} {x x' : Vol} {g : Nat} {l : List Nat} {f : Nat → Bool}
    (hnodup : l.Nodup)
    (hclear : ∀ b ∈ l, v.InRange b ∧ v.blockGroup b = g ∧ x.blockBit b = false)
    (hf : ∀ b, f b = (x.blockBit b || decide (b ∈ l)))
    (hc : CountsMoved (x.setBlockBits f) x' g (-l.length) 0 0) : Taken v x x' l := by
  have hcount : ∀ k, l.countP (fun b => v.blockGroup b = k) = if k = g then l.length else 0 := by
    intro k
    split_ifs with hk
    · exact List.countP_eq_length.mpr fun b hb => by simp [(hclear b hb).2.1, hk]
    · exact List.countP_eq_zero.mpr fun b hb => by simp [(hclear b hb).2.1, Ne.symm hk]
  refine ⟨hnodup, fun b hb => ⟨(hclear b hb).1, (hclear b hb).2.2⟩, ?_, ?_, ?_, ?_, ?_, ?_,
    hc.sbStatic, hc.gdStatic, hc.inodeBit, hc.inode, hc.block⟩
  · intro b
    rw [hc.blockBit, ← hf]
    rfl
  · intro k
    have h : (x'.freeBlocks k : Int) = x.freeBlocks k + _ := hc.freeBlocks k
    rw [hcount]
    split_ifs at h ⊢ <;> omega
  · have h : (x'.sbFreeBlocks : Int) = x.sbFreeBlocks + _ := hc.sbFreeBlocks
    omega
  · funext k
    have h : (x'.freeInodes k : Int) = x.freeInodes k + _ := hc.freeInodes k
    split_ifs at h <;> omega
  · funext k
    have h : (x'.usedDirs k : Int) = x.usedDirs k + _ := hc.usedDirs k
    split_ifs at h <;> omega
  · have h : (x'.sbFreeInodes : Int) = x.sbFreeInodes + _ := hc.sbFreeInodes
    omega

/-- The same for giving blocks back. -/
theorem taken_of_free_group {v : Volume} {x x' : Vol} {g : Nat} {l : List Nat} {f : Nat → Bool}
    (hnodup : l.Nodup)
    (hset : ∀ b ∈ l, v.InRange b ∧ v.blockGroup b = g ∧ x.blockBit b = true)
    (hf : ∀ b, f b = (x.blockBit b && !decide (b ∈ l)))
    (hc : CountsMoved (x.setBlockBits f) x' g l.length 0 0) : Taken v x' x l := by
  have hcount : ∀ k, l.countP (fun b => v.blockGroup b = k) = if k = g then l.length else 0 := by
    intro k
    split_ifs with hk
    · exact List.countP_eq_length.mpr fun b hb => by simp [(hset b hb).2.1, hk]
    · exact List.countP_eq_zero.mpr fun b hb => by simp [(hset b hb).2.1, Ne.symm hk]
  have hbit : ∀ b, x'.blockBit b = (x.blockBit b && !decide (b ∈ l)) := by
    intro b
    rw [hc.blockBit, ← hf]
    rfl
  refine ⟨hnodup, ?_, ?_, ?_, ?_, ?_, ?_, ?_, hc.sbStatic.symm, hc.gdStatic.symm,
    hc.inodeBit.symm, hc.inode.symm, hc.block.symm⟩
  · intro b hb
    refine ⟨(hset b hb).1, ?_⟩
    simp [hbit, hb]
  · intro b
    rw [hbit]
    by_cases hb : b ∈ l
    · simp [hb, (hset b hb).2.2]
    · simp [hb]
  · intro k
    have h : (x'.freeBlocks k : Int) = x.freeBlocks k + _ := hc.freeBlocks k
    rw [hcount]
    split_ifs at h ⊢ <;> omega
  · have h : (x'.sbFreeBlocks : Int) = x.sbFreeBlocks + _ := hc.sbFreeBlocks
    omega
  · funext k
    have h : (x'.freeInodes k : Int) = x.freeInodes k + _ := hc.freeInodes k
    split_ifs at h <;> omega
  · funext k
    have h : (x'.usedDirs k : Int) = x.usedDirs k + _ := hc.usedDirs k
    split_ifs at h <;> omega
  · have h : (x'.sbFreeInodes : Int) = x.sbFreeInodes + _ := hc.sbFreeInodes
    omega

end Beeros.Ext2
