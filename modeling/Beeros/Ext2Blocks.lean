import Beeros.Ext2Volume

/-! What a finished read or write of the code has done: the natives and the device, then blocks,
inode records, and the counters of the group descriptors and the superblock. -/

namespace Beeros.Ext2

open Memory Exec

/-! ### Natives -/

theorem failWhen_ok {c : Prop} [Decidable c] {op : Op} {s : Subject} {r : Reason} {w w' : World}
    {u : Unit} : failWhen c op s r w = .ok u w' ↔ ¬c ∧ w = w' := by
  unfold failWhen
  split_ifs with h
  · simp only [h, not_true, false_and, iff_false]
    exact throw_ok
  · rw [pure_ok]
    simp [h]

theorem nth_ok {α : Type} {l : List α} {i : Nat} {w w' : World} {a : α} :
    nth l i w = .ok a w' ↔ l[i]? = some a ∧ w = w' := by
  unfold nth
  cases l[i]? with
  | none => simpa using throw_ok
  | some b => simp [pure_ok]

theorem quot_ok {a b x : Nat} {w w' : World} :
    quot a b w = .ok x w' ↔ b ≠ 0 ∧ x = a / b ∧ w = w' := by
  unfold quot
  split_ifs with h
  · simpa [h] using throw_ok
  · rw [pure_ok]
    simp [h, eq_comm]

theorem load_ok {n o x : Nat} {b : Buf} {w w' : World} :
    load n b o w = .ok x w' ↔ o + n ≤ b.capacity ∧ x = loadLE b.bytes n o ∧ w = w' := by
  unfold load
  split_ifs with h
  · rw [pure_ok]
    simp [h, eq_comm]
  · simpa [h] using throw_ok

theorem slice_ok {start len : Nat} {b r : Buf} {w w' : World} :
    slice b start len w = .ok r w' ↔
      start + len ≤ b.capacity ∧ r = ⟨len, window b.bytes start len⟩ ∧ w = w' := by
  unfold slice
  split_ifs with h
  · rw [pure_ok]
    simp [h, eq_comm]
  · simpa [h] using throw_ok

/-- A store that goes through has a value that fits. -/
theorem store_ok {v : Volume} {n o : Nat} {x : Int} {b r : Buf} {w w' : World} :
    store v.toFs n b o x w = .ok r w' ↔ o + n ≤ b.capacity ∧ 0 ≤ x ∧ x < 256 ^ n ∧
      r = { b with bytes := storeLE b.bytes n o x.toNat } ∧ w = w' := by
  unfold store
  split_ifs with h h'
  · have : ¬o + n ≤ b.capacity := by omega
    simpa [this] using throw_ok
  · have : o + n ≤ b.capacity := by omega
    rw [pure_ok]
    simp [this, h'.1, h'.2, eq_comm]
  · rw [v.wide_none]
    have : ¬(0 ≤ x ∧ x < 256 ^ n) := h'
    constructor
    · exact fun h => absurd h throw_ok
    · exact fun h => absurd ⟨h.2.1, h.2.2.1⟩ this

theorem addField_ok {v : Volume} {n o : Nat} {d : Int} {b r : Buf} {w w' : World} :
    addField v.toFs n b o d w = .ok r w' ↔ o + n ≤ b.capacity ∧ 0 ≤ loadLE b.bytes n o + d ∧
      loadLE b.bytes n o + d < 256 ^ n ∧
      r = { b with bytes := storeLE b.bytes n o (loadLE b.bytes n o + d).toNat } ∧ w = w' := by
  unfold addField
  rw [bind_ok]
  constructor
  · rintro ⟨x, t, hx, h⟩
    obtain ⟨-, rfl, rfl⟩ := load_ok.mp hx
    exact store_ok.mp h
  · intro h
    exact ⟨_, w, load_ok.mpr ⟨h.1, rfl, rfl⟩, store_ok.mpr h⟩

theorem fillZero_ok {start len : Nat} {b r : Buf} {w w' : World} :
    fillZero b start len w = .ok r w' ↔ start + len ≤ b.capacity ∧
      r = { b with bytes := fill b.bytes start len 0 } ∧ w = w' := by
  unfold fillZero
  split_ifs with h
  · rw [pure_ok]
    simp [h, eq_comm]
  · simpa [h] using throw_ok

theorem copyBuf_ok {dst src r : Buf} {i j len : Nat} {w w' : World} :
    copyBuf dst i src j len w = .ok r w' ↔ (i + len ≤ dst.capacity ∧ j + len ≤ src.capacity) ∧
      r = { dst with bytes := copy dst.bytes i src.bytes j len } ∧ w = w' := by
  unfold copyBuf
  split_ifs with h
  · rw [pure_ok]
    simp [h, eq_comm]
  · simpa [h] using throw_ok

theorem now_disk {w w' : World} {t : Nat} (h : now w = .ok t w') : w'.disk = w.disk := by
  unfold now at h
  injection h with _ h
  rw [← h]

/-! ### Programs that only read -/

/-- The disk is as it was, however the program ends. -/
abbrev ReadOnly {α : Type} (m : Io α) : Prop := Keeps World.disk m

theorem readOnly_transfer : ReadOnly transfer := by
  intro w
  unfold transfer
  split_ifs <;> rfl

theorem transfer_disk {w w' : World} {u : Unit} (h : transfer w = .ok u w') :
    w'.disk = w.disk := readOnly_transfer.ok h

theorem readOnly_get : ReadOnly (get : Io World) := fun _ => rfl

theorem readOnly_read {dev : Device} {lba n off : Nat} {buf : Buf} :
    ReadOnly (dev.read lba n buf off) :=
  (keeps_throw _).ite (readOnly_transfer.bind fun _ => readOnly_get.bind fun _ => keeps_pure _)

theorem readOnly_flush {dev : Device} : ReadOnly dev.flush := readOnly_transfer.ite (keeps_pure _)

theorem readOnly_readBlock {fs : Fs} {b : Nat} : ReadOnly (readBlock fs b) :=
  readOnly_read.ite (keeps_pure _)

/-! ### The device -/

theorem read_ok {dev : Device} {lba n off : Nat} {buf r : Buf} {w w' : World}
    (h : dev.read lba n buf off w = .ok r w') : w'.disk = w.disk ∧
      off + n * dev.sectorSize ≤ buf.capacity ∧ r = { buf with
        bytes := copy buf.bytes off w.disk (lba * dev.sectorSize) (n * dev.sectorSize) } := by
  refine ⟨readOnly_read.ok h, ?_⟩
  unfold Device.read at h
  split_ifs at h with hc
  · exact absurd h throw_ok
  · obtain ⟨_, w1, h1, h⟩ := bind_ok.mp h
    obtain ⟨s, w2, h2, h⟩ := bind_ok.mp h
    obtain ⟨rfl, rfl⟩ := pure_ok.mp h
    have hs : s = w1 := by injection h2 with h2; exact h2.symm
    rw [hs, transfer_disk h1]
    exact ⟨by omega, rfl⟩

theorem write_ok {dev : Device} {lba n off : Nat} {buf : Buf} {w w' : World} {u : Unit}
    (h : dev.write lba n buf off w = .ok u w') : off + n * dev.sectorSize ≤ buf.capacity ∧
      w'.disk = copy w.disk (lba * dev.sectorSize) buf.bytes off (n * dev.sectorSize) := by
  unfold Device.write at h
  split_ifs at h with hc
  · exact absurd h throw_ok
  · obtain ⟨_, w1, h1, h⟩ := bind_ok.mp h
    injection h with _ h
    rw [← h]
    simp only
    rw [transfer_disk h1]
    exact ⟨by omega, rfl⟩

/-! ### Blocks -/

section Volume

variable {v : Volume}

theorem spb_mul_sectorSize (b : Nat) : b * v.spb * v.dev.sectorSize = b * v.blockSize := by
  rw [Nat.mul_assoc, v.spb_mul]

/-- The contents of a block as a buffer. -/
def blockBuf (v : Volume) (d : Bytes) (b : Nat) : Buf := ⟨v.blockSize, window d (b * v.blockSize) v.blockSize⟩

theorem readBlock_ok {b : Nat} {r : Buf} {w w' : World} (h : readBlock v.toFs b w = .ok r w') :
    w'.disk = w.disk ∧ r = if b = 0 then Buf.alloc v.blockSize else blockBuf v w.disk b := by
  refine ⟨readOnly_readBlock.ok h, ?_⟩
  unfold readBlock at h
  split_ifs with hb
  · rw [if_neg (by simpa using hb)] at h
    exact (pure_ok.mp h).1.symm
  · rw [if_pos hb] at h
    obtain ⟨-, -, rfl⟩ := read_ok h
    rw [Nat.one_mul, v.spb_mul, spb_mul_sectorSize]
    unfold blockBuf Buf.alloc
    simp only [Buf.mk.injEq, true_and]
    funext i
    unfold copy window
    by_cases hi : i < v.blockSize
    · rw [if_pos (by omega), if_pos hi, Nat.sub_zero]
    · rw [if_neg (by omega), if_neg hi]

/-- A data block is read as it is in the view. -/
theorem readBlock_data {b : Nat} {r : Buf} {w w' : World} (h : readBlock v.toFs b w = .ok r w')
    (hb : v.kind b = .data) :
    w'.disk = w.disk ∧ r = ⟨v.blockSize, (v.view w.disk).block b⟩ := by
  obtain ⟨hw, rfl⟩ := readBlock_ok h
  refine ⟨hw, ?_⟩
  rw [if_neg (v.ne_zero_of_kind (by simp [hb]) (by simp [hb]))]
  simp only [blockBuf, Volume.view, if_pos hb]

theorem writeBlock_ok {b : Nat} {buf : Buf} {w w' : World} {u : Unit}
    (h : writeBlock v.toFs b buf w = .ok u w') : v.blockSize ≤ buf.capacity ∧
      w'.disk = copy w.disk (b * v.blockSize) buf.bytes 0 v.blockSize := by
  obtain ⟨h1, h2⟩ := write_ok h
  rw [Nat.one_mul, v.spb_mul] at h1
  rw [Nat.one_mul, v.spb_mul, spb_mul_sectorSize] at h2
  exact ⟨by omega, h2⟩

theorem writeBlock_agree {b : Nat} {buf : Buf} {w w' : World} {u : Unit}
    (h : writeBlock v.toFs b buf w = .ok u w') :
    AgreeOutside w.disk w'.disk (b * v.blockSize) (b * v.blockSize + v.blockSize) := by
  rw [(writeBlock_ok h).2]
  exact agreeOutside_copy le_rfl le_rfl

theorem writeBlock_window {b : Nat} {buf : Buf} {w w' : World} {u : Unit}
    (h : writeBlock v.toFs b buf w = .ok u w') :
    window w'.disk (b * v.blockSize) v.blockSize = window buf.bytes 0 v.blockSize := by
  rw [(writeBlock_ok h).2, window_copy_self]

/-- A write of a data block. -/
theorem writeBlock_data {b : Nat} {buf : Buf} {w w' : World} {u : Unit}
    (h : writeBlock v.toFs b buf w = .ok u w') (hb : v.kind b = .data) :
    v.view w'.disk = (v.view w.disk).setBlock b (window buf.bytes 0 v.blockSize) := by
  rw [Volume.view_setBlock (writeBlock_agree h) hb, writeBlock_window h]

/-! ### Inode records -/

theorem group_of_getElem? {fs : Fs} {g : Nat} {gd : Group} (h : fs.groups[g]? = some gd) :
    g < fs.groups.length ∧ fs.group g = gd := by
  obtain ⟨hlt, hg⟩ := List.getElem?_eq_some_iff.mp h
  refine ⟨hlt, ?_⟩
  unfold Fs.group
  rw [List.getD_eq_getElem?_getD, h]
  rfl

theorem blockBuf_window {d : Bytes} {b o n : Nat} (h : o + n ≤ v.blockSize) :
    window (blockBuf v d b).bytes o n = window d (b * v.blockSize + o) n := window_window h

/-- `f` changes at most the record of `n` bytes at its offset, and by `R`. -/
def EditsRecord (n : Nat) (f : Buf → Nat → Io Buf) (R : Bytes → Bytes → Prop) : Prop :=
  ∀ ⦃b o w b' w'⦄, f b o w = .ok b' w' → o + n ≤ b.capacity →
    w'.disk = w.disk ∧ b'.capacity = b.capacity ∧ AgreeOutside b.bytes b'.bytes o (o + n) ∧
      R (window b.bytes o n) (window b'.bytes o n)

/-- A block rewritten with one record of it changed. -/
theorem writeBlock_record {d : Bytes} {b o n : Nat} {buf : Buf} {w w' : World} {u : Unit}
    (h : writeBlock v.toFs b buf w = .ok u w') (hd : w.disk = d) (hn : o + n ≤ v.blockSize)
    (hbuf : AgreeOutside (blockBuf v d b).bytes buf.bytes o (o + n)) :
    AgreeOutside d w'.disk (b * v.blockSize + o) (b * v.blockSize + o + n) ∧
      window w'.disk (b * v.blockSize + o) n = window buf.bytes o n := by
  rw [(writeBlock_ok h).2, hd]
  constructor
  · intro i hi
    unfold copy
    split_ifs with hc
    · rw [Nat.zero_add, hbuf _ (by omega)]
      simp only [blockBuf]
      rw [window_apply (by omega)]
      congr 1
      omega
    · rfl
  · funext i
    unfold window
    split_ifs with hi
    · unfold copy
      rw [if_pos (by omega)]
      congr 1
      omega
    · rfl

/-! A record update is a sequence of stores at fixed offsets. -/

theorem EditsRecord.seq {n : Nat} {f g : Buf → Nat → Io Buf} {R S : Bytes → Bytes → Prop}
    (hf : EditsRecord n f R) (hg : EditsRecord n g S) :
    EditsRecord n (fun b o => f b o >>= fun b => g b o)
      (fun m m'' => ∃ m', R m m' ∧ S m' m'') := by
  intro b o w b' w' h hn
  obtain ⟨b1, w1, h1, h2⟩ := bind_ok.mp h
  obtain ⟨hd1, hc1, ha1, hR⟩ := hf h1 hn
  obtain ⟨hd2, hc2, ha2, hS⟩ := hg h2 (by rwa [hc1])
  exact ⟨hd2.trans hd1, hc2.trans hc1, ha1.trans ha2, _, hR, hS⟩

theorem editsRecord_store {n k j : Nat} {x : Int} (hj : j + k ≤ n) :
    EditsRecord n (fun b o => store v.toFs k b (o + j) x)
      (fun m m' => 0 ≤ x ∧ x < 256 ^ k ∧ m' = storeLE m k j x.toNat) := by
  intro b o w b' w' h hn
  obtain ⟨-, h0, hx, rfl, rfl⟩ := store_ok.mp h
  exact ⟨rfl, rfl, agreeOutside_storeLE (by omega) (by omega), h0, hx, window_storeLE hj⟩

theorem editsRecord_addField {n k j : Nat} {d : Int} (hj : j + k ≤ n) :
    EditsRecord n (fun b o => addField v.toFs k b (o + j) d)
      (fun m m' => ∃ y : Nat, (y : Int) = loadLE m k j + d ∧ y < 256 ^ k ∧ m' = storeLE m k j y) := by
  intro b o w b' w' h hn
  obtain ⟨-, h0, hx, rfl, rfl⟩ := addField_ok.mp h
  refine ⟨rfl, rfl, agreeOutside_storeLE (by omega) (by omega), _, ?_, ?_, window_storeLE hj⟩
  · rw [loadLE_window hj]
    exact Int.toNat_of_nonneg h0
  · exact_mod_cast (Int.toNat_lt h0).mpr (by exact_mod_cast hx)

/-- A store of a clock reading. -/
theorem editsRecord_now {n k j : Nat} (hj : j + k ≤ n) :
    EditsRecord n (fun b o => now >>= fun t => store v.toFs k b (o + j) t)
      (fun m m' => ∃ t, m' = storeLE m k j t) := by
  intro b o w b' w' h hn
  obtain ⟨t, w1, h1, h⟩ := bind_ok.mp h
  obtain ⟨hd, hc, ha, -, -, hm⟩ := editsRecord_store (v := v) hj h hn
  exact ⟨hd.trans (now_disk h1), hc, ha, _, hm⟩

theorem inodeUpdate_ok {ino : Nat} {f : Buf → Nat → Io Buf} {R : Bytes → Bytes → Prop}
    {w w' : World} {u : Unit} (hf : EditsRecord v.inodeSize f R) (hi : v.IsInode ino)
    (h : inodeUpdate v.toFs ino f w = .ok u w') :
    ∃ m, R ((v.view w.disk).inode ino) m ∧
      v.view w'.disk = (v.view w.disk).setInode ino m := by
  unfold inodeUpdate at h
  obtain ⟨q, _, h1, h⟩ := bind_ok.mp h
  obtain ⟨-, rfl, rfl⟩ := quot_ok.mp h1
  obtain ⟨gd, _, h2, h⟩ := bind_ok.mp h
  obtain ⟨hgd, rfl⟩ := nth_ok.mp h2
  obtain ⟨-, rfl⟩ := group_of_getElem? hgd
  obtain ⟨buf, w3, h3, h⟩ := bind_ok.mp h
  obtain ⟨buf', w4, h4, h⟩ := bind_ok.mp h
  obtain ⟨hd3, hbuf⟩ := readBlock_ok h3
  have hk := v.kind_inodeBlock hi
  have hblk : v.inodeBlock ino ≠ 0 := v.ne_zero_of_kind (by simp [hk]) (by simp [hk])
  change buf = if v.inodeBlock ino = 0 then _ else blockBuf v w.disk (v.inodeBlock ino) at hbuf
  rw [if_neg hblk] at hbuf
  have hle := v.inodeOffset_le ino
  obtain ⟨hd4, hcap, hout, hR⟩ := hf h4 (by rw [hbuf]; exact hle)
  change AgreeOutside _ _ (v.inodeOffset ino) (v.inodeOffset ino + _) at hout
  change R (window _ (v.inodeOffset ino) _) (window _ (v.inodeOffset ino) _) at hR
  rw [hbuf] at hout hR
  obtain ⟨hagree, hwin⟩ := writeBlock_record h (hd4.trans hd3) hle hout
  change AgreeOutside _ _ (v.inodeBlock ino * v.blockSize + _)
    (v.inodeBlock ino * v.blockSize + _ + _) at hagree
  change window _ (v.inodeBlock ino * v.blockSize + _) _ = _ at hwin
  rw [← v.inodeAddr_eq] at hagree hwin
  refine ⟨_, ?_, Volume.view_setInode hi hagree⟩
  rw [hwin]
  rw [blockBuf_window hle, ← v.inodeAddr_eq] at hR
  simpa only [Volume.view, if_pos hi] using hR

/-! ### Counters -/

theorem max_one_div : max 1 (1024 / v.dev.sectorSize) = 1024 / v.dev.sectorSize := by
  have hmul : 1024 / v.dev.sectorSize * v.dev.sectorSize = 1024 :=
    Nat.div_mul_cancel v.sectorSize_dvd
  apply max_eq_right
  by_contra hc
  rw [Nat.lt_one_iff.mp (not_le.mp hc), Nat.zero_mul] at hmul
  cases hmul

theorem readSuperblock_ok {w w' : World} {r : Buf} (h : readSuperblock v.dev w = .ok r w') :
    w'.disk = w.disk ∧ r = ⟨1024, (v.view w.disk).sb⟩ := by
  obtain ⟨hw, -, rfl⟩ := read_ok h
  refine ⟨hw, ?_⟩
  have hmul : 1024 / v.dev.sectorSize * v.dev.sectorSize = 1024 :=
    Nat.div_mul_cancel v.sectorSize_dvd
  rw [max_one_div, hmul]
  unfold Buf.alloc
  simp only [Volume.view, Buf.mk.injEq, true_and]
  funext i
  unfold copy window
  by_cases hi : i < 1024
  · rw [if_pos (by omega), if_pos hi, Nat.sub_zero]
  · rw [if_neg (by omega), if_neg hi]

theorem gdUpdate_ok {g : Nat} {f : Buf → Nat → Io Buf} {R : Bytes → Bytes → Prop}
    {w w' : World} {u : Unit} (hf : EditsRecord 32 f R) (hg : g < v.groups.length)
    (h : gdUpdate v.toFs g f w = .ok u w') :
    ∃ m, R ((v.view w.disk).gd g) m ∧ v.view w'.disk = (v.view w.disk).setGd g m := by
  unfold gdUpdate at h
  obtain ⟨buf, w1, h1, h⟩ := bind_ok.mp h
  obtain ⟨buf', w2, h2, h⟩ := bind_ok.mp h
  obtain ⟨hd1, hbuf⟩ := readBlock_ok h1
  have hk := v.kind_gdBlock hg
  have hblk : v.gdBlock g ≠ 0 := v.ne_zero_of_kind (by simp [hk]) (by simp [hk])
  change buf = if v.gdBlock g = 0 then _ else blockBuf v w.disk (v.gdBlock g) at hbuf
  rw [if_neg hblk] at hbuf
  have haddr := v.gdAddr_eq g
  have hle := v.gdOffset_le g
  obtain ⟨hd2, hcap, hout, hR⟩ := hf h2 (by rw [hbuf]; exact hle)
  rw [hbuf] at hout hR
  obtain ⟨hagree, hwin⟩ := writeBlock_record h (hd2.trans hd1) hle hout
  change AgreeOutside _ _ (v.gdBlock g * v.blockSize + _)
    (v.gdBlock g * v.blockSize + _ + _) at hagree
  change window _ (v.gdBlock g * v.blockSize + _) _ = _ at hwin
  rw [← haddr] at hagree hwin
  refine ⟨_, ?_, Volume.view_setGd hg hagree⟩
  rw [hwin]
  rw [blockBuf_window hle, ← haddr] at hR
  simpa only [Volume.view, if_pos hg] using hR

/-- The superblock half of `adjust-counts!`. -/
theorem sbUpdate_ok {dblocks dinodes : Int} {w w' : World} {u : Unit}
    (h : sbUpdate v.toFs (fun b => addField v.toFs 4 b sbFreeBlocks dblocks >>= fun b =>
      addField v.toFs 4 b sbFreeInodes dinodes) w = .ok u w') :
    ∃ t fb fi : Nat, (fb : Int) = (v.view w.disk).sbFreeBlocks + dblocks ∧
      (fi : Int) = (v.view w.disk).sbFreeInodes + dinodes ∧ fb < 256 ^ 4 ∧ fi < 256 ^ 4 ∧
      v.view w'.disk = (v.view w.disk).setSb (sbWith (v.view w.disk).sb fb fi t) := by
  unfold sbUpdate at h
  obtain ⟨buf, w1, h1, h⟩ := bind_ok.mp h
  obtain ⟨buf', w2, h2, h⟩ := bind_ok.mp h
  obtain ⟨t, w3, h3, h⟩ := bind_ok.mp h
  obtain ⟨buf'', w4, h4, h⟩ := bind_ok.mp h
  obtain ⟨hd1, rfl⟩ := readSuperblock_ok h1
  -- all three stores fall into the 1024 bytes at 0
  have hedits : EditsRecord 1024 (fun b o => addField v.toFs 4 b (o + sbFreeBlocks) dblocks >>=
      fun b => addField v.toFs 4 b (o + sbFreeInodes) dinodes) _ :=
    (editsRecord_addField (by decide)).seq (editsRecord_addField (by decide))
  obtain ⟨hd2, hcap, -, m, ⟨fb, hfb, bfb, rfl⟩, fi, hfi, bfi, hm⟩ :=
    hedits (o := 0) (by simpa using h2) (by simp)
  obtain ⟨-, -, -, rfl, rfl⟩ := store_ok.mp h4
  have hwin : window (v.view w.disk).sb 0 1024 = (v.view w.disk).sb := by
    simp only [Volume.view]
    rw [window_window (by omega)]
  rw [loadLE_storeLE_of_disjoint (by decide)] at hfi
  simp only [hwin] at hm hfb hfi
  obtain ⟨-, hw⟩ := write_ok h
  have hmul : 1024 / v.dev.sectorSize * v.dev.sectorSize = 1024 :=
    Nat.div_mul_cancel v.sectorSize_dvd
  rw [max_one_div, hmul, now_disk h3, hd2, hd1] at hw
  refine ⟨t, fb, fi, hfb, hfi, bfb, bfi, ?_⟩
  rw [Volume.view_setSb (v := v) (d := w.disk), hw, window_copy_self]
  · congr 1
    have hst := window_storeLE (m := buf'.bytes) (a := 0) (n := 1024) (k := 4) (j := sbWtime)
      (v := (t : Int).toNat) (by decide)
    rw [Nat.zero_add] at hst
    rw [hst, hm, Int.toNat_natCast]
    rfl
  · rw [hw]
    exact agreeOutside_copy le_rfl le_rfl

theorem adjustCounts_ok {g : Nat} {dblocks dinodes ddirs : Int} {w w' : World} {u : Unit}
    (hg : g < v.groups.length) (h : adjustCounts v.toFs g dblocks dinodes ddirs w = .ok u w') :
    CountsMoved (v.view w.disk) (v.view w'.disk) g dblocks dinodes ddirs := by
  unfold adjustCounts at h
  obtain ⟨_, w1, h1, h⟩ := bind_ok.mp h
  obtain ⟨m, ⟨m1, ⟨fb, hfb, bfb, rfl⟩, m2, ⟨fi, hfi, bfi, rfl⟩, ud, hud, bud, rfl⟩, hview⟩ :=
    gdUpdate_ok ((editsRecord_addField (by decide)).seq
      ((editsRecord_addField (by decide)).seq (editsRecord_addField (by decide)))) hg h1
  rw [loadLE_storeLE_of_disjoint (by decide)] at hfi
  rw [loadLE_storeLE_of_disjoint (by decide), loadLE_storeLE_of_disjoint (by decide)] at hud
  obtain ⟨t, sfb, sfi, hsfb, hsfi, bsfb, bsfi, hsb⟩ := sbUpdate_ok h
  rw [hsb, hview]
  rw [hview] at hsfb hsfi
  exact countsMoved_of_stores hfb hfi hud hsfb hsfi bfb bfi bud bsfb bsfi

end Volume

end Beeros.Ext2
