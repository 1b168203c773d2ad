import Beeros.Ext2Map

/-! The transfers of `read-inode-data` and `write-data!` run over several blocks at once. They are the
transfers of these blocks one by one, on any image. -/

namespace Beeros.Ext2

open Memory Exec

variable {fs : Fs} {d d' d'' : Bytes}

/-! ### Programs that write -/

/-- On the disk `d`, `m` ends with `a` and the disk `d'` where `P` holds, and fails where it does not,
unless a transfer fails. -/
def PutsIf {α : Type} (m : Io α) (d : Bytes) (P : Prop) (a : α) (d' : Bytes) : Prop :=
  ∀ w : World, w.disk = d → ∃ w', w'.fails = w.fails ∧
    (P ∧ w'.disk = d' ∧ m w = .ok a w' ∨
      (P → ∃ n, w.fails n = true) ∧ ∃ e, m w = .error e w')

section PutsIf

variable {α β : Type} {m : Io α} {f : α → Io β} {P Q : Prop} {a : α} {b : β}

theorem putsIf_pure (a : α) (d : Bytes) (h : P) : PutsIf (pure a) d P a d :=
  fun w hw => ⟨w, rfl, .inl ⟨h, hw, rfl⟩⟩

theorem PutsIf.to (h : PutsIf m d P a d') (hP : Q ↔ P) (hd : d' = d'') : PutsIf m d Q a d'' := by
  rw [hP, ← hd]
  exact h

theorem PutsIf.bind (h : PutsIf m d P a d') (h' : P → PutsIf (f a) d' Q b d'') :
    PutsIf (m >>= f) d (P ∧ Q) b d'' := by
  intro w hw
  obtain ⟨w1, hf1, ⟨hP, hd1, h1⟩ | ⟨hn, e, h1⟩⟩ := h w hw
  · obtain ⟨w2, hf2, ⟨hQ, hd2, h2⟩ | ⟨hn, e, h2⟩⟩ := h' hP w1 hd1
    · exact ⟨w2, hf2.trans hf1, .inl ⟨⟨hP, hQ⟩, hd2, bind_ok.mpr ⟨_, _, h1, h2⟩⟩⟩
    · refine ⟨w2, hf2.trans hf1, .inr ⟨fun hPQ => ?_, e, ?_⟩⟩
      · obtain ⟨n, hn⟩ := hn hPQ.2
        exact ⟨n, hf1 ▸ hn⟩
      · exact bind_error.mpr (.inr ⟨_, _, h1, h2⟩)
  · exact ⟨w1, hf1, .inr ⟨fun hPQ => hn hPQ.1, e, bind_error.mpr (.inl h1)⟩⟩

theorem Gives.bindPuts (h : Gives m d (.ok a)) (h' : PutsIf (f a) d Q b d') :
    PutsIf (m >>= f) d Q b d' := by
  intro w hw
  obtain ⟨w1, hd1, hf1, h1 | ⟨h1, hn⟩⟩ := h w hw
  · obtain ⟨w2, hf2, ⟨hQ, hd2, h2⟩ | ⟨hn, e, h2⟩⟩ := h' w1 hd1
    · exact ⟨w2, hf2.trans hf1, .inl ⟨hQ, hd2, bind_ok.mpr ⟨_, _, h1, h2⟩⟩⟩
    · refine ⟨w2, hf2.trans hf1, .inr ⟨fun hQ => ?_, e, ?_⟩⟩
      · obtain ⟨n, hn⟩ := hn hQ
        exact ⟨n, hf1 ▸ hn⟩
      · exact Exec.bind_error.mpr (.inr ⟨_, _, h1, h2⟩)
  · exact ⟨w1, hf1, .inr ⟨fun _ => hn, _, Exec.bind_error.mpr (.inl h1)⟩⟩

theorem PutsIf.of_ok (h : PutsIf m d P a d') {w w' : World} {a' : α} (hw : w.disk = d)
    (hm : m w = .ok a' w') : P ∧ w'.disk = d' ∧ a' = a := by
  obtain ⟨w1, -, ⟨hP, hd, h1⟩ | ⟨-, e, h1⟩⟩ := h w hw
  · rw [hm] at h1
    injection h1 with ha hw
    exact ⟨hP, hw ▸ hd, ha⟩
  · rw [hm] at h1
    cases h1

theorem PutsIf.run (h : PutsIf m d P a d') {w : World} (hw : w.disk = d)
    (hf : ∀ n, w.fails n = false) (hP : P) : ∃ w', m w = .ok a w' := by
  obtain ⟨w1, -, ⟨-, -, h1⟩ | ⟨hn, -⟩⟩ := h w hw
  · exact ⟨w1, h1⟩
  · obtain ⟨n, hn⟩ := hn hP
    rw [hf n] at hn
    cases hn

end PutsIf

theorem putsIf_write {dev : Device} {lba n off : Nat} {buf : Buf} (hn : 1 ≤ n)
    (hbuf : off + n * dev.sectorSize ≤ buf.capacity) :
    PutsIf (dev.write lba n buf off) d (dev.readOnly = false ∧ lba + n ≤ dev.sectors) ()
      (copy d (lba * dev.sectorSize) buf.bytes off (n * dev.sectorSize)) := by
  intro w hw
  unfold Device.write
  by_cases hP : dev.readOnly = false ∧ lba + n ≤ dev.sectors
  · rw [if_neg (by simp [hP.1]; omega)]
    have ht : transfer w = if w.fails w.steps then .error .device { w with steps := w.steps + 1 }
        else .ok () { w with steps := w.steps + 1 } := rfl
    by_cases hf : w.fails w.steps = true
    · rw [if_pos hf] at ht
      exact ⟨{ w with steps := w.steps + 1 }, rfl,
        .inr ⟨fun _ => ⟨_, hf⟩, _, bind_error.mpr (.inl ht)⟩⟩
    · rw [if_neg hf] at ht
      rw [← hw]
      exact ⟨{ w with
        disk := copy w.disk (lba * dev.sectorSize) buf.bytes off (n * dev.sectorSize)
        steps := w.steps + 1 }, rfl, .inl ⟨hP, rfl, bind_ok.mpr ⟨_, _, ht, rfl⟩⟩⟩
  · rw [if_pos ?_]
    · exact ⟨w, rfl, .inr ⟨fun h => absurd h hP, _, rfl⟩⟩
    · by_cases hr : dev.readOnly = false
      · exact .inr (.inl (Nat.lt_of_not_le fun h => hP ⟨hr, h⟩))
      · exact .inr (.inr (.inl (by simpa using hr)))

/-! ### The bytes of a list of blocks -/

/-- Byte `j` of the contents in `blocks`; a hole reads as zeros. -/
def blockByte (bs : Nat) (get : Nat → Bytes) (blocks : List Nat) (j : Nat) : UInt8 :=
  let b := blocks.getD (j / bs) 0
  if b = 0 then 0 else get b (j % bs)

/-- The first `size` bytes of the contents in `blocks`. -/
def contentsOf (bs : Nat) (get : Nat → Bytes) (blocks : List Nat) (size : Nat) : Buf where
  capacity := size
  bytes j := if j < size then blockByte bs get blocks j else 0

/-- Block `k` of the first `size` bytes of a buffer, zeros behind them. -/
def bufBlock (bs : Nat) (m : Bytes) (size k : Nat) : Bytes :=
  fun j => if j < bs ∧ k * bs + j < size then m (k * bs + j) else 0

/-- Byte `r` of block `q` at its place in a run of blocks. -/
theorem mul_add_div_mod {bs q r : Nat} (hr : r < bs) : (q * bs + r) / bs = q ∧ (q * bs + r) % bs = r := by
  constructor
  · rw [Nat.mul_comm, Nat.mul_add_div (by omega), Nat.div_eq_of_lt hr, Nat.add_zero]
  · rw [Nat.mul_comm, Nat.mul_add_mod, Nat.mod_eq_of_lt hr]

/-- A run of blocks is on the device when each of its blocks is. -/
theorem onDevice_run {b n : Nat} (hn : 1 ≤ n) :
    fs.OnDevice b n ↔ ∀ q < n, fs.OnDevice (b + q) 1 := by
  unfold Fs.OnDevice
  constructor
  · intro h q hq
    exact (Nat.mul_le_mul_right _ (by omega)).trans h
  · intro h
    have := h (n - 1) (by omega)
    rwa [show b + (n - 1) + 1 = b + n by omega] at this

/-! ### Reading -/

theorem runLength_spec (blocks : List Nat) (i start nb maxRun fuel n : Nat) :
    n ≤ runLength blocks i start nb maxRun fuel n ∧
      ∀ j, n ≤ j → j < runLength blocks i start nb maxRun fuel n →
        i + j < nb ∧ start ≠ 0 ∧ blocks.getD (i + j) 0 = start + j := by
  induction fuel generalizing n with
  | zero => exact ⟨le_rfl, fun j hj hj' => absurd hj' (not_lt.mpr hj)⟩
  | succ fuel ih =>
      unfold runLength
      split_ifs with h
      · obtain ⟨hle, hrun⟩ := ih (n + 1)
        refine ⟨by omega, fun j hj hj' => ?_⟩
        rcases Nat.eq_or_lt_of_le hj with rfl | hlt
        · exact ⟨h.1, h.2.2.1, h.2.2.2⟩
        · exact hrun j hlt hj'
      · exact ⟨le_rfl, fun j hj hj' => absurd hj' (not_lt.mpr hj)⟩

/-- A run of consecutive blocks copied from the disk is these blocks' contents. -/
theorem copy_run {blocks : List Nat} {m : Bytes} {i start run j : Nat} (hbs : 0 < fs.blockSize)
    (h0 : start ≠ 0) (hrun : ∀ q < run, blocks.getD (i + q) 0 = start + q)
    (hm : ∀ j, m j = if j < i * fs.blockSize then blockByte fs.blockSize (fs.blockAt d) blocks j
      else 0) :
    copy m (i * fs.blockSize) d (start * fs.blockSize) (run * fs.blockSize) j =
      if j < (i + run) * fs.blockSize then blockByte fs.blockSize (fs.blockAt d) blocks j
      else 0 := by
  have hmul := Nat.add_mul i run fs.blockSize
  unfold copy
  by_cases hlo : i * fs.blockSize ≤ j
  · by_cases hhi : j < i * fs.blockSize + run * fs.blockSize
    · rw [if_pos ⟨hlo, hhi⟩, if_pos (by omega)]
      obtain ⟨t, rfl⟩ := Nat.exists_eq_add_of_le hlo
      have hq : t / fs.blockSize < run := (Nat.div_lt_iff_lt_mul hbs).mpr (by omega)
      have hr : t % fs.blockSize < fs.blockSize := Nat.mod_lt _ hbs
      have ht : t = t / fs.blockSize * fs.blockSize + t % fs.blockSize := by
        rw [Nat.mul_comm, Nat.div_add_mod]
      have hdm := mul_add_div_mod (q := i + t / fs.blockSize) hr
      have haddr : i * fs.blockSize + t =
          (i + t / fs.blockSize) * fs.blockSize + t % fs.blockSize := by
        rw [Nat.add_mul]
        omega
      have hne : start + t / fs.blockSize ≠ 0 :=
        Nat.ne_of_gt (Nat.add_pos_left (Nat.pos_of_ne_zero h0) _)
      unfold blockByte Fs.blockAt
      rw [haddr, hdm.1, hdm.2, hrun _ hq]
      simp only
      rw [if_neg hne, window_apply hr]
      congr 1
      rw [Nat.add_mul, Nat.add_mul]
      omega
    · rw [if_neg (by omega), if_neg (by omega), hm, if_neg (by omega)]
  · rw [if_neg (by omega), if_pos (by omega), hm, if_pos (by omega)]

section Sized

variable (hs : fs.Sized)

include hs

theorem givesIf_readRuns {blocks : List Nat} {fuel i : Nat} {buf : Buf}
    (hfuel : blocks.length ≤ i + fuel) (hi : i ≤ blocks.length)
    (hcap : blocks.length * fs.blockSize ≤ buf.capacity)
    (hbuf : ∀ j, buf.bytes j =
      if j < i * fs.blockSize then blockByte fs.blockSize (fs.blockAt d) blocks j else 0) :
    GivesIf (readRuns fs blocks fuel i buf) d
      (∀ k, i ≤ k → k < blocks.length → blocks.getD k 0 ≠ 0 → fs.OnDevice (blocks.getD k 0) 1)
      ⟨buf.capacity, fun j => if j < blocks.length * fs.blockSize then
        blockByte fs.blockSize (fs.blockAt d) blocks j else 0⟩ := by
  have hbs : 0 < fs.blockSize := by have := hs.le_bs; omega
  -- what is left to read is the blocks from index `i`
  have hdone : ∀ buf : Buf, (∀ j, buf.bytes j = if j < blocks.length * fs.blockSize then
      blockByte fs.blockSize (fs.blockAt d) blocks j else 0) →
      GivesIf (pure buf) d (∀ k, blocks.length ≤ k → k < blocks.length →
        blocks.getD k 0 ≠ 0 → fs.OnDevice (blocks.getD k 0) 1)
        ⟨buf.capacity, fun j => if j < blocks.length * fs.blockSize then
          blockByte fs.blockSize (fs.blockAt d) blocks j else 0⟩ := by
    intro buf hbuf
    have hb : buf.bytes = _ := funext hbuf
    rw [← hb]
    exact (gives_pure buf).givesIf fun k hk hk' => absurd hk' (not_lt.mpr hk)
  induction fuel generalizing i buf with
  | zero =>
      obtain rfl : i = blocks.length := by omega
      exact hdone buf hbuf
  | succ fuel ih =>
      unfold readRuns
      by_cases hlt : i < blocks.length
      · rw [if_pos hlt]
        simp only
        refine (gives_nth (List.getElem?_eq_getElem hlt)).bindIf ?_
        have hget : blocks.getD i 0 = blocks[i] := by simp [hlt]
        generalize hstart : blocks[i] = start at hget
        generalize hrun : runLength blocks i start blocks.length (max 1 (maxRunBytes / fs.blockSize))
          (max 1 (maxRunBytes / fs.blockSize)) 1 = run
        obtain ⟨hle, hspec⟩ := runLength_spec blocks i start blocks.length
          (max 1 (maxRunBytes / fs.blockSize)) (max 1 (maxRunBytes / fs.blockSize)) 1
        rw [hrun] at hle hspec
        have hin : i + run ≤ blocks.length := by
          rcases Nat.eq_or_lt_of_le hle with h1 | h1
          · omega
          · have := (hspec (run - 1) (by omega) (by omega)).1
            omega
        have hin' : (i + run) * fs.blockSize ≤ buf.capacity :=
          (Nat.mul_le_mul_right _ hin).trans hcap
        by_cases h0 : start ≠ 0
        · rw [if_pos h0]
          have hblocks : ∀ q < run, blocks.getD (i + q) 0 = start + q := by
            intro q hq
            rcases Nat.eq_zero_or_pos q with rfl | hpos
            · exact hget
            · exact (hspec q hpos hq).2.2
          rw [Nat.add_mul] at hin'
          refine ((givesIf_readBlocksInto hs hle hin').bind fun _ =>
            ih (by omega) hin hcap fun j => copy_run hbs h0 hblocks hbuf).to ?_ rfl
          rw [onDevice_run hle]
          constructor
          · intro h
            refine ⟨fun q hq => ?_, fun k hk => h k (by omega)⟩
            have := h (i + q) (by omega) (by omega)
            rw [hblocks q hq] at this
            exact this (by omega)
          · rintro ⟨h, h'⟩ k hk hkl hk0
            by_cases hkr : k < i + run
            · obtain ⟨q, rfl⟩ := Nat.exists_eq_add_of_le hk
              rw [hblocks q (by omega)]
              exact h q (by omega)
            · exact h' k (by omega) hkl hk0
        · rw [if_neg h0]
          have h0 : start = 0 := by simpa using h0
          have hrun1 : run = 1 := by
            by_contra hne
            exact (hspec 1 le_rfl (by omega)).2.1 h0
          refine (ih (by omega) hin hcap fun j => ?_).to ?_ rfl
          · rw [hbuf, hrun1, Nat.succ_mul]
            by_cases hj : j < i * fs.blockSize
            · rw [if_pos hj, if_pos (by omega)]
            · rw [if_neg hj]
              split_ifs with hj'
              · have hdiv : j / fs.blockSize = i := by
                  apply Nat.div_eq_of_lt_le
                  · omega
                  · rw [Nat.succ_mul]
                    omega
                unfold blockByte
                rw [hdiv, hget, h0]
                rfl
              · rfl
          · rw [hrun1]
            constructor
            · exact fun h k hk => h k (by omega)
            · intro h k hk hkl hk0
              rcases Nat.eq_or_lt_of_le hk with rfl | hlt'
              · exact absurd (hget.trans h0) hk0
              · exact h k (by omega) hkl hk0
      · rw [if_neg hlt]
        obtain rfl : i = blocks.length := by omega
        exact hdone buf hbuf

/-- `read-inode-data` returns the bytes of the blocks, if they are all on the device. -/
theorem givesIf_readInodeData {i : Inode} {P : Prop} {blocks : List Nat}
    (hblocks : GivesIf (fileBlocks fs i) d P blocks)
    (hsize : i.size ≤ blocks.length * fs.blockSize) :
    GivesIf (readInodeData fs i) d (P ∧ ∀ b ∈ blocks, b ≠ 0 → fs.OnDevice b 1)
      (contentsOf fs.blockSize (fs.blockAt d) blocks i.size) := by
  unfold readInodeData
  refine (hblocks.bind fun _ => ?_)
  simp only
  have hruns : GivesIf (readRuns fs blocks blocks.length 0
      (Buf.alloc (max 1 (blocks.length * fs.blockSize)))) d _ _ :=
    givesIf_readRuns hs (by omega) (Nat.zero_le _) (le_max_right _ _) fun j => by
      rw [Nat.zero_mul, if_neg (Nat.not_lt_zero _)]
      rfl
  refine (hruns.then (b := contentsOf fs.blockSize (fs.blockAt d) blocks i.size) ?_).to ?_ rfl
  · unfold contentsOf
    split_ifs with hcap
    · refine (gives_pure _).to ?_
      simp only [Buf.alloc] at hcap ⊢
      rw [Buf.mk.injEq]
      refine ⟨hcap, ?_⟩
      funext j
      by_cases hj : j < i.size
      · rw [if_pos hj, if_pos (by omega)]
      · rw [if_neg hj]
        split_ifs with hj'
        · omega
        · rfl
    · simp only [Buf.alloc] at hcap ⊢
      refine (gives_slice (by simp only; omega)).to ?_
      rw [Buf.mk.injEq]
      refine ⟨rfl, ?_⟩
      funext j
      unfold window
      by_cases hj : j < i.size
      · rw [if_pos hj, if_pos hj, Nat.zero_add]
        exact if_pos (by omega)
      · rw [if_neg hj, if_neg hj]
  · constructor
    · intro h k _ hk hk0
      refine h _ ?_ hk0
      rw [List.getD_eq_getElem _ _ hk]
      exact List.getElem_mem _
    · intro h b hb hb0
      obtain ⟨k, hk, rfl⟩ := List.getElem_of_mem hb
      have := h k (Nat.zero_le _) hk
      rw [List.getD_eq_getElem _ _ hk] at this
      exact this hb0

/-! ### Writing -/

theorem putsIf_writeBlocks {b n off : Nat} {buf : Buf} (hn : 1 ≤ n)
    (hbuf : off + n * fs.blockSize ≤ buf.capacity) :
    PutsIf (writeBlocks fs b n buf off) d (fs.dev.readOnly = false ∧ fs.OnDevice b n) ()
      (copy d (b * fs.blockSize) buf.bytes off (n * fs.blockSize)) := by
  have hcap : off + n * fs.spb * fs.dev.sectorSize ≤ buf.capacity := by rwa [hs.mul_sectorSize]
  refine (putsIf_write (Nat.mul_pos hn hs.spb_pos) hcap).to ?_ ?_
  · unfold Fs.OnDevice
    rw [Nat.add_mul]
  · rw [hs.mul_sectorSize, hs.mul_sectorSize]

end Sized

/-- The disk after the blocks of a list were written one by one, from slice `k` of a buffer on. -/
def putSlices (bs : Nat) (m : Bytes) (size : Nat) : List Nat → Nat → Bytes → Bytes
  | [], _, d => d
  | b :: data, k, d => putSlices bs m size data (k + 1) (copy d (b * bs) (bufBlock bs m size k) 0 bs)

/-- The blocks of a list written one by one: the reference for `write-data!`. -/
def writeSlices (fs : Fs) (buf : Buf) (size : Nat) : List Nat → Nat → Io Unit
  | [], _ => pure ()
  | b :: data, k => do
      writeBlock fs b ⟨fs.blockSize, bufBlock fs.blockSize buf.bytes size k⟩
      writeSlices fs buf size data (k + 1)

/-- The blocks of a list read one by one: the reference for `read-inode-data`. -/
def readSlices (fs : Fs) : List Nat → Io (List UInt8)
  | [] => pure []
  | b :: blocks => do
      let buf ← readBlock fs b
      let rest ← readSlices fs blocks
      pure (buf.toList ++ rest)

/-- What a read of block `b` returns; block 0 is a hole. -/
def Fs.contentAt (fs : Fs) (d : Bytes) (b : Nat) : Bytes :=
  if b = 0 then fun _ => 0 else fs.blockAt d b

/-- A block that can be written. -/
def Fs.CanWrite (fs : Fs) (b : Nat) : Prop := fs.dev.readOnly = false ∧ fs.OnDevice b 1

theorem putSlices_append {bs size k : Nat} {m : Bytes} {l l' : List Nat} :
    putSlices bs m size (l ++ l') k d =
      putSlices bs m size l' (k + l.length) (putSlices bs m size l k d) := by
  induction l generalizing k d with
  | nil => rfl
  | cons b l ih =>
      rw [List.cons_append, putSlices, ih, List.length_cons, putSlices]
      congr 1
      omega

theorem copy_succ {m src : Bytes} {a s n bs : Nat} :
    copy m a src s ((n + 1) * bs) =
      copy (copy m a src s (n * bs)) (a + n * bs) src (s + n * bs) bs := by
  funext i
  have hmul : (n + 1) * bs = n * bs + bs := Nat.succ_mul _ _
  unfold copy
  by_cases hi : a + n * bs ≤ i ∧ i < a + n * bs + bs
  · rw [if_pos hi, if_pos (by omega)]
    congr 1
    omega
  · rw [if_neg hi]
    by_cases hi' : a ≤ i ∧ i < a + n * bs
    · rw [if_pos hi', if_pos (by omega)]
    · rw [if_neg hi', if_neg (by omega)]

/-- A full slice, copied straight from the buffer. -/
theorem copy_bufBlock {bs size k a : Nat} {m : Bytes} (hk : (k + 1) * bs ≤ size) :
    copy d a (bufBlock bs m size k) 0 bs = copy d a m (k * bs) bs := by
  rw [Nat.succ_mul] at hk
  funext j
  unfold copy bufBlock
  by_cases hj : a ≤ j ∧ j < a + bs
  · rw [if_pos hj, if_pos hj, if_pos (by omega), Nat.zero_add]
  · rw [if_neg hj, if_neg hj]

/-- A run of consecutive blocks is written slice by slice. -/
theorem copy_eq_putSlices {bs size i start run : Nat} {m : Bytes} (hsize : (i + run) * bs ≤ size) :
    copy d (start * bs) m (i * bs) (run * bs) =
      putSlices bs m size ((List.range run).map (start + ·)) i d := by
  induction run with
  | zero =>
      funext j
      unfold copy
      rw [if_neg (by omega)]
      rfl
  | succ run ih =>
      have hle : (i + run) * bs ≤ size := (Nat.mul_le_mul_right _ (by omega)).trans hsize
      have hlast : (i + run + 1) * bs ≤ size := hsize
      rw [copy_succ, ih hle, List.range_succ, List.map_append, putSlices_append, List.length_map,
        List.length_range, List.map_singleton, putSlices, putSlices, copy_bufBlock hlast,
        Nat.add_mul, Nat.add_mul]

/-- Slice `k` is behind, the other blocks are as they were. -/
theorem putSlices_apply {bs size k a : Nat} {m : Bytes} {data : List Nat}
    (ha : ∀ b ∈ data, a < b * bs ∨ b * bs + bs ≤ a) : putSlices bs m size data k d a = d a := by
  induction data generalizing k d with
  | nil => rfl
  | cons b data ih =>
      rw [putSlices, ih fun c hc => ha c (List.mem_cons_of_mem _ hc)]
      have hb := ha b List.mem_cons_self
      unfold copy
      rw [if_neg (by omega)]

theorem putSlices_block {bs size k q : Nat} {m : Bytes} {data : List Nat} (hnodup : data.Nodup)
    {b : Nat} (hq : data[q]? = some b) :
    window (putSlices bs m size data k d) (b * bs) bs = bufBlock bs m size (k + q) := by
  induction data generalizing k d q with
  | nil => cases hq
  | cons c data ih =>
      obtain ⟨hc, hnodup⟩ := List.nodup_cons.mp hnodup
      rw [putSlices]
      cases q with
      | zero =>
          obtain rfl : c = b := by simpa using hq
          funext j
          unfold window
          by_cases hj : j < bs
          · have hrest : ∀ b' ∈ data, c * bs + j < b' * bs ∨ b' * bs + bs ≤ c * bs + j := by
              intro b' hb'
              rcases Nat.lt_or_gt_of_ne (fun h : c = b' => hc (h ▸ hb')) with h | h
              · have := Nat.mul_le_mul_right bs (Nat.succ_le_of_lt h)
                rw [Nat.succ_mul] at this
                omega
              · have := Nat.mul_le_mul_right bs (Nat.succ_le_of_lt h)
                rw [Nat.succ_mul] at this
                omega
            rw [if_pos hj, putSlices_apply hrest, copy_apply hj, Nat.zero_add]
            rfl
          · unfold bufBlock
            rw [if_neg hj, if_neg (by omega)]
      | succ q =>
          rw [List.getElem?_cons_succ] at hq
          rw [ih hnodup hq]
          congr 1
          omega

/-- Inside the list the run of `write-data!` from index `i` is found without an error. -/
theorem gives_writeRunLength {data : List Nat} {i start full k : Nat} (maxRun fuel : Nat)
    (hfull : full ≤ data.length) (hk : ∀ q < k, data[i + q]? = some (start + q))
    (hik : i + k ≤ full) :
    ∃ r, Gives (writeRunLength data i start full maxRun fuel k) d (.ok r) ∧ k ≤ r ∧
      i + r ≤ full ∧ ∀ q < r, data[i + q]? = some (start + q) := by
  induction fuel generalizing k with
  | zero => exact ⟨k, gives_pure _, le_rfl, hik, hk⟩
  | succ fuel ih =>
      unfold writeRunLength
      split_ifs with hc
      · have hget := List.getElem?_eq_getElem (show i + k < data.length by omega)
        by_cases he : data[i + k] = start + k
        · obtain ⟨r, hr, hle, hrest⟩ := ih (k := k + 1) (fun q hq => by
            rcases Nat.eq_or_lt_of_le (Nat.lt_succ_iff.mp hq) with rfl | hlt
            · rw [hget, he]
            · exact hk q hlt) (by omega)
          refine ⟨r, (gives_nth hget).bind ?_, by omega, hrest⟩
          rw [if_pos he]
          exact hr
        · refine ⟨k, (gives_nth hget).bind ?_, le_rfl, hik, hk⟩
          rw [if_neg he]
          exact gives_pure _
      · exact ⟨k, gives_pure _, le_rfl, hik, hk⟩

section Sized

variable (hs : fs.Sized)

include hs

theorem putsIf_writeSlices {buf : Buf} {size k : Nat} {data : List Nat} :
    PutsIf (writeSlices fs buf size data k) d (∀ b ∈ data, fs.CanWrite b) ()
      (putSlices fs.blockSize buf.bytes size data k d) := by
  induction data generalizing k d with
  | nil => exact putsIf_pure _ _ nofun
  | cons b data ih =>
      refine ((putsIf_writeBlocks hs le_rfl (by simp)).bind fun _ => ih).to ?_ ?_
      · rw [List.forall_mem_cons]
        rfl
      · rw [putSlices, Nat.one_mul]

/-- The run loop of `write-data!` writes the slices from index `i` up to `full`. -/
theorem putsIf_writeRuns {data : List Nat} {buf : Buf} {size full fuel i : Nat}
    (hfull : full ≤ data.length) (hfuel : full ≤ i + fuel) (hi : i ≤ full)
    (hsize : full * fs.blockSize ≤ size) (hcap : size ≤ buf.capacity) :
    PutsIf (writeRuns fs data buf full fuel i) d
      (∀ b ∈ (data.drop i).take (full - i), fs.CanWrite b) ()
      (putSlices fs.blockSize buf.bytes size ((data.drop i).take (full - i)) i d) := by
  induction fuel generalizing i d with
  | zero =>
      obtain rfl : i = full := by omega
      rw [Nat.sub_self, List.take_zero]
      exact putsIf_pure _ _ nofun
  | succ fuel ih =>
      unfold writeRuns
      by_cases hlt : i < full
      · rw [if_pos hlt]
        simp only
        have hget := List.getElem?_eq_getElem (show i < data.length by omega)
        refine (gives_nth hget).bindPuts ?_
        generalize data[i] = start at hget
        have hone : ∀ q < 1, data[i + q]? = some (start + q) := by
          intro q hq
          obtain rfl : q = 0 := by omega
          exact hget
        obtain ⟨run, hrun, hle, hin, hcons⟩ := gives_writeRunLength (d := d)
          (max 1 (maxRunBytes / fs.blockSize)) (max 1 (maxRunBytes / fs.blockSize)) hfull hone hlt
        refine hrun.bindPuts ?_
        -- the run is the next `run` blocks of the list
        have htake : (List.range run).map (start + ·) = (data.drop i).take run := by
          apply List.ext_getElem?
          intro q
          by_cases hq : q < run
          · rw [List.getElem?_map, List.getElem?_range hq, List.getElem?_take_of_lt hq,
              List.getElem?_drop, hcons q hq]
            rfl
          · rw [List.getElem?_eq_none (by simp; omega), List.getElem?_eq_none (by simp; omega)]
        have hsplit : (data.drop i).take (full - i) =
            (List.range run).map (start + ·) ++ (data.drop (i + run)).take (full - (i + run)) := by
          rw [htake, ← List.drop_drop, ← List.take_add]
          congr 1
          omega
        have hbytes : (i + run) * fs.blockSize ≤ size :=
          (Nat.mul_le_mul_right _ hin).trans hsize
        have hroom : i * fs.blockSize + run * fs.blockSize ≤ buf.capacity := by
          rw [← Nat.add_mul]
          exact hbytes.trans hcap
        refine ((putsIf_writeBlocks hs hle hroom).bind fun _ => ih (by omega) hin).to ?_ ?_
        · rw [hsplit, List.forall_mem_append, List.forall_mem_map, onDevice_run hle]
          refine and_congr ?_ Iff.rfl
          constructor
          · intro h
            exact ⟨(h 0 (List.mem_range.mpr hle)).1, fun q hq => (h q (List.mem_range.mpr hq)).2⟩
          · exact fun h q hq => ⟨h.1, h.2 q (List.mem_range.mp hq)⟩
        · rw [hsplit, putSlices_append, copy_eq_putSlices hbytes, List.length_map,
            List.length_range]
      · rw [if_neg hlt]
        obtain rfl : i = full := by omega
        rw [Nat.sub_self, List.take_zero]
        exact putsIf_pure _ _ nofun

/-- `write-data!` writes the slices of the buffer. -/
theorem putsIf_writeData {data : List Nat} {buf : Buf} {size : Nat}
    (hfull : size / fs.blockSize ≤ data.length) (hlen : data.length ≤ size / fs.blockSize + 1)
    (hcap : size ≤ buf.capacity) :
    PutsIf (writeData fs data buf size) d (∀ b ∈ data, fs.CanWrite b) ()
      (putSlices fs.blockSize buf.bytes size data 0 d) := by
  have hbs : 0 < fs.blockSize := by have := hs.le_bs; omega
  have hdm := Nat.div_add_mod size fs.blockSize
  have hmod := Nat.mod_lt size hbs
  rw [Nat.mul_comm] at hdm
  have hruns : PutsIf (writeRuns fs data buf (size / fs.blockSize) (size / fs.blockSize) 0) d _ _ _ :=
    putsIf_writeRuns hs hfull (Nat.le_add_left _ _) (Nat.zero_le _)
      (Nat.div_mul_le_self size fs.blockSize) hcap
  rw [List.drop_zero, Nat.sub_zero] at hruns
  unfold writeData
  simp only
  by_cases htail : data.length > size / fs.blockSize
  · have hsplit : data = data.take (size / fs.blockSize) ++ [data[size / fs.blockSize]] := by
      rw [List.take_append_getElem, List.take_of_length_le hlen]
    have hlenTake : (data.take (size / fs.blockSize)).length = size / fs.blockSize :=
      List.length_take_of_le hfull
    have htailBuf : ∀ d', Gives (copyBuf (Buf.alloc fs.blockSize) 0 buf
        (size / fs.blockSize * fs.blockSize) (size - size / fs.blockSize * fs.blockSize)) d'
        (.ok ⟨fs.blockSize, bufBlock fs.blockSize buf.bytes size (size / fs.blockSize)⟩) := by
      intro d'
      unfold copyBuf
      rw [if_pos ⟨by simp only [Buf.alloc]; omega, by omega⟩]
      refine (gives_pure _).to ?_
      simp only [Buf.alloc]
      rw [Buf.mk.injEq]
      refine ⟨rfl, ?_⟩
      funext j
      unfold copy bufBlock
      by_cases hj : j < size - size / fs.blockSize * fs.blockSize
      · rw [if_pos (by omega), if_pos (by omega), Nat.sub_zero]
      · rw [if_neg (by omega), if_neg (by omega)]
    rw [if_pos htail]
    have hblock : ∀ d', PutsIf (writeBlock fs data[size / fs.blockSize]
        ⟨fs.blockSize, bufBlock fs.blockSize buf.bytes size (size / fs.blockSize)⟩) d' _ () _ :=
      fun d' => putsIf_writeBlocks hs le_rfl (by simp)
    refine (hruns.bind fun _ => (htailBuf _).bindPuts
      ((gives_nth (List.getElem?_eq_getElem htail)).bindPuts (hblock _))).to ?_ ?_
    · conv_lhs => rw [hsplit]
      rw [List.forall_mem_append, List.forall_mem_singleton]
      rfl
    · conv_rhs => rw [hsplit]
      rw [putSlices_append, hlenTake, Nat.zero_add, Nat.one_mul]
      rfl
  · rw [if_neg htail]
    rw [List.take_of_length_le (by omega)] at hruns
    exact (hruns.bind (Q := True) fun _ => putsIf_pure _ _ trivial).to (by rw [and_true]) rfl

theorem givesIf_readBlock_content {b : Nat} :
    GivesIf (readBlock fs b) d (b ≠ 0 → fs.OnDevice b 1) ⟨fs.blockSize, fs.contentAt d b⟩ := by
  unfold Fs.contentAt
  by_cases hb : b = 0
  · subst hb
    exact (gives_pure _).givesIf fun h => absurd rfl h
  · exact (givesIf_readBlock hs hb).to (by simp [hb]) (by rw [if_neg hb])

theorem givesIf_readSlices {blocks : List Nat} :
    GivesIf (readSlices fs blocks) d (∀ b ∈ blocks, b ≠ 0 → fs.OnDevice b 1)
      (blocks.flatMap fun b => (Buf.mk fs.blockSize (fs.contentAt d b)).toList) := by
  induction blocks with
  | nil => exact (gives_pure _).givesIf nofun
  | cons b blocks ih =>
      refine ((givesIf_readBlock_content hs).bind fun _ => ih.then ?_).to ?_ rfl
      · exact gives_pure _
      · rw [List.forall_mem_cons]

end Sized

end Beeros.Ext2
