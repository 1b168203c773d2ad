import Beeros.Ext2Transfer

/-! File contents: `read-inode-data` reads the bytes of the mapped blocks, `write-data!` puts a buffer
there, and `build-map!` makes a map of given data blocks. -/

namespace Beeros.Ext2

open Memory Exec

variable {v : Volume} {d : Bytes}

/-! ### Reading -/

/-- The contents of an inode. -/
def Inode.contents (fs : Fs) (get : Nat → Bytes) (i : Inode) : Buf where
  capacity := i.size
  bytes j := if j < i.size then blockByte fs.blockSize get (i.blocksIn fs get) j else 0

theorem contentsOf_congr {bs size : Nat} {get get' : Nat → Bytes} {blocks : List Nat}
    (h : ∀ b ∈ blocks, b ≠ 0 → get' b = get b) :
    contentsOf bs get' blocks size = contentsOf bs get blocks size := by
  unfold contentsOf
  rw [Buf.mk.injEq]
  refine ⟨rfl, ?_⟩
  funext j
  unfold blockByte
  simp only
  split_ifs with hj h0
  · rfl
  · rw [h _ ?_ h0]
    by_cases hlt : j / bs < blocks.length
    · rw [List.getD_eq_getElem _ _ hlt]
      exact List.getElem_mem hlt
    · rw [List.getD_eq_default _ _ (by omega)] at h0
      exact absurd rfl h0
  · rfl

/-- `read-inode-data` returns the inode's contents. -/
theorem gives_readInodeData {i : Inode}
    (hind : ∀ b ∈ mapIndirects (v.view d).block v.ppb i.block, v.kind b = .data)
    (hdata : ∀ b ∈ i.blocksIn v.toFs (v.view d).block, b ≠ 0 → v.kind b = .data)
    (hsize : i.size ≤ (i.blocksIn v.toFs (v.view d).block).length * v.blockSize) :
    Gives (readInodeData v.toFs i) d (.ok (i.contents v.toFs (v.view d).block)) := by
  have hblocks := (gives_fileBlocks hind).givesIf trivial
  refine ((givesIf_readInodeData v.sized hblocks hsize).1 ⟨trivial, fun b hb hb0 => ?_⟩).to ?_
  · exact onDevice_of_le (v.data_inRange (hdata b hb hb0)).2
  · exact contentsOf_congr fun b hb hb0 => (if_pos (hdata b hb hb0)).symm

/-! ### Blocks rewritten -/

def Vol.setBlocks (x : Vol) (f : Nat → Bytes) : Vol := { x with block := f }

/-- The contents of the blocks in `l` may differ, nothing else does. -/
structure Rewrote (x x' : Vol) (l : List Nat) : Prop where
  rest : x' = x.setBlocks x'.block
  block : ∀ b, b ∉ l → x'.block b = x.block b

/-- The blocks of `l` have been taken and written. -/
def Wrote (v : Volume) (x x' : Vol) (l : List Nat) : Prop :=
  ∃ y, Taken v x y l ∧ Rewrote y x' l

section Rewrote

variable {x x' x'' : Vol} {l l' : List Nat}

theorem rewrote_refl (x : Vol) (l : List Nat) : Rewrote x x l := ⟨rfl, fun _ _ => rfl⟩

theorem rewrote_setBlock {b : Nat} {m : Bytes} (hb : b ∈ l) : Rewrote x (x.setBlock b m) l := by
  refine ⟨rfl, fun c hc => ?_⟩
  have hne : c ≠ b := fun he => hc (he ▸ hb)
  exact Function.update_of_ne hne _ _

theorem Rewrote.trans (h : Rewrote x x' l) (h' : Rewrote x' x'' l') : Rewrote x x'' (l ++ l') := by
  refine ⟨?_, fun b hb => ?_⟩
  · rw [h'.rest, h.rest]
    rfl
  · rw [List.mem_append, not_or] at hb
    rw [h'.block b hb.2, h.block b hb.1]

theorem Rewrote.mono (h : Rewrote x x' l) (hl : ∀ b ∈ l, b ∈ l') : Rewrote x x' l' :=
  ⟨h.rest, fun b hb => h.block b fun hb' => hb (hl b hb')⟩

/-- Neither the bits nor the counters depend on the contents of blocks. -/
theorem Taken.setBlocks (h : Taken v x x' l) (f : Nat → Bytes) :
    Taken v (x.setBlocks f) (x'.setBlocks f) l :=
  ⟨h.nodup, h.clear, h.blockBit, h.freeBlocks, h.sbFreeBlocks, h.freeInodes, h.usedDirs,
    h.sbFreeInodes, h.sbStatic, h.gdStatic, h.inodeBit, h.inode, rfl⟩

theorem wrote_refl (v : Volume) (x : Vol) : Wrote v x x [] := ⟨x, taken_refl v x, rewrote_refl _ _⟩

theorem Taken.wrote (h : Taken v x x' l) : Wrote v x x' l := ⟨x', h, rewrote_refl _ _⟩

theorem Wrote.rewrote (h : Wrote v x x' l) (h' : Rewrote x' x'' l) : Wrote v x x'' l := by
  obtain ⟨y, ht, hr⟩ := h
  exact ⟨y, ht, (hr.trans h').mono fun b hb => by simpa using hb⟩

theorem Wrote.trans (h : Wrote v x x' l) (h' : Wrote v x' x'' l') : Wrote v x x'' (l ++ l') := by
  obtain ⟨y, ht, hr⟩ := h
  obtain ⟨y', ht', hr'⟩ := h'
  have hy : Taken v y (y'.setBlocks y.block) l' := by
    have := ht'.setBlocks y.block
    rw [hr.rest] at this
    exact this
  refine ⟨_, ht.trans hy, ?_, fun b hb => ?_⟩
  · rw [hr'.rest]
    rfl
  · rw [List.mem_append, not_or] at hb
    rw [hr'.block b hb.2, ht'.block, hr.block b hb.1]
    rfl

theorem Wrote.perm (h : Wrote v x x' l) (hp : l.Perm l') : Wrote v x x' l' := by
  obtain ⟨y, ht, hr⟩ := h
  exact ⟨y, ht.perm hp, hr.mono fun b hb => hp.mem_iff.mp hb⟩

theorem Wrote.block (h : Wrote v x x' l) {b : Nat} (hb : b ∉ l) : x'.block b = x.block b := by
  obtain ⟨y, ht, hr⟩ := h
  rw [hr.block b hb, ht.block]

theorem Wrote.inode (h : Wrote v x x' l) : x'.inode = x.inode := by
  obtain ⟨y, ht, hr⟩ := h
  rw [hr.rest]
  exact ht.inode

theorem Wrote.blockBit (h : Wrote v x x' l) (b : Nat) :
    x'.blockBit b = (x.blockBit b || decide (b ∈ l)) := by
  obtain ⟨y, ht, hr⟩ := h
  rw [hr.rest]
  exact ht.blockBit b

theorem Wrote.nodup (h : Wrote v x x' l) : l.Nodup := by
  obtain ⟨y, ht, -⟩ := h
  exact ht.nodup

theorem Wrote.clear (h : Wrote v x x' l) : ∀ b ∈ l, v.InRange b ∧ x.blockBit b = false := by
  obtain ⟨y, ht, -⟩ := h
  exact ht.clear

end Rewrote

/-- Every clear bit of the block bitmaps is a data block's. -/
def MetaMarked (v : Volume) (x : Vol) : Prop :=
  ∀ b, v.InRange b → x.blockBit b = false → v.kind b = .data

theorem MetaMarked.wrote {x x' : Vol} {l : List Nat} (h : MetaMarked v x) (hw : Wrote v x x' l) :
    MetaMarked v x' := by
  intro b hb hbit
  rw [hw.blockBit, Bool.or_eq_false_iff] at hbit
  exact h b hb hbit.1

theorem MetaMarked.data {x x' : Vol} {l : List Nat} (h : MetaMarked v x) (hw : Wrote v x x' l) :
    ∀ b ∈ l, v.kind b = .data :=
  fun b hb => h b (hw.clear b hb).1 (hw.clear b hb).2

/-! ### Writing -/

theorem writeRunLength_ok {data : List Nat} {i start full maxRun fuel k r : Nat} {w w' : World}
    (h : writeRunLength data i start full maxRun fuel k w = .ok r w')
    (hk : ∀ q < k, data[i + q]? = some (start + q)) (hik : i + k ≤ full) :
    w = w' ∧ k ≤ r ∧ i + r ≤ full ∧ ∀ q < r, data[i + q]? = some (start + q) := by
  induction fuel generalizing k with
  | zero =>
      obtain ⟨rfl, rfl⟩ := pure_ok.mp h
      exact ⟨rfl, le_rfl, hik, hk⟩
  | succ fuel ih =>
      unfold writeRunLength at h
      split_ifs at h with hc
      · obtain ⟨b, w1, h1, h⟩ := bind_ok.mp h
        obtain ⟨hb, rfl⟩ := nth_ok.mp h1
        split_ifs at h with he
        · obtain ⟨hw, hle, hrest⟩ := ih h (fun q hq => by
            rcases Nat.eq_or_lt_of_le (Nat.lt_succ_iff.mp hq) with rfl | hlt
            · rw [hb, he]
            · exact hk q hlt) (by omega)
          exact ⟨hw, by omega, hrest⟩
        · obtain ⟨rfl, rfl⟩ := pure_ok.mp h
          exact ⟨rfl, le_rfl, hik, hk⟩
      · obtain ⟨rfl, rfl⟩ := pure_ok.mp h
        exact ⟨rfl, le_rfl, hik, hk⟩

/-- The run loop of `write-data!` needs a block for every full slice. -/
theorem writeRuns_le {data : List Nat} {buf : Buf} {full fuel i : Nat} {w w' : World} {u : Unit}
    (h : writeRuns v.toFs data buf full fuel i w = .ok u w') (hfuel : full ≤ i + fuel)
    (hi : i < full) : full ≤ data.length := by
  induction fuel generalizing i w with
  | zero => omega
  | succ fuel ih =>
      unfold writeRuns at h
      rw [if_pos hi] at h
      obtain ⟨start, w1, h1, h⟩ := bind_ok.mp h
      obtain ⟨hstart, rfl⟩ := nth_ok.mp h1
      obtain ⟨run, w2, h2, h⟩ := bind_ok.mp h
      obtain ⟨rfl, hrun, hfull, hcons⟩ := writeRunLength_ok h2 (fun q hq => by
        obtain rfl : q = 0 := by omega
        exact hstart) (by omega)
      obtain ⟨_, w3, h3, h4⟩ := bind_ok.mp h
      by_cases hmore : i + run < full
      · exact ih h4 (by omega) hmore
      · have := (List.getElem?_eq_some_iff.mp (hcons (run - 1) (by omega))).1
        omega

/-- Data blocks written one by one. -/
theorem rewrote_putSlices {m : Bytes} {size k : Nat} {data : List Nat}
    (hdata : ∀ b ∈ data, v.kind b = .data) :
    Rewrote (v.view d) (v.view (putSlices v.blockSize m size data k d)) data := by
  induction data generalizing k d with
  | nil => exact rewrote_refl _ _
  | cons b data ih =>
      rw [putSlices]
      have hagree : AgreeOutside d (copy d (b * v.blockSize) (bufBlock v.blockSize m size k) 0
          v.blockSize) (b * v.blockSize) (b * v.blockSize + v.blockSize) :=
        agreeOutside_copy le_rfl le_rfl
      have hview := Volume.view_setBlock hagree (hdata b List.mem_cons_self)
      have hfirst : Rewrote (v.view d) (v.view (copy d (b * v.blockSize)
          (bufBlock v.blockSize m size k) 0 v.blockSize)) [b] := by
        rw [hview]
        exact rewrote_setBlock List.mem_cons_self
      exact hfirst.trans (ih fun c hc => hdata c (List.mem_cons_of_mem _ hc))

/-- `write-data!` fills the blocks with the buffer's first `size` bytes. -/
theorem writeData_ok {data : List Nat} {buf : Buf} {size : Nat} {w w' : World} {u : Unit}
    (h : writeData v.toFs data buf size w = .ok u w') (hnodup : data.Nodup)
    (hdata : ∀ b ∈ data, v.kind b = .data) (hlen : data.length ≤ size / v.blockSize + 1)
    (hcap : size ≤ buf.capacity) :
    Rewrote (v.view w.disk) (v.view w'.disk) data ∧ size / v.blockSize ≤ data.length ∧
      ∀ k < data.length, (v.view w'.disk).block (data.getD k 0) =
        bufBlock v.blockSize buf.bytes size k := by
  have hfull : size / v.blockSize ≤ data.length := by
    obtain ⟨_, w1, h1, -⟩ := bind_ok.mp h
    by_cases h0 : 0 < size / v.blockSize
    · exact writeRuns_le h1 (by omega) h0
    · omega
  obtain ⟨-, hd, -⟩ := (putsIf_writeData v.sized hfull hlen hcap).of_ok rfl h
  rw [hd]
  refine ⟨rewrote_putSlices hdata, hfull, fun k hk => ?_⟩
  have hget : data[k]? = some (data.getD k 0) := by
    rw [List.getD_eq_getElem _ _ hk, List.getElem?_eq_getElem hk]
  have hblock : window (putSlices v.blockSize buf.bytes size data 0 w.disk) _ _ = _ :=
    putSlices_block hnodup hget
  rw [Nat.zero_add] at hblock
  rw [← hblock]
  exact if_pos (hdata _ (List.mem_of_getElem? hget))

end Beeros.Ext2
