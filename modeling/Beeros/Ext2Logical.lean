import Beeros.Ext2Check

/-! `file-blocks` is the ext2 map from logical to physical blocks, on any image: the rule is stated
with the base-`ppb` digits of the logical block number, the code's `collect` counts entries off. The
transfers of whole runs of blocks do what transfers block by block do. The map that `build-map!` writes is
the one that is read. -/

namespace Beeros.Ext2

open Memory Exec

/-! ### The rule -/

section Rule

variable (get : Nat → Bytes) (ppb : Nat) (block : List Nat)

/-- Where logical block `k` starts from: a pointer of the block array, and the pointers to follow
in the indirect blocks one after the other. -/
def address (k : Nat) : Nat × List Nat :=
  if k < 12 then (block.getD k 0, [])
  else if k < 12 + ppb then (block.getD 12 0, [k - 12])
  else if k < 12 + ppb + ppb ^ 2 then
    let j := k - (12 + ppb)
    (block.getD 13 0, [j / ppb, j % ppb])
  else
    let j := k - (12 + ppb + ppb ^ 2)
    (block.getD 14 0, [j / ppb ^ 2, j / ppb % ppb, j % ppb])

/-- The block at the end of a chain of pointers; 0 if one on the way is 0. -/
def follow : Nat → List Nat → Nat
  | blk, [] => blk
  | blk, i :: is => if blk = 0 then 0 else follow (pointer (get blk) i) is

/-- The indirect blocks read on the way. -/
def followed : Nat → List Nat → List Nat
  | _, [] => []
  | blk, i :: is => if blk = 0 then [] else blk :: followed (pointer (get blk) i) is

/-- The physical block of logical block `k`, 0 for a hole. -/
def logicalBlock (k : Nat) : Nat := follow get (address ppb block k).1 (address ppb block k).2

/-- The indirect blocks on the way to logical block `k`. -/
def indirectsOf (k : Nat) : List Nat := followed get (address ppb block k).1 (address ppb block k).2

end Rule

/-! ### The code's way is the rule's -/

variable {get : Nat → Bytes} {ppb : Nat} {block : List Nat}

/-- The digits of an entry's number below an indirect block of a depth. -/
def digits (ppb : Nat) : Nat → Nat → List Nat
  | 0, _ => []
  | depth + 1, k => k / ppb ^ depth :: digits ppb depth (k % ppb ^ depth)

theorem digits_succ (depth k : Nat) :
    digits ppb (depth + 1) k = k / ppb ^ depth :: digits ppb depth (k % ppb ^ depth) := rfl

theorem walk_eq_follow (depth blk k : Nat) :
    walk get ppb depth blk k = follow get blk (digits ppb depth k) := by
  induction depth generalizing blk k with
  | zero => rfl
  | succ depth ih => rw [walk_succ, digits_succ, follow, ih]

theorem wayTo_eq_followed (depth blk k : Nat) :
    wayTo get ppb depth blk k = followed get blk (digits ppb depth k) := by
  induction depth generalizing blk k with
  | zero => rfl
  | succ depth ih => rw [wayTo_succ, digits_succ, followed, ih]

theorem digits_one (k : Nat) : digits ppb 1 k = [k] := by
  rw [digits_succ, pow_zero, Nat.div_one]
  rfl

theorem digits_two (k : Nat) : digits ppb 2 k = [k / ppb, k % ppb] := by
  rw [digits_succ, pow_one, digits_one]

theorem digits_three (k : Nat) : digits ppb 3 k = [k / ppb ^ 2, k / ppb % ppb, k % ppb] := by
  rw [digits_succ, digits_two, pow_two, Nat.mod_mul_right_div_self, Nat.mod_mul_right_mod]

/-- The pointer and the digits for entry `k` of a list of pointers with their depths. -/
def addressTops (ppb : Nat) : List (Nat × Nat) → Nat → Nat × List Nat
  | [], _ => (0, [])
  | (blk, depth) :: ts, k =>
      if k < ppb ^ depth then (blk, digits ppb depth k) else addressTops ppb ts (k - ppb ^ depth)

theorem walkTops_eq_follow (ts : List (Nat × Nat)) (k : Nat) :
    walkTops get ppb ts k = follow get (addressTops ppb ts k).1 (addressTops ppb ts k).2 := by
  induction ts generalizing k with
  | nil => rfl
  | cons t ts ih =>
      rw [walkTops_cons, addressTops]
      split_ifs with hk
      · exact walk_eq_follow _ _ _
      · exact ih _

theorem wayToTops_eq_followed (ts : List (Nat × Nat)) (k : Nat) :
    wayToTops get ppb ts k = followed get (addressTops ppb ts k).1 (addressTops ppb ts k).2 := by
  induction ts generalizing k with
  | nil => rfl
  | cons t ts ih =>
      rw [wayToTops_cons, addressTops]
      split_ifs with hk
      · exact wayTo_eq_followed _ _ _
      · exact ih _

theorem addressTops_direct {l : List Nat} {ts : List (Nat × Nat)} (k : Nat) :
    addressTops ppb (l.map (·, 0) ++ ts) k =
      if k < l.length then (l.getD k 0, []) else addressTops ppb ts (k - l.length) := by
  induction l generalizing k with
  | nil =>
      rw [List.length_nil, if_neg (Nat.not_lt_zero k)]
      rfl
  | cons b l ih =>
      rw [List.map_cons, List.cons_append, addressTops, pow_zero, List.length_cons]
      cases k with
      | zero =>
          rw [if_pos Nat.one_pos, if_pos (Nat.succ_pos _)]
          rfl
      | succ k =>
          rw [if_neg (by omega), Nat.add_sub_cancel, ih, List.getD_cons_succ,
            Nat.add_sub_add_right]
          congr 1
          rw [Nat.add_lt_add_iff_right]

theorem addressTops_tops (hlen : 12 ≤ block.length) {k : Nat}
    (hk : k < 12 + ppb + ppb ^ 2 + ppb ^ 3) :
    addressTops ppb (tops block) k = address ppb block k := by
  have hdirect : (block.take 12).length = 12 := by
    rw [List.length_take]
    omega
  unfold tops address
  rw [addressTops_direct, hdirect]
  split_ifs with h1 h2 h3
  · congr 1
    rw [List.getD_eq_getElem?_getD, List.getElem?_take_of_lt h1, List.getD_eq_getElem?_getD]
  · rw [addressTops, pow_one, if_pos (by omega), digits_one]
  · rw [addressTops, pow_one, if_neg (by omega), addressTops, if_pos (by omega), digits_two,
      Nat.sub_sub]
  · rw [addressTops, pow_one, if_neg (by omega), addressTops, if_neg (by omega), addressTops,
      if_pos (by omega), digits_three, Nat.sub_sub, Nat.sub_sub, Nat.add_assoc]

/-! ### `file-blocks` -/

/-- Whatever the image holds, `file-blocks` either meets an indirect block that is not on the device
or gives the block of every logical block by the rule. -/
theorem givesIf_fileBlocks_logical {fs : Fs} {d : Bytes} {i : Inode} (hs : fs.Sized)
    (hlen : i.block.length = 15)
    (hsize : ceilDiv i.size fs.blockSize ≤ 12 + fs.ppb + fs.ppb ^ 2 + fs.ppb ^ 3) :
    GivesIf (fileBlocks fs i) d
      (∀ k < ceilDiv i.size fs.blockSize, ∀ b ∈ indirectsOf (fs.blockAt d) fs.ppb i.block k,
        fs.OnDevice b 1)
      ((List.range (ceilDiv i.size fs.blockSize)).map
        (logicalBlock (fs.blockAt d) fs.ppb i.block)) := by
  have hcap : min (ceilDiv i.size fs.blockSize) (topsCapacity fs.ppb (tops i.block)) =
      ceilDiv i.size fs.blockSize := by
    rw [topsCapacity_tops (by omega)]
    omega
  refine (givesIf_fileBlocks hs).to ?_ ?_
  · rw [hcap]
    refine forall₂_congr fun k hk => ?_
    rw [wayToTops_eq_followed, addressTops_tops (by omega) (by omega)]
    rfl
  · unfold Inode.blocksIn mapped
    rw [hcap]
    apply List.map_congr_left
    intro k hk
    rw [walkTops_eq_follow, addressTops_tops (by omega)
      ((List.mem_range.mp hk).trans_le hsize)]
    rfl

/-- What `file-blocks` returns is the map by the rule. It returns where every indirect block it
comes by lies on the device, and on a device that works there only. -/
theorem fileBlocks_logical {fs : Fs} (hs : fs.Sized) {i : Inode} (hlen : i.block.length = 15)
    (hsize : ceilDiv i.size fs.blockSize ≤ 12 + fs.ppb + fs.ppb ^ 2 + fs.ppb ^ 3) (w : World) :
    (∀ l w', fileBlocks fs i w = .ok l w' → l.length = ceilDiv i.size fs.blockSize ∧
      (∀ k < ceilDiv i.size fs.blockSize,
        l[k]? = some (logicalBlock (fs.blockAt w.disk) fs.ppb i.block k)) ∧ w'.disk = w.disk) ∧
    ((∀ n, w.fails n = false) → ((∃ l w', fileBlocks fs i w = .ok l w') ↔
      ∀ k < ceilDiv i.size fs.blockSize, ∀ b ∈ indirectsOf (fs.blockAt w.disk) fs.ppb i.block k,
        fs.OnDevice b 1)) := by
  have hgives := givesIf_fileBlocks_logical (d := w.disk) hs hlen hsize
  constructor
  · intro l w' h
    obtain ⟨-, rfl, hd⟩ := hgives.of_ok rfl h
    refine ⟨by rw [List.length_map, List.length_range], fun k hk => ?_, hd⟩
    rw [List.getElem?_map, List.getElem?_range hk]
    rfl
  · intro hf
    constructor
    · rintro ⟨l, w', h⟩
      exact (hgives.of_ok rfl h).1
    · intro hon
      obtain ⟨w', h, -⟩ := (hgives.1 hon).run rfl hf
      exact ⟨_, w', h⟩

theorem smallFs_sized (n : Nat) : (smallFs n).Sized where
  spb_mul := show 2 * 512 = 1024 by omega
  le_bs := show 1024 ≤ 1024 by omega

/-- An inode of 13 blocks with a single indirect block 99. -/
def strayInode : Inode where
  ino := 12
  mode := 0x81A4
  size := 13 * 1024
  uid := 0
  gid := 0
  links := 1
  mtime := 0
  sectors := 28
  fileAcl := 0
  flags := 0
  block := [0, 0, 0, 0, 0, 0, 0, 0, 0, 0, 0, 0, 99, 0, 0]
  iBlock := Buf.alloc 60

theorem fileBlocks_logical_sample :
    (∀ l w', fileBlocks (smallFs 16) strayInode sampleWorld = .ok l w' → l.length = 13 ∧
      (∀ k < 13, l[k]? = some
        (logicalBlock ((smallFs 16).blockAt sampleWorld.disk) 256 strayInode.block k)) ∧
      w'.disk = sampleWorld.disk) ∧
    ((∀ n, sampleWorld.fails n = false) →
      ((∃ l w', fileBlocks (smallFs 16) strayInode sampleWorld = .ok l w') ↔
        ∀ k < 13, ∀ b ∈ indirectsOf ((smallFs 16).blockAt sampleWorld.disk) 256 strayInode.block k,
          (smallFs 16).OnDevice b 1)) :=
  fileBlocks_logical (smallFs_sized 16) (i := strayInode) rfl (by decide) sampleWorld

/-- Block 99 is behind the end of a device of 16 blocks: nothing is returned. -/
theorem not_fileBlocks_stray :
    ¬∃ l w', fileBlocks (smallFs 16) strayInode sampleWorld = .ok l w' := by
  rintro ⟨l, w', h⟩
  have hthrown : thrown (fileBlocks (smallFs 16) strayInode sampleWorld) = some .device := by
    decide
  rw [h] at hthrown
  cases hthrown

/-! ### Transfers -/

theorem blockByte_cons_add {bs b j : Nat} {blocks : List Nat} (hbs : 0 < bs) :
    blockByte bs get (b :: blocks) (bs + j) = blockByte bs get blocks j := by
  unfold blockByte
  rw [Nat.add_div_left _ hbs, Nat.add_mod_left]
  rfl

/-- The bytes of the blocks one after the other are the bytes of the contents. -/
theorem flatMap_toList {fs : Fs} {d : Bytes} (hbs : 0 < fs.blockSize) (blocks : List Nat) :
    (blocks.flatMap fun b => (Buf.mk fs.blockSize (fs.contentAt d b)).toList) =
      (List.range (blocks.length * fs.blockSize)).map
        (blockByte fs.blockSize (fs.blockAt d) blocks) := by
  induction blocks with
  | nil => rw [List.length_nil, Nat.zero_mul, List.range_zero, List.map_nil, List.flatMap_nil]
  | cons b blocks ih =>
      rw [List.flatMap_cons, ih, List.length_cons, Nat.succ_mul, Nat.add_comm, List.range_add,
        List.map_append, List.map_map]
      congr 1
      · unfold Buf.toList
        apply List.map_congr_left
        intro j hj
        have hj : j < fs.blockSize := List.mem_range.mp hj
        unfold blockByte Fs.contentAt
        rw [Nat.div_eq_of_lt hj, Nat.mod_eq_of_lt hj]
        show (if b = 0 then fun _ => 0 else fs.blockAt d b) j = if b = 0 then 0 else fs.blockAt d b j
        split_ifs <;> rfl
      · apply List.map_congr_left
        intro j _
        exact (blockByte_cons_add hbs).symm

theorem contentsOf_toList {bs size : Nat} {blocks : List Nat} (hsize : size ≤ blocks.length * bs) :
    (contentsOf bs get blocks size).toList =
      ((List.range (blocks.length * bs)).map (blockByte bs get blocks)).take size := by
  rw [← List.map_take, List.take_range, Nat.min_eq_left hsize]
  apply List.map_congr_left
  intro j hj
  exact if_pos (List.mem_range.mp hj)

theorem ceilDiv_bounds {a n : Nat} (hn : 0 < n) :
    a / n ≤ ceilDiv a n ∧ ceilDiv a n ≤ a / n + 1 ∧ a ≤ ceilDiv a n * n := by
  refine ⟨Nat.div_le_div_right (by omega), ceilDiv_le hn, ?_⟩
  by_contra h
  exact absurd ((lt_ceilDiv hn).mpr (Nat.lt_of_not_le h)) (Nat.lt_irrefl _)

/-- `read-inode-data` returns the first bytes of the blocks read one by one, and `write-data!` leaves
the disk that writing the slices one by one leaves: on a device that works, each ends well exactly
where its reference does. -/
theorem transfers_coalesced {fs : Fs} (hs : fs.Sized) :
    (∀ (i : Inode) (blocks : List Nat) (w : World), Gives (fileBlocks fs i) w.disk (.ok blocks) →
      ceilDiv i.size fs.blockSize = blocks.length →
      ((∀ n, w.fails n = false) → ((∃ r w', readInodeData fs i w = .ok r w') ↔
        ∃ l w', readSlices fs blocks w = .ok l w')) ∧
      ∀ r w₁ l w₂, readInodeData fs i w = .ok r w₁ → readSlices fs blocks w = .ok l w₂ →
        r.toList = l.take i.size ∧ r.capacity = i.size ∧ w₁.disk = w.disk) ∧
    ∀ (data : List Nat) (buf : Buf) (size : Nat) (w : World), data.Nodup → size ≤ buf.capacity →
      ceilDiv size fs.blockSize = data.length →
      ((∀ n, w.fails n = false) → ((∃ u w', writeData fs data buf size w = .ok u w') ↔
        ∃ u w', writeSlices fs buf size data 0 w = .ok u w')) ∧
      ∀ u w', writeData fs data buf size w = .ok u w' →
        (∀ u' w'', writeSlices fs buf size data 0 w = .ok u' w'' → w''.disk = w'.disk) ∧
        (∀ k b, data[k]? = some b →
          fs.blockAt w'.disk b = bufBlock fs.blockSize buf.bytes size k) ∧
        ∀ a, (∀ b ∈ data, a < b * fs.blockSize ∨ b * fs.blockSize + fs.blockSize ≤ a) →
          w'.disk a = w.disk a := by
  have hbs : 0 < fs.blockSize := by have := hs.le_bs; omega
  constructor
  · intro i blocks w hblocks hlen
    have hsize : i.size ≤ blocks.length * fs.blockSize := hlen ▸ (ceilDiv_bounds hbs).2.2
    have hread := givesIf_readInodeData hs (hblocks.givesIf trivial) hsize
    have href : GivesIf (readSlices fs blocks) w.disk _ _ := givesIf_readSlices hs
    constructor
    · intro hf
      constructor
      · rintro ⟨r, w', h⟩
        obtain ⟨w₂, h₂, -⟩ := (href.1 (hread.of_ok rfl h).1.2).run rfl hf
        exact ⟨_, w₂, h₂⟩
      · rintro ⟨l, w', h⟩
        obtain ⟨w₂, h₂, -⟩ := (hread.1 ⟨trivial, (href.of_ok rfl h).1⟩).run rfl hf
        exact ⟨_, w₂, h₂⟩
    · intro r w₁ l w₂ h₁ h₂
      obtain ⟨-, rfl, hd⟩ := hread.of_ok rfl h₁
      obtain ⟨-, rfl, -⟩ := href.of_ok rfl h₂
      refine ⟨?_, rfl, hd⟩
      rw [flatMap_toList hbs, contentsOf_toList hsize]
  · intro data buf size w hnodup hcap hlen
    have hbounds : size / fs.blockSize ≤ _ ∧ _ := ceilDiv_bounds hbs
    obtain ⟨hfull, hfull', -⟩ := hbounds
    rw [hlen] at hfull hfull'
    have hwrite := putsIf_writeData (d := w.disk) hs hfull hfull' hcap
    have href : PutsIf (writeSlices fs buf size data 0) w.disk _ _ _ := putsIf_writeSlices hs
    constructor
    · intro hf
      constructor
      · rintro ⟨u, w', h⟩
        exact ⟨_, href.run rfl hf (hwrite.of_ok rfl h).1⟩
      · rintro ⟨u, w', h⟩
        exact ⟨_, hwrite.run rfl hf (href.of_ok rfl h).1⟩
    · intro u w' h
      obtain ⟨-, hd, -⟩ := hwrite.of_ok rfl h
      refine ⟨fun u' w'' h' => ?_, fun k b hb => ?_, fun a ha => ?_⟩
      · rw [hd]
        exact (href.of_ok rfl h').2.1
      · unfold Fs.blockAt
        rw [hd, putSlices_block hnodup hb, Nat.zero_add]
      · rw [hd]
        exact putSlices_apply ha

/-- An inode of two blocks and a hole. -/
def sparseInode : Inode := { strayInode with
  size := 2500
  block := [7, 0, 8, 0, 0, 0, 0, 0, 0, 0, 0, 0, 0, 0, 0] }

theorem gives_fileBlocks_sparse :
    Gives (fileBlocks (smallFs 16) sparseInode) sampleWorld.disk (.ok [7, 0, 8]) := by
  have h := givesIf_fileBlocks_logical (d := sampleWorld.disk) (smallFs_sized 16)
    (i := sparseInode) rfl (by decide)
  refine (h.1 ?_).to rfl
  intro k hk b hb
  have hk : k < 3 := hk
  interval_cases k <;> cases hb

theorem transfers_coalesced_sample :
    ((∃ r w', readInodeData (smallFs 16) sparseInode sampleWorld = .ok r w') ↔
      ∃ l w', readSlices (smallFs 16) [7, 0, 8] sampleWorld = .ok l w') ∧
    ((∃ u w', writeData (smallFs 16) [10, 11, 9] (Buf.alloc 2500) 2500 sampleWorld = .ok u w') ↔
      ∃ u w', writeSlices (smallFs 16) (Buf.alloc 2500) 2500 [10, 11, 9] 0 sampleWorld = .ok u w') :=
  ⟨((transfers_coalesced (smallFs_sized 16)).1 sparseInode [7, 0, 8] sampleWorld
      gives_fileBlocks_sparse (by decide)).1 fun _ => rfl,
    ((transfers_coalesced (smallFs_sized 16)).2 [10, 11, 9] (Buf.alloc 2500) 2500 sampleWorld
      (by decide) le_rfl (by decide)).1 fun _ => rfl⟩

/-! ### Maps that `build-map!` wrote -/

section Written

variable {v : Volume} {d : Bytes} {i : Inode}

/-- `all-blocks` of an inode whose indirect blocks are data blocks of the volume. -/
theorem gives_allBlocks_eq
    (hind : ∀ b ∈ mapIndirects (v.view d).block v.ppb i.block, v.kind b = .data) :
    Gives (allBlocks v.toFs i) d (.ok (if fastSymlink v.toFs i then [] else
      i.blocksIn v.toFs (v.view d).block ++ mapIndirects (v.view d).block v.ppb i.block)) := by
  unfold allBlocks
  split_ifs with hfast
  · exact gives_pure _
  · refine (gives_fileBlocks hind).bind
      ((gives_indirectBlocks fun b hb => hind b ?_).bind
      ((gives_indirectBlocks fun b hb => hind b ?_).bind
      ((gives_indirectBlocks fun b hb => hind b ?_).bind ?_)))
    · exact List.mem_append_left _ (List.mem_append_left _ hb)
    · exact List.mem_append_left _ (List.mem_append_right _ hb)
    · exact List.mem_append_right _ hb
    · unfold mapIndirects
      rw [← List.append_assoc, ← List.append_assoc]
      exact gives_pure _

/-- A size in the last of `n` blocks. -/
theorem ceilDiv_eq {a n k : Nat} (hk : 0 < k) (hlt : n * k < a + k) (hle : a ≤ n * k) :
    ceilDiv a k = n := by
  apply le_antisymm
  · apply Nat.le_of_not_lt
    intro h
    exact absurd ((lt_ceilDiv hk).mp h) (Nat.not_lt.mpr hle)
  · cases n with
    | zero => exact Nat.zero_le _
    | succ n =>
        apply (lt_ceilDiv hk).mpr
        rw [Nat.succ_mul] at hlt
        exact Nat.lt_of_add_lt_add_right hlt

/-- The map that `build-map!` wrote for a list of blocks is read back as that list, and its indirect
blocks are new. -/
theorem buildMap_readBack {goal : Nat} {data : List Nat} {path : Str} {r : List Nat × Nat}
    {w w' : World} (hm : MetaMarked v (v.view w.disk))
    (hdata : ∀ b ∈ data, (v.view w.disk).blockBit b = true)
    (h : buildMap v.toFs goal data path w = .ok r w') (hblock : i.block = r.1)
    (hlt : data.length * v.blockSize < i.size + v.blockSize)
    (hle : i.size ≤ data.length * v.blockSize) :
    Gives (fileBlocks v.toFs i) w'.disk (.ok data) ∧
    ∃ single double, Gives (indirectBlocks v.toFs 1 (r.1.getD 12 0)) w'.disk (.ok single) ∧
      Gives (indirectBlocks v.toFs 2 (r.1.getD 13 0)) w'.disk (.ok double) ∧
      (single ++ double).Nodup ∧ (∀ b ∈ single ++ double, b ∉ data) ∧
      (single ++ double).length = r.2 ∧
      Gives (allBlocks v.toFs i) w'.disk
        (.ok (if fastSymlink v.toFs i then [] else data ++ (single ++ double))) := by
  obtain ⟨ind, hbuilt, hextra⟩ := buildMap_ok h hm
  have hbs : 0 < v.blockSize := v.bs_pos
  have hnew : ∀ b ∈ mapIndirects (v.view w'.disk).block v.ppb r.1, b ∈ ind :=
    fun b hb => hbuilt.indirects.mem_iff.mp hb
  have hkind : ∀ b ∈ mapIndirects (v.view w'.disk).block v.ppb r.1, v.kind b = .data :=
    fun b hb => hm.data hbuilt.wrote b (hnew b hb)
  have hcount : ceilDiv i.size v.blockSize = data.length := ceilDiv_eq hbs hlt hle
  have hread : i.blocksIn v.toFs (v.view w'.disk).block = data := by
    unfold Inode.blocksIn
    rw [hblock, hcount]
    exact hbuilt.mapped
  -- there is no triple indirect block
  have hmap : mapIndirects (v.view w'.disk).block v.ppb r.1 =
      indirects (v.view w'.disk).block v.ppb 1 (r.1.getD 12 0) ++
        indirects (v.view w'.disk).block v.ppb 2 (r.1.getD 13 0) := by
    unfold mapIndirects
    rw [hbuilt.triple]
    exact List.append_nil _
  have hfile := gives_fileBlocks (i := i) (hblock ▸ hkind)
  have hall := gives_allBlocks_eq (i := i) (hblock ▸ hkind)
  rw [hread] at hfile hall
  rw [hblock, hmap] at hall
  refine ⟨hfile, _, _, gives_indirectBlocks fun b hb => hkind b ?_,
    gives_indirectBlocks fun b hb => hkind b ?_, ?_, ?_, ?_, hall⟩
  · rw [hmap]
    exact List.mem_append_left _ hb
  · rw [hmap]
    exact List.mem_append_right _ hb
  · rw [← hmap]
    exact hbuilt.indirects.nodup_iff.mpr hbuilt.wrote.nodup
  · intro b hb hmem
    rw [← hmap] at hb
    have hclear := (hbuilt.wrote.clear b (hnew b hb)).2
    rw [hdata b hmem] at hclear
    cases hclear
  · rw [← hmap, hbuilt.indirects.length_eq, hextra]

end Written

/-- The small image of 32 blocks with 13 more of them in use. -/
def mapDisk : Bytes := fun i =>
  match i / 1024 with
  | 3 => stores [(4, 0, 0xFFFFF)] (i % 1024)
  | _ => smallDisk 32 i

def mapWorld : World := ⟨mapDisk, 0, fun _ => 0, fun _ => false⟩

def mapVolume : Volume := smallVolume 32 (by decide) (by decide)

def mapData : List Nat := [20, 8, 9, 10, 11, 12, 13, 14, 15, 16, 17, 18, 19]

def builtMap : EStateM.Result Error World (List Nat × Nat) :=
  buildMap mapVolume.toFs 0 mapData [] mapWorld

/-- The inode of 13 blocks with the map that was built. -/
def mapInode : Inode := { strayInode with
  block := [20, 8, 9, 10, 11, 12, 13, 14, 15, 16, 17, 18, 21, 0, 0] }

theorem builtMap_value : value builtMap = some (mapInode.block, 1) := by decide +kernel

theorem metaMarked_map : MetaMarked mapVolume (mapVolume.view mapWorld.disk) := by
  intro b hb
  have hmarked : ∀ b < 32, 1 ≤ b → (mapVolume.view mapWorld.disk).blockBit b = false →
      mapVolume.kind b = .data := by
    decide
  exact hmarked b hb.2 hb.1

theorem buildMap_readBack_sample :
    Gives (fileBlocks mapVolume.toFs mapInode) (final builtMap).disk (.ok mapData) ∧
    ∃ single double,
      Gives (indirectBlocks mapVolume.toFs 1 21) (final builtMap).disk (.ok single) ∧
      Gives (indirectBlocks mapVolume.toFs 2 0) (final builtMap).disk (.ok double) ∧
      (single ++ double).Nodup ∧ (∀ b ∈ single ++ double, b ∉ mapData) ∧
      (single ++ double).length = 1 ∧
      Gives (allBlocks mapVolume.toFs mapInode) (final builtMap).disk
        (.ok (if fastSymlink mapVolume.toFs mapInode then [] else mapData ++ (single ++ double))) :=
  buildMap_readBack metaMarked_map (by decide) (eq_ok_of_value builtMap_value) rfl
    (show 13 * 1024 < 13 * 1024 + 1024 by omega) (show 13 * 1024 ≤ 13 * 1024 by omega)

end Beeros.Ext2
