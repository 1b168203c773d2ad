import Beeros.Ext2Edit

/-! What the operations do to one inode: a new one, new contents, and the end of one. -/

namespace Beeros.Ext2

open Memory Exec

variable {v : Volume} {x x' : Vol} {p : Nat} {i : Inode} {w w' : World} {u : Unit} {δ : Nat → Int}

theorem le_ceilDiv_mul {a n : Nat} (hn : 0 < n) : a ≤ ceilDiv a n * n := by
  rcases Nat.lt_or_ge (ceilDiv a n * n) a with h | h
  · exact absurd ((lt_ceilDiv hn).mpr h) (Nat.lt_irrefl _)
  · exact h

theorem ceilDiv_mul {a n : Nat} (hn : 0 < n) : ceilDiv (a * n) n = a := by
  have hle : ¬a < ceilDiv (a * n) n := fun h => Nat.lt_irrefl _ ((lt_ceilDiv hn).mp h)
  have hge : ∀ k, k < a → k < ceilDiv (a * n) n :=
    fun k hk => (lt_ceilDiv hn).mpr (Nat.mul_lt_mul_of_pos_right hk hn)
  rcases Nat.eq_or_lt_of_not_lt hle with h | h
  · exact h.symm
  · exact absurd (hge _ h) (Nat.lt_irrefl _)

theorem ceilDiv_zero {n : Nat} (hn : 0 < n) : ceilDiv 0 n = 0 := by
  rcases Nat.eq_zero_or_pos (ceilDiv 0 n) with h | h
  · exact h
  · have := (lt_ceilDiv hn).mp h
    omega

theorem toNat_sectors (a b c : Nat) :
    (((a : Int) + b) * ((c : Int) / 512)).toNat = (a + b) * (c / 512) := by
  have hcast : ((a : Int) + b) * ((c : Int) / 512) = ((a + b) * (c / 512) : Nat) := by push_cast; rfl
  rw [hcast, Int.toNat_natCast]

/-! ### A built block map -/

section Built

variable {data bmap ind : List Nat}

theorem Built.blocksIn (h : Built v x x' data bmap ind) (hblock : i.block = bmap)
    (hsize : ceilDiv i.size v.blockSize = data.length) : i.blocksIn v.toFs x'.block = data := by
  unfold Inode.blocksIn
  rw [hblock, hsize]
  exact h.mapped

theorem Built.refs (h : Built v x x' data bmap ind) (hblock : i.block = bmap)
    (hsize : ceilDiv i.size v.blockSize = data.length) (hfast : ¬fastSymlink v.toFs i)
    (hdata : ∀ b ∈ data, b ≠ 0) : (i.refs v.toFs x'.block).Perm (data ++ ind) := by
  unfold Inode.refs
  rw [if_neg hfast, h.blocksIn hblock hsize, hblock,
    List.filter_eq_self.mpr fun b hb => decide_eq_true (hdata b hb)]
  exact h.indirects.append_left data

/-- An inode with a built map is sound, a directory if its blocks are. -/
theorem Built.sound (h : Built v x x' data bmap ind) (hblock : i.block = bmap)
    (hsize : ceilDiv i.size v.blockSize = data.length) (hfast : ¬fastSymlink v.toFs i)
    (hdata : ∀ b ∈ data, b ≠ 0) (hacl : i.fileAcl = 0)
    (hsectors : i.sectors = (data.length + ind.length) * (v.blockSize / 512))
    (hdir : i.type = .dir → i.size = data.length * v.blockSize ∧
      ∀ b ∈ data, DirBlock v.toFs (x'.block b)) : Sound v x'.block i where
  fileAcl := hacl
  sectors := by
    rw [(h.refs hblock hsize hfast hdata).length_eq, List.length_append]
    exact hsectors
  fast hf := absurd hf hfast
  size _ := by
    rw [h.blocksIn hblock hsize, ← hsize]
    exact le_ceilDiv_mul v.bs_pos
  single _ hle := by
    rw [hblock]
    exact h.single (by rwa [hsize] at hle)
  double _ hle := by
    rw [hblock]
    exact h.double (by rwa [hsize] at hle)
  triple _ _ := by
    rw [hblock]
    exact h.triple
  dirSize ht := by
    rw [h.blocksIn hblock hsize]
    exact (hdir ht).1
  dirBlocks ht b hb := by
    rw [h.blocksIn hblock hsize] at hb
    exact ⟨hdata b hb, (hdir ht).2 b hb⟩

end Built

/-! ### New contents -/

theorem ne_zero_of_data {b : Nat} (h : v.kind b = .data) : b ≠ 0 :=
  v.ne_zero_of_kind (by simp [h]) (by simp [h])

/-- The blocks of an inode in use are data blocks. -/
theorem Accounted.data_of_refs (h : Accounted v x δ) (hp : v.inUse x p) :
    ∀ b ∈ (x.node v.toFs p).refs v.toFs x.block, v.kind b = .data := by
  intro b hb
  exact h.books.blocks.data p b (by rwa [refs_table hp])

/-- The first steps of `write-file!` and `release-inode!`: an inode gives its blocks back. -/
theorem freeAll_ok {x₀ : Vol} {w₁ : World} {l : List Nat} (hx : Accounted v (v.view w.disk) δ)
    (hp : v.inUse (v.view w.disk) p)
    (hall : allBlocks v.toFs ((v.view w.disk).node v.toFs p) w = .ok l w₁)
    (hfree : freeBlocks v.toFs l w₁ = .ok u w') (hx₀ : x₀ = v.view w.disk) :
    Editing v x₀ (v.view w'.disk) p ((v.row x₀.block (x₀.node v.toFs p)).withRefs []) [] δ ∧
      (v.view w'.disk).inode = x₀.inode := by
  subst hx₀
  obtain ⟨l', hl, hrefs⟩ := gives_allBlocks (hx.data_of_refs hp)
  obtain ⟨he, hd, -⟩ := hl.of_ok rfl hall
  obtain rfl : l' = l := Except.ok.inj he
  have hbits : ∀ b ∈ l'.filter (· ≠ 0),
      v.InRange b ∧ (v.view w.disk).blockBit b = true := by
    intro b hb
    rw [hrefs] at hb
    exact hx.books.blocks.bit_of_ref (i := p) (by rwa [refs_table hp])
  have hnodup : (l'.filter (· ≠ 0)).Nodup := by
    have hnd := hx.books.blocks.nodup p
    rw [refs_table hp, List.append_nil, ← hrefs] at hnd
    exact hnd
  have hfreed := freeBlocks_ok hfree hnodup (by
    intro b hb hb0
    rw [hd]
    exact hbits b (List.mem_filter.mpr ⟨hb, decide_eq_true hb0⟩))
  rw [hd, hrefs] at hfreed
  have hedit := hx.edit hp
  refine ⟨Editing.free (L := []) ?_ hfreed, hfreed.inode.symm⟩
  refine hedit.setRefs _ _ ?_
  rw [List.append_nil, List.append_nil]
  exact List.Perm.refl _

theorem allocData_ok {goal size : Nat} {data : List Nat}
    (h : (if size > 0 then allocBlocks v.toFs goal (ceilDiv size v.blockSize) else pure []) w =
      .ok data w') : Taken v (v.view w.disk) (v.view w'.disk) data ∧
      data.length = ceilDiv size v.blockSize := by
  split_ifs at h with hs
  · exact allocBlocks_ok h
  · obtain ⟨rfl, rfl⟩ := pure_ok.mp h
    refine ⟨taken_refl v _, ?_⟩
    rw [Nat.eq_zero_of_not_pos hs, ceilDiv_zero v.bs_pos]
    rfl

/-- The blocks hold the bytes of `buf`. -/
theorem contents_of_blocks {data : List Nat} {buf : Buf} {get : Nat → Bytes}
    (hsize : i.size = buf.capacity) (hblocks : i.blocksIn v.toFs get = data)
    (hlen : ceilDiv i.size v.blockSize = data.length) (hdata : ∀ b ∈ data, b ≠ 0)
    (hget : ∀ k < data.length, get (data.getD k 0) = bufBlock v.blockSize buf.bytes buf.capacity k)
    {j : Nat} (hj : j < buf.capacity) : (i.contents v.toFs get).bytes j = buf.bytes j := by
  have hmod := Nat.mod_lt j v.bs_pos
  have hdiv : j / v.blockSize < data.length := by
    rw [← hlen, lt_ceilDiv v.bs_pos, hsize]
    exact (Nat.div_mul_le_self j v.blockSize).trans_lt hj
  have hne : data.getD (j / v.blockSize) 0 ≠ 0 := by
    rw [List.getD_eq_getElem _ _ hdiv]
    exact hdata _ (List.getElem_mem hdiv)
  show (if j < i.size then blockByte v.blockSize get (i.blocksIn v.toFs get) j else 0) = _
  rw [if_pos (hsize ▸ hj), hblocks]
  unfold blockByte
  rw [if_neg hne, hget _ hdiv]
  unfold bufBlock
  rw [Nat.div_add_mod', if_pos ⟨hmod, hj⟩]

/-- `write-file!` on a file that is there: the accounts stay right, the file has the new bytes, and no
other inode is touched. -/
theorem replaceContents_ok {path : Str} {buf : Buf}
    (h : replaceContents v.toFs path ((v.view w.disk).node v.toFs p) buf w = .ok u w')
    (hx : Accounted v (v.view w.disk) δ) (hp : v.inUse (v.view w.disk) p)
    (ht : ((v.view w.disk).node v.toFs p).type = .file) (hcap : buf.capacity < 2 ^ 32) :
    Accounted v (v.view w'.disk) δ ∧ Frame v (v.view w.disk) (v.view w'.disk) p ∧
      (∃ bmap sectors t a, (v.view w'.disk).node v.toFs p = { (v.view w.disk).node v.toFs p with
        block := bmap, size := buf.capacity, sectors := sectors, mtime := t, iBlock := a }) ∧
      ∀ j < buf.capacity, (((v.view w'.disk).node v.toFs p).contents v.toFs
        (v.view w'.disk).block).bytes j = buf.bytes j := by
  unfold replaceContents at h
  obtain ⟨l, w₁, hall, h⟩ := bind_ok.mp h
  obtain ⟨_, w₂, hfree, h⟩ := bind_ok.mp h
  obtain ⟨goal, w₃, hgoal, h⟩ := bind_ok.mp h
  obtain ⟨data, w₄, hdata, h⟩ := bind_ok.mp h
  obtain ⟨_, w₅, hwrite, h⟩ := bind_ok.mp h
  obtain ⟨⟨bmap, extra⟩, w₆, hbuild, hset⟩ := bind_ok.mp h
  obtain ⟨he₂, hin₂⟩ := freeAll_ok hx hp hall hfree rfl
  obtain ⟨-, -, rfl⟩ := quot_ok.mp hgoal
  obtain ⟨htaken, hlen⟩ := allocData_ok hdata
  have he₄ := he₂.wrote htaken.wrote
  have hkind : ∀ b ∈ data, v.kind b = .data :=
    fun b hb => he₄.books.blocks.loose b (List.mem_append_left _ hb)
  have hne : ∀ b ∈ data, b ≠ 0 := fun b hb => ne_zero_of_data (hkind b hb)
  obtain ⟨hre, -, hblocks⟩ := writeData_ok hwrite htaken.nodup hkind
    (hlen ▸ ceilDiv_le v.bs_pos) le_rfl
  have he₅ := he₄.rewrote hre fun b hb => .inl (List.mem_append_left _ hb)
  obtain ⟨ind, hbuilt, hextra⟩ := buildMap_ok hbuild he₅.metaMarked
  have he₆ := he₅.wrote hbuilt.wrote
  obtain ⟨t, a, hpos, hu⟩ := setContents_ok (p := p) hset hp.1 hbuilt.length hcap
  have hnode₆ : (v.view w₆.disk).node v.toFs p = (v.view w.disk).node v.toFs p := by
    refine node_congr ?_
    rw [hbuilt.wrote.inode, (htaken.wrote.rewrote hre).inode, hin₂]
  rw [hnode₆] at hu
  have hnode := hu.node
  obtain ⟨i, hi⟩ : ∃ i, (v.view w'.disk).node v.toFs p = i := ⟨_, rfl⟩
  rw [hi] at hnode
  have hget : (v.view w'.disk).block = (v.view w₆.disk).block := hu.block
  have hblock : i.block = bmap := by rw [hnode]
  have htype : i.type = .file := by
    rw [hnode]
    exact ht
  have hsize : ceilDiv i.size v.blockSize = data.length := by rw [hnode, hlen]
  have hfast : ¬fastSymlink v.toFs i := not_fastSymlink_of_file htype
  have hrefs := hbuilt.refs hblock hsize hfast hne
  have he := (he₆.updated hu).setRefs (i.refs v.toFs (v.view w'.disk).block) []
    (by rw [hget]; simpa [Node.withRefs] using hrefs.trans List.perm_append_comm)
  have hsound : Sound v (v.view w'.disk).block i := by
    rw [hget]
    refine hbuilt.sound hblock hsize hfast hne ?_ ?_ ?_
    · rw [hnode]
      exact (hx.sound p hp).fileAcl
    · rw [hnode, ← hextra]
      exact toNat_sectors _ _ _
    · intro hd
      rw [htype] at hd
      cases hd
  have hinUse : v.inUse (v.view w'.disk) p := by
    refine ⟨hp.1, ?_⟩
    rw [hi, hnode]
    exact hp.2
  refine ⟨he.done hinUse ?_ (hi ▸ hsound) ?_, he.frame, ⟨_, _, _, _, hi.trans hnode⟩, fun j hj => ?_⟩
  · rw [hi]
    refine Node.ext ?_ ?_ ?_ ?_
    · show decide (i.type = .dir) = decide (_ = FileType.dir)
      rw [htype, ht]
    · show i.links = _
      rw [hnode]
      rfl
    · rfl
    · show (if i.type = .dir then _ else []) = (if _ = FileType.dir then _ else [])
      rw [htype, ht]
      rfl
  · intro hr
    have := hx.root
    rw [← hr, ht] at this
    cases this
  · rw [hi]
    refine contents_of_blocks (by rw [hnode]) ?_ hsize hne (fun k hk => ?_) hj
    · rw [hget]
      exact hbuilt.blocksIn hblock hsize
    · rw [hget, hbuilt.wrote.block, hblocks k hk]
      intro hmem
      have hclear := (hbuilt.wrote.clear _ hmem).2
      rw [(htaken.wrote.rewrote hre).blockBit, List.getD_eq_getElem _ _ hk,
        decide_eq_true (List.getElem_mem hk), Bool.or_true] at hclear
      cases hclear

/-! ### New inodes -/

/-- The first step of every creation: the number is taken, and a row without blocks and names stands
for the inode to come. -/
theorem allocInode_edit {goal : Nat} {dir : Bool} (h : allocInode v.toFs goal dir w = .ok p w')
    (hx : Accounted v (v.view w.disk) 0) (n : Nat) :
    Editing v (v.view w.disk) (v.view w'.disk) p ⟨dir, n, [], []⟩ [] (shift 0 p n) ∧
      v.IsInode p ∧ v.firstIno ≤ p ∧ ¬v.inUse (v.view w.disk) p := by
  obtain ⟨hfirst, ht⟩ := allocInode_ok h
  rw [hx.firstIno] at hfirst
  have hnone : v.table (v.view w.disk) p = none := by
    cases hs : v.table (v.view w.disk) p with
    | none => rfl
    | some t =>
        have hbit := (hx.books.inodes.bit p).mpr ⟨ht.isInode, .inr (by rw [hs]; rfl)⟩
        rw [ht.clear] at hbit
        cases hbit
  refine ⟨⟨⟨0, hx⟩, ?_, fun i _ => by rw [ht.inode], fun b _ _ => by rw [ht.block], ht.sbStatic⟩,
    ht.isInode, hfirst, fun hu => ?_⟩
  · refine hx.books.add hnone hfirst ht (List.Perm.refl _) nofun fun i => ?_
    show (0 : Int) + (if i = p then (n : Int) else 0) = (if i = p then (n : Int) else 0) - (0 : Nat)
    omega
  · rw [table_of_inUse hu] at hnone
    cases hnone

theorem inUse_of_links (hp : v.IsInode p) (hfirst : v.firstIno ≤ p)
    (hlinks : (x.node v.toFs p).links ≠ 0) : v.inUse x p := ⟨hp, .inr ⟨hfirst, hlinks⟩⟩

theorem ne_rootIno_of_firstIno (h : v.firstIno ≤ p) : p ≠ rootIno := by
  have := v.rootIno_lt
  omega

section Fresh

variable {get : Nat → Bytes} {k : Nat}

theorem mapIndirects_of_zero {block : List Nat} (h : ∀ k, 12 ≤ k → block.getD k 0 = 0) :
    mapIndirects get k block = [] := by
  unfold mapIndirects
  rw [h 12 (by omega), h 13 (by omega), h 14 (by omega)]
  simp [indirects]

/-- The blocks of an inode whose pointers are all direct. -/
theorem mapped_direct {block : List Nat} {n : Nat} (h : 12 ≤ block.length) (hn : n ≤ 12) :
    mapped get k block n = (List.range n).map fun j => block.getD j 0 := by
  unfold mapped
  rw [topsCapacity_tops h, Nat.min_eq_left (by omega)]
  apply List.map_congr_left
  intro j hj
  rw [walkTops_tops h, if_pos (by have := List.mem_range.mp hj; omega)]

theorem getD_zeros (n j : Nat) : (List.replicate n 0).getD j 0 = 0 := by
  rcases Nat.lt_or_ge j n with h | h
  · rw [List.getD_eq_getElem _ _ (by simpa using h), List.getElem_replicate]
  · rw [List.getD_eq_default _ _ (by simpa using h)]

/-- An inode with the pointer `blk` and no other. -/
theorem oneBlock {blk : Nat} (hblock : i.block = blk :: List.replicate 14 0)
    (hpos : 0 < i.size) (hsize : i.size ≤ 12 * v.blockSize) (get : Nat → Bytes) :
    ∃ n, n + 1 = ceilDiv i.size v.blockSize ∧ n < 12 ∧
      i.blocksIn v.toFs get = blk :: List.replicate n 0 ∧ mapIndirects get v.ppb i.block = [] ∧
      ∀ k, 12 ≤ k → i.block.getD k 0 = 0 := by
  have hge : 0 < ceilDiv i.size v.blockSize := (lt_ceilDiv v.bs_pos).mpr (by omega)
  obtain ⟨n, hn⟩ : ∃ n, ceilDiv i.size v.blockSize = n + 1 := Nat.exists_eq_add_of_le' hge
  have hle : n < 12 := by
    rcases Nat.lt_or_ge n 12 with h | h
    · exact h
    · have := (lt_ceilDiv (k := 12) v.bs_pos).mp (by rw [hn]; omega)
      omega
  have hzero : ∀ k, 12 ≤ k → i.block.getD k 0 = 0 := by
    intro k hk
    obtain ⟨m, rfl⟩ : ∃ m, k = m + 1 := ⟨k - 1, by omega⟩
    rw [hblock, List.getD_cons_succ, getD_zeros]
  refine ⟨n, hn.symm, hle, ?_, mapIndirects_of_zero hzero, hzero⟩
  unfold Inode.blocksIn
  rw [mapped_direct (by rw [hblock]; simp) (by omega), hn, hblock, List.range_succ_eq_map,
    List.map_cons, List.map_map, List.getD_cons_zero]
  congr 1
  refine List.eq_replicate_iff.mpr ⟨by simp, fun b hb => ?_⟩
  obtain ⟨j, -, rfl⟩ := List.mem_map.mp hb
  rw [Function.comp_apply, List.getD_cons_succ, getD_zeros]

theorem refs_oneBlock {blk : Nat} (hblock : i.block = blk :: List.replicate 14 0)
    (hpos : 0 < i.size) (hsize : i.size ≤ 12 * v.blockSize) (hfast : ¬fastSymlink v.toFs i)
    (hblk : blk ≠ 0) : i.refs v.toFs get = [blk] := by
  obtain ⟨n, -, -, hin, hind, -⟩ := oneBlock (v := v) hblock hpos hsize get
  unfold Inode.refs
  rw [if_neg hfast, hin, hind, List.append_nil]
  simp [hblk]

/-- The bytes of the block, and zeros where a second block would be. -/
theorem contents_oneBlock {blk : Nat} (hblock : i.block = blk :: List.replicate 14 0)
    (hsize : i.size ≤ 12 * v.blockSize) (hblk : blk ≠ 0) {m : Bytes}
    (hget : get blk = bufBlock v.blockSize m i.size 0) {j : Nat} (hj : j < i.size) :
    (i.contents v.toFs get).bytes j = if j < v.blockSize then m j else 0 := by
  obtain ⟨n, -, -, hin, -⟩ := oneBlock (v := v) hblock (by omega) hsize get
  show (if j < i.size then blockByte v.blockSize get (i.blocksIn v.toFs get) j else 0) = _
  rw [if_pos hj, hin]
  unfold blockByte
  by_cases hlt : j < v.blockSize
  · rw [if_pos hlt, Nat.div_eq_of_lt hlt, List.getD_cons_zero, Nat.mod_eq_of_lt hlt]
    show (if blk = 0 then 0 else get blk j) = m j
    rw [if_neg hblk, hget]
    unfold bufBlock
    rw [Nat.zero_mul, Nat.zero_add, if_pos ⟨hlt, hj⟩]
  · obtain ⟨k, hk⟩ : ∃ k, j / v.blockSize = k + 1 :=
      Nat.exists_eq_add_of_le' (Nat.div_pos (Nat.le_of_not_lt hlt) v.bs_pos)
    rw [if_neg hlt, hk, List.getD_cons_succ, getD_zeros]
    rfl

theorem blocksIn_oneBlock {blk : Nat} (hblock : i.block = blk :: List.replicate 14 0)
    (hsize : i.size = v.blockSize) : i.blocksIn v.toFs get = [blk] := by
  have hbs := v.bs_pos
  obtain ⟨n, hn, -, hin, -⟩ := oneBlock (v := v) hblock (by omega) (by omega) get
  have hn0 : n = 0 := by
    rcases Nat.eq_zero_or_pos n with h | h
    · exact h
    · have hlt := (lt_ceilDiv (x := i.size) (k := 1) v.bs_pos).mp (by omega)
      omega
  rw [hin, hn0]
  rfl

theorem sound_oneBlock {blk : Nat} (hblock : i.block = blk :: List.replicate 14 0)
    (hpos : 0 < i.size) (hsize : i.size ≤ 12 * v.blockSize) (hfast : ¬fastSymlink v.toFs i)
    (hblk : blk ≠ 0) (hacl : i.fileAcl = 0) (hsectors : i.sectors = v.blockSize / 512)
    (hdir : i.type = .dir → i.size = v.blockSize ∧ DirBlock v.toFs (get blk)) : Sound v get i := by
  obtain ⟨n, hn, -, hin, -, hzero⟩ := oneBlock (v := v) hblock hpos hsize get
  refine ⟨hacl, ?_, fun hf => absurd hf hfast, fun _ => ?_, fun _ _ => hzero 12 (by omega),
    fun _ _ => hzero 13 (by omega), fun _ _ => hzero 14 (by omega), fun hd => ?_, fun hd b hb => ?_⟩
  · rw [refs_oneBlock hblock hpos hsize hfast hblk, hsectors]
    simp
  · rw [hin, List.length_cons, List.length_replicate, hn]
    exact le_ceilDiv_mul v.bs_pos
  · rw [blocksIn_oneBlock hblock (hdir hd).1, (hdir hd).1]
    simp
  · rw [blocksIn_oneBlock hblock (hdir hd).1] at hb
    obtain rfl : b = blk := by simpa using hb
    exact ⟨hblk, (hdir hd).2⟩

theorem refs_fresh {mode n t : Nat} : (freshInode p mode n t).refs v.toFs get = [] := by
  unfold Inode.refs Inode.blocksIn
  show (if _ then [] else (mapped get v.ppb (List.replicate 15 0) (ceilDiv 0 v.blockSize)).filter _ ++
    mapIndirects get v.ppb (List.replicate 15 0)) = []
  rw [ceilDiv_zero v.bs_pos, mapped_direct (by simp) (by omega),
    mapIndirects_of_zero fun k _ => getD_zeros 15 k]
  simp

theorem sound_fresh {mode n t : Nat} (ht : modeType mode ≠ .dir) :
    Sound v get (freshInode p mode n t) where
  fileAcl := rfl
  sectors := by
    rw [refs_fresh]
    exact (Nat.zero_mul _).symm
  fast _ := Nat.zero_le _
  size _ := Nat.zero_le _
  single _ _ := getD_zeros 15 12
  double _ _ := getD_zeros 15 13
  triple _ _ := getD_zeros 15 14
  dirSize hd := absurd hd ht
  dirBlocks hd := absurd hd ht

end Fresh

/-- The edit of an inode that is no directory is over. -/
theorem Editing.done_leaf {n : Nat} {l : List Nat} (h : Editing v x x' p ⟨false, n, l, []⟩ [] δ)
    (hi : x'.node v.toFs p = i) (ht : i.type ≠ .dir) (hlinks : i.links = n) (hn : n ≠ 0)
    (hrefs : i.refs v.toFs x'.block = l) (hs : Sound v x'.block i) (hp : v.IsInode p)
    (hfirst : v.firstIno ≤ p) : Accounted v x' δ ∧ v.inUse x' p := by
  subst hi
  have hinUse := inUse_of_links hp hfirst (hlinks ▸ hn)
  refine ⟨h.done hinUse (Node.ext ?_ hlinks hrefs ?_) hs fun hr => ?_, hinUse⟩
  · exact decide_eq_false ht
  · exact if_neg ht
  · exact absurd hr (ne_rootIno_of_firstIno hfirst)

/-- A new inode that is no directory, still without a name. -/
theorem create_ok {goal mode : Nat} {w₁ : World} (ha : allocInode v.toFs goal false w = .ok p w₁)
    (hinit : initInode v.toFs p mode 1 w₁ = .ok u w') (hx : Accounted v (v.view w.disk) 0)
    (ht : modeType mode ≠ .dir) :
    Accounted v (v.view w'.disk) (shift 0 p 1) ∧ Frame v (v.view w.disk) (v.view w'.disk) p ∧
      ¬v.inUse (v.view w.disk) p ∧ v.inUse (v.view w'.disk) p ∧ v.firstIno ≤ p ∧
      ∃ t, (v.view w'.disk).node v.toFs p = freshInode p mode 1 t := by
  obtain ⟨he, hp, hfirst, hnew⟩ := allocInode_edit ha hx 1
  obtain ⟨t, hu⟩ := initInode_ok hinit hp
  have he' := he.updated hu
  obtain ⟨hacc, hinUse⟩ := he'.done_leaf hu.node ht rfl Nat.one_ne_zero refs_fresh (sound_fresh ht)
    hp hfirst
  exact ⟨hacc, he'.frame, hnew, hinUse, hfirst, t, hu.node⟩

/-- The bytes that `link-target` reads: those in `i_block`, or the contents. -/
def Inode.linkBytes (fs : Fs) (get : Nat → Bytes) (i : Inode) : Buf :=
  if fastTarget fs i then ⟨i.size, window i.iBlock.bytes 0 i.size⟩ else i.contents fs get

theorem toList_congr {a b : Buf} (hcap : a.capacity = b.capacity)
    (h : ∀ j < b.capacity, a.bytes j = b.bytes j) : a.toList = b.toList := by
  unfold Buf.toList
  rw [hcap]
  exact List.map_congr_left fun j hj => h j (List.mem_range.mp hj)

/-- The first block of a buffer, and zeros up to its end. -/
def firstBlock (bs : Nat) (b : Buf) : Buf := ⟨b.capacity, fun j => if j < bs then b.bytes j else 0⟩

/-- A symlink with the first block of `tb`. -/
structure Stores (v : Volume) (get : Nat → Bytes) (i : Inode) (tb : Buf) : Prop where
  type : i.type = .symlink
  capacity : (i.linkBytes v.toFs get).capacity = tb.capacity
  bytes : ∀ j < tb.capacity, (i.linkBytes v.toFs get).bytes j = (firstBlock v.blockSize tb).bytes j

theorem Stores.toString_eq {get : Nat → Bytes} {tb : Buf} (h : Stores v get i tb) :
    (i.linkBytes v.toFs get).toString = (firstBlock v.blockSize tb).toString :=
  congrArg Utf8.decode (toList_congr h.capacity h.bytes)

/-- The part of `symlink!` that stores the target. -/
theorem target_ok {tb : Buf} {mode t : Nat} (h : (if tb.capacity < 60 then
      inodeUpdate v.toFs p fun b o => do
        let b ← copyBuf b (o + iBlock) tb 0 tb.capacity
        setU32 v.toFs b (o + iSize) tb.capacity
    else do
      let blk ← allocBlock v.toFs (← groupOfInode v.toFs p)
      writeData v.toFs [blk] tb tb.capacity
      inodeUpdate v.toFs p fun b o => do
        let b ← setU32 v.toFs b (o + iBlock) blk
        let b ← setU32 v.toFs b (o + iSize) tb.capacity
        setU32 v.toFs b (o + iBlocks) (v.blockSize / 512 : Nat)) w = .ok u w')
    (hx : Accounted v (v.view w.disk) δ) (hp : v.inUse (v.view w.disk) p)
    (hnode : (v.view w.disk).node v.toFs p = freshInode p mode 1 t)
    (ht : modeType mode = .symlink) (hroot : p ≠ rootIno) :
    Accounted v (v.view w'.disk) δ ∧ Frame v (v.view w.disk) (v.view w'.disk) p ∧
      v.inUse (v.view w'.disk) p ∧
      Stores v (v.view w'.disk).block ((v.view w'.disk).node v.toFs p) tb := by
  have hnf : ((v.view w.disk).node v.toFs p).type ≠ .file := by
    rw [hnode]
    show modeType mode ≠ .file
    rw [ht]
    nofun
  have hrow : v.row (v.view w.disk).block ((v.view w.disk).node v.toFs p) = ⟨false, 1, [], []⟩ := by
    rw [hnode]
    refine Node.ext ?_ rfl refs_fresh ?_
    · show decide (modeType mode = .dir) = false
      rw [ht]
      rfl
    · show (if modeType mode = .dir then _ else []) = []
      rw [ht]
      rfl
  have he := hx.edit hp
  rw [hrow] at he
  have hfirst := (hp.2.resolve_left hroot).1
  obtain ⟨i, hi⟩ : ∃ i, (v.view w'.disk).node v.toFs p = i := ⟨_, rfl⟩
  split_ifs at h with hn
  · obtain ⟨a, l, htext, hu⟩ := setTarget_ok h hp.1 hn hnf
    rw [hnode] at hu
    have he' := he.updated hu
    have hnode' := hi.symm.trans hu.node
    have hsymlink : i.type = .symlink := by
      rw [hnode']
      exact ht
    have hfast : fastSymlink v.toFs i := by
      refine ⟨hsymlink, ?_⟩
      rw [hnode']
      rfl
    have hrefs : i.refs v.toFs (v.view w'.disk).block = [] := if_pos hfast
    have hdir : i.type ≠ .dir := by
      rw [hsymlink]
      nofun
    obtain ⟨hacc, hinUse⟩ := he'.done_leaf hi hdir (by rw [hnode']; rfl) Nat.one_ne_zero hrefs
      ⟨by rw [hnode']; rfl, by rw [hrefs, hnode']; exact (Nat.zero_mul _).symm,
        fun _ => by rw [hnode']; exact hn.le, fun hf => absurd hfast hf, fun hf => absurd hfast hf,
        fun hf => absurd hfast hf, fun hf => absurd hfast hf, fun hd => absurd hd hdir,
        fun hd => absurd hd hdir⟩ hp.1 hfirst
    refine ⟨hacc, he'.frame, hinUse, hi.symm ▸ ⟨hsymlink, ?_, fun j hj => ?_⟩⟩
    · unfold Inode.linkBytes
      rw [if_pos hfast.2, hnode']
    · unfold Inode.linkBytes
      have hbs := v.le_bs
      rw [if_pos hfast.2, hnode']
      show window a.bytes 0 tb.capacity j = if j < v.blockSize then tb.bytes j else 0
      rw [window_apply hj, Nat.zero_add, htext j hj, if_pos (by omega)]
  · obtain ⟨goal, w₁, hgoal, h⟩ := bind_ok.mp h
    obtain ⟨blk, w₂, hblk, h⟩ := bind_ok.mp h
    obtain ⟨_, w₃, hwrite, hset⟩ := bind_ok.mp h
    obtain ⟨-, -, rfl⟩ := quot_ok.mp hgoal
    have htaken := allocBlock_ok hblk
    have he₂ := he.wrote htaken.wrote
    have hkind : v.kind blk = .data := he₂.books.blocks.loose blk (by simp)
    obtain ⟨hre, hfull, hbytes⟩ := writeData_ok hwrite htaken.nodup (by simpa using hkind) (by simp)
      le_rfl
    have hbyte := hbytes 0 Nat.one_pos
    have he₃ := he₂.rewrote hre fun b hb => .inl (List.mem_append_left _ hb)
    have hnode₃ : (v.view w₃.disk).node v.toFs p = freshInode p mode 1 t := by
      rw [← hnode]
      exact node_congr (by rw [(htaken.wrote.rewrote hre).inode])
    rw [← hnode₃.trans hnode.symm] at hnf
    obtain ⟨a, -, -, hu⟩ := setOneBlock_ok hset hp.1 hnf
    rw [hnode₃] at hu
    have he₄ := (he₃.updated hu).setRefs [blk] [] (List.Perm.refl _)
    have hnode' := hi.symm.trans hu.node
    have hsymlink : i.type = .symlink := by
      rw [hnode']
      exact ht
    have hsectors : i.sectors = v.blockSize / 512 := by
      rw [hnode']
      rfl
    have hacl : i.fileAcl = 0 := by rw [hnode']; rfl
    have hfast : ¬fastSymlink v.toFs i := by
      rintro ⟨-, hf⟩
      unfold fastTarget at hf
      rw [hsectors, if_pos hacl] at hf
      have := v.le_bs
      omega
    have hsize : i.size = tb.capacity := by
      rw [hnode']
      rfl
    have hpos : 0 < i.size := by omega
    have hle : i.size ≤ 12 * v.blockSize := by
      have hlt := (Nat.div_lt_iff_lt_mul v.bs_pos).mp (Nat.lt_succ_of_le hfull)
      rw [List.length_singleton] at hlt
      omega
    have hblock : i.block = blk :: List.replicate 14 0 := by
      rw [hnode']
      rfl
    have hdir : i.type ≠ .dir := by
      rw [hsymlink]
      nofun
    obtain ⟨hacc, hinUse⟩ := he₄.done_leaf hi hdir (by rw [hnode']; rfl) Nat.one_ne_zero
      (refs_oneBlock hblock hpos hle hfast (ne_zero_of_data hkind))
      (sound_oneBlock hblock hpos hle hfast (ne_zero_of_data hkind) hacl hsectors
        fun hd => absurd hd hdir) hp.1 hfirst
    have hslow : ¬fastTarget v.toFs i := fun hf => hfast ⟨hsymlink, hf⟩
    rw [← hu.block, ← hsize, List.getD_cons_zero] at hbyte
    refine ⟨hacc, he₄.frame, hinUse, hi.symm ▸ ⟨hsymlink, ?_, fun j hj => ?_⟩⟩
    · unfold Inode.linkBytes
      rw [if_neg hslow]
      exact hsize
    · unfold Inode.linkBytes
      rw [if_neg hslow]
      exact contents_oneBlock hblock hle (ne_zero_of_data hkind) hbyte (hsize ▸ hj)

/-- The block of a new directory. -/
theorem dotEntries_ok {par : Nat} {b₁ b₂ : Buf} {w₁ : World}
    (h₁ : putEntry v.toFs (Buf.alloc v.blockSize) 0 p 12 ['.'] .dir w = .ok b₁ w₁)
    (h₂ : putEntry v.toFs b₁ 12 par (v.blockSize - 12) ['.', '.'] .dir w₁ = .ok b₂ w')
    (hp : p ≠ 0) (hpar : par ≠ 0) : w = w' ∧ Tiled v.toFs b₂.bytes 0 v.blockSize [0, 12] ∧
      entriesAt v.toFs b₂.bytes [0, 12] =
        [v.newEntry ['.'] p .dir, v.newEntry ['.', '.'] par .dir] := by
  obtain ⟨rfl, -, -, hput₁⟩ := putEntry_ok h₁
  obtain ⟨rfl, -, -, hput₂⟩ := putEntry_ok h₂
  have hbs := v.le_bs
  have hn₁ : nameBytes ['.'] = 1 := by decide
  have hn₂ : nameBytes ['.', '.'] = 2 := by decide
  have hkeep : AgreeOn b₁.bytes b₂.bytes 0 12 := hput₂.outside.agreeOn (by omega)
  obtain ⟨hino, hlen, hnl, -⟩ := header_congr (o := 0) v.toFs (hkeep.mono (by omega) (by omega))
  have hok₁ := hput₁.recOk (by omega) (by omega)
  have hok₂ := hput₂.recOk (by omega) (by omega)
  have hentry : v.recEntry b₂.bytes 0 = v.newEntry ['.'] p .dir := by
    rw [recEntry_congr v.toFs hkeep (by rw [hput₁.nl, hn₁]; omega), hput₁.entry]
  refine ⟨rfl, ⟨rfl, ⟨by rw [hlen]; exact hok₁.le, fun hi => ?_⟩, ?_⟩, ?_⟩
  · rw [hnl, hlen]
    exact hok₁.used (hino ▸ hi)
  · rw [hlen, hput₁.length]
    refine ⟨rfl, hok₂, ?_⟩
    show 0 + 12 + recLen b₂.bytes (0 + 12) = v.blockSize
    rw [hput₂.length]
    omega
  · rw [entriesAt_cons, entriesAt_cons, hino, hput₁.ino, hput₂.ino, if_pos hp, if_pos hpar, hentry,
      hput₂.entry]
    rfl

/-- The part of `mkdir!` that makes the new directory, which has no name yet. -/
theorem makeDir_ok {goal goal' blk par : Nat} {b₁ b₂ : Buf} {w₁ w₂ w₃ w₄ w₅ w₆ : World} {u' u'' : Unit}
    (hino : allocInode v.toFs goal true w = .ok p w₁) (hblk : allocBlock v.toFs goal' w₁ = .ok blk w₂)
    (h₁ : putEntry v.toFs (Buf.alloc v.blockSize) 0 p 12 ['.'] .dir w₂ = .ok b₁ w₃)
    (h₂ : putEntry v.toFs b₁ 12 par (v.blockSize - 12) ['.', '.'] .dir w₃ = .ok b₂ w₄)
    (hwrite : writeBlock v.toFs blk b₂ w₄ = .ok u w₅)
    (hinit : initInode v.toFs p 0x41ED 2 w₅ = .ok u' w₆)
    (hset : inodeUpdate v.toFs p (fun b o => do
      let b ← setU32 v.toFs b (o + iBlock) blk
      let b ← setU32 v.toFs b (o + iSize) v.blockSize
      setU32 v.toFs b (o + iBlocks) (v.blockSize / 512 : Nat)) w₆ = .ok u'' w')
    (hx : Accounted v (v.view w.disk) 0) (hpar : v.inUse (v.view w.disk) par) :
    Accounted v (v.view w'.disk) (shift (shift 0 p 1) par (-1)) ∧
      Frame v (v.view w.disk) (v.view w'.disk) p ∧ ¬v.inUse (v.view w.disk) p ∧
      v.inUse (v.view w'.disk) p ∧ v.firstIno ≤ p ∧
      ((v.view w'.disk).node v.toFs p).type = .dir ∧ ((v.view w'.disk).node v.toFs p).links = 2 ∧
      ((v.view w'.disk).node v.toFs p).entries v.toFs (v.view w'.disk).block =
        [v.newEntry ['.'] p .dir, v.newEntry ['.', '.'] par .dir] := by
  obtain ⟨he₁, hp, hfirst, hnew⟩ := allocInode_edit hino hx 2
  have htaken := allocBlock_ok hblk
  have he₂ := he₁.wrote htaken.wrote
  have hkind : v.kind blk = .data := he₂.books.blocks.loose blk (by simp)
  obtain ⟨rfl, htiled, hentries⟩ := dotEntries_ok h₁ h₂ (by have := hp.1; omega)
    (by have := hpar.1.1; omega)
  obtain ⟨m, hm, hm', -⟩ := writeBlock_records hwrite hkind htiled
  have he₅ := he₂.rewrote hm.rewrote fun b hb => .inl (List.mem_append_left _ hb)
  obtain ⟨t, hu₆⟩ := initInode_ok hinit hp
  have he₆ := he₅.updated hu₆
  have hmode : modeType 0x41ED = .dir := by decide
  have hdir₆ : ((v.view w₆.disk).node v.toFs p).type = .dir := by
    rw [hu₆.node]
    exact hmode
  obtain ⟨a, -, -, hu⟩ := setOneBlock_ok hset hp (by rw [hdir₆]; nofun)
  rw [hu₆.node] at hu
  have hpp : par ≠ p := fun he => hnew (he ▸ hpar)
  have he : Editing v _ _ p _ _ (shift (shift 0 p 1) par (-1)) :=
    (he₆.updated hu).set ⟨true, 2, [blk], [p, par]⟩ [] rfl (List.Perm.refl _) ?_ ?_
  · obtain ⟨i, hi⟩ : ∃ i, (v.view w'.disk).node v.toFs p = i := ⟨_, rfl⟩
    have hnode := hi.symm.trans hu.node
    have hblock : i.block = blk :: List.replicate 14 0 := by
      rw [hnode]
      rfl
    have hsize : i.size = v.blockSize := by
      rw [hnode]
      exact Int.toNat_natCast _
    have hdir : i.type = .dir := by
      rw [hnode]
      exact hmode
    have hlinks : i.links = 2 := by
      rw [hnode]
      rfl
    have hpos : 0 < i.size := by
      rw [hsize]
      exact v.bs_pos
    have hle : i.size ≤ 12 * v.blockSize := by omega
    have hget : (v.view w'.disk).block blk = m := by
      rw [hu.block, hu₆.block, hm.block, Function.update_self]
    have hentries' : i.entries v.toFs (v.view w'.disk).block =
        [v.newEntry ['.'] p .dir, v.newEntry ['.', '.'] par .dir] := by
      unfold Inode.entries
      rw [blocksIn_oneBlock hblock hsize, List.flatMap_singleton, hget, hm', hentries]
    have hinUse : v.inUse (v.view w'.disk) p := inUse_of_links hp hfirst (by rw [hi, hlinks]; nofun)
    refine ⟨he.done hinUse ?_ ?_ ?_, he.frame, hnew, hinUse, hfirst, hi ▸ hdir, hi ▸ hlinks,
      hi ▸ hentries'⟩
    · rw [hi]
      refine Node.ext (decide_eq_true hdir) hlinks
        (refs_oneBlock hblock hpos hle (not_fastSymlink_of_dir hdir) (ne_zero_of_data hkind)) ?_
      show (if i.type = .dir then (i.entries v.toFs _).map (·.ino) else []) = [p, par]
      rw [if_pos hdir, hentries']
      rfl
    · rw [hi]
      refine sound_oneBlock hblock hpos hle (not_fastSymlink_of_dir hdir) (ne_zero_of_data hkind) ?_ ?_
        fun _ => ⟨hsize, ?_⟩
      · rw [hnode]
        rfl
      · rw [hnode]
        rfl
      · rw [hget]
        exact hm.dirBlock
    · intro hr
      exact absurd hr (ne_rootIno_of_firstIno hfirst)
  · intro j hj
    rcases List.mem_cons.mp hj with rfl | hj
    · exact .inl rfl
    · exact .inr (List.mem_singleton.mp hj ▸ hpar)
  · intro j
    show (0 : Int) + (if j = p then 1 else 0) + (if j = par then -1 else 0) =
      0 + (if j = p then ((2 : Nat) : Int) else 0) + (([] : List Nat).count j : Nat) -
        ([p, par].count j : Nat) + if j = p then ((2 : Nat) : Int) - (2 : Nat) else 0
    rw [List.count_cons, List.count_cons, List.count_nil]
    by_cases hjp : j = p
    · subst hjp
      have hne : ¬j = par := hpp.symm
      simp [hne, hpp]
    · by_cases hj : j = par
      · subst hj
        simp [hjp, Ne.symm hjp]
      · simp [hjp, hj, Ne.symm hjp, Ne.symm hj]

/-! ### The end of an inode -/

/-- `release-inode!` of an inode that only its own entries still name. -/
theorem releaseInode_ok {δ' : Nat → Int}
    (h : releaseInode v.toFs ((v.view w.disk).node v.toFs p) w = .ok u w')
    (hx : Accounted v (v.view w.disk) δ) (hp : v.inUse (v.view w.disk) p) (hroot : p ≠ rootIno)
    (hlast : nameCount v (v.table (v.view w.disk)) p = ((v.table (v.view w.disk)).names p).count p)
    (hδ : ∀ i, i ≠ p → δ' i = δ i + ((v.table (v.view w.disk)).names p).count i) :
    Accounted v (v.view w'.disk) δ' ∧ Frame v (v.view w.disk) (v.view w'.disk) p ∧
      ¬v.inUse (v.view w'.disk) p := by
  unfold releaseInode at h
  obtain ⟨l, w₁, hall, h⟩ := bind_ok.mp h
  obtain ⟨_, w₂, hfree, h⟩ := bind_ok.mp h
  obtain ⟨_, w₃, hclear, hdrop⟩ := bind_ok.mp h
  obtain ⟨he₂, hin₂⟩ := freeAll_ok hx hp hall hfree rfl
  have hu := clearLinks_ok (p := p) hclear hp.1
  have he₃ := he₂.updated hu
  have hbit : (v.view w₃.disk).inodeBit p = true :=
    (he₃.books.inodes.bit p).mpr ⟨hp.1, .inr (by rw [Table.set_self]; rfl)⟩
  have htaken : InodeTaken v _ _ p _ := freeInode_ok hdrop hp.1 hbit
  have hnames : (v.table (v.view w.disk)).names p =
      (v.row (v.view w.disk).block ((v.view w.disk).node v.toFs p)).names :=
    Table.names_of (table_of_inUse hp)
  have hcount := nameCount_set (v := v) (s := v.table (v.view w.disk)) (i := p)
    (o := some ((v.row (v.view w.disk).block ((v.view w.disk).node v.toFs p)).withRefs [])) hp.1
  have hbooks : Books v _ _ [] δ' := he₃.books.drop Table.set_self
    (hp.2.resolve_left hroot).1 htaken (List.Perm.refl _) ?_ ?_
  · have hdead : ¬v.inUse (v.view w'.disk) p := by
      rintro ⟨-, hr | ⟨-, hl⟩⟩
      · exact hroot hr
      · rw [node_congr (v := v) (congrFun htaken.inode.symm p), hu.node] at hl
        exact hl rfl
    have hframe : Frame v (v.view w.disk) (v.view w'.disk) p := by
      refine ⟨fun j hj => ?_, fun b hb hbit => ?_, ?_⟩
      · rw [← htaken.inode, he₃.frame.inode j hj]
      · rw [← htaken.block, he₃.frame.block b hb hbit]
      · rw [← htaken.sbStatic, he₃.frame.static]
    unfold Table.set at hbooks
    rw [Function.update_idem] at hbooks
    refine ⟨hx.close hframe hbooks (if_neg hdead) (fun hu => absurd hu hdead) ?_, hframe, hdead⟩
    intro hr
    exact absurd hr hroot
  · show nameCount v _ p = (v.row _ _).names.count p
    rw [← hnames, ← hlast]
    have hsame : (Option.elim (some ((v.row (v.view w.disk).block
      ((v.view w.disk).node v.toFs p)).withRefs [])) [] Node.names) =
        (v.table (v.view w.disk)).names p := hnames.symm
    rw [hsame] at hcount
    omega
  · intro i hi
    rw [hδ i hi, hnames]
    rfl

end Beeros.Ext2
