import Beeros.Ext2Inodes

/-! What `add-entry!` and `remove-entry!` do to a directory: its entries change by one, and the link
count of the inode named is off by one until the caller sets it right. -/

namespace Beeros.Ext2

open Memory Exec

variable {v : Volume} {x x' : Vol} {p : Nat} {w w' : World} {u : Unit} {δ : Nat → Int}

/-- The entries of the directory `p`. -/
def Vol.entriesOf (v : Volume) (x : Vol) (p : Nat) : List Entry :=
  (x.node v.toFs p).entries v.toFs x.block

/-- A directory's record but for its size, its blocks and its times. -/
def SameHead (i i' : Inode) : Prop :=
  i'.mode = i.mode ∧ i'.links = i.links ∧ i'.flags = i.flags ∧ i'.fileAcl = i.fileAcl ∧
    i'.uid = i.uid ∧ i'.gid = i.gid

theorem names_row_dir (hp : v.inUse x p) (hd : (x.node v.toFs p).type = .dir) :
    (v.table x).names p = (x.entriesOf v p).map (·.ino) := by
  rw [Table.names_of (table_of_inUse hp)]
  exact if_pos hd

/-- The inodes a directory names are in use. -/
theorem Accounted.named (hx : Accounted v x δ) (hp : v.inUse x p)
    (hd : (x.node v.toFs p).type = .dir) {e : Entry} (he : e ∈ x.entriesOf v p) : v.inUse x e.ino := by
  refine inUse_of_isSome (hx.books.names.named p e.ino ?_)
  rw [names_row_dir hp hd]
  exact List.mem_map_of_mem he

theorem Accounted.dirOk (hx : Accounted v x δ) (hp : v.inUse x p)
    (hd : (x.node v.toFs p).type = .dir) : DirOk v x.block (x.node v.toFs p) :=
  (hx.sound p hp).dirOk hd (hx.data_of_refs hp)

/-- The map of a directory: its data blocks and its indirect blocks are all different. -/
theorem Accounted.dir_nodup (hx : Accounted v x δ) (hp : v.inUse x p)
    (hd : (x.node v.toFs p).type = .dir) :
    (x.node v.toFs p).refs v.toFs x.block = (x.node v.toFs p).blocksIn v.toFs x.block ++
      mapIndirects x.block v.ppb (x.node v.toFs p).block ∧
    ((x.node v.toFs p).refs v.toFs x.block).Nodup := by
  have hnd := hx.books.blocks.nodup p
  rw [List.append_nil, refs_table hp] at hnd
  refine ⟨?_, hnd⟩
  unfold Inode.refs
  rw [if_neg (not_fastSymlink_of_dir hd), List.filter_eq_self.mpr]
  intro b hb
  exact decide_eq_true ((hx.sound p hp).dirBlocks hd b hb).1

section SetBlock

variable {pre post : List Nat} {b : Nat} {m : Bytes} (hx : Accounted v x δ) (hp : v.inUse x p)
  (hd : (x.node v.toFs p).type = .dir)
  (hsplit : (x.node v.toFs p).blocksIn v.toFs x.block = pre ++ b :: post) (hset : BlockSet v x x' b m)

include hx hp hd hsplit hset

/-- A directory with other records in one of its blocks has the same map. -/
theorem Accounted.map_of_blockSet : x'.node v.toFs p = x.node v.toFs p ∧
    (x.node v.toFs p).blocksIn v.toFs x'.block = (x.node v.toFs p).blocksIn v.toFs x.block ∧
    (x.node v.toFs p).refs v.toFs x'.block = (x.node v.toFs p).refs v.toFs x.block := by
  obtain ⟨hrefs, hnodup⟩ := hx.dir_nodup hp hd
  have hb : b ∈ (x.node v.toFs p).blocksIn v.toFs x.block := by
    rw [hsplit]
    simp
  have hind : ∀ c ∈ mapIndirects x.block v.ppb (x.node v.toFs p).block, x'.block c = x.block c := by
    intro c hc
    rw [hset.block, Function.update_of_ne]
    rintro rfl
    rw [hrefs] at hnodup
    exact (List.nodup_append.mp hnodup).2.2 c hb c hc rfl
  have hblocks : (x.node v.toFs p).blocksIn v.toFs x'.block =
      (x.node v.toFs p).blocksIn v.toFs x.block := mapped_congr hind
  refine ⟨by rw [hset.view]; rfl, hblocks, ?_⟩
  unfold Inode.refs
  rw [hblocks, mapIndirects_congr hind]

theorem Accounted.entries_of_blockSet :
    x.entriesOf v p = pre.flatMap (fun c => blockEntries v.toFs (x.block c)) ++
        blockEntries v.toFs (x.block b) ++ post.flatMap (fun c => blockEntries v.toFs (x.block c)) ∧
      x'.entriesOf v p = pre.flatMap (fun c => blockEntries v.toFs (x.block c)) ++
        blockEntries v.toFs m ++ post.flatMap (fun c => blockEntries v.toFs (x.block c)) := by
  obtain ⟨hrefs, hnodup⟩ := hx.dir_nodup hp hd
  obtain ⟨hnode, hblocks, -⟩ := hx.map_of_blockSet hp hd hsplit hset
  rw [hrefs] at hnodup
  obtain ⟨hold, hnew⟩ := flatMap_setBlock x.block m (blockEntries v.toFs) hsplit
    (List.nodup_append.mp hnodup).1
  refine ⟨hold, ?_⟩
  unfold Vol.entriesOf Inode.entries
  rw [hnode, hblocks, hset.block]
  exact hnew

/-- A directory's entries change in one of its blocks, and with them the links that `δ` misses. -/
theorem Accounted.setDirBlock {δ' : Nat → Int}
    (hnames : ∀ e ∈ blockEntries v.toFs m, v.inUse x e.ino)
    (hδ : ∀ i, δ' i = δ i + ((blockEntries v.toFs (x.block b)).map (·.ino)).count i -
      ((blockEntries v.toFs m).map (·.ino)).count i) :
    Accounted v x' δ' ∧ Frame v x x' p := by
  obtain ⟨hnode, hblocks, hrefs⟩ := hx.map_of_blockSet hp hd hsplit hset
  obtain ⟨hold, hnew⟩ := hx.entries_of_blockSet hp hd hsplit hset
  have hs := hx.sound p hp
  have hnf : ¬fastSymlink v.toFs (x.node v.toFs p) := not_fastSymlink_of_dir hd
  have hb : b ∈ (x.node v.toFs p).blocksIn v.toFs x.block := by
    rw [hsplit]
    simp
  have hinUse : v.inUse x' p := by
    refine ⟨hp.1, ?_⟩
    rw [hnode]
    exact hp.2
  have hrowOld : (v.row x.block (x.node v.toFs p)).names = (x.entriesOf v p).map (·.ino) := if_pos hd
  have hrowNew : (v.row x'.block (x.node v.toFs p)).names = (x'.entriesOf v p).map (·.ino) := by
    unfold Vol.entriesOf
    rw [hnode]
    exact if_pos hd
  have hedit := (hx.edit hp).rewrote hset.rewrote (by
    intro c hc
    rw [List.mem_singleton.mp hc]
    exact .inr (mem_refs_of_mem_blocksIn hnf hb (hs.dirBlocks hd b hb).1))
  have hedit' : Editing v x x' p _ _ δ' :=
    hedit.set (v.row x'.block (x.node v.toFs p)) [] rfl ?_ ?_ ?_
  · refine ⟨hedit'.done hinUse (by rw [hnode]) ?_ fun _ => by rw [hnode]; exact hd, hedit'.frame⟩
    rw [hnode]
    refine { hs with sectors := by rw [hrefs]; exact hs.sectors, size := ?_, dirSize := ?_,
                     dirBlocks := ?_ }
    · rw [hblocks]
      exact hs.size
    · rw [hblocks]
      exact hs.dirSize
    · intro _ c hc
      rw [hblocks] at hc
      refine ⟨(hs.dirBlocks hd c hc).1, ?_⟩
      rw [hset.block]
      by_cases hcb : c = b
      · rw [hcb, Function.update_self]
        exact hset.dirBlock
      · rw [Function.update_of_ne hcb]
        exact (hs.dirBlocks hd c hc).2
  · show ((x.node v.toFs p).refs v.toFs x'.block ++ []).Perm
      ((x.node v.toFs p).refs v.toFs x.block ++ [])
    rw [hrefs]
  · intro j hj
    rw [hrowNew, hnew] at hj
    obtain ⟨e, he, rfl⟩ := List.mem_map.mp hj
    right
    rcases List.mem_append.mp he with he | he
    · rcases List.mem_append.mp he with he | he
      · exact hx.named hp hd (by rw [hold]; simp [he])
      · exact hnames e he
    · exact hx.named hp hd (by rw [hold]; simp [he])
  · intro j
    show δ' j = δ j + ((v.row x.block (x.node v.toFs p)).names.count j : Nat) -
      ((v.row x'.block (x.node v.toFs p)).names.count j : Nat) +
      if j = p then ((x.node v.toFs p).links : Int) - (x.node v.toFs p).links else 0
    rw [hrowOld, hrowNew, hnew, hold, hδ]
    simp only [List.map_append, List.count_append]
    split_ifs <;> omega

end SetBlock

/-! ### Entries added -/

theorem gives_blocksIn (hx : Accounted v (v.view w.disk) δ) (hp : v.inUse (v.view w.disk) p)
    (hd : ((v.view w.disk).node v.toFs p).type = .dir) :
    Gives (fileBlocks v.toFs ((v.view w.disk).node v.toFs p)) w.disk
      (.ok (((v.view w.disk).node v.toFs p).blocksIn v.toFs (v.view w.disk).block)) :=
  gives_fileBlocks (hx.dirOk hp hd).indirect

theorem count_inserted {e : Entry} {l l' : List Entry} (h : Inserted e l l') (i : Nat) :
    (l'.map (·.ino)).count i = (l.map (·.ino)).count i + if i = e.ino then 1 else 0 := by
  obtain ⟨l₁, l₂, rfl, rfl⟩ := h
  simp only [List.map_append, List.map_cons, List.count_append, List.count_cons, beq_iff_eq,
    eq_comm (a := i)]
  omega

theorem mem_of_inserted {e e' : Entry} {l l' : List Entry} (h : Inserted e l l') (he : e' ∈ l') :
    e' = e ∨ e' ∈ l := by
  obtain ⟨l₁, l₂, rfl, rfl⟩ := h
  simp only [List.mem_append, List.mem_cons] at he ⊢
  tauto

/-- A new directory block with one record. -/
theorem newBlock_ok {blk ino : Nat} {name : Str} {t : FileType} {buf : Buf} {w₁ : World}
    (hput : putEntry v.toFs (Buf.alloc v.blockSize) 0 ino v.blockSize name t w = .ok buf w₁)
    (hwrite : writeBlock v.toFs blk buf w₁ = .ok u w') (hblk : v.kind blk = .data)
    (hname : 1 ≤ nameBytes name) (hino : ino ≠ 0) :
    ∃ m, BlockSet v (v.view w.disk) (v.view w'.disk) blk m ∧
      blockEntries v.toFs m = [v.newEntry name ino t] ∧
      (nameBytes name ≤ 255 → NeatBlock v.toFs m) := by
  obtain ⟨rfl, -, hcap, hput⟩ := putEntry_ok hput
  have hok := hput.recOk hname (by rwa [Nat.zero_add] at hcap)
  have htiled : Tiled v.toFs buf.bytes 0 v.blockSize [0] :=
    ⟨rfl, hok, by rw [hput.length]; exact Nat.zero_add _⟩
  obtain ⟨m, hm, hm', hneat⟩ := writeBlock_records hwrite hblk htiled
  refine ⟨m, hm, hm'.trans ?_, fun h255 => hneat (neat_singleton.mpr ?_)⟩
  · rw [entriesAt_cons, hput.ino, if_pos hino, hput.entry]
    rfl
  · rw [hput.length, hput.nl]
    exact ⟨v.four_dvd_blockSize, fun _ => h255⟩

/-- The indirect blocks that `add-entry!` frees are all there are when the grown map fits. -/
theorem Sound.refs_grown {get : Nat → Bytes} {i : Inode} (hs : Sound v get i) (hd : i.type = .dir)
    (hle : (i.blocksIn v.toFs get).length < 12 + v.ppb + v.ppb * v.ppb) :
    mapIndirects get v.ppb i.block =
      indirects get v.ppb 1 (i.block.getD 12 0) ++ indirects get v.ppb 2 (i.block.getD 13 0) := by
  have hceil : ceilDiv i.size v.blockSize ≤ 12 + v.ppb + v.ppb * v.ppb := by
    rcases Nat.lt_or_ge (12 + v.ppb + v.ppb * v.ppb) (ceilDiv i.size v.blockSize) with h | h
    · have hlt := (lt_ceilDiv v.bs_pos).mp h
      rw [hs.dirSize hd] at hlt
      have := Nat.lt_of_mul_lt_mul_right hlt
      omega
    · exact h
  unfold mapIndirects
  rw [hs.triple (not_fastSymlink_of_dir hd) hceil]
  simp [indirects]

theorem buildMap_le {goal : Nat} {data : List Nat} {path : Str} {r : List Nat × Nat}
    (h : buildMap v.toFs goal data path w = .ok r w') :
    data.length ≤ 12 + v.ppb + v.ppb * v.ppb := by
  unfold buildMap at h
  obtain ⟨_, w₁, hle, -⟩ := bind_ok.mp h
  obtain ⟨hle, -⟩ := failWhen_ok.mp hle
  rw [List.length_drop] at hle
  unfold Fs.ppb
  omega

/-- The indirect blocks of the old map, read when the new block is already written. -/
theorem oldIndirects_ok {i : Inode} {s d : List Nat} {w₁ : World} {get : Nat → Bytes}
    (hs : indirectBlocks v.toFs 1 (i.block.getD 12 0) w = .ok s w₁)
    (hd : indirectBlocks v.toFs 2 (i.block.getD 13 0) w₁ = .ok d w')
    (hdata : ∀ b ∈ mapIndirects get v.ppb i.block, v.kind b = .data)
    (hget : ∀ b ∈ mapIndirects get v.ppb i.block, (v.view w.disk).block b = get b) :
    w'.disk = w.disk ∧ s = indirects get v.ppb 1 (i.block.getD 12 0) ∧
      d = indirects get v.ppb 2 (i.block.getD 13 0) := by
  have h₁ : ∀ b ∈ indirects get v.ppb 1 (i.block.getD 12 0), b ∈ mapIndirects get v.ppb i.block :=
    fun b hb => List.mem_append_left _ (List.mem_append_left _ hb)
  have h₂ : ∀ b ∈ indirects get v.ppb 2 (i.block.getD 13 0), b ∈ mapIndirects get v.ppb i.block :=
    fun b hb => List.mem_append_left _ (List.mem_append_right _ hb)
  have e₁ := indirects_congr fun b hb => hget b (h₁ b hb)
  have e₂ := indirects_congr fun b hb => hget b (h₂ b hb)
  obtain ⟨hs, hw₁, -⟩ := (gives_indirectBlocks (d := w.disk) (by
    rw [e₁]; exact fun b hb => hdata b (h₁ b hb))).of_ok rfl hs
  obtain ⟨hd, hw', -⟩ := (gives_indirectBlocks (d := w.disk) (by
    rw [e₂]; exact fun b hb => hdata b (h₂ b hb))).of_ok hw₁ hd
  refine ⟨hw', ?_, ?_⟩
  · rw [← e₁]
    exact (Except.ok.inj hs).symm
  · rw [← e₂]
    exact (Except.ok.inj hd).symm

/-- `add-entry!` in a directory without room. -/
theorem growDir_ok {name path : Str} {ino : Nat} {t : FileType} {blocks : List Nat}
    (h : growDir v.toFs ((v.view w.disk).node v.toFs p) name ino t path blocks w = .ok u w')
    (hx : Accounted v (v.view w.disk) δ) (hp : v.inUse (v.view w.disk) p)
    (hd : ((v.view w.disk).node v.toFs p).type = .dir)
    (hblocks : blocks = ((v.view w.disk).node v.toFs p).blocksIn v.toFs (v.view w.disk).block)
    (hino : v.inUse (v.view w.disk) ino) (hname : 1 ≤ nameBytes name) :
    Accounted v (v.view w'.disk) (shift δ ino (-1)) ∧
      Frame v (v.view w.disk) (v.view w'.disk) p ∧
      SameHead ((v.view w.disk).node v.toFs p) ((v.view w'.disk).node v.toFs p) ∧
      (v.view w'.disk).entriesOf v p =
        (v.view w.disk).entriesOf v p ++ [v.newEntry name ino t] := by
  unfold growDir at h
  obtain ⟨goal, w₁, hgoal, h⟩ := bind_ok.mp h
  obtain ⟨blk, w₂, hblk, h⟩ := bind_ok.mp h
  obtain ⟨buf, w₃, hput, h⟩ := bind_ok.mp h
  obtain ⟨_, w₄, hwrite, h⟩ := bind_ok.mp h
  obtain ⟨s, w₅, hs, h⟩ := bind_ok.mp h
  obtain ⟨d, w₆, hd', h⟩ := bind_ok.mp h
  obtain ⟨_, w₇, hfree, h⟩ := bind_ok.mp h
  obtain ⟨⟨bmap, extra⟩, w₈, hbuild, hset⟩ := bind_ok.mp h
  obtain ⟨-, -, rfl⟩ := quot_ok.mp hgoal
  have htaken := allocBlock_ok hblk
  have he₂ := (hx.edit hp).wrote htaken.wrote
  have hkind : v.kind blk = .data := he₂.books.blocks.loose blk (by simp)
  obtain ⟨m, hm, hm', -⟩ := newBlock_ok hput hwrite hkind hname (by have := hino.1.1; omega)
  have he₄ := he₂.rewrote hm.rewrote fun b hb => .inl (List.mem_append_left _ hb)
  obtain ⟨hrefs, hnodup⟩ := hx.dir_nodup hp hd
  have hsound := hx.sound p hp
  have hagree : ∀ b ∈ ((v.view w.disk).node v.toFs p).refs v.toFs (v.view w.disk).block,
      (v.view w₄.disk).block b = (v.view w.disk).block b := by
    intro b hb
    have hbit := (hx.books.blocks.bit_of_ref (i := p) (by rwa [refs_table hp])).2
    rw [hm.block, Function.update_of_ne, htaken.block]
    rintro rfl
    rw [(htaken.clear b (by simp)).2] at hbit
    cases hbit
  obtain ⟨hw₆, hs, hd'⟩ := oldIndirects_ok hs hd' (hx.dirOk hp hd).indirect fun b hb =>
    hagree b (mem_refs_of_mem_mapIndirects (not_fastSymlink_of_dir hd) hb)
  have hle := buildMap_le hbuild
  rw [List.length_append, List.length_singleton, hblocks] at hle
  rw [hsound.refs_grown hd hle, ← hs, ← hd', ← hblocks] at hrefs
  have he₄' := he₄.setRefs blocks (s ++ d ++ ([blk] ++ [])) (by
    show List.Perm _ (((v.view w.disk).node v.toFs p).refs v.toFs _ ++ _)
    rw [hrefs]
    simp)
  have hloose : ∀ b ∈ s ++ d, v.InRange b ∧ (v.view w₄.disk).blockBit b = true := by
    intro b hb
    have hb' : b ∈ s ++ d ++ ([blk] ++ []) := List.mem_append_left _ hb
    have hr := v.data_inRange (he₄'.books.blocks.loose b hb')
    exact ⟨hr, (he₄'.books.blocks.bit b).mpr ⟨hr, .inr (.inl hb')⟩⟩
  have hne : (s ++ d).filter (· ≠ 0) = s ++ d := by
    rw [List.filter_eq_self]
    intro b hb
    have hb' : b ∈ s ++ d ++ ([blk] ++ []) := List.mem_append_left _ hb
    exact decide_eq_true (ne_zero_of_data (he₄'.books.blocks.loose b hb'))
  rw [hrefs] at hnodup
  have hfreed := freeBlocks_ok hfree (by rw [hne]; exact (List.nodup_append.mp hnodup).2.1)
    fun b hb _ => by rw [hw₆]; exact hloose b hb
  rw [hne, hw₆] at hfreed
  have he₇ := Editing.free he₄' hfreed
  obtain ⟨ind, hbuilt, hextra⟩ := buildMap_ok hbuild he₇.metaMarked
  have he₈ := he₇.wrote hbuilt.wrote
  have hnode₈ : (v.view w₈.disk).node v.toFs p = (v.view w.disk).node v.toFs p := by
    refine node_congr ?_
    rw [hbuilt.wrote.inode, ← hfreed.inode, hm.view, ← htaken.inode]
    rfl
  have hnf₈ : ((v.view w₈.disk).node v.toFs p).type ≠ .file := by
    rw [hnode₈, hd]
    nofun
  obtain ⟨a, -, -, hu⟩ := setGrown_ok (p := p) hset hp.1 hbuilt.length hnf₈
  rw [hnode₈] at hu
  obtain ⟨i, hi⟩ : ∃ i, (v.view w'.disk).node v.toFs p = i := ⟨_, rfl⟩
  have hnode := hi.symm.trans hu.node
  have hget : (v.view w'.disk).block = (v.view w₈.disk).block := hu.block
  have hblock : i.block = bmap := by rw [hnode]
  have hsize : i.size = (blocks ++ [blk]).length * v.blockSize := by
    rw [hnode, Nat.mul_comm]
    exact Int.toNat_natCast _
  have hceil : ceilDiv i.size v.blockSize = (blocks ++ [blk]).length := by
    rw [hsize]
    exact ceilDiv_mul v.bs_pos
  have hdir : i.type = .dir := by
    rw [hnode]
    exact hd
  have hdata : ∀ b ∈ blocks ++ [blk], v.kind b = .data := by
    intro b hb
    rcases List.mem_append.mp hb with hb | hb
    · exact (hx.dirOk hp hd).data b (hblocks ▸ hb)
    · rw [List.mem_singleton.mp hb]
      exact hkind
  have hapart := he₈.books.blocks.nodup p
  rw [Table.refs_of Table.set_self] at hapart
  have hget₄ : ∀ b ∈ blocks ++ [blk], (v.view w'.disk).block b = (v.view w₄.disk).block b := by
    intro b hb
    rw [hget, hbuilt.wrote.block, ← hfreed.block]
    intro hind
    rcases List.mem_append.mp hb with hb | hb
    · exact (List.nodup_append.mp hapart).2.2 b hb b (List.mem_append_left _ hind) rfl
    · exact (List.nodup_append.mp (List.nodup_append.mp hapart).2.1).2.2 b hind b
        (List.mem_append_left _ hb) rfl
  have hold : ∀ b ∈ blocks, (v.view w'.disk).block b = (v.view w.disk).block b := by
    intro b hb
    rw [hget₄ b (List.mem_append_left _ hb), hagree b]
    rw [hrefs]
    exact List.mem_append_left _ hb
  have hnew : (v.view w'.disk).block blk = m := by
    rw [hget₄ blk (by simp), hm.block, Function.update_self]
  have hfast : ¬fastSymlink v.toFs i := not_fastSymlink_of_dir hdir
  have hne₀ : ∀ b ∈ blocks ++ [blk], b ≠ 0 := fun b hb => ne_zero_of_data (hdata b hb)
  have hblocks' : i.blocksIn v.toFs (v.view w'.disk).block = blocks ++ [blk] := by
    rw [hget]
    exact hbuilt.blocksIn hblock hceil
  have hentries : (v.view w'.disk).entriesOf v p =
      (v.view w.disk).entriesOf v p ++ [v.newEntry name ino t] := by
    unfold Vol.entriesOf Inode.entries
    rw [hi, hblocks', List.flatMap_append, List.flatMap_singleton, hnew, hm', ← hblocks,
      List.flatMap_def, List.flatMap_def, List.map_congr_left fun b hb => by rw [hold b hb]]
  have hsound' : Sound v (v.view w'.disk).block i := by
    rw [hget]
    refine hbuilt.sound hblock hceil hfast hne₀ ?_ ?_ fun _ => ⟨hsize, fun b hb => ?_⟩
    · rw [hnode]
      exact hsound.fileAcl
    · rw [hnode, ← hextra]
      exact toNat_sectors _ _ _
    · rw [← hget]
      rcases List.mem_append.mp hb with hb | hb
      · rw [hold b hb]
        exact (hsound.dirBlocks hd b (hblocks ▸ hb)).2
      · rw [List.mem_singleton.mp hb, hnew]
        exact hm.dirBlock
  have hinUse : v.inUse (v.view w'.disk) p := by
    refine ⟨hp.1, ?_⟩
    rw [hi, hnode]
    exact hp.2
  have hnames : (v.row (v.view w'.disk).block i).names =
      ((v.view w.disk).entriesOf v p).map (·.ino) ++ [ino] := by
    have hmap := congrArg (List.map Entry.ino) hentries
    rw [List.map_append] at hmap
    refine Eq.trans ?_ hmap
    unfold Vol.entriesOf
    rw [hi]
    exact if_pos hdir
  have hnames₀ : (v.row (v.view w.disk).block ((v.view w.disk).node v.toFs p)).names =
      ((v.view w.disk).entriesOf v p).map (·.ino) := if_pos hd
  have he : Editing v (v.view w.disk) (v.view w'.disk) p (v.row (v.view w'.disk).block i) []
      (shift δ ino (-1)) := by
    refine (he₈.updated hu).set _ _ ?_ ?_ ?_ ?_
    · show decide (i.type = .dir) = decide (_ = FileType.dir)
      rw [hdir, hd]
    · show (i.refs v.toFs (v.view w'.disk).block ++ []).Perm (blocks ++ (ind ++ ([blk] ++ [])))
      rw [hget, List.append_nil, List.append_nil]
      refine (hbuilt.refs hblock hceil hfast hne₀).trans ?_
      rw [List.append_assoc]
      exact List.Perm.append_left _ List.perm_append_comm
    · intro j hj
      rw [hnames] at hj
      rcases List.mem_append.mp hj with hj | hj
      · obtain ⟨e, he, rfl⟩ := List.mem_map.mp hj
        exact .inr (hx.named hp hd he)
      · rw [List.mem_singleton.mp hj]
        exact .inr hino
    · intro j
      show δ j + (if j = ino then -1 else 0) = δ j + (List.count j (v.row _ _).names : Nat) -
        (List.count j (v.row _ i).names : Nat) + if j = p then ((i.links : Nat) : Int) -
          ((v.view w.disk).node v.toFs p).links else 0
      rw [hnames₀, hnames, List.count_append, List.count_singleton, hnode]
      simp only [beq_iff_eq, eq_comm (a := ino), sub_self, ite_self]
      split_ifs <;> omega
  refine ⟨he.done hinUse (by rw [hi]) (hi ▸ hsound') fun _ => by rw [hi]; exact hdir, he.frame, ?_,
    hentries⟩
  rw [hi, hnode]
  exact ⟨rfl, rfl, rfl, rfl, rfl, rfl⟩

/-- `add-entry!` in a block with room. -/
theorem Accounted.insert_of_blockSet {b : Nat} {m : Bytes} {e : Entry} (hx : Accounted v x δ)
    (hp : v.inUse x p) (hd : (x.node v.toFs p).type = .dir)
    (hb : b ∈ (x.node v.toFs p).blocksIn v.toFs x.block) (hset : BlockSet v x x' b m)
    (hins : Inserted e (blockEntries v.toFs (x.block b)) (blockEntries v.toFs m))
    (he : v.inUse x e.ino) :
    Accounted v x' (shift δ e.ino (-1)) ∧ Frame v x x' p ∧
      SameHead (x.node v.toFs p) (x'.node v.toFs p) ∧ Inserted e (x.entriesOf v p) (x'.entriesOf v p) := by
  obtain ⟨pre, post, hsplit⟩ := List.append_of_mem hb
  obtain ⟨hnode, -, -⟩ := hx.map_of_blockSet hp hd hsplit hset
  obtain ⟨hold, hnew⟩ := hx.entries_of_blockSet hp hd hsplit hset
  have hnames : ∀ e' ∈ blockEntries v.toFs m, v.inUse x e'.ino := by
    intro e' he'
    rcases mem_of_inserted hins he' with rfl | he'
    · exact he
    · exact hx.named hp hd (by rw [hold]; simp [he'])
  have hδ : ∀ i, shift δ e.ino (-1) i = δ i +
      ((blockEntries v.toFs (x.block b)).map (·.ino)).count i -
      ((blockEntries v.toFs m).map (·.ino)).count i := by
    intro i
    rw [count_inserted hins i]
    unfold shift
    split_ifs <;> omega
  obtain ⟨hacc, hframe⟩ := hx.setDirBlock hp hd hsplit hset hnames hδ
  refine ⟨hacc, hframe, ?_, ?_⟩
  · rw [hnode]
    exact ⟨rfl, rfl, rfl, rfl, rfl, rfl⟩
  · rw [hold, hnew]
    exact hins.append

theorem Frame.updated {x'' : Vol} {i : Inode} (h : Frame v x x' p) (hu : Updated v x' x'' p i) :
    Frame v x x'' p := by
  refine ⟨fun j hj => ?_, fun b hb hbit => ?_, ?_⟩
  · rw [hu.inode hj, h.inode j hj]
  · rw [hu.block, h.block b hb hbit]
  · rw [hu.frame.static, h.static]

theorem inUse_of_sameHead (hp : v.inUse x p)
    (h : SameHead (x.node v.toFs p) (x'.node v.toFs p)) : v.inUse x' p := by
  refine ⟨hp.1, ?_⟩
  rw [h.2.1]
  exact hp.2

/-- New times change nothing else. -/
theorem Accounted.touched {n : Nat} (hx : Accounted v x δ) (hp : v.inUse x p)
    (hu : Updated v x x' p { x.node v.toFs p with mtime := n }) :
    Accounted v x' δ ∧ SameHead (x.node v.toFs p) (x'.node v.toFs p) ∧
      x'.entriesOf v p = x.entriesOf v p := by
  refine ⟨?_, ?_, ?_⟩
  · have hlinks : p = rootIno ∨ (x.node v.toFs p).links ≠ 0 := hp.2.imp_right And.right
    refine (hx.updated hp hu hlinks).of_eq fun j => ?_
    unfold shift
    rw [sub_self, ite_self, add_zero]
  · rw [hu.node]
    exact ⟨rfl, rfl, rfl, rfl, rfl, rfl⟩
  · unfold Vol.entriesOf
    rw [hu.node, hu.block]
    rfl

theorem SameHead.trans {i i' i'' : Inode} (h : SameHead i i') (h' : SameHead i' i'') :
    SameHead i i'' :=
  ⟨h'.1.trans h.1, h'.2.1.trans h.2.1, h'.2.2.1.trans h.2.2.1, h'.2.2.2.1.trans h.2.2.2.1,
    h'.2.2.2.2.1.trans h.2.2.2.2.1, h'.2.2.2.2.2.trans h.2.2.2.2.2⟩

/-- `add-entry!`: the directory has one entry more, and the inode it names is one link short. -/
theorem addEntry_ok {name path : Str} {ino : Nat} {t : FileType}
    (h : addEntry v.toFs (x.node v.toFs p) name ino t path w = .ok u w') (hw : v.view w.disk = x)
    (hx : Accounted v x δ) (hp : v.inUse x p) (hd : (x.node v.toFs p).type = .dir)
    (hino : v.inUse x ino) (hname : 1 ≤ nameBytes name) :
    Accounted v (v.view w'.disk) (shift δ ino (-1)) ∧ Frame v x (v.view w'.disk) p ∧
      SameHead (x.node v.toFs p) ((v.view w'.disk).node v.toFs p) ∧
      Inserted (v.newEntry name ino t) (x.entriesOf v p) ((v.view w'.disk).entriesOf v p) := by
  subst hw
  unfold addEntry at h
  obtain ⟨_, w₁, hcheck, h⟩ := bind_ok.mp h
  obtain ⟨blocks, w₂, hblocks, h⟩ := bind_ok.mp h
  obtain ⟨done, w₃, hadd, h⟩ := bind_ok.mp h
  obtain ⟨_, w₄, hgrow, htouch⟩ := bind_ok.mp h
  obtain ⟨-, rfl⟩ := failWhen_ok.mp hcheck
  obtain ⟨hblocks, hw₂, -⟩ := (gives_blocksIn hx hp hd).of_ok rfl hblocks
  replace hblocks := Except.ok.inj hblocks
  have hok := hx.dirOk hp hd
  have hbody : Accounted v (v.view w₄.disk) (shift δ ino (-1)) ∧
      Frame v (v.view w.disk) (v.view w₄.disk) p ∧
      SameHead ((v.view w.disk).node v.toFs p) ((v.view w₄.disk).node v.toFs p) ∧
      Inserted (v.newEntry name ino t) ((v.view w.disk).entriesOf v p)
        ((v.view w₄.disk).entriesOf v p) := by
    rcases addInBlocks_ok hadd (align4_ge _) hname (by have := hino.1.1; omega)
      (by rw [← hblocks]; exact hok.data) (by rw [← hblocks, hw₂]; exact hok.tiled) with
      ⟨rfl, hw₃⟩ | ⟨rfl, b, hb, m, hset, hins, -⟩
    · rw [if_neg Bool.false_ne_true] at hgrow
      rw [← hw₂, ← hw₃] at hgrow hx hp hd hblocks hino ⊢
      obtain ⟨hacc, hframe, hhead, hentries⟩ := growDir_ok hgrow hx hp hd hblocks.symm hino hname
      exact ⟨hacc, hframe, hhead, _, [], (List.append_nil _).symm, hentries⟩
    · obtain ⟨-, rfl⟩ := pure_ok.mp hgrow
      rw [hw₂] at hset hins
      exact hx.insert_of_blockSet hp hd (hblocks ▸ hb) hset hins hino
  obtain ⟨hacc, hframe, hhead, hins⟩ := hbody
  obtain ⟨n, hu⟩ := touch_ok (p := p) htouch hp.1
  obtain ⟨hacc', hhead', hentries⟩ := hacc.touched (inUse_of_sameHead hp hhead) hu
  refine ⟨hacc', hframe.updated hu, hhead.trans hhead', ?_⟩
  rw [hentries]
  exact hins

/-! ### Entries removed -/

section Removed

variable {e : Entry} {name : Str} {l l' : List Entry}

theorem count_removed (h : Removed name e l l') (i : Nat) :
    (l.map (·.ino)).count i = (l'.map (·.ino)).count i + if i = e.ino then 1 else 0 := by
  obtain ⟨l₁, l₂, rfl, rfl, -⟩ := h
  exact count_inserted ⟨l₁, l₂, rfl, rfl⟩ i

theorem mem_of_removed (h : Removed name e l l') : e ∈ l ∧ ∀ e' ∈ l', e' ∈ l := by
  obtain ⟨l₁, l₂, rfl, rfl, -⟩ := h
  refine ⟨by simp, fun e' he' => ?_⟩
  rcases List.mem_append.mp he' with he' | he'
  · exact List.mem_append_left _ he'
  · exact List.mem_append_right _ (List.mem_cons_of_mem _ he')

/-- The entry removed is the one that `lookup` finds. -/
theorem findName_of_removed (h : Removed name e l l') : findName name l = some e.ino := by
  obtain ⟨l₁, l₂, rfl, -, hname, hfirst⟩ := h
  unfold findName
  rw [List.find?_append, List.find?_eq_none.mpr, Option.none_or, List.find?_cons_of_pos]
  · rfl
  · exact decide_eq_true hname
  · intro e' he'
    simpa using hfirst e' he'

end Removed

theorem Accounted.remove_of_blockSet {b : Nat} {m : Bytes} {e : Entry} {name : Str}
    {pre post : List Nat} (hx : Accounted v x δ) (hp : v.inUse x p)
    (hd : (x.node v.toFs p).type = .dir)
    (hsplit : (x.node v.toFs p).blocksIn v.toFs x.block = pre ++ b :: post)
    (hset : BlockSet v x x' b m)
    (hrem : Removed name e (blockEntries v.toFs (x.block b)) (blockEntries v.toFs m))
    (hfirst : ∀ c ∈ pre, ∀ e' ∈ blockEntries v.toFs (x.block c), e'.name ≠ some name) :
    Accounted v x' (shift δ e.ino 1) ∧ Frame v x x' p ∧
      SameHead (x.node v.toFs p) (x'.node v.toFs p) ∧
      Removed name e (x.entriesOf v p) (x'.entriesOf v p) := by
  obtain ⟨hnode, -, -⟩ := hx.map_of_blockSet hp hd hsplit hset
  obtain ⟨hold, hnew⟩ := hx.entries_of_blockSet hp hd hsplit hset
  have hnames : ∀ e' ∈ blockEntries v.toFs m, v.inUse x e'.ino := by
    intro e' he'
    have he'' := (mem_of_removed hrem).2 e' he'
    exact hx.named hp hd (by rw [hold]; simp [he''])
  have hδ : ∀ i, shift δ e.ino 1 i = δ i +
      ((blockEntries v.toFs (x.block b)).map (·.ino)).count i -
      ((blockEntries v.toFs m).map (·.ino)).count i := by
    intro i
    rw [count_removed hrem i]
    unfold shift
    split_ifs <;> omega
  obtain ⟨hacc, hframe⟩ := hx.setDirBlock hp hd hsplit hset hnames hδ
  refine ⟨hacc, hframe, ?_, ?_⟩
  · rw [hnode]
    exact ⟨rfl, rfl, rfl, rfl, rfl, rfl⟩
  · rw [hold, hnew]
    refine hrem.append fun e' he' => ?_
    obtain ⟨c, hc, he'⟩ := List.mem_flatMap.mp he'
    exact hfirst c hc e' he'

/-- `remove-entry!`: the first entry of the name is gone, and its inode has one link too many. -/
theorem removeEntry_ok {name path : Str}
    (h : removeEntry v.toFs (x.node v.toFs p) name path w = .ok u w') (hw : v.view w.disk = x)
    (hx : Accounted v x δ) (hp : v.inUse x p) (hd : (x.node v.toFs p).type = .dir) :
    ∃ e, Accounted v (v.view w'.disk) (shift δ e.ino 1) ∧ Frame v x (v.view w'.disk) p ∧
      SameHead (x.node v.toFs p) ((v.view w'.disk).node v.toFs p) ∧
      Removed name e (x.entriesOf v p) ((v.view w'.disk).entriesOf v p) := by
  subst hw
  unfold removeEntry at h
  obtain ⟨_, w₁, hcheck, h⟩ := bind_ok.mp h
  obtain ⟨blocks, w₂, hblocks, h⟩ := bind_ok.mp h
  obtain ⟨found, w₃, hrem, h⟩ := bind_ok.mp h
  obtain ⟨_, w₄, hfound, htouch⟩ := bind_ok.mp h
  obtain ⟨-, rfl⟩ := failWhen_ok.mp hcheck
  obtain ⟨hyes, rfl⟩ := failWhen_ok.mp hfound
  obtain ⟨hblocks, hw₂, -⟩ := (gives_blocksIn hx hp hd).of_ok rfl hblocks
  replace hblocks := Except.ok.inj hblocks
  have hok := hx.dirOk hp hd
  rcases removeInBlocks_ok hrem (by rw [← hblocks]; exact hok.data)
    (by rw [← hblocks, hw₂]; exact hok.tiled) with
    ⟨rfl, -⟩ | ⟨-, pre, b, post, m, e, hsplit, hset, ⟨hrem, -⟩, hfirst⟩
  · exact absurd rfl hyes
  · rw [hw₂] at hset hrem hfirst
    obtain ⟨hacc, hframe, hhead, hrem⟩ :=
      hx.remove_of_blockSet hp hd (hblocks.trans hsplit) hset hrem hfirst
    obtain ⟨n, hu⟩ := touch_ok (p := p) htouch hp.1
    obtain ⟨hacc', hhead', hentries⟩ := hacc.touched (inUse_of_sameHead hp hhead) hu
    refine ⟨e, hacc', hframe.updated hu, hhead.trans hhead', ?_⟩
    rw [hentries]
    exact hrem

end Beeros.Ext2
