import Beeros.Ext2Entries
import Beeros.Ext2Exact

/-! A directory as a map. `add-entry!` and `remove-entry!` change the entries of a directory by one,
whatever the rest of the image holds: only the directory's own blocks count, and the bitmaps as far as
the blocks that it may grow by are concerned. -/

namespace Beeros.Ext2

open Memory Exec

variable {v : Volume} {x x' : Vol} {p : Nat} {w w' : World} {u : Unit} {e : Entry} {name : Str}

/-! ### Lists of entries -/

/-- One of the lists has got `e`, or there is one more list with `e` alone. -/
def AddedTo (e : Entry) (ls ls' : List (List Entry)) : Prop :=
  (∃ pre l l' post, ls = pre ++ l :: post ∧ ls' = pre ++ l' :: post ∧ Inserted e l l') ∨
    ls' = ls ++ [[e]]

/-- The first entry called `name`, `e`, has been taken out of its list. -/
def TakenFrom (name : Str) (e : Entry) (ls ls' : List (List Entry)) : Prop :=
  ∃ pre l l' post, ls = pre ++ l :: post ∧ ls' = pre ++ l' :: post ∧ Removed name e l l' ∧
    ∀ k ∈ pre, ∀ e' ∈ k, e'.name ≠ some name

section Flatten

variable {ls ls' : List (List Entry)}

theorem AddedTo.flatten (h : AddedTo e ls ls') : Inserted e ls.flatten ls'.flatten := by
  rcases h with ⟨pre, l, l', post, rfl, rfl, hins⟩ | rfl
  · have happ := hins.append (a := pre.flatten) (b := post.flatten)
    rw [List.append_assoc, List.append_assoc] at happ
    rw [List.flatten_append, List.flatten_append, List.flatten_cons, List.flatten_cons]
    exact happ
  · refine ⟨ls.flatten, [], (List.append_nil _).symm, ?_⟩
    rw [List.flatten_append, List.flatten_singleton]

theorem TakenFrom.flatten (h : TakenFrom name e ls ls') : Removed name e ls.flatten ls'.flatten := by
  obtain ⟨pre, l, l', post, rfl, rfl, hrem, hfirst⟩ := h
  have happ := hrem.append (a := pre.flatten) (b := post.flatten) fun e' he' => by
    obtain ⟨k, hk, he'⟩ := List.mem_flatten.mp he'
    exact hfirst k hk e' he'
  rw [List.append_assoc, List.append_assoc] at happ
  rw [List.flatten_append, List.flatten_append, List.flatten_cons, List.flatten_cons]
  exact happ

end Flatten

/-! ### Directories -/

/-- Data blocks given back are data blocks that are free. -/
theorem MetaMarked.freed {l : List Nat} (h : MetaMarked v x') (ht : Taken v x x' l)
    (hl : ∀ b ∈ l, v.kind b = .data) : MetaMarked v x := by
  intro b hr hb
  by_cases hmem : b ∈ l
  · exact hl b hmem
  · refine h b hr ?_
    rw [ht.blockBit, hb, decide_eq_false hmem]
    rfl

namespace Vol

variable (v : Volume) (x : Vol) (p : Nat)

/-- The blocks with the contents of the directory `p`. -/
def dirBlocks : List Nat := (x.node v.toFs p).blocksIn v.toFs x.block

/-- Its indirect blocks. -/
def dirIndirects : List Nat := mapIndirects x.block v.ppb (x.node v.toFs p).block

/-- Its entries, block by block. -/
def entryLists : List (List Entry) := (x.dirBlocks v p).map fun b => blockEntries v.toFs (x.block b)

theorem entriesOf_eq_flatten : x.entriesOf v p = (x.entryLists v p).flatten :=
  List.flatMap_def ..

end Vol

/-- A directory: blocks in use, all different, those of its contents tiled by neat records. No block
that is free in the bitmaps is one of the filesystem's own. -/
structure Directory (v : Volume) (x : Vol) (p : Nat) : Prop where
  isInode : v.IsInode p
  type : (x.node v.toFs p).type = .dir
  ok : DirOk v x.block (x.node v.toFs p)
  neat : ∀ b ∈ x.dirBlocks v p, NeatBlock v.toFs (x.block b)
  nodup : (x.dirBlocks v p ++ x.dirIndirects v p).Nodup
  used : ∀ b ∈ x.dirBlocks v p ++ x.dirIndirects v p, x.blockBit b = true
  metaMarked : MetaMarked v x

/-- In a well-accounted image every directory in use is one, if its records are neat. -/
theorem Accounted.directory {δ : Nat → Int} (hx : Accounted v x δ) (hp : v.inUse x p)
    (hd : (x.node v.toFs p).type = .dir) (hn : ∀ b ∈ x.dirBlocks v p, NeatBlock v.toFs (x.block b)) :
    Directory v x p := by
  obtain ⟨hrefs, hnodup⟩ := hx.dir_nodup hp hd
  rw [hrefs] at hnodup
  refine ⟨hp.1, hd, hx.dirOk hp hd, hn, hnodup, fun b hb => ?_, hx.books.metaMarked⟩
  refine (hx.books.blocks.bit_of_ref (i := p) ?_).2
  rw [refs_table hp, hrefs]
  exact hb

namespace Directory

theorem gives_dirEntries (h : Directory v (v.view w.disk) p) :
    Gives (dirEntries v.toFs ((v.view w.disk).node v.toFs p)) w.disk
      (.ok ((v.view w.disk).entriesOf v p)) := Ext2.gives_dirEntries h.ok

theorem gives_fileBlocks (h : Directory v (v.view w.disk) p) :
    Gives (fileBlocks v.toFs ((v.view w.disk).node v.toFs p)) w.disk
      (.ok ((v.view w.disk).dirBlocks v p)) := Ext2.gives_fileBlocks h.ok.indirect

/-! ### A block with other records -/

theorem setBlock {pre post : List Nat} {b : Nat} {m : Bytes} (h : Directory v x p)
    (hsplit : x.dirBlocks v p = pre ++ b :: post) (hset : BlockSet v x x' b m)
    (hneat : NeatBlock v.toFs (x.block b) → NeatBlock v.toFs m) : Directory v x' p ∧
      x.entryLists v p = pre.map (fun c => blockEntries v.toFs (x.block c)) ++
        blockEntries v.toFs (x.block b) :: post.map (fun c => blockEntries v.toFs (x.block c)) ∧
      x'.entryLists v p = pre.map (fun c => blockEntries v.toFs (x.block c)) ++
        blockEntries v.toFs m :: post.map (fun c => blockEntries v.toFs (x.block c)) := by
  have hb : b ∈ x.dirBlocks v p := by
    rw [hsplit]
    exact List.mem_append_right _ List.mem_cons_self
  have hnode : x'.node v.toFs p = x.node v.toFs p := by
    rw [hset.view]
    rfl
  have hbits : x'.blockBit = x.blockBit := by
    rw [hset.view]
    rfl
  have hind : ∀ c ∈ x.dirIndirects v p, x'.block c = x.block c := by
    intro c hc
    rw [hset.block, Function.update_of_ne]
    rintro rfl
    exact (List.nodup_append.mp h.nodup).2.2 c hb c hc rfl
  have hblocks : (x.node v.toFs p).blocksIn v.toFs x'.block = x.dirBlocks v p := mapped_congr hind
  have hinds : mapIndirects x'.block v.ppb (x.node v.toFs p).block = x.dirIndirects v p :=
    mapIndirects_congr hind
  have hblocks' : x'.dirBlocks v p = x.dirBlocks v p := by
    unfold Vol.dirBlocks
    rw [hnode, hblocks]
    rfl
  have hinds' : x'.dirIndirects v p = x.dirIndirects v p := by
    unfold Vol.dirIndirects
    rw [hnode, hinds]
    rfl
  have hcases : ∀ c ∈ x.dirBlocks v p, DirBlock v.toFs (x'.block c) ∧ NeatBlock v.toFs (x'.block c) := by
    intro c hc
    rw [hset.block]
    by_cases hcb : c = b
    · rw [hcb, Function.update_self]
      exact ⟨hset.dirBlock, hneat (h.neat b hb)⟩
    · rw [Function.update_of_ne hcb]
      exact ⟨h.ok.tiled c hc, h.neat c hc⟩
  have hok : DirOk v x'.block (x.node v.toFs p) := by
    refine ⟨?_, ?_, ?_, ?_⟩
    · rw [hinds]
      exact h.ok.indirect
    · rw [hblocks]
      exact h.ok.data
    · rw [hblocks]
      exact h.ok.size
    · rw [hblocks]
      exact fun c hc => (hcases c hc).1
  obtain ⟨hpre, hpost⟩ : b ∉ pre ∧ b ∉ post := by
    have hnd := (List.nodup_append.mp h.nodup).1
    rw [hsplit] at hnd
    have hnd := List.nodup_append.mp hnd
    exact ⟨fun hc => hnd.2.2 b hc b List.mem_cons_self rfl, (List.nodup_cons.mp hnd.2.1).1⟩
  have hsame : ∀ l : List Nat, b ∉ l → l.map (fun c => blockEntries v.toFs (x'.block c)) =
      l.map fun c => blockEntries v.toFs (x.block c) := by
    intro l hl
    refine List.map_congr_left fun c hc => ?_
    have hne : c ≠ b := by
      rintro rfl
      exact hl hc
    rw [hset.block, Function.update_of_ne hne]
  refine ⟨⟨h.isInode, ?_, ?_, ?_, ?_, ?_, ?_⟩, ?_, ?_⟩
  · rw [hnode]
    exact h.type
  · rw [hnode]
    exact hok
  · rw [hblocks']
    exact fun c hc => (hcases c hc).2
  · rw [hblocks', hinds']
    exact h.nodup
  · rw [hblocks', hinds', hbits]
    exact h.used
  · intro c hr hc
    rw [hbits] at hc
    exact h.metaMarked c hr hc
  · unfold Vol.entryLists
    rw [hsplit, List.map_append, List.map_cons]
  · unfold Vol.entryLists
    rw [hblocks', hsplit, List.map_append, List.map_cons, hsame pre hpre, hsame post hpost, hset.block,
      Function.update_self]

/-- New times change nothing else. -/
theorem touched {n : Nat} (h : Directory v x p)
    (hu : Updated v x x' p { x.node v.toFs p with mtime := n }) :
    Directory v x' p ∧ x'.entryLists v p = x.entryLists v p := by
  have hblocks : x'.dirBlocks v p = x.dirBlocks v p := by
    unfold Vol.dirBlocks
    rw [hu.node, hu.block]
    rfl
  have hinds : x'.dirIndirects v p = x.dirIndirects v p := by
    unfold Vol.dirIndirects
    rw [hu.node, hu.block]
  refine ⟨⟨h.isInode, ?_, ?_, ?_, ?_, ?_, ?_⟩, ?_⟩
  · rw [hu.node]
    exact h.type
  · rw [hu.node, hu.block]
    exact ⟨h.ok.indirect, h.ok.data, h.ok.size, h.ok.tiled⟩
  · rw [hblocks, hu.block]
    exact h.neat
  · rw [hblocks, hinds]
    exact h.nodup
  · rw [hblocks, hinds, hu.same.2.2.1]
    exact h.used
  · intro c hr hc
    rw [hu.same.2.2.1] at hc
    exact h.metaMarked c hr hc
  · unfold Vol.entryLists
    rw [hblocks, hu.block]

/-! ### Adding an entry -/

/-- `add-entry!` in a directory without room. -/
theorem grow {path : Str} {ino : Nat} {t : FileType} {blocks : List Nat}
    (h : Directory v (v.view w.disk) p) (hblocks : blocks = (v.view w.disk).dirBlocks v p)
    (hgrow : growDir v.toFs ((v.view w.disk).node v.toFs p) name ino t path blocks w = .ok u w')
    (hino : ino ≠ 0) (hname : 1 ≤ nameBytes name) (h255 : nameBytes name ≤ 255) :
    Directory v (v.view w'.disk) p ∧ (v.view w'.disk).entryLists v p =
      (v.view w.disk).entryLists v p ++ [[v.newEntry name ino t]] := by
  unfold growDir at hgrow
  obtain ⟨goal, w₁, hgoal, hgrow⟩ := bind_ok.mp hgrow
  obtain ⟨blk, w₂, hblk, hgrow⟩ := bind_ok.mp hgrow
  obtain ⟨buf, w₃, hput, hgrow⟩ := bind_ok.mp hgrow
  obtain ⟨_, w₄, hwrite, hgrow⟩ := bind_ok.mp hgrow
  obtain ⟨s, w₅, hs, hgrow⟩ := bind_ok.mp hgrow
  obtain ⟨d, w₆, hd, hgrow⟩ := bind_ok.mp hgrow
  obtain ⟨_, w₇, hfree, hgrow⟩ := bind_ok.mp hgrow
  obtain ⟨⟨bmap, extra⟩, w₈, hbuild, hset⟩ := bind_ok.mp hgrow
  obtain ⟨-, -, rfl⟩ := quot_ok.mp hgoal
  -- the new block
  have htaken := allocBlock_ok hblk
  have hfresh : (v.view w.disk).blockBit blk = false := (htaken.clear blk (by simp)).2
  have hkind : v.kind blk = .data := h.metaMarked.data htaken.wrote blk (by simp)
  obtain ⟨m, hm, hm', hmn⟩ := newBlock_ok hput hwrite hkind hname hino
  have hne : ∀ b ∈ (v.view w.disk).dirBlocks v p ++ (v.view w.disk).dirIndirects v p, b ≠ blk := by
    rintro b hb rfl
    exact Bool.false_ne_true (hfresh.symm.trans (h.used b hb))
  have hget₄ : ∀ b, b ≠ blk → (v.view w₄.disk).block b = (v.view w.disk).block b := by
    intro b hb
    rw [hm.block, Function.update_of_ne hb, htaken.block]
  have hbits₄ : ∀ b, (v.view w₄.disk).blockBit b =
      ((v.view w.disk).blockBit b || decide (b ∈ [blk])) := by
    intro b
    rw [hm.view]
    exact htaken.blockBit b
  -- the indirect blocks given back
  obtain ⟨hw₆, hs, hd⟩ := oldIndirects_ok hs hd h.ok.indirect fun b hb =>
    hget₄ b (hne b (List.mem_append_right _ hb))
  have hsub : (s ++ d).Sublist ((v.view w.disk).dirIndirects v p) := by
    rw [hs, hd]
    exact List.sublist_append_left _ _
  have hdata : ∀ b ∈ s ++ d, v.kind b = .data := fun b hb => h.ok.indirect b (hsub.subset hb)
  have hnz : (s ++ d).filter (· ≠ 0) = s ++ d :=
    List.filter_eq_self.mpr fun b hb => decide_eq_true (ne_zero_of_data (hdata b hb))
  have hfreed := freeBlocks_ok hfree (by
    rw [hnz]
    exact (List.nodup_append.mp h.nodup).2.1.sublist hsub) fun b hb _ => by
      rw [hw₆, hbits₄, h.used b (List.mem_append_right _ (hsub.subset hb)), Bool.true_or]
      exact ⟨v.data_inRange (hdata b hb), rfl⟩
  rw [hnz, hw₆] at hfreed
  have hmark₄ : MetaMarked v (v.view w₄.disk) := by
    intro b hr hb
    rw [hbits₄, Bool.or_eq_false_iff] at hb
    exact h.metaMarked b hr hb.1
  have hmark₇ := hmark₄.freed hfreed hdata
  -- the blocks of the new contents stay in use
  have hkept : ∀ b ∈ blocks ++ [blk], (v.view w₇.disk).blockBit b = true := by
    intro b hb
    have hbit : (v.view w₄.disk).blockBit b = true ∧ b ∉ s ++ d := by
      rcases List.mem_append.mp hb with hb | hb
      · rw [hblocks] at hb
        refine ⟨?_, fun hmem => (List.nodup_append.mp h.nodup).2.2 b hb b (hsub.subset hmem) rfl⟩
        rw [hbits₄, h.used b (List.mem_append_left _ hb), Bool.true_or]
      · rw [List.mem_singleton.mp hb]
        refine ⟨?_, fun hmem => hne blk (List.mem_append_right _ (hsub.subset hmem)) rfl⟩
        rw [hbits₄, decide_eq_true (List.mem_singleton_self blk), Bool.or_true]
    have hor := hfreed.blockBit b
    rw [hbit.1, decide_eq_false hbit.2, Bool.or_false] at hor
    exact hor.symm
  -- the new map
  obtain ⟨ind, hbuilt, -⟩ := buildMap_ok hbuild hmark₇
  have hmark₈ := hmark₇.wrote hbuilt.wrote
  have hnode₈ : (v.view w₈.disk).node v.toFs p = (v.view w.disk).node v.toFs p := by
    refine node_congr ?_
    rw [hbuilt.wrote.inode, ← hfreed.inode, hm.view, ← htaken.inode]
    rfl
  have hnf₈ : ((v.view w₈.disk).node v.toFs p).type ≠ .file := by
    rw [hnode₈, h.type]
    nofun
  obtain ⟨a, -, -, hu⟩ := setGrown_ok (p := p) hset h.isInode hbuilt.length hnf₈
  rw [hnode₈] at hu
  obtain ⟨i, hi⟩ : ∃ i, (v.view w'.disk).node v.toFs p = i := ⟨_, rfl⟩
  have hnode := hi.symm.trans hu.node
  have hget : (v.view w'.disk).block = (v.view w₈.disk).block := hu.block
  have hblock : i.block = bmap := by rw [hnode]
  have hsize : i.size = (blocks ++ [blk]).length * v.blockSize := by
    rw [hnode, Nat.mul_comm]
    exact Int.toNat_natCast _
  have hceil : ceilDiv i.size v.blockSize = (blocks ++ [blk]).length := by
    rw [hsize]
    exact ceilDiv_mul v.bs_pos
  have hblocks' : (v.view w'.disk).dirBlocks v p = blocks ++ [blk] := by
    unfold Vol.dirBlocks
    rw [hi, hget]
    exact hbuilt.blocksIn hblock hceil
  have hinds' : ((v.view w'.disk).dirIndirects v p).Perm ind := by
    unfold Vol.dirIndirects
    rw [hi, hget, hblock]
    exact hbuilt.indirects
  have hclear : ∀ b ∈ ind, b ∉ blocks ++ [blk] := by
    intro b hb hmem
    exact Bool.false_ne_true ((hbuilt.wrote.clear b hb).2.symm.trans (hkept b hmem))
  have hget' : ∀ b ∈ blocks ++ [blk], (v.view w'.disk).block b = (v.view w₄.disk).block b := by
    intro b hb
    rw [hget, hbuilt.wrote.block (fun hmem => hclear b hmem hb), ← hfreed.block]
  have hold : ∀ b ∈ blocks, (v.view w'.disk).block b = (v.view w.disk).block b := by
    intro b hb
    rw [hget' b (List.mem_append_left _ hb),
      hget₄ b (hne b (List.mem_append_left _ (hblocks ▸ hb)))]
  have hnew : (v.view w'.disk).block blk = m := by
    rw [hget' blk (by simp), hm.block, Function.update_self]
  have hbits : (v.view w'.disk).blockBit = (v.view w₈.disk).blockBit := hu.same.2.2.1
  have hdatas : ∀ b ∈ blocks ++ [blk], v.kind b = .data := by
    intro b hb
    rcases List.mem_append.mp hb with hb | hb
    · rw [hblocks] at hb
      exact h.ok.data b hb
    · rw [List.mem_singleton.mp hb]
      exact hkind
  refine ⟨⟨h.isInode, ?_, ⟨?_, ?_, ?_, ?_⟩, ?_, ?_, ?_, ?_⟩, ?_⟩
  · rw [hi, hnode]
    exact h.type
  · exact fun b hb => hmark₇.data hbuilt.wrote b (hinds'.mem_iff.mp hb)
  · show ∀ b ∈ (v.view w'.disk).dirBlocks v p, _
    rw [hblocks']
    exact hdatas
  · show _ = ((v.view w'.disk).dirBlocks v p).length * _
    rw [hblocks', hi]
    exact hsize
  · show ∀ b ∈ (v.view w'.disk).dirBlocks v p, _
    rw [hblocks']
    intro b hb
    rcases List.mem_append.mp hb with hb | hb
    · rw [hold b hb]
      rw [hblocks] at hb
      exact h.ok.tiled b hb
    · rw [List.mem_singleton.mp hb, hnew]
      exact hm.dirBlock
  · rw [hblocks']
    intro b hb
    rcases List.mem_append.mp hb with hb | hb
    · rw [hold b hb]
      exact h.neat b (hblocks ▸ hb)
    · rw [List.mem_singleton.mp hb, hnew]
      exact hmn h255
  · rw [hblocks', List.nodup_append]
    refine ⟨?_, hinds'.nodup_iff.mpr hbuilt.wrote.nodup, ?_⟩
    · rw [← List.concat_eq_append, List.nodup_concat, hblocks]
      exact ⟨fun hmem => hne blk (List.mem_append_left _ hmem) rfl,
        (List.nodup_append.mp h.nodup).1⟩
    · rintro b hb c hc rfl
      exact hclear b (hinds'.mem_iff.mp hc) hb
  · rw [hblocks', hbits]
    intro b hb
    rw [hbuilt.wrote.blockBit]
    rcases List.mem_append.mp hb with hb | hb
    · rw [hkept b hb, Bool.true_or]
    · rw [decide_eq_true (hinds'.mem_iff.mp hb), Bool.or_true]
  · intro b hr hb
    rw [hbits] at hb
    exact hmark₈ b hr hb
  · unfold Vol.entryLists
    rw [hblocks', List.map_append, List.map_singleton, hnew, hm', ← hblocks,
      List.map_congr_left fun b hb => by rw [hold b hb]]

/-- `add-entry!`: a directory again, with one entry more. -/
theorem add {path : Str} {ino : Nat} {t : FileType}
    (h : Directory v x p) (hw : v.view w.disk = x)
    (hadd : addEntry v.toFs (x.node v.toFs p) name ino t path w = .ok u w')
    (hino : ino ≠ 0) (hname : 1 ≤ nameBytes name) (h255 : nameBytes name ≤ 255) :
    Directory v (v.view w'.disk) p ∧
      AddedTo (v.newEntry name ino t) (x.entryLists v p) ((v.view w'.disk).entryLists v p) := by
  subst hw
  unfold addEntry at hadd
  obtain ⟨_, w₁, hcheck, hadd⟩ := bind_ok.mp hadd
  obtain ⟨blocks, w₂, hblocks, hadd⟩ := bind_ok.mp hadd
  obtain ⟨done, w₃, hscan, hadd⟩ := bind_ok.mp hadd
  obtain ⟨_, w₄, hgrow, htouch⟩ := bind_ok.mp hadd
  obtain ⟨-, rfl⟩ := failWhen_ok.mp hcheck
  obtain ⟨hblocks, hw₂, -⟩ := h.gives_fileBlocks.of_ok rfl hblocks
  replace hblocks := Except.ok.inj hblocks
  have hbody : Directory v (v.view w₄.disk) p ∧ AddedTo (v.newEntry name ino t)
      ((v.view w.disk).entryLists v p) ((v.view w₄.disk).entryLists v p) := by
    rcases addInBlocks_ok hscan (align4_ge _) hname hino (by rw [← hblocks]; exact h.ok.data)
      (by rw [← hblocks, hw₂]; exact h.ok.tiled) with
      ⟨rfl, hw₃⟩ | ⟨rfl, b, hb, m, hset, hins, hneat⟩
    · rw [if_neg Bool.false_ne_true] at hgrow
      rw [← hw₂, ← hw₃] at hgrow h hblocks ⊢
      obtain ⟨hdir, hlists⟩ := h.grow hblocks.symm hgrow hino hname h255
      exact ⟨hdir, .inr hlists⟩
    · obtain ⟨-, rfl⟩ := pure_ok.mp hgrow
      rw [hw₂] at hset hins hneat
      rw [← hblocks] at hb
      obtain ⟨pre, post, hsplit⟩ := List.append_of_mem hb
      obtain ⟨hdir, hold, hnew⟩ := h.setBlock hsplit hset fun hn => hneat hn h255
      exact ⟨hdir, .inl ⟨_, _, _, _, hold, hnew, hins⟩⟩
  obtain ⟨n, hu⟩ := touch_ok (p := p) htouch h.isInode
  obtain ⟨hdir, hlists⟩ := hbody.1.touched hu
  rw [hlists]
  exact ⟨hdir, hbody.2⟩

/-! ### Removing an entry -/

/-- `remove-entry!`: a directory again, without the first entry of the name. -/
theorem remove {path : Str} (h : Directory v x p) (hw : v.view w.disk = x)
    (hrem : removeEntry v.toFs (x.node v.toFs p) name path w = .ok u w') :
    Directory v (v.view w'.disk) p ∧
      ∃ e, TakenFrom name e (x.entryLists v p) ((v.view w'.disk).entryLists v p) := by
  subst hw
  unfold removeEntry at hrem
  obtain ⟨_, w₁, hcheck, hrem⟩ := bind_ok.mp hrem
  obtain ⟨blocks, w₂, hblocks, hrem⟩ := bind_ok.mp hrem
  obtain ⟨found, w₃, hscan, hrem⟩ := bind_ok.mp hrem
  obtain ⟨_, w₄, hfound, htouch⟩ := bind_ok.mp hrem
  obtain ⟨-, rfl⟩ := failWhen_ok.mp hcheck
  obtain ⟨hyes, rfl⟩ := failWhen_ok.mp hfound
  obtain ⟨hblocks, hw₂, -⟩ := h.gives_fileBlocks.of_ok rfl hblocks
  replace hblocks := Except.ok.inj hblocks
  rcases removeInBlocks_ok hscan (by rw [← hblocks]; exact h.ok.data)
    (by rw [← hblocks, hw₂]; exact h.ok.tiled) with
    ⟨rfl, -⟩ | ⟨-, pre, b, post, m, e, hsplit, hset, ⟨hrem, hneat⟩, hfirst⟩
  · exact absurd rfl hyes
  · rw [hw₂] at hset hrem hneat hfirst
    obtain ⟨hdir, hold, hnew⟩ := h.setBlock (hblocks.trans hsplit) hset hneat
    obtain ⟨n, hu⟩ := touch_ok (p := p) htouch h.isInode
    obtain ⟨hdir', hlists⟩ := hdir.touched hu
    refine ⟨hdir', e, _, _, _, _, hold, hlists.trans hnew, hrem, fun k hk => ?_⟩
    obtain ⟨c, hc, rfl⟩ := List.mem_map.mp hk
    exact hfirst c hc

end Directory

/-! ### Removal finishes -/

section Clock

variable {fs : Fs}

theorem keeps_clock_readBlock {b : Nat} : Keeps World.clock (readBlock fs b) := by
  have htransfer : Keeps World.clock transfer := by
    intro w
    unfold transfer
    split_ifs <;> rfl
  have hread : ∀ lba n off (buf : Buf), Keeps World.clock (fs.dev.read lba n buf off) :=
    fun _ _ _ _ => (keeps_throw _).ite (htransfer.bind fun _ =>
      Keeps.bind (fun _ => rfl) fun _ => keeps_pure _)
  exact (hread _ _ _ _).ite (keeps_pure _)

theorem keeps_clock_fileBlocks {i : Inode} : Keeps World.clock (fileBlocks fs i) := by
  have hloop : ∀ (ptr : Nat → Io Nat) (sub : Nat → Nat → Io (List Nat)) span,
      (∀ k, Keeps World.clock (ptr k)) → (∀ b need, Keeps World.clock (sub b need)) →
      ∀ fuel k acc left, Keeps World.clock (collectLoop ptr sub span fuel k acc left) := by
    intro ptr sub span hptr hsub fuel
    induction fuel with
    | zero => exact fun _ _ _ => keeps_pure _
    | succ fuel ih =>
        exact fun k acc left => (keeps_pure _).ite ((hptr k).bind fun b => (hsub b _).bind fun _ =>
          ih _ _ _)
  have hcollect : ∀ depth b need, Keeps World.clock (collect fs depth b need) := by
    intro depth
    induction depth with
    | zero => exact fun _ _ => keeps_pure _
    | succ depth ih =>
        exact fun b need => (keeps_clock_readBlock.bind fun buf => hloop _ _ _
          (fun _ => (keeps_pure _).ite (keeps_throw _)) ih _ _ _ _).ite
          (hloop _ _ _ (fun _ => keeps_pure _) ih _ _ _ _)
  have htops : ∀ ts acc left, Keeps World.clock (collectTops fs ts acc left) := by
    intro ts
    induction ts with
    | nil => exact fun _ _ => keeps_pure _
    | cons t ts ih =>
        exact fun acc left => (keeps_pure _).ite ((hcollect _ _ _).bind fun _ => ih _ _)
  exact htops _ _ _

end Clock

theorem Directory.finishes_fileBlocks (h : Directory v (v.view w.disk) p) (hup : Up v.toFs w) :
    ∃ w', fileBlocks v.toFs ((v.view w.disk).node v.toFs p) w =
      .ok ((v.view w.disk).dirBlocks v p) w' ∧ w'.disk = w.disk ∧ Up v.toFs w' := by
  obtain ⟨w', hrun, hdisk, hfails⟩ := h.gives_fileBlocks.run rfl hup.fails
  have hclock : w'.clock = w.clock := keeps_clock_fileBlocks.ok hrun
  exact ⟨w', hrun, hdisk, by rw [hfails]; exact hup.fails, hup.writable, by rw [hclock]; exact hup.clock⟩

theorem finishes_slice {start len : Nat} {b : Buf} (hb : start + len ≤ b.capacity)
    (h : Up v.toFs w) : Finishes v.toFs (slice b start len) w := ⟨_, w, slice_ok.mpr ⟨hb, rfl, rfl⟩, h⟩

theorem finishes_recordName {m : Bytes} {o : Nat} (hok : RecOk v.toFs m o)
    (ho : o + recLen m o ≤ v.blockSize) (h : Up v.toFs w) :
    Finishes v.toFs (recordName v.toFs ⟨v.blockSize, m⟩ o (recIno m o)) w := by
  have hle := hok.le
  unfold recordName
  split_ifs with hused
  · refine Finishes.bind ?_ fun nl w1 h1 hup1 => ?_
    · unfold nameLen
      split_ifs
      · exact finishes_load (show o + 6 + 1 ≤ v.blockSize by omega) h
      · exact finishes_load (show o + 6 + 2 ≤ v.blockSize by omega) h
    · obtain ⟨rfl, rfl⟩ := nameLen_ok h1
      have hroom := (hok.used hused).2
      exact (finishes_slice (show o + 8 + v.recNl m o ≤ v.blockSize by omega) hup1).bind
        fun _ _ _ hup2 => finishes_pure _ hup2
  · exact finishes_pure _ h

theorem finishes_removeInBlock {blk fuel o : Nat} {m : Bytes} {os : List Nat} {prev : Option Nat}
    (h : Up v.toFs w) (hblk : v.kind blk = .data) (hbs : v.blockSize < 256 ^ 2)
    (ht : Tiled v.toFs m o v.blockSize os) (hprev : ∀ q ∈ prev, 8 ≤ recLen m q ∧ q + recLen m q = o)
    (hfuel : os.length < fuel) :
    Finishes v.toFs (removeInBlock v.toFs name blk ⟨v.blockSize, m⟩ fuel o prev) w := by
  induction fuel generalizing o os prev w with
  | zero => omega
  | succ fuel ih =>
      have hwrite : ∀ m', Finishes v.toFs (do
          writeBlock v.toFs blk ⟨v.blockSize, m'⟩
          pure true) w := fun m' =>
        (finishes_writeBlock (lt_of_kind (by simp [hblk])) le_rfl h).bind
          fun _ _ _ hup1 => finishes_pure _ hup1
      rw [removeInBlock]
      split_ifs with ho
      · cases os with
        | nil =>
            have : o = v.blockSize := ht
            omega
        | cons q os =>
            obtain ⟨rfl, hok, ht⟩ := ht
            have hend := ht.le
            have hle := hok.le
            rw [List.length_cons] at hfuel
            refine (finishes_load (show q + 4 ≤ v.blockSize by omega) h).bind fun e w1 h1 hup1 => ?_
            obtain ⟨-, rfl, rfl⟩ := load_ok.mp h1
            refine (finishes_load (show q + 4 + 2 ≤ v.blockSize by omega) h).bind fun l w1 h1 _ => ?_
            obtain ⟨-, rfl, rfl⟩ := load_ok.mp h1
            refine (finishes_recordName hok hend h).bind fun nm w1 h1 _ => ?_
            obtain ⟨rfl, -⟩ := recordName_ok h1
            split_ifs
            · cases prev with
              | none =>
                  refine (finishes_store (show q + 4 ≤ v.blockSize by omega) le_rfl (by norm_num) h).bind
                    fun b w1 h1 _ => ?_
                  obtain ⟨-, -, -, rfl, rfl⟩ := store_ok.mp h1
                  exact hwrite _
              | some q' =>
                  obtain ⟨hlen, rfl⟩ := hprev q' rfl
                  have hsum : recLen m q' + recLen m (q' + recLen m q') < 256 ^ 2 := by omega
                  have hfield : (loadLE m 2 (q' + 4) : Int) + (recLen m (q' + recLen m q') : Nat) <
                      256 ^ 2 := by
                    exact_mod_cast hsum
                  refine (finishes_addField (b := ⟨v.blockSize, m⟩)
                    (show q' + 4 + 2 ≤ v.blockSize by omega)
                    (Int.add_nonneg (Int.natCast_nonneg _) (Int.natCast_nonneg _)) hfield h).bind
                    fun b w1 h1 _ => ?_
                  obtain ⟨-, -, -, rfl, rfl⟩ := addField_ok.mp h1
                  exact hwrite _
            · exact ih h ht (fun q' hq' => by cases hq'; exact ⟨hle, rfl⟩) (by omega)
      · exact finishes_pure _ h

theorem finishes_removeInBlocks {blks : List Nat} (h : Up v.toFs w) (hbs : v.blockSize < 256 ^ 2)
    (hdata : ∀ b ∈ blks, v.kind b = .data)
    (hdir : ∀ b ∈ blks, DirBlock v.toFs ((v.view w.disk).block b)) :
    Finishes v.toFs (removeInBlocks v.toFs name blks) w := by
  induction blks generalizing w with
  | nil => exact finishes_pure _ h
  | cons blk blks ih =>
      have hblk := hdata blk List.mem_cons_self
      have htile := hdir blk List.mem_cons_self
      have hlen := htile.length_le
      refine (finishes_readBlock (lt_of_kind (by simp [hblk])) h).bind fun buf w1 h1 hup1 => ?_
      obtain ⟨hw1, rfl⟩ := readBlock_data h1 hblk
      refine (finishes_removeInBlock hup1 hblk hbs htile (fun _ hq => by cases hq) (by omega)).bind
        fun found w2 h2 hup2 => ?_
      split_ifs with hfound
      · exact finishes_pure _ hup2
      · have hstart : Tiled v.toFs ((v.view w.disk).block blk) 0 0 [] := rfl
        have hw2 : w2.disk = w.disk := by
          rcases removeInBlock_ok h2 hblk hstart htile nofun with ⟨-, hw, -⟩ | ⟨hyes, -⟩
          · rw [← hw, hw1]
          · exact absurd hyes hfound
        refine ih hup2 (fun b hb => hdata b (List.mem_cons_of_mem _ hb)) fun b hb => ?_
        rw [hw2]
        exact hdir b (List.mem_cons_of_mem _ hb)

theorem finishes_touch (h : Up v.toFs w) (hp : v.IsInode p) :
    Finishes v.toFs (inodeUpdate v.toFs p (setTimes v.toFs)) w := by
  have hk := v.kind_inodeBlock hp
  have hblk : v.inodeBlock p < v.blocks := lt_of_kind (by simp [hk])
  have hle := v.inodeOffset_le p
  have hge := v.inodeSize_ge
  unfold inodeUpdate
  refine Finishes.bind (m := quot _ _) ⟨_, w, quot_ok.mpr ⟨v.inodesPerGroup_pos.ne', rfl, rfl⟩, h⟩
    fun g w1 h1 _ => ?_
  obtain ⟨-, rfl, rfl⟩ := quot_ok.mp h1
  refine Finishes.bind ⟨_, w, nth_group (v.inodeGroup_lt hp) w, h⟩ fun g w1 h1 _ => ?_
  obtain ⟨hg, rfl⟩ := nth_ok.mp h1
  obtain ⟨-, rfl⟩ := group_of_getElem? hg
  refine (finishes_readBlock hblk h).bind fun buf w1 h1 hup1 => ?_
  obtain ⟨-, rfl⟩ := readBlock_meta h1 (by simp [hk]) (by simp [hk])
  have hin : ∀ k, k + 4 ≤ 128 → v.inodeOffset p + k + 4 ≤ v.blockSize := fun k hk => by omega
  refine Finishes.bind (Finishes.bind (finishes_now hup1) fun t w2 h2 hup2 => ?_) ?_
  · refine (finishes_store (hin _ (by decide)) (Int.natCast_nonneg t) (now_lt hup1 h2) hup2).bind
      fun b w3 h3 hup3 => ?_
    obtain ⟨-, -, -, rfl, rfl⟩ := store_ok.mp h3
    refine (finishes_now hup3).bind fun t' w4 h4 hup4 => ?_
    exact finishes_store (hin _ (by decide)) (Int.natCast_nonneg t') (now_lt hup3 h4) hup4
  · intro b w2 h2 hup2
    obtain ⟨-, hcap, -⟩ := (setTimes_edits (v := v) hge) h2 hle
    exact finishes_writeBlock hblk (le_of_eq hcap.symm) hup2

/-- `remove-entry!` returns for a name that is there, in a directory without an index, and for no
other. -/
theorem Directory.remove_returns_iff {path : Str} (h : Directory v (v.view w.disk) p)
    (hup : Up v.toFs w) (hbs : v.blockSize ≤ 4096) :
    (∃ w', removeEntry v.toFs ((v.view w.disk).node v.toFs p) name path w = .ok () w') ↔
      ((v.view w.disk).node v.toFs p).flags &&& flagIndex = 0 ∧
        ∃ e ∈ (v.view w.disk).entriesOf v p, e.name = some name := by
  constructor
  · rintro ⟨w', hrem⟩
    obtain ⟨-, e, htaken⟩ := h.remove rfl hrem
    obtain ⟨l₁, l₂, hl, -, hname, -⟩ := htaken.flatten
    unfold removeEntry at hrem
    obtain ⟨_, w₁, hcheck, -⟩ := bind_ok.mp hrem
    obtain ⟨hflag, -⟩ := failWhen_ok.mp hcheck
    refine ⟨not_not.mp hflag, e, ?_, hname⟩
    rw [Vol.entriesOf_eq_flatten, hl]
    exact List.mem_append_right _ List.mem_cons_self
  · rintro ⟨hflag, e, he, hname⟩
    obtain ⟨w₁, hblocks, hw₁, hup₁⟩ := h.finishes_fileBlocks hup
    have hdir : ∀ b ∈ (v.view w.disk).dirBlocks v p, DirBlock v.toFs ((v.view w₁.disk).block b) := by
      rw [hw₁]
      exact h.ok.tiled
    obtain ⟨found, w₂, hscan, hup₂⟩ : Finishes v.toFs (removeInBlocks v.toFs name
        ((v.view w.disk).dirBlocks v p)) w₁ := finishes_removeInBlocks hup₁ (by omega) h.ok.data hdir
    have hfound : found = true := by
      rcases removeInBlocks_ok hscan h.ok.data hdir with ⟨-, -, hnone⟩ | ⟨hyes, -⟩
      · obtain ⟨b, hb, he⟩ := List.mem_flatMap.mp he
        rw [hw₁] at hnone
        exact absurd hname (hnone b hb e he)
      · exact hyes
    obtain ⟨_, w₃, htouch, -⟩ := finishes_touch (p := p) hup₂ h.isInode
    have hcheck : checkDirWritable ((v.view w.disk).node v.toFs p) path w = .ok () w :=
      failWhen_ok.mpr ⟨not_not.mpr hflag, rfl⟩
    have hyes : failWhen (found = false) .remove (.path path) .notFound w₂ = .ok () w₂ :=
      failWhen_ok.mpr ⟨by rw [hfound]; exact Bool.false_ne_true.symm, rfl⟩
    refine ⟨w₃, ?_⟩
    unfold removeEntry
    rw [bind_apply hcheck, bind_apply hblocks, bind_apply hscan, bind_apply hyes]
    exact htouch

/-- A directory behaves as a map from names: `add-entry!` adds the one entry, `remove-entry!` takes
away the first one of its name, and both leave a directory with the other entries as they were. -/
theorem directory_map {path : Str} (h : Directory v (v.view w.disk) p) (hbs : v.blockSize ≤ 4096)
    (hname : 1 ≤ nameBytes name) (h255 : nameBytes name ≤ 255) :
    Gives (dirEntries v.toFs ((v.view w.disk).node v.toFs p)) w.disk
        (.ok ((v.view w.disk).entryLists v p).flatten) ∧
      (∀ ino t w', ino ≠ 0 →
        addEntry v.toFs ((v.view w.disk).node v.toFs p) name ino t path w = .ok () w' →
        Directory v (v.view w'.disk) p ∧
          AddedTo (v.newEntry name ino t) ((v.view w.disk).entryLists v p)
            ((v.view w'.disk).entryLists v p) ∧
          Gives (dirEntries v.toFs ((v.view w'.disk).node v.toFs p)) w'.disk
            (.ok ((v.view w'.disk).entryLists v p).flatten) ∧
          Inserted (v.newEntry name ino t) ((v.view w.disk).entryLists v p).flatten
            ((v.view w'.disk).entryLists v p).flatten) ∧
      (∀ w', removeEntry v.toFs ((v.view w.disk).node v.toFs p) name path w = .ok () w' →
        Directory v (v.view w'.disk) p ∧
          ∃ e, TakenFrom name e ((v.view w.disk).entryLists v p) ((v.view w'.disk).entryLists v p) ∧
            Gives (dirEntries v.toFs ((v.view w'.disk).node v.toFs p)) w'.disk
              (.ok ((v.view w'.disk).entryLists v p).flatten) ∧
            Removed name e ((v.view w.disk).entryLists v p).flatten
              ((v.view w'.disk).entryLists v p).flatten) ∧
      (Up v.toFs w →
        ((∃ w', removeEntry v.toFs ((v.view w.disk).node v.toFs p) name path w = .ok () w') ↔
          ((v.view w.disk).node v.toFs p).flags &&& flagIndex = 0 ∧
            ∃ e ∈ ((v.view w.disk).entryLists v p).flatten, e.name = some name)) := by
  have hgives : ∀ {w : World}, Directory v (v.view w.disk) p →
      Gives (dirEntries v.toFs ((v.view w.disk).node v.toFs p)) w.disk
        (.ok ((v.view w.disk).entryLists v p).flatten) := by
    intro w h
    rw [← Vol.entriesOf_eq_flatten]
    exact h.gives_dirEntries
  refine ⟨hgives h, fun ino t w' hino hadd => ?_, fun w' hrem => ?_, fun hup => ?_⟩
  · obtain ⟨hdir, hadded⟩ := h.add rfl hadd hino hname h255
    exact ⟨hdir, hadded, hgives hdir, hadded.flatten⟩
  · obtain ⟨hdir, e, htaken⟩ := h.remove rfl hrem
    exact ⟨hdir, e, htaken, hgives hdir, htaken.flatten⟩
  · rw [← Vol.entriesOf_eq_flatten]
    exact h.remove_returns_iff hup hbs

theorem directory_sample : Directory sampleVolume (sampleVolume.view sampleWorld.disk) rootIno :=
  accounted_sample.directory (by decide) (by decide) (by decide)

theorem directory_map_sample :
    (∃ w', addEntry sampleVolume.toFs ((sampleVolume.view sampleWorld.disk).node sampleVolume.toFs
        rootIno) ['a'] 12 .file [] sampleWorld = .ok () w' ∧
      Inserted ⟨some ['a'], 12, some .file⟩
        ((sampleVolume.view sampleWorld.disk).entryLists sampleVolume rootIno).flatten
        ((sampleVolume.view w'.disk).entryLists sampleVolume rootIno).flatten) ∧
    ∃ w', removeEntry sampleVolume.toFs ((sampleVolume.view sampleWorld.disk).node sampleVolume.toFs
      rootIno) ['.', '.'] [] sampleWorld = .ok () w' := by
  constructor
  · have hadd := eq_ok_of_value (r := addEntry sampleVolume.toFs
      ((sampleVolume.view sampleWorld.disk).node sampleVolume.toFs rootIno) ['a'] 12 .file []
      sampleWorld) (a := ()) (by decide)
    exact ⟨_, hadd, ((directory_map directory_sample (by decide) (by decide)
      (by decide)).2.1 12 .file _ (by decide) hadd).2.2.2⟩
  · exact ((directory_map directory_sample (by decide) (by decide)
      (by decide)).2.2.2 up_sample).mpr ⟨by decide, by decide⟩

/-- The sample image with the index flag in the root's record. -/
def indexedWorld : World :=
  { sampleWorld with disk := storeLE (smallDisk 16) 4 (5 * 1024 + 128 + iFlags) flagIndex }

theorem up_indexed : Up sampleVolume.toFs indexedWorld :=
  ⟨up_sample.fails, up_sample.writable, up_sample.clock⟩

theorem directory_indexed : Directory sampleVolume (sampleVolume.view indexedWorld.disk) rootIno :=
  (Checked.accounted (v := sampleVolume) (d := indexedWorld.disk) (by decide)).directory
    (by decide) (by decide) (by decide)

/-- In a directory with an index `remove-entry!` throws, though the name is there. -/
theorem not_remove_indexed : Directory sampleVolume (sampleVolume.view indexedWorld.disk) rootIno ∧
    Up sampleVolume.toFs indexedWorld ∧
    (∃ e ∈ (sampleVolume.view indexedWorld.disk).entriesOf sampleVolume rootIno,
      e.name = some ['.']) ∧
    ∀ w', removeEntry sampleVolume.toFs ((sampleVolume.view indexedWorld.disk).node sampleVolume.toFs
      rootIno) ['.'] [] indexedWorld ≠ .ok () w' := by
  refine ⟨directory_indexed, up_indexed, by decide, ?_⟩
  intro w' hrem
  have hflag := ((directory_indexed.remove_returns_iff up_indexed (by decide)).mp ⟨w', hrem⟩).1
  revert hflag
  decide

end Beeros.Ext2
