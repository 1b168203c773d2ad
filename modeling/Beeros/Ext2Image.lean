import Beeros.Ext2Books
import Beeros.Ext2DirWrite
import Beeros.Ext2Record

/-! Well-accounted images: the table read off the disk, what makes one inode sound, and the step from
accounts kept on paper to accounts that the disk itself shows. -/

namespace Beeros.Ext2

open Memory Exec

variable {v : Volume} {x x' : Vol} {δ δ' : Nat → Int}

/-! ### The table of an image -/

/-- The root, and the other inodes that are not reserved and have links. -/
def Volume.inUse (v : Volume) (x : Vol) (i : Nat) : Prop :=
  v.IsInode i ∧ (i = rootIno ∨ v.firstIno ≤ i ∧ (x.node v.toFs i).links ≠ 0)

instance (i : Nat) : Decidable (v.inUse x i) := inferInstanceAs (Decidable (_ ∧ _))

def Volume.row (v : Volume) (get : Nat → Bytes) (i : Inode) : Node where
  dir := i.type = .dir
  links := i.links
  refs := i.refs v.toFs get
  names := if i.type = .dir then (i.entries v.toFs get).map (·.ino) else []

def Volume.table (v : Volume) (x : Vol) : Table :=
  fun i => if v.inUse x i then some (v.row x.block (x.node v.toFs i)) else none

/-- What holds of an inode in use: no attribute block, its blocks counted, its size within its map, no
pointer to an indirect block that the size does not reach, and a directory tiled by records. -/
structure Sound (v : Volume) (get : Nat → Bytes) (i : Inode) : Prop where
  fileAcl : i.fileAcl = 0
  sectors : i.sectors = (i.refs v.toFs get).length * (v.blockSize / 512)
  fast : fastSymlink v.toFs i → i.size ≤ 60
  size : ¬fastSymlink v.toFs i → i.size ≤ (i.blocksIn v.toFs get).length * v.blockSize
  single : ¬fastSymlink v.toFs i → ceilDiv i.size v.blockSize ≤ 12 → i.block.getD 12 0 = 0
  double : ¬fastSymlink v.toFs i → ceilDiv i.size v.blockSize ≤ 12 + v.ppb → i.block.getD 13 0 = 0
  triple : ¬fastSymlink v.toFs i → ceilDiv i.size v.blockSize ≤ 12 + v.ppb + v.ppb * v.ppb →
    i.block.getD 14 0 = 0
  dirSize : i.type = .dir → i.size = (i.blocksIn v.toFs get).length * v.blockSize
  dirBlocks : i.type = .dir → ∀ b ∈ i.blocksIn v.toFs get, b ≠ 0 ∧ DirBlock v.toFs (get b)

/-- The accounts of the image are right, but for the link counts that are off by `δ`. -/
structure Accounted (v : Volume) (x : Vol) (δ : Nat → Int) : Prop where
  books : Books v (v.table x) x [] δ
  sound : ∀ i, v.inUse x i → Sound v x.block (x.node v.toFs i)
  root : (x.node v.toFs rootIno).type = .dir
  firstIno : x.firstIno = v.firstIno

theorem table_of_inUse {i : Nat} (h : v.inUse x i) :
    v.table x i = some (v.row x.block (x.node v.toFs i)) := if_pos h

theorem inUse_of_isSome {i : Nat} (h : (v.table x i).isSome) : v.inUse x i := by
  unfold Volume.table at h
  split_ifs at h with hi
  · exact hi
  · cases h

theorem refs_table {i : Nat} (h : v.inUse x i) :
    (v.table x).refs i = (x.node v.toFs i).refs v.toFs x.block := Table.refs_of (table_of_inUse h)

/-! ### One inode -/

section Inode

variable {get get' : Nat → Bytes} {i : Inode}

theorem not_fastSymlink_of_dir {fs : Fs} (h : i.type = .dir) : ¬fastSymlink fs i := by
  rintro ⟨hs, -⟩
  rw [h] at hs
  cases hs

theorem not_fastSymlink_of_file {fs : Fs} (h : i.type = .file) : ¬fastSymlink fs i := by
  rintro ⟨hs, -⟩
  rw [h] at hs
  cases hs

/-- An inode is what its record and its own blocks say. -/
theorem row_congr (hs : Sound v get i) (h : ∀ b ∈ i.refs v.toFs get, get' b = get b) :
    v.row get' i = v.row get i ∧ Sound v get' i := by
  have hrefs := refs_congr h
  have hblocks : ¬fastSymlink v.toFs i → i.blocksIn v.toFs get' = i.blocksIn v.toFs get :=
    fun hf => blocksIn_congr hf h
  have hdir : i.type = .dir → ∀ b ∈ i.blocksIn v.toFs get, get' b = get b := by
    intro ht b hb
    exact h b (mem_refs_of_mem_blocksIn (not_fastSymlink_of_dir ht) hb (hs.dirBlocks ht b hb).1)
  constructor
  · unfold Volume.row
    rw [hrefs]
    split_ifs with ht
    · have hentries : i.entries v.toFs get' = i.entries v.toFs get := by
        unfold Inode.entries
        rw [hblocks (not_fastSymlink_of_dir ht), List.flatMap_def, List.flatMap_def]
        congr 1
        apply List.map_congr_left
        intro b hb
        rw [hdir ht b hb]
      rw [hentries]
    · rfl
  · refine ⟨hs.fileAcl, by rw [hrefs]; exact hs.sectors, hs.fast, fun hf => ?_, hs.single,
      hs.double, hs.triple, fun ht => ?_, fun ht b hb => ?_⟩
    · rw [hblocks hf]
      exact hs.size hf
    · rw [hblocks (not_fastSymlink_of_dir ht)]
      exact hs.dirSize ht
    · rw [hblocks (not_fastSymlink_of_dir ht)] at hb
      rw [hdir ht b hb]
      exact hs.dirBlocks ht b hb

theorem mem_refs_of_mem_mapIndirects {b : Nat} (hf : ¬fastSymlink v.toFs i)
    (hb : b ∈ mapIndirects get v.ppb i.block) : b ∈ i.refs v.toFs get := by
  unfold Inode.refs
  rw [if_neg hf]
  exact List.mem_append_right _ hb

/-- A sound directory whose blocks are data blocks can be read. -/
theorem Sound.dirOk (hs : Sound v get i) (ht : i.type = .dir)
    (hdata : ∀ b ∈ i.refs v.toFs get, v.kind b = .data) : DirOk v get i where
  indirect b hb := hdata b (mem_refs_of_mem_mapIndirects (not_fastSymlink_of_dir ht) hb)
  data b hb := hdata b
    (mem_refs_of_mem_blocksIn (not_fastSymlink_of_dir ht) hb (hs.dirBlocks ht b hb).1)
  size := hs.dirSize ht
  tiled b hb := (hs.dirBlocks ht b hb).2

end Inode

/-! ### From one image to the next -/

theorem firstIno_of_static (h : x'.sbStatic = x.sbStatic) : x'.firstIno = x.firstIno := by
  have hload : ∀ (y : Vol) o, 52 ≤ o → loadLE y.sbStatic 4 o = loadLE y.sb 4 o := by
    intro y o ho
    exact loadLE_congr ((agreeOn_fill (by omega)).trans (agreeOn_fill (by omega)))
  unfold Vol.firstIno
  rw [← hload x' sbRevLevel (by decide), ← hload x sbRevLevel (by decide),
    ← hload x' sbFirstIno (by decide), ← hload x sbFirstIno (by decide), h]

theorem node_congr {i : Nat} (h : x'.inode i = x.inode i) : x'.node v.toFs i = x.node v.toFs i := by
  unfold Vol.node
  rw [h]

theorem inUse_congr {i : Nat} (h : x'.inode i = x.inode i) : v.inUse x' i ↔ v.inUse x i := by
  unfold Volume.inUse
  rw [node_congr h]

/-- What a change of the inode `p` leaves alone: the other records, and the blocks that are marked and
not of `p`. -/
structure Frame (v : Volume) (x x' : Vol) (p : Nat) : Prop where
  inode : ∀ i, i ≠ p → x'.inode i = x.inode i
  block : ∀ b, b ∉ (v.table x).refs p → x.blockBit b = true → x'.block b = x.block b
  static : x'.sbStatic = x.sbStatic

/-- The other inodes keep their blocks' contents. -/
theorem Accounted.frame_block {p i b : Nat} (h : Accounted v x δ) (hf : Frame v x x' p)
    (hi : v.inUse x i) (hip : i ≠ p) (hb : b ∈ (x.node v.toFs i).refs v.toFs x.block) :
    x'.block b = x.block b := by
  have hb' : b ∈ (v.table x).refs i := by rwa [refs_table hi]
  refine hf.block b (fun hp => hip (h.books.blocks.apart i p b hb' hp)) ?_
  exact (h.books.blocks.bit_of_ref hb').2

theorem Accounted.frame_row {p i : Nat} (h : Accounted v x δ) (hf : Frame v x x' p)
    (hi : v.inUse x i) (hip : i ≠ p) :
    v.row x'.block (x'.node v.toFs i) = v.row x.block (x.node v.toFs i) ∧
      Sound v x'.block (x'.node v.toFs i) := by
  rw [node_congr (hf.inode i hip)]
  exact row_congr (h.sound i hi) fun b hb => h.frame_block hf hi hip hb

/-- The accounts kept for a changed row `p` are those of the new image when the disk shows that row. -/
theorem Accounted.close {p : Nat} {o : Option Node} (h : Accounted v x δ) (hf : Frame v x x' p)
    (hbooks : Books v ((v.table x).set p o) x' [] δ') (hrow : v.table x' p = o)
    (hsound : v.inUse x' p → Sound v x'.block (x'.node v.toFs p))
    (hroot : p = rootIno → (x'.node v.toFs p).type = .dir) : Accounted v x' δ' := by
  have htable : v.table x' = (v.table x).set p o := by
    funext i
    by_cases hip : i = p
    · rw [hip, hrow, Table.set_self]
    · rw [Table.set_of_ne hip]
      unfold Volume.table
      simp only [inUse_congr (hf.inode i hip)]
      split_ifs with hi
      · rw [(h.frame_row hf hi hip).1]
      · rfl
  refine ⟨by rwa [htable], fun i hi => ?_, ?_, (firstIno_of_static hf.static).trans h.firstIno⟩
  · by_cases hip : i = p
    · rw [hip]
      exact hsound (hip ▸ hi)
    · exact (h.frame_row hf ((inUse_congr (hf.inode i hip)).mp hi) hip).2
  · by_cases hrp : rootIno = p
    · rw [hrp]
      exact hroot hrp.symm
    · rw [node_congr (hf.inode _ hrp)]
      exact h.root

/-- `δ` with `k` added for inode `i`. -/
def shift (δ : Nat → Int) (i : Nat) (k : Int) : Nat → Int := fun j => δ j + if j = i then k else 0

theorem Accounted.of_eq (h : Accounted v x δ) (hδ : ∀ j, δ' j = δ j) : Accounted v x δ' := by
  have : δ' = δ := funext hδ
  rwa [this]

theorem Updated.frame {p : Nat} {i : Inode} (h : Updated v x x' p i) : Frame v x x' p := by
  refine ⟨fun j hj => h.inode hj, fun b _ _ => by rw [h.block], ?_⟩
  unfold Vol.sbStatic
  rw [h.same.1]

theorem Updated.books {p : Nat} {i : Inode} {s : Table} {L : List Nat} (h : Updated v x x' p i)
    (hb : Books v s x L δ) : Books v s x' L δ :=
  hb.of_same h.same.1 h.same.2.1 h.same.2.2.1 h.same.2.2.2

theorem Rewrote.books {l : List Nat} {s : Table} {L : List Nat} (h : Rewrote x x' l)
    (hb : Books v s x L δ) : Books v s x' L δ := by
  rw [h.rest]
  exact hb.of_same rfl rfl rfl rfl

theorem Wrote.books {l : List Nat} {s : Table} {L : List Nat} (h : Wrote v x x' l)
    (hb : Books v s x L δ) : Books v s x' (l ++ L) δ := by
  obtain ⟨y, ht, hr⟩ := h
  exact hr.books (hb.take ht)

theorem Books.metaMarked {s : Table} {L : List Nat} (h : Books v s x L δ) : MetaMarked v x :=
  fun _ hr hb => h.blocks.data_of_clear hr hb

/-- New link count and times: the table's row keeps its blocks and names. -/
theorem Accounted.updated {p n t : Nat} (h : Accounted v x δ) (hp : v.inUse x p)
    (hu : Updated v x x' p { x.node v.toFs p with links := n, mtime := t })
    (hn : p = rootIno ∨ n ≠ 0) :
    Accounted v x' (shift δ p ((n : Int) - (x.node v.toFs p).links)) := by
  have hrow := table_of_inUse hp
  have hnode := hu.node
  have hp' : v.inUse x' p := by
    refine ⟨hp.1, ?_⟩
    rw [hnode]
    rcases hp.2 with hr | hr
    · exact .inl hr
    · exact hn.imp_right fun hn => ⟨hr.1, hn⟩
  obtain ⟨r, hr⟩ : ∃ r, v.row x.block (x.node v.toFs p) = r := ⟨_, rfl⟩
  have hlinks : (x.node v.toFs p).links = r.links := congrArg Node.links hr
  rw [hr] at hrow
  refine h.close (o := some { r with links := n }) hu.frame ?_ ?_ ?_ ?_
  · refine hu.books (h.books.set hrow rfl (List.Perm.refl _) (fun i hi => ?_) fun i => ?_)
    · exact h.books.names.named p i (by rwa [Table.names_of hrow])
    · show δ i + (if i = p then (n : Int) - (x.node v.toFs p).links else 0) =
        δ i + r.names.count i - r.names.count i + if i = p then (n : Int) - r.links else 0
      rw [hlinks]
      omega
  · rw [table_of_inUse hp', hnode, hu.block, ← hr]
    rfl
  · intro _
    rw [hnode, hu.block]
    have hs := h.sound p hp
    exact ⟨hs.fileAcl, hs.sectors, hs.fast, hs.size, hs.single, hs.double, hs.triple, hs.dirSize,
      hs.dirBlocks⟩
  · intro hr
    have hdir := h.root
    rw [← hr] at hdir
    rw [hnode]
    exact hdir

end Beeros.Ext2
