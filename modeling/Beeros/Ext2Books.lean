import Beeros.Ext2Alloc
import Mathlib.Algebra.BigOperators.Group.Finset.Piecewise

/-! The accounts of an image, kept over an abstract table of its inodes: which blocks each one owns and
which inodes it names. The bitmaps and counters agree with the table. During an operation the table
runs ahead of the disk: blocks can be loose (marked, with no owner yet), and the link counts can be off
by known amounts. -/

namespace Beeros.Ext2

/-- An inode in use, as the accounts see it. -/
@[ext]
structure Node where
  dir : Bool
  links : Nat
  refs : List Nat
  names : List Nat

abbrev Table := Nat → Option Node

namespace Table

variable (s : Table)

def refs (i : Nat) : List Nat := (s i).elim [] Node.refs

def names (i : Nat) : List Nat := (s i).elim [] Node.names

def isDir (i : Nat) : Bool := (s i).elim false Node.dir

/-- The table with another row for `p`. -/
def set (p : Nat) (o : Option Node) : Table := Function.update s p o

variable {s} {i p : Nat} {o : Option Node} {t : Node}

theorem refs_of (h : s i = some t) : s.refs i = t.refs := by
  unfold refs
  rw [h]
  rfl

theorem names_of (h : s i = some t) : s.names i = t.names := by
  unfold names
  rw [h]
  rfl

theorem isDir_of (h : s i = some t) : s.isDir i = t.dir := by
  unfold isDir
  rw [h]
  rfl

theorem isSome_of_mem_names {j : Nat} (h : j ∈ s.names i) : (s i).isSome := by
  unfold names at h
  cases hi : s i with
  | none =>
      rw [hi] at h
      cases h
  | some t => rfl

theorem set_self : s.set p o p = o := Function.update_self _ _ _

theorem set_of_ne (h : i ≠ p) : s.set p o i = s i := Function.update_of_ne h _ _

theorem refs_set : (s.set p o).refs i =
    if i = p then o.elim [] Node.refs else s.refs i := by
  unfold refs
  rw [set, Function.update_apply]
  split_ifs <;> rfl

theorem names_set : (s.set p o).names i =
    if i = p then o.elim [] Node.names else s.names i := by
  unfold names
  rw [set, Function.update_apply]
  split_ifs <;> rfl

end Table

variable {v : Volume} {s : Table} {x x' : Vol} {L L' l : List Nat} {δ δ' : Nat → Int}

/-! ### Blocks -/

/-- Every block has one owner, and the block bitmaps mark the metadata, the owned blocks and the loose
ones. -/
structure BlocksOwned (v : Volume) (s : Table) (x : Vol) (L : List Nat) : Prop where
  data : ∀ i, ∀ b ∈ s.refs i, v.kind b = .data
  loose : ∀ b ∈ L, v.kind b = .data
  nodup : ∀ i, (s.refs i ++ L).Nodup
  apart : ∀ i j b, b ∈ s.refs i → b ∈ s.refs j → i = j
  bit : ∀ b, x.blockBit b = true ↔
    v.InRange b ∧ (v.kind b ≠ .data ∨ b ∈ L ∨ ∃ i, b ∈ s.refs i)

theorem BlocksOwned.bit_of_ref (h : BlocksOwned v s x L) {i b : Nat} (hb : b ∈ s.refs i) :
    v.InRange b ∧ x.blockBit b = true := by
  have hr := v.data_inRange (h.data i b hb)
  exact ⟨hr, (h.bit b).mpr ⟨hr, .inr (.inr ⟨i, hb⟩)⟩⟩

theorem BlocksOwned.data_of_clear (h : BlocksOwned v s x L) {b : Nat} (hr : v.InRange b)
    (hb : x.blockBit b = false) : v.kind b = .data := by
  by_contra hk
  have hbit := (h.bit b).mpr ⟨hr, .inl hk⟩
  rw [hb] at hbit
  cases hbit

/-- Blocks taken become loose. -/
theorem BlocksOwned.take (h : BlocksOwned v s x L) (ht : Taken v x x' l) :
    BlocksOwned v s x' (l ++ L) where
  data := h.data
  loose b hb := by
    rcases List.mem_append.mp hb with hb | hb
    · exact h.data_of_clear (ht.clear b hb).1 (ht.clear b hb).2
    · exact h.loose b hb
  nodup i := by
    have hmarked : ∀ b ∈ s.refs i ++ L, x.blockBit b = true := by
      intro b hb
      rcases List.mem_append.mp hb with hb | hb
      · exact (h.bit_of_ref hb).2
      · exact (h.bit b).mpr ⟨v.data_inRange (h.loose b hb), .inr (.inl hb)⟩
    have hnew : (l ++ (s.refs i ++ L)).Nodup := by
      refine List.nodup_append.mpr ⟨ht.nodup, h.nodup i, fun a ha b hb hab => ?_⟩
      have := (ht.clear a ha).2
      rw [hab, hmarked b hb] at this
      cases this
    refine List.Perm.nodup ?_ hnew
    rw [← List.append_assoc, ← List.append_assoc]
    exact List.Perm.append_right _ List.perm_append_comm
  apart := h.apart
  bit b := by
    rw [ht.blockBit, Bool.or_eq_true, h.bit, decide_eq_true_eq, List.mem_append]
    constructor
    · rintro (⟨hr, hk | hb | hb⟩ | hb)
      · exact ⟨hr, .inl hk⟩
      · exact ⟨hr, .inr (.inl (.inr hb))⟩
      · exact ⟨hr, .inr (.inr hb)⟩
      · exact ⟨(ht.clear b hb).1, .inr (.inl (.inl hb))⟩
    · rintro ⟨hr, hk | (hb | hb) | hb⟩
      · exact .inl ⟨hr, .inl hk⟩
      · exact .inr hb
      · exact .inl ⟨hr, .inr (.inl hb)⟩
      · exact .inl ⟨hr, .inr (.inr hb)⟩

/-- Loose blocks given back. -/
theorem BlocksOwned.free (h : BlocksOwned v s x (l ++ L)) (ht : Taken v x' x l) :
    BlocksOwned v s x' L where
  data := h.data
  loose b hb := h.loose b (List.mem_append_right _ hb)
  nodup i := by
    have hnew := h.nodup i
    rw [← List.append_assoc] at hnew
    refine hnew.sublist ?_
    rw [List.append_assoc]
    exact List.Sublist.append (List.Sublist.refl _) (List.sublist_append_right _ _)
  apart := h.apart
  bit b := by
    have hbit := h.bit b
    rw [ht.blockBit, Bool.or_eq_true, decide_eq_true_eq, List.mem_append] at hbit
    constructor
    · intro hb
      obtain ⟨hr, hk | (hl | hl) | hi⟩ := hbit.mp (.inl hb)
      · exact ⟨hr, .inl hk⟩
      · rw [(ht.clear b hl).2] at hb
        cases hb
      · exact ⟨hr, .inr (.inl hl)⟩
      · exact ⟨hr, .inr (.inr hi)⟩
    · rintro ⟨hr, hk⟩
      have hnot : b ∉ l := by
        intro hl
        rcases hk with hk | hk | ⟨i, hi⟩
        · exact hk (h.loose b (List.mem_append_left _ hl))
        · have hnd := (List.nodup_append.mp (h.nodup 0)).2.1
          exact (List.nodup_append.mp hnd).2.2 b hl b hk rfl
        · exact (List.nodup_append.mp (h.nodup i)).2.2 b hi b (List.mem_append_left _ hl) rfl
      refine (hbit.mpr ⟨hr, ?_⟩).resolve_right hnot
      rcases hk with hk | hk | hk
      · exact .inl hk
      · exact .inr (.inl (.inr hk))
      · exact .inr (.inr hk)

/-- An inode gets loose blocks, or lets go of some of its own. -/
theorem BlocksOwned.set (h : BlocksOwned v s x L) {p : Nat} {o : Option Node}
    (hp : (o.elim [] Node.refs ++ L').Perm (s.refs p ++ L)) :
    BlocksOwned v (s.set p o) x L' := by
  have hmem : ∀ b, b ∈ o.elim [] Node.refs ∨ b ∈ L' ↔ b ∈ s.refs p ∨ b ∈ L := by
    intro b
    rw [← List.mem_append, ← List.mem_append]
    exact hp.mem_iff
  have hdata : ∀ b, b ∈ o.elim [] Node.refs ∨ b ∈ L' → v.kind b = .data := by
    intro b hb
    rcases (hmem b).mp hb with hb | hb
    · exact h.data p b hb
    · exact h.loose b hb
  have hother : ∀ i b, i ≠ p → b ∈ s.refs i → ¬(b ∈ o.elim [] Node.refs ∨ b ∈ L') := by
    intro i b hi hb hb'
    rcases (hmem b).mp hb' with hb' | hb'
    · exact hi (h.apart i p b hb hb')
    · exact (List.nodup_append.mp (h.nodup i)).2.2 b hb b hb' rfl
  have hnodup : (o.elim [] Node.refs ++ L').Nodup := hp.nodup_iff.mpr (h.nodup p)
  refine ⟨fun i b hb => ?_, fun b hb => hdata b (.inr hb), fun i => ?_, fun i j b hi hj => ?_,
    fun b => ?_⟩
  · rw [Table.refs_set] at hb
    split_ifs at hb
    · exact hdata b (.inl hb)
    · exact h.data i b hb
  · rw [Table.refs_set]
    split_ifs with hi
    · exact hnodup
    · refine List.nodup_append.mpr ⟨(List.nodup_append.mp (h.nodup i)).1,
        (List.nodup_append.mp hnodup).2.1, fun a ha b hb hab => ?_⟩
      exact hother i b hi (hab ▸ ha) (.inr hb)
  · rw [Table.refs_set] at hi hj
    split_ifs at hi hj with h1 h2 h2
    · rw [h1, h2]
    · exact absurd (.inl hi) (hother j b h2 hj)
    · exact absurd (.inl hj) (hother i b h1 hi)
    · exact h.apart i j b hi hj
  · rw [h.bit]
    refine and_congr_right fun _ => or_congr_right ?_
    constructor
    · rintro (hb | ⟨i, hb⟩)
      · rcases (hmem b).mpr (.inr hb) with hb | hb
        · exact .inr ⟨p, by rwa [Table.refs_set, if_pos rfl]⟩
        · exact .inl hb
      · by_cases hi : i = p
        · rcases (hmem b).mpr (.inl (hi ▸ hb)) with hb | hb
          · exact .inr ⟨p, by rwa [Table.refs_set, if_pos rfl]⟩
          · exact .inl hb
        · exact .inr ⟨i, by rwa [Table.refs_set, if_neg hi]⟩
    · rintro (hb | ⟨i, hb⟩)
      · rcases (hmem b).mp (.inr hb) with hb | hb
        · exact .inr ⟨p, hb⟩
        · exact .inl hb
      · rw [Table.refs_set] at hb
        split_ifs at hb with hi
        · rcases (hmem b).mp (.inl hb) with hb | hb
          · exact .inr ⟨p, hb⟩
          · exact .inl hb
        · exact .inr ⟨i, hb⟩

/-! ### Counters -/

def freeBlockCount (v : Volume) (x : Vol) (g : Nat) : Nat :=
  ((Finset.range v.blocks).filter fun b =>
    v.InRange b ∧ v.blockGroup b = g ∧ x.blockBit b = false).card

def freeInodeCount (v : Volume) (x : Vol) (g : Nat) : Nat :=
  ((Finset.range (v.inodes + 1)).filter fun i =>
    v.IsInode i ∧ v.inodeGroup i = g ∧ x.inodeBit i = false).card

/-- The free counters are the numbers of clear bits, and the superblock has their sums. -/
structure Counted (v : Volume) (x : Vol) : Prop where
  freeBlocks : ∀ g, x.freeBlocks g = freeBlockCount v x g
  freeInodes : ∀ g, x.freeInodes g = freeInodeCount v x g
  sbFreeBlocks : x.sbFreeBlocks = ∑ g ∈ Finset.range v.groups.length, x.freeBlocks g
  sbFreeInodes : x.sbFreeInodes = ∑ g ∈ Finset.range v.groups.length, x.freeInodes g

theorem sum_countP {n : Nat} {f : Nat → Nat} (h : ∀ b ∈ l, f b < n) :
    ∑ g ∈ Finset.range n, l.countP (fun b => f b = g) = l.length := by
  induction l with
  | nil => simp
  | cons b l ih =>
      simp only [List.countP_cons, Finset.sum_add_distrib, decide_eq_true_eq]
      rw [ih fun c hc => h c (List.mem_cons_of_mem _ hc), Finset.sum_ite_eq,
        if_pos (Finset.mem_range.mpr (h b List.mem_cons_self)), List.length_cons]

theorem Taken.freeBlockCount (h : Taken v x x' l) (g : Nat) :
    freeBlockCount v x g = freeBlockCount v x' g + l.countP fun b => v.blockGroup b = g := by
  have hcount : (l.countP fun b => v.blockGroup b = g) =
      (l.toFinset.filter fun b => v.blockGroup b = g).card := by
    have hfilter : (l.filter fun b => v.blockGroup b = g).toFinset =
        l.toFinset.filter fun b => v.blockGroup b = g := by
      ext b
      simp
    rw [List.countP_eq_length_filter, ← hfilter, List.toFinset_card_of_nodup (h.nodup.filter _)]
  unfold Ext2.freeBlockCount
  rw [hcount, ← Finset.card_union_of_disjoint]
  · congr 1
    ext b
    simp only [Finset.mem_filter, Finset.mem_union, Finset.mem_range, List.mem_toFinset]
    constructor
    · rintro ⟨hlt, hr, hg, hbit⟩
      by_cases hb : b ∈ l
      · exact .inr ⟨hb, hg⟩
      · refine .inl ⟨hlt, hr, hg, ?_⟩
        rw [h.blockBit, hbit]
        simp [hb]
    · rintro (⟨hlt, hr, hg, hbit⟩ | ⟨hb, hg⟩)
      · rw [h.blockBit, Bool.or_eq_false_iff] at hbit
        exact ⟨hlt, hr, hg, hbit.1⟩
      · obtain ⟨hr, hbit⟩ := h.clear b hb
        exact ⟨hr.2, hr, hg, hbit⟩
  · rw [Finset.disjoint_left]
    intro b hb hb'
    simp only [Finset.mem_filter, List.mem_toFinset] at hb hb'
    have hbit := hb.2.2.2
    rw [h.blockBit] at hbit
    simp [hb'.1] at hbit

theorem freeInodeCount_congr (h : x'.inodeBit = x.inodeBit) (g : Nat) :
    freeInodeCount v x' g = freeInodeCount v x g := by
  unfold freeInodeCount
  rw [h]

theorem freeBlockCount_congr (h : x'.blockBit = x.blockBit) (g : Nat) :
    freeBlockCount v x' g = freeBlockCount v x g := by
  unfold freeBlockCount
  rw [h]

/-- Taking blocks, or giving them back, keeps the counters right. -/
theorem Taken.counted_iff (h : Taken v x x' l) : Counted v x ↔ Counted v x' := by
  have hsum : ∑ g ∈ Finset.range v.groups.length, x.freeBlocks g =
      ∑ g ∈ Finset.range v.groups.length, x'.freeBlocks g + l.length := by
    rw [← sum_countP (l := l) (f := v.blockGroup) (n := v.groups.length) fun b hb =>
      v.blockGroup_lt (h.clear b hb).1, ← Finset.sum_add_distrib]
    exact Finset.sum_congr rfl fun g _ => h.freeBlocks g
  constructor
  · intro hc
    refine ⟨fun g => ?_, fun g => ?_, ?_, ?_⟩
    · have h1 := h.freeBlocks g
      have h2 := h.freeBlockCount g
      have h3 := hc.freeBlocks g
      omega
    · rw [h.freeInodes, hc.freeInodes, freeInodeCount_congr h.inodeBit]
    · have h1 := h.sbFreeBlocks
      have h2 := hc.sbFreeBlocks
      omega
    · rw [h.sbFreeInodes, hc.sbFreeInodes, h.freeInodes]
  · intro hc
    refine ⟨fun g => ?_, fun g => ?_, ?_, ?_⟩
    · have h1 := h.freeBlocks g
      have h2 := h.freeBlockCount g
      have h3 := hc.freeBlocks g
      omega
    · rw [← h.freeInodes, hc.freeInodes, freeInodeCount_congr h.inodeBit]
    · have h1 := h.sbFreeBlocks
      have h2 := hc.sbFreeBlocks
      omega
    · rw [← h.sbFreeInodes, hc.sbFreeInodes, h.freeInodes]

theorem InodeTaken.freeInodeCount {p : Nat} {dir : Bool} (h : InodeTaken v x x' p dir) (g : Nat) :
    freeInodeCount v x g = freeInodeCount v x' g + if g = v.inodeGroup p then 1 else 0 := by
  have hp : (if g = v.inodeGroup p then 1 else 0) =
      (({p} : Finset Nat).filter fun i => v.inodeGroup i = g).card := by
    rw [Finset.filter_singleton]
    simp only [eq_comm (a := g)]
    split_ifs <;> rfl
  unfold Ext2.freeInodeCount
  rw [hp, ← Finset.card_union_of_disjoint]
  · congr 1
    ext i
    simp only [Finset.mem_filter, Finset.mem_union, Finset.mem_range, Finset.mem_singleton]
    constructor
    · rintro ⟨hlt, hr, hg, hbit⟩
      by_cases hi : i = p
      · exact .inr ⟨hi, hg⟩
      · refine .inl ⟨hlt, hr, hg, ?_⟩
        rw [h.inodeBit, hbit]
        simp [hi]
    · rintro (⟨hlt, hr, hg, hbit⟩ | ⟨rfl, hg⟩)
      · rw [h.inodeBit, Bool.or_eq_false_iff] at hbit
        exact ⟨hlt, hr, hg, hbit.1⟩
      · exact ⟨Nat.lt_succ_of_le h.isInode.2, h.isInode, hg, h.clear⟩
  · rw [Finset.disjoint_left]
    intro i hi hi'
    simp only [Finset.mem_filter, Finset.mem_singleton] at hi hi'
    have hbit := hi.2.2.2
    rw [h.inodeBit] at hbit
    simp [hi'.1] at hbit

theorem InodeTaken.counted_iff {p : Nat} {dir : Bool} (h : InodeTaken v x x' p dir) :
    Counted v x ↔ Counted v x' := by
  have hsum : ∑ g ∈ Finset.range v.groups.length, x.freeInodes g =
      ∑ g ∈ Finset.range v.groups.length, x'.freeInodes g + 1 := by
    have hone : ∑ g ∈ Finset.range v.groups.length, (if g = v.inodeGroup p then 1 else 0) = 1 := by
      rw [Finset.sum_ite_eq', if_pos (Finset.mem_range.mpr (v.inodeGroup_lt h.isInode))]
    rw [← hone, ← Finset.sum_add_distrib]
    exact Finset.sum_congr rfl fun g _ => h.freeInodes g
  constructor
  · intro hc
    refine ⟨fun g => ?_, fun g => ?_, ?_, ?_⟩
    · rw [h.freeBlocks, hc.freeBlocks, freeBlockCount_congr h.blockBit]
    · have h1 := h.freeInodes g
      have h2 := h.freeInodeCount g
      have h3 := hc.freeInodes g
      omega
    · rw [h.sbFreeBlocks, hc.sbFreeBlocks, h.freeBlocks]
    · have h1 := h.sbFreeInodes
      have h2 := hc.sbFreeInodes
      omega
  · intro hc
    refine ⟨fun g => ?_, fun g => ?_, ?_, ?_⟩
    · rw [← h.freeBlocks, hc.freeBlocks, freeBlockCount_congr h.blockBit]
    · have h1 := h.freeInodes g
      have h2 := h.freeInodeCount g
      have h3 := hc.freeInodes g
      omega
    · rw [← h.sbFreeBlocks, hc.sbFreeBlocks, h.freeBlocks]
    · have h1 := h.sbFreeInodes
      have h2 := hc.sbFreeInodes
      omega

/-! ### Inodes -/

def dirCount (v : Volume) (s : Table) (g : Nat) : Nat :=
  ((Finset.range (v.inodes + 1)).filter fun i => v.inodeGroup i = g ∧ s.isDir i).card

/-- The inode bitmaps mark the reserved inodes and those in use, and the directories are counted. -/
structure InodesMarked (v : Volume) (s : Table) (x : Vol) : Prop where
  live : ∀ i, (s i).isSome → v.IsInode i ∧ (i = rootIno ∨ v.firstIno ≤ i)
  bit : ∀ i, x.inodeBit i = true ↔ v.IsInode i ∧ (i < v.firstIno ∨ (s i).isSome)
  usedDirs : ∀ g, x.usedDirs g = dirCount v s g

/-- A sum over the table after a change of one row. -/
theorem sum_set {n p : Nat} {o : Option Node} (f : Nat → Option Node → Nat) (hp : p < n) :
    ∑ i ∈ Finset.range n, f i (s.set p o i) + f p (s p) =
      ∑ i ∈ Finset.range n, f i (s i) + f p o := by
  have hmem : p ∈ Finset.range n := Finset.mem_range.mpr hp
  rw [← Finset.add_sum_erase _ _ hmem, ← Finset.add_sum_erase _ (fun i => f i (s i)) hmem]
  have hrest : ∑ i ∈ (Finset.range n).erase p, f i (s.set p o i) =
      ∑ i ∈ (Finset.range n).erase p, f i (s i) :=
    Finset.sum_congr rfl fun i hi => by rw [Table.set_of_ne (Finset.ne_of_mem_erase hi)]
  rw [hrest, Table.set_self]
  omega

theorem dirCount_set {p : Nat} {o : Option Node} (hp : v.IsInode p) (g : Nat) :
    dirCount v (s.set p o) g + (if v.inodeGroup p = g ∧ s.isDir p then 1 else 0) =
      dirCount v s g + if v.inodeGroup p = g ∧ o.elim false Node.dir then 1 else 0 := by
  unfold dirCount
  rw [Finset.card_filter, Finset.card_filter]
  exact sum_set (fun i o => if v.inodeGroup i = g ∧ o.elim false Node.dir then 1 else 0)
    (Nat.lt_succ_of_le hp.2)

section Row

variable {p : Nat} {t t' : Node}

theorem InodesMarked.set (h : InodesMarked v s x) (hp : s p = some t) (hdir : t'.dir = t.dir) :
    InodesMarked v (s.set p (some t')) x := by
  have hsome : ∀ i, (s.set p (some t') i).isSome ↔ (s i).isSome := by
    intro i
    by_cases hi : i = p
    · rw [hi, Table.set_self, hp]
      rfl
    · rw [Table.set_of_ne hi]
  refine ⟨fun i hi => h.live i ((hsome i).mp hi), fun i => ?_, fun g => ?_⟩
  · rw [h.bit, hsome]
  · have hcount := dirCount_set (s := s) (o := some t') (h.live p (by rw [hp]; rfl)).1 g
    rw [Table.isDir_of hp, Option.elim_some, hdir] at hcount
    rw [h.usedDirs]
    omega

theorem InodesMarked.add (h : InodesMarked v s x) (hp : s p = none) (hfirst : v.firstIno ≤ p)
    (ht : InodeTaken v x x' p t.dir) : InodesMarked v (s.set p (some t)) x' := by
  refine ⟨fun i hi => ?_, fun i => ?_, fun g => ?_⟩
  · by_cases hip : i = p
    · rw [hip]
      exact ⟨ht.isInode, .inr hfirst⟩
    · rw [Table.set_of_ne hip] at hi
      exact h.live i hi
  · rw [ht.inodeBit, Bool.or_eq_true, h.bit, decide_eq_true_eq]
    by_cases hip : i = p
    · rw [hip, Table.set_self]
      simp [ht.isInode]
    · rw [Table.set_of_ne hip]
      simp [hip]
  · have hcount := dirCount_set (s := s) (o := some t) ht.isInode g
    have hnone : s.isDir p = false := by
      unfold Table.isDir
      rw [hp]
      rfl
    rw [hnone, Option.elim_some] at hcount
    rw [ht.usedDirs, h.usedDirs]
    simp only [eq_comm (a := g)]
    simpa using hcount.symm

theorem InodesMarked.drop (h : InodesMarked v s x) (hp : s p = some t) (hfirst : v.firstIno ≤ p)
    (ht : InodeTaken v x' x p t.dir) : InodesMarked v (s.set p none) x' := by
  refine ⟨fun i hi => ?_, fun i => ?_, fun g => ?_⟩
  · by_cases hip : i = p
    · rw [hip, Table.set_self] at hi
      cases hi
    · rw [Table.set_of_ne hip] at hi
      exact h.live i hi
  · have hbit := h.bit i
    rw [ht.inodeBit, Bool.or_eq_true, decide_eq_true_eq] at hbit
    by_cases hip : i = p
    · rw [hip, Table.set_self, ht.clear]
      simp only [Bool.false_eq_true, Option.isSome_none, or_false, false_iff, not_and]
      omega
    · rw [Table.set_of_ne hip, ← hbit]
      simp [hip]
  · have hcount := dirCount_set (s := s) (o := none) ht.isInode g
    rw [Table.isDir_of hp, Option.elim_none] at hcount
    have h1 := ht.usedDirs g
    rw [h.usedDirs] at h1
    simp only [eq_comm (a := g)] at h1
    simp only [Bool.false_eq_true, and_false, if_false] at hcount
    omega

end Row

/-! ### Names -/

/-- How many entries name inode `i`. -/
def nameCount (v : Volume) (s : Table) (i : Nat) : Nat :=
  ∑ j ∈ Finset.range (v.inodes + 1), (s.names j).count i

/-- Entries name inodes in use, and a link count is the number of entries that name the inode, up to
what `δ` says. -/
structure NamesCounted (v : Volume) (s : Table) (δ : Nat → Int) : Prop where
  named : ∀ j, ∀ i ∈ s.names j, (s i).isSome
  links : ∀ i t, s i = some t → (t.links : Int) = nameCount v s i + δ i

theorem nameCount_set {p i : Nat} {o : Option Node} (hp : v.IsInode p) :
    nameCount v (s.set p o) i + (s.names p).count i =
      nameCount v s i + (o.elim [] Node.names).count i :=
  sum_set (fun _ o => (o.elim [] Node.names).count i) (Nat.lt_succ_of_le hp.2)

/-- No entry names an inode that is not in use. -/
theorem NamesCounted.nameCount_none (h : NamesCounted v s δ) {p : Nat} (hp : s p = none) :
    nameCount v s p = 0 := by
  refine Finset.sum_eq_zero fun j _ => List.count_eq_zero.mpr fun hj => ?_
  have := h.named j p hj
  rw [hp] at this
  cases this

section Row

variable {p : Nat} {t t' : Node}

theorem NamesCounted.set (h : NamesCounted v s δ) (hi : v.IsInode p) (hp : s p = some t)
    (hnames : ∀ i ∈ t'.names, (s i).isSome)
    (hδ : ∀ i, δ' i = δ i + t.names.count i - t'.names.count i +
      if i = p then (t'.links : Int) - t.links else 0) :
    NamesCounted v (s.set p (some t')) δ' := by
  have hsome : ∀ i, (s i).isSome → (s.set p (some t') i).isSome := by
    intro i hsi
    by_cases hip : i = p
    · rw [hip, Table.set_self]
      rfl
    · rwa [Table.set_of_ne hip]
  refine ⟨fun j i hij => hsome i ?_, fun i u hu => ?_⟩
  · rw [Table.names_set] at hij
    split_ifs at hij
    · exact hnames i hij
    · exact h.named j i hij
  · have hcount := nameCount_set (s := s) (i := i) (o := some t') hi
    rw [Table.names_of hp, Option.elim_some] at hcount
    have hd := hδ i
    by_cases hip : i = p
    · rw [hip, Table.set_self] at hu
      obtain rfl : t' = u := by simpa using hu
      have hlinks := h.links p t hp
      rw [if_pos hip] at hd
      rw [hip] at hd hcount ⊢
      omega
    · rw [Table.set_of_ne hip] at hu
      have hlinks := h.links i u hu
      rw [if_neg hip] at hd
      omega

theorem NamesCounted.add (h : NamesCounted v s δ) (hi : v.IsInode p) (hp : s p = none)
    (hnames : ∀ i ∈ t.names, i = p ∨ (s i).isSome)
    (hδ : ∀ i, δ' i = (if i = p then (t.links : Int) else δ i) - t.names.count i) :
    NamesCounted v (s.set p (some t)) δ' := by
  have hsome : ∀ i, i = p ∨ (s i).isSome → (s.set p (some t) i).isSome := by
    intro i hsi
    by_cases hip : i = p
    · rw [hip, Table.set_self]
      rfl
    · rw [Table.set_of_ne hip]
      exact hsi.resolve_left hip
  have hnone : s.names p = [] := by
    unfold Table.names
    rw [hp]
    rfl
  refine ⟨fun j i hij => hsome i ?_, fun i u hu => ?_⟩
  · rw [Table.names_set] at hij
    split_ifs at hij
    · exact hnames i hij
    · exact .inr (h.named j i hij)
  · have hcount := nameCount_set (s := s) (i := i) (o := some t) hi
    rw [hnone, List.count_nil, Option.elim_some] at hcount
    have hd := hδ i
    by_cases hip : i = p
    · have hzero := h.nameCount_none hp
      rw [hip, Table.set_self] at hu
      obtain rfl : t = u := by simpa using hu
      rw [if_pos hip] at hd
      rw [hip] at hd hcount ⊢
      omega
    · rw [Table.set_of_ne hip] at hu
      have hlinks := h.links i u hu
      rw [if_neg hip] at hd
      omega

/-- An inode that only its own entries name goes away. -/
theorem NamesCounted.drop (h : NamesCounted v s δ) (hlive : ∀ i, (s i).isSome → v.IsInode i)
    (hp : s p = some t) (hlast : nameCount v s p = t.names.count p)
    (hδ : ∀ i, i ≠ p → δ' i = δ i + t.names.count i) : NamesCounted v (s.set p none) δ' := by
  have hi : v.IsInode p := hlive p (by rw [hp]; rfl)
  have hzero : nameCount v (s.set p none) p = 0 := by
    have hcount := nameCount_set (s := s) (i := p) (o := none) hi
    rw [Table.names_of hp, Option.elim_none, List.count_nil] at hcount
    omega
  refine ⟨fun j i hij => ?_, fun i u hu => ?_⟩
  · have hip : i ≠ p := by
      rintro rfl
      have hj : j < v.inodes + 1 := by
        rw [Table.names_set] at hij
        split_ifs at hij with hji
        · cases hij
        · exact Nat.lt_succ_of_le (hlive j (Table.isSome_of_mem_names hij)).2
      exact List.count_eq_zero.mp
        (Finset.sum_eq_zero_iff.mp hzero j (Finset.mem_range.mpr hj)) hij
    rw [Table.set_of_ne hip]
    rw [Table.names_set] at hij
    split_ifs at hij
    · cases hij
    · exact h.named j i hij
  · by_cases hip : i = p
    · rw [hip, Table.set_self] at hu
      cases hu
    · rw [Table.set_of_ne hip] at hu
      have hcount := nameCount_set (s := s) (i := i) (o := none) hi
      rw [Table.names_of hp, Option.elim_none, List.count_nil] at hcount
      have hlinks := h.links i u hu
      have hd := hδ i hip
      omega

end Row

/-! ### All of it -/

/-- The accounts of the table `s` are kept by the bitmaps and counters of `x`, but for the loose blocks
`L` and the link counts that are off by `δ`. -/
structure Books (v : Volume) (s : Table) (x : Vol) (L : List Nat) (δ : Nat → Int) : Prop where
  blocks : BlocksOwned v s x L
  inodes : InodesMarked v s x
  counted : Counted v x
  names : NamesCounted v s δ

section Books

variable {p : Nat} {t t' : Node}

/-- The accounts are in the bitmaps, the group descriptors and the superblock only. -/
theorem Books.of_same (h : Books v s x L δ) (hsb : x'.sb = x.sb) (hgd : x'.gd = x.gd)
    (hbb : x'.blockBit = x.blockBit) (hib : x'.inodeBit = x.inodeBit) : Books v s x' L δ := by
  have hfb : ∀ g, x'.freeBlocks g = x.freeBlocks g := fun g => by unfold Vol.freeBlocks; rw [hgd]
  have hfi : ∀ g, x'.freeInodes g = x.freeInodes g := fun g => by unfold Vol.freeInodes; rw [hgd]
  refine ⟨⟨h.blocks.data, h.blocks.loose, h.blocks.nodup, h.blocks.apart, by
    rw [hbb]; exact h.blocks.bit⟩, ⟨h.inodes.live, by rw [hib]; exact h.inodes.bit, fun g => ?_⟩,
    ⟨fun g => ?_, fun g => ?_, ?_, ?_⟩, h.names⟩
  · unfold Vol.usedDirs
    rw [hgd]
    exact h.inodes.usedDirs g
  · rw [hfb, freeBlockCount_congr hbb, h.counted.freeBlocks]
  · rw [hfi, freeInodeCount_congr hib, h.counted.freeInodes]
  · unfold Vol.sbFreeBlocks
    rw [hsb, Finset.sum_congr rfl fun g _ => hfb g]
    exact h.counted.sbFreeBlocks
  · unfold Vol.sbFreeInodes
    rw [hsb, Finset.sum_congr rfl fun g _ => hfi g]
    exact h.counted.sbFreeInodes

theorem Books.take (h : Books v s x L δ) (ht : Taken v x x' l) : Books v s x' (l ++ L) δ where
  blocks := h.blocks.take ht
  inodes := ⟨h.inodes.live, by rw [ht.inodeBit]; exact h.inodes.bit,
    by rw [ht.usedDirs]; exact h.inodes.usedDirs⟩
  counted := ht.counted_iff.mp h.counted
  names := h.names

theorem Books.free (h : Books v s x (l ++ L) δ) (ht : Taken v x' x l) : Books v s x' L δ where
  blocks := h.blocks.free ht
  inodes := ⟨h.inodes.live, by rw [← ht.inodeBit]; exact h.inodes.bit,
    by rw [← ht.usedDirs]; exact h.inodes.usedDirs⟩
  counted := ht.counted_iff.mpr h.counted
  names := h.names

theorem Books.isInode (h : Books v s x L δ) (hp : s p = some t) : v.IsInode p :=
  (h.inodes.live p (by rw [hp]; rfl)).1

/-- A row of the table changes: blocks move between it and the loose ones, and the link counts that
are off change along. -/
theorem Books.set (h : Books v s x L δ) (hp : s p = some t) (hdir : t'.dir = t.dir)
    (hrefs : (t'.refs ++ L').Perm (t.refs ++ L)) (hnames : ∀ i ∈ t'.names, (s i).isSome)
    (hδ : ∀ i, δ' i = δ i + t.names.count i - t'.names.count i +
      if i = p then (t'.links : Int) - t.links else 0) :
    Books v (s.set p (some t')) x L' δ' where
  blocks := h.blocks.set (by rwa [Table.refs_of hp])
  inodes := h.inodes.set hp hdir
  counted := h.counted
  names := h.names.set (h.isInode hp) hp hnames hδ

theorem Books.add (h : Books v s x L δ) (hp : s p = none) (hfirst : v.firstIno ≤ p)
    (ht : InodeTaken v x x' p t.dir) (hrefs : (t.refs ++ L').Perm L)
    (hnames : ∀ i ∈ t.names, i = p ∨ (s i).isSome)
    (hδ : ∀ i, δ' i = (if i = p then (t.links : Int) else δ i) - t.names.count i) :
    Books v (s.set p (some t)) x' L' δ' where
  blocks := by
    have hnone : s.refs p = [] := by
      unfold Table.refs
      rw [hp]
      rfl
    have hset : BlocksOwned v (s.set p (some t)) x L' := h.blocks.set (by rwa [hnone])
    exact ⟨hset.data, hset.loose, hset.nodup, hset.apart, by rw [ht.blockBit]; exact hset.bit⟩
  inodes := h.inodes.add hp hfirst ht
  counted := ht.counted_iff.mp h.counted
  names := h.names.add ht.isInode hp hnames hδ

theorem Books.drop (h : Books v s x L δ) (hp : s p = some t) (hfirst : v.firstIno ≤ p)
    (ht : InodeTaken v x' x p t.dir) (hrefs : L'.Perm (t.refs ++ L))
    (hlast : nameCount v s p = t.names.count p)
    (hδ : ∀ i, i ≠ p → δ' i = δ i + t.names.count i) : Books v (s.set p none) x' L' δ' where
  blocks := by
    have hset : BlocksOwned v (s.set p none) x L' := h.blocks.set (by rwa [Table.refs_of hp])
    exact ⟨hset.data, hset.loose, hset.nodup, hset.apart, by rw [← ht.blockBit]; exact hset.bit⟩
  inodes := h.inodes.drop hp hfirst ht
  counted := ht.counted_iff.mpr h.counted
  names := h.names.drop (fun i hi => (h.inodes.live i hi).1) hp hlast hδ

end Books

end Beeros.Ext2
