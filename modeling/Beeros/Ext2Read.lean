import Beeros.Ext2Alloc

/-! Programs that only read, as functions of the disk. A transfer can still fail: such a program either
ends as the function says or is cut short by the device. -/

namespace Beeros.Ext2

open Memory Exec

def result {α : Type} (r : Except Error α) (w : World) : EStateM.Result Error World α :=
  match r with
  | .ok a => .ok a w
  | .error e => .error e w

/-- On the disk `d`, `m` ends with `r` and leaves the disk as it is, unless a transfer fails. -/
def Gives {α : Type} (m : Io α) (d : Bytes) (r : Except Error α) : Prop :=
  ∀ w : World, w.disk = d → ∃ w', w'.disk = d ∧ w'.fails = w.fails ∧
    (m w = result r w' ∨ m w = .error .device w' ∧ ∃ n, w.fails n = true)

section Gives

variable {α β : Type} {d : Bytes}

theorem gives_pure (a : α) : Gives (pure a) d (.ok a) :=
  fun w hw => ⟨w, hw, rfl, .inl rfl⟩

theorem gives_throw (e : Error) : Gives (throw e : Io α) d (.error e) :=
  fun w hw => ⟨w, hw, rfl, .inl rfl⟩

theorem Gives.to {m : Io α} {a b : α} (h : Gives m d (.ok a)) (he : a = b) :
    Gives m d (.ok b) := he ▸ h

theorem Gives.bind {m : Io α} {f : α → Io β} {a : α} {r : Except Error β}
    (h : Gives m d (.ok a)) (h' : Gives (f a) d r) : Gives (m >>= f) d r := by
  intro w hw
  obtain ⟨w1, hw1, hf1, h1 | ⟨h1, hn⟩⟩ := h w hw
  · obtain ⟨w2, hw2, hf2, h2⟩ := h' w1 hw1
    refine ⟨w2, hw2, hf2.trans hf1, ?_⟩
    rw [bind_apply h1, ← hf1]
    exact h2
  · refine ⟨w1, hw1, hf1, .inr ⟨?_, hn⟩⟩
    exact bind_error.mpr (.inl h1)

theorem Gives.bind_error {m : Io α} {f : α → Io β} {e : Error} (h : Gives m d (.error e)) :
    Gives (m >>= f) d (.error e) := by
  intro w hw
  obtain ⟨w1, hw1, hf1, h1⟩ := h w hw
  refine ⟨w1, hw1, hf1, ?_⟩
  rcases h1 with h1 | ⟨h1, hn⟩
  · exact .inl (Exec.bind_error.mpr (.inl h1))
  · exact .inr ⟨Exec.bind_error.mpr (.inl h1), hn⟩

/-- A finished run has the outcome. -/
theorem Gives.of_ok {m : Io α} {r : Except Error α} {a : α} {w w' : World} (h : Gives m d r)
    (hw : w.disk = d) (hm : m w = .ok a w') : r = .ok a ∧ w'.disk = d ∧ w'.fails = w.fails := by
  obtain ⟨w1, hw1, hf1, h1 | ⟨h1, -⟩⟩ := h w hw
  · rw [hm] at h1
    cases r with
    | ok b =>
        injection h1 with h1 h2
        rw [h1, h2]
        exact ⟨rfl, hw1, hf1⟩
    | error e => cases h1
  · rw [hm] at h1
    cases h1

/-- With a device that does not fail, the run has the outcome. -/
theorem Gives.run {m : Io α} {r : Except Error α} {w : World} (h : Gives m d r)
    (hw : w.disk = d) (hf : ∀ n, w.fails n = false) :
    ∃ w', m w = result r w' ∧ w'.disk = d ∧ w'.fails = w.fails := by
  obtain ⟨w1, hw1, hf1, h1 | ⟨-, n, hn⟩⟩ := h w hw
  · exact ⟨w1, h1, hw1, hf1⟩
  · rw [hf n] at hn
    cases hn

/-- A run that the device did not cut short has the outcome. -/
theorem Gives.run_of_thrown {m : Io α} {r : Except Error α} {w : World} (h : Gives m d r)
    (hw : w.disk = d) (hm : thrown (m w) ≠ some .device) : ∃ w', m w = result r w' ∧ w'.disk = d := by
  obtain ⟨w', hw', -, h | ⟨h, -⟩⟩ := h w hw
  · exact ⟨w', h, hw'⟩
  · rw [h] at hm
    exact absurd rfl hm

/-- The outcome is fixed by the disk. -/
theorem Gives.unique {m : Io α} {r r' : Except Error α} (h : Gives m d r) (h' : Gives m d r') :
    r = r' := by
  obtain ⟨w, hw, -⟩ := h.run (w := ⟨d, 0, fun _ => 0, fun _ => false⟩) rfl fun _ => rfl
  obtain ⟨w', hw', -⟩ := h'.run (w := ⟨d, 0, fun _ => 0, fun _ => false⟩) rfl fun _ => rfl
  rw [hw] at hw'
  cases r with
  | ok a =>
      cases r' with
      | ok a' =>
          injection hw' with ha
          rw [ha]
      | error e => cases hw'
  | error e =>
      cases r' with
      | ok a => cases hw'
      | error e' =>
          injection hw' with he
          rw [he]

/-- On the disk `d`, `m` ends with `a` where `P` holds, and the device throws where it does not. -/
def GivesIf (m : Io α) (d : Bytes) (P : Prop) (a : α) : Prop :=
  (P → Gives m d (.ok a)) ∧ (¬P → Gives m d (.error .device))

theorem Gives.givesIf {m : Io α} {P : Prop} {a : α} (h : Gives m d (.ok a)) (hP : P) :
    GivesIf m d P a := ⟨fun _ => h, fun hn => absurd hP hn⟩

theorem GivesIf.to {m : Io α} {P Q : Prop} {a b : α} (h : GivesIf m d P a) (hP : Q ↔ P)
    (he : a = b) : GivesIf m d Q b :=
  ⟨fun hq => (h.1 (hP.mp hq)).to he, fun hq => h.2 (fun hp => hq (hP.mpr hp))⟩

theorem GivesIf.bind {m : Io α} {f : α → Io β} {P Q : Prop} {a : α} {b : β}
    (h : GivesIf m d P a) (h' : P → GivesIf (f a) d Q b) : GivesIf (m >>= f) d (P ∧ Q) b := by
  refine ⟨fun ⟨hP, hQ⟩ => (h.1 hP).bind ((h' hP).1 hQ), fun hn => ?_⟩
  by_cases hP : P
  · exact (h.1 hP).bind ((h' hP).2 fun hQ => hn ⟨hP, hQ⟩)
  · exact (h.2 hP).bind_error

theorem Gives.bindIf {m : Io α} {f : α → Io β} {Q : Prop} {a : α} {b : β}
    (h : Gives m d (.ok a)) (h' : GivesIf (f a) d Q b) : GivesIf (m >>= f) d Q b :=
  ⟨fun hQ => h.bind (h'.1 hQ), fun hQ => h.bind (h'.2 hQ)⟩

theorem GivesIf.then {m : Io α} {f : α → Io β} {P : Prop} {a : α} {b : β}
    (h : GivesIf m d P a) (h' : Gives (f a) d (.ok b)) : GivesIf (m >>= f) d P b :=
  ⟨fun hP => (h.1 hP).bind h', fun hP => (h.2 hP).bind_error⟩

/-- A finished run had its condition and has its outcome. -/
theorem GivesIf.of_ok {m : Io α} {P : Prop} {a a' : α} {w w' : World} (h : GivesIf m d P a)
    (hw : w.disk = d) (hm : m w = .ok a' w') : P ∧ a' = a ∧ w'.disk = d := by
  by_cases hP : P
  · obtain ⟨he, hd, -⟩ := (h.1 hP).of_ok hw hm
    injection he with he
    exact ⟨hP, he.symm, hd⟩
  · obtain ⟨he, -⟩ := (h.2 hP).of_ok hw hm
    cases he

end Gives

/-! ### Natives -/

section Natives

variable {d : Bytes}

theorem gives_failWhen {c : Prop} [Decidable c] {op : Op} {s : Subject} {r : Reason} (h : ¬c) :
    Gives (failWhen c op s r) d (.ok ()) := by
  unfold failWhen
  rw [if_neg h]
  exact gives_pure _

theorem gives_failWhen_error {c : Prop} [Decidable c] {op : Op} {s : Subject} {r : Reason} (h : c) :
    Gives (failWhen c op s r) d (.error (.fail op s r)) := by
  unfold failWhen
  rw [if_pos h]
  exact gives_throw _

theorem gives_nth {α : Type} {l : List α} {i : Nat} {a : α} (h : l[i]? = some a) :
    Gives (nth l i) d (.ok a) := by
  unfold nth
  rw [h]
  exact gives_pure _

theorem gives_quot {a b : Nat} (h : b ≠ 0) : Gives (quot a b) d (.ok (a / b)) := by
  unfold quot
  rw [if_neg h]
  exact gives_pure _

theorem gives_load {n o : Nat} {b : Buf} (h : o + n ≤ b.capacity) :
    Gives (load n b o) d (.ok (loadLE b.bytes n o)) := by
  unfold load
  rw [if_pos h]
  exact gives_pure _

theorem gives_slice {start len : Nat} {b : Buf} (h : start + len ≤ b.capacity) :
    Gives (slice b start len) d (.ok ⟨len, window b.bytes start len⟩) := by
  unfold slice
  rw [if_pos h]
  exact gives_pure _

theorem gives_u32s {b : Buf} {o n : Nat} (h : o + 4 * n ≤ b.capacity) :
    Gives (u32s b o n) d (.ok ((List.range n).map fun k => loadLE b.bytes 4 (o + 4 * k))) := by
  induction n generalizing o with
  | zero => exact gives_pure _
  | succ n ih =>
      unfold u32s
      refine (gives_load (by omega)).bind ((ih (by omega)).bind ?_)
      rw [List.range_succ_eq_map, List.map_cons, List.map_map]
      have hshift : ((fun k => loadLE b.bytes 4 (o + 4 * k)) ∘ Nat.succ) =
          fun k => loadLE b.bytes 4 (o + 4 + 4 * k) := by
        funext k
        show loadLE b.bytes 4 (o + 4 * (k + 1)) = _
        congr 1
        omega
      rw [hshift]
      exact gives_pure _

end Natives

/-! ### Transfers -/

variable {d : Bytes}

theorem gives_read {dev : Device} {lba n off : Nat} {buf : Buf} (hn : 1 ≤ n)
    (hlba : lba + n ≤ dev.sectors) (hbuf : off + n * dev.sectorSize ≤ buf.capacity) :
    Gives (dev.read lba n buf off) d (.ok { buf with
      bytes := copy buf.bytes off d (lba * dev.sectorSize) (n * dev.sectorSize) }) := by
  intro w hw
  unfold Device.read
  rw [if_neg (by omega)]
  refine ⟨{ w with steps := w.steps + 1 }, hw, rfl, ?_⟩
  have ht : transfer w = if w.fails w.steps then .error .device { w with steps := w.steps + 1 }
      else .ok () { w with steps := w.steps + 1 } := rfl
  by_cases hf : w.fails w.steps = true
  · rw [if_pos hf] at ht
    exact .inr ⟨Exec.bind_error.mpr (.inl ht), _, hf⟩
  · rw [if_neg hf] at ht
    refine .inl (bind_ok.mpr ⟨_, _, ht, bind_ok.mpr ⟨_, _, rfl, pure_ok.mpr ⟨?_, rfl⟩⟩⟩)
    rw [← hw]

theorem gives_read_error {dev : Device} {lba n off : Nat} {buf : Buf}
    (h : n < 1 ∨ dev.sectors < lba + n ∨ buf.capacity < off + n * dev.sectorSize) :
    Gives (dev.read lba n buf off) d (.error .device) := by
  unfold Device.read
  rw [if_pos h]
  exact gives_throw _

/-! ### Images -/

/-- Sectors that fill the blocks, as on every device of `beer.blk` that `mount` accepts. -/
structure Fs.Sized (fs : Fs) : Prop where
  spb_mul : fs.spb * fs.dev.sectorSize = fs.blockSize
  le_bs : 1024 ≤ fs.blockSize

/-- The `n` blocks from `b` lie on the device. -/
def Fs.OnDevice (fs : Fs) (b n : Nat) : Prop := (b + n) * fs.spb ≤ fs.dev.sectors

/-- The contents of block `b`. -/
def Fs.blockAt (fs : Fs) (d : Bytes) (b : Nat) : Bytes := window d (b * fs.blockSize) fs.blockSize

section Sized

variable {fs : Fs} (hs : fs.Sized)

include hs

theorem Fs.Sized.spb_pos : 0 < fs.spb := by
  have hmul := hs.spb_mul
  have hle := hs.le_bs
  rcases Nat.eq_zero_or_pos fs.spb with h | h
  · rw [h, Nat.zero_mul] at hmul
    omega
  · exact h

theorem Fs.Sized.mul_sectorSize (b : Nat) : b * fs.spb * fs.dev.sectorSize = b * fs.blockSize := by
  rw [Nat.mul_assoc, hs.spb_mul]

theorem givesIf_readBlocksInto {b n off : Nat} {buf : Buf} (hn : 1 ≤ n)
    (hbuf : off + n * fs.blockSize ≤ buf.capacity) :
    GivesIf (readBlocksInto fs b n buf off) d (fs.OnDevice b n) { buf with
      bytes := copy buf.bytes off d (b * fs.blockSize) (n * fs.blockSize) } := by
  have hcap : off + n * fs.spb * fs.dev.sectorSize ≤ buf.capacity := by rwa [hs.mul_sectorSize]
  have hiff : fs.OnDevice b n ↔ b * fs.spb + n * fs.spb ≤ fs.dev.sectors := by
    unfold Fs.OnDevice
    rw [Nat.add_mul]
  rw [hiff]
  constructor
  · intro hon
    have h := gives_read (d := d) (Nat.mul_pos hn hs.spb_pos) hon hcap
    rwa [hs.mul_sectorSize, hs.mul_sectorSize] at h
  · intro hon
    exact gives_read_error (.inr (.inl (by omega)))

theorem givesIf_readBlock {b : Nat} (hb : b ≠ 0) :
    GivesIf (readBlock fs b) d (fs.OnDevice b 1) ⟨fs.blockSize, fs.blockAt d b⟩ := by
  unfold readBlock
  simp only
  rw [if_pos hb]
  refine (givesIf_readBlocksInto hs le_rfl (by simp [Buf.alloc])).to Iff.rfl ?_
  unfold Fs.blockAt
  rw [Buf.mk.injEq]
  refine ⟨rfl, ?_⟩
  funext i
  unfold copy window
  show (if _ then _ else (0 : UInt8)) = _
  by_cases hi : i < fs.blockSize
  · rw [if_pos (by omega), if_pos hi, Nat.sub_zero]
  · rw [if_neg (by omega), if_neg hi]

end Sized

/-! ### Blocks and inode records -/

variable {v : Volume}

theorem Volume.sized (v : Volume) : v.toFs.Sized := ⟨v.spb_mul, v.le_bs⟩

theorem onDevice_of_le {b n : Nat} (hb : b + n ≤ v.blocks) : v.toFs.OnDevice b n :=
  (Nat.mul_le_mul_right _ hb).trans v.blocks_fit

theorem gives_readBlock {b : Nat} (hb : b ≠ 0) (hb' : b < v.blocks) :
    Gives (readBlock v.toFs b) d (.ok (blockBuf v d b)) :=
  (givesIf_readBlock v.sized hb).1 (onDevice_of_le hb')

/-- A data block is read as it is in the view. -/
theorem gives_readBlock_data {b : Nat} (hb : v.kind b = .data) :
    Gives (readBlock v.toFs b) d (.ok ⟨v.blockSize, (v.view d).block b⟩) := by
  have h := gives_readBlock (d := d) (v.ne_zero_of_kind (by simp [hb]) (by simp [hb]))
    (v.data_inRange hb).2
  simpa only [blockBuf, Volume.view, if_pos hb] using h

/-- The 15 words of `i_block`. -/
def blockWords (m : Bytes) : List Nat := (List.range 15).map fun k => loadLE m 4 (iBlock + 4 * k)

/-- The inode in a record of the inode table. -/
def Fs.parse (fs : Fs) (ino : Nat) (m : Bytes) : Inode where
  ino := ino
  mode := loadLE m 2 iMode
  size := ((if modeType (loadLE m 2 iMode) = .file ∧ fs.largeFile then loadLE m 4 iSizeHi else 0)
    <<< 32) + loadLE m 4 iSize
  uid := loadLE m 2 iUid
  gid := loadLE m 2 iGid
  links := loadLE m 2 iLinks
  mtime := loadLE m 4 iMtime
  sectors := loadLE m 4 iBlocks
  fileAcl := loadLE m 4 iFileAcl
  flags := loadLE m 4 iFlags
  block := blockWords m
  iBlock := ⟨60, window m iBlock 60⟩

/-- The inode `ino` of a view. -/
def Vol.node (fs : Fs) (x : Vol) (ino : Nat) : Inode := fs.parse ino (x.inode ino)

theorem gives_readInode {ino : Nat} (hi : v.IsInode ino) :
    Gives (readInode v.toFs ino) d (.ok ((v.view d).node v.toFs ino)) := by
  have h1 := hi.1
  have h2 := hi.2
  unfold readInode
  refine (gives_failWhen (by omega)).bind ?_
  simp only
  refine (gives_quot (by have := v.inodesPerGroup_pos; omega)).bind ?_
  have hg := v.inodeGroup_lt hi
  have hgd : v.groups[(ino - 1) / v.inodesPerGroup]? = some (v.group (v.inodeGroup ino)) := by
    unfold Fs.group
    rw [List.getD_eq_getElem?_getD, List.getElem?_eq_getElem hg]
    exact List.getElem?_eq_getElem hg
  refine (gives_nth hgd).bind ?_
  have hk := v.kind_inodeBlock hi
  have hr := v.kind_inRange _ (show v.kind (v.inodeBlock ino) ≠ .reserved by simp [hk])
  refine (gives_readBlock (b := v.inodeBlock ino)
    (v.ne_zero_of_kind (by simp [hk]) (by simp [hk])) hr.2).bind ?_
  have hle := v.inodeOffset_le ino
  have hge := v.inodeSize_ge
  -- every field of the record is a load at the same offset of the record alone
  have hload : ∀ n j, j + n ≤ 128 →
      loadLE (blockBuf v d (v.inodeBlock ino)).bytes n (v.inodeOffset ino + j) =
        loadLE ((v.view d).inode ino) n j := by
    intro n j hj
    simp only [blockBuf, Volume.view, if_pos hi]
    rw [loadLE_window (by omega), loadLE_window (by omega), v.inodeAddr_eq, Nat.add_assoc]
  have hu : ∀ n j, j + n ≤ 128 → Gives (load n (blockBuf v d (v.inodeBlock ino))
      ((ino - 1) % v.inodesPerGroup * v.inodeSize % v.blockSize + j)) d
      (.ok (loadLE ((v.view d).inode ino) n j)) := by
    intro n j hj
    rw [← hload n j hj]
    exact gives_load (show v.inodeOffset ino + j + n ≤ v.blockSize by omega)
  refine (hu 2 iMode (by decide)).bind ((hu 4 iSize (by decide)).bind ?_)
  refine Gives.bind (a := if modeType (loadLE ((v.view d).inode ino) 2 iMode) = .file ∧
    v.largeFile then loadLE ((v.view d).inode ino) 4 iSizeHi else 0) ?_ ?_
  · split_ifs
    · exact hu 4 iSizeHi (by decide)
    · exact gives_pure _
  refine (hu 2 iUid (by decide)).bind ((hu 2 iGid (by decide)).bind
    ((hu 2 iLinks (by decide)).bind ((hu 4 iMtime (by decide)).bind
    ((hu 4 iBlocks (by decide)).bind ((hu 4 iFileAcl (by decide)).bind
    ((hu 4 iFlags (by decide)).bind ?_))))))
  have hmap : ((List.range 15).map fun k => loadLE (blockBuf v d (v.inodeBlock ino)).bytes 4
      (v.inodeOffset ino + 40 + 4 * k)) =
        (List.range 15).map fun k => loadLE ((v.view d).inode ino) 4 (iBlock + 4 * k) := by
    apply List.map_congr_left
    intro k hk
    have hk' := List.mem_range.mp hk
    rw [← hload 4 (iBlock + 4 * k) (by unfold iBlock; omega), Nat.add_assoc]
    rfl
  have hwin : window (blockBuf v d (v.inodeBlock ino)).bytes (v.inodeOffset ino + 40) 60 =
      window ((v.view d).inode ino) iBlock 60 := by
    simp only [blockBuf, Volume.view, if_pos hi]
    rw [window_window (by omega), window_window (by unfold iBlock; omega), v.inodeAddr_eq,
      ← Nat.add_assoc]
    rfl
  have hblock := gives_u32s (d := d) (b := blockBuf v d (v.inodeBlock ino))
    (show v.inodeOffset ino + 40 + 4 * 15 ≤ v.blockSize by omega)
  have hslice := gives_slice (d := d) (b := blockBuf v d (v.inodeBlock ino))
    (show v.inodeOffset ino + 40 + 60 ≤ v.blockSize by omega)
  rw [hmap] at hblock
  rw [hwin] at hslice
  exact hblock.bind (hslice.bind (gives_pure _))

/-- An inode number outside the volume is refused. -/
theorem gives_readInode_error {ino : Nat} (hi : ¬v.IsInode ino) :
    Gives (readInode v.toFs ino) d (.error (.fail .readInode (.ino ino) .badInode)) := by
  unfold readInode
  refine (gives_failWhen_error ?_).bind_error
  unfold Volume.IsInode at hi
  omega

end Beeros.Ext2
