import Beeros.Ext2Check

/-! The scans of directory blocks on any disk contents. `dir-entries`, `add-entry!` and `set-dotdot!`
check the record length before they go on, so they come to an end. `remove-entry!` does not: it goes
round for ever exactly when it meets a record of length 0 before the name. -/

namespace Beeros.Ext2

open Memory Exec

/-- `m` does not go on for ever, wherever it is started. -/
def Ends {α : Type} (m : Io α) : Prop := ∀ w, thrown (m w) ≠ some .diverges

/-! ### Programs that end -/

section Ends

variable {α β : Type} {m m' : Io α} {f : α → Io β}

theorem ends_pure (a : α) : Ends (pure a : Io α) := nofun

theorem ends_throw {e : Error} (h : e ≠ .diverges) : Ends (throw e : Io α) := by
  intro w hw
  injection hw with hw
  exact h hw

theorem ends_fail (op : Op) (s : Subject) (r : Reason) : Ends (fail op s r : Io α) :=
  ends_throw (by nofun)

theorem Ends.bind (h : Ends m) (hf : ∀ a, Ends (f a)) : Ends (m >>= f) := by
  intro w hw
  cases hr : (m >>= f) w with
  | ok b t =>
      rw [hr] at hw
      cases hw
  | error e t =>
      rw [hr] at hw
      obtain rfl : e = .diverges := Option.some.inj hw
      rcases bind_error.mp hr with hm | ⟨a, t', -, hfa⟩
      · exact h w (by rw [hm]; rfl)
      · exact hf a t' (by rw [hfa]; rfl)

/-- A sequence whose first part ends goes on for ever in its second part. -/
theorem Ends.diverges_bind (h : Ends m) {w : World}
    (hw : thrown ((m >>= f) w) = some .diverges) :
    ∃ a w', m w = .ok a w' ∧ thrown (f a w') = some .diverges := by
  cases hm : m w with
  | ok a t =>
      rw [bind_apply hm] at hw
      exact ⟨a, t, rfl, hw⟩
  | error e t =>
      rw [bind_error.mpr (.inl hm)] at hw
      exact absurd (hm ▸ hw) (h w)

theorem Ends.ite {c : Prop} [Decidable c] (h : Ends m) (h' : Ends m') :
    Ends (if c then m else m') := by
  split_ifs
  · exact h
  · exact h'

theorem ends_failWhen {c : Prop} [Decidable c] {op : Op} {s : Subject} {r : Reason} :
    Ends (failWhen c op s r) := (ends_fail _ _ _).ite (ends_pure _)

theorem ends_nth {l : List α} {i : Nat} : Ends (nth l i) := by
  unfold nth
  cases l[i]? with
  | none => exact ends_throw (by decide)
  | some a => exact ends_pure a

theorem ends_quot {a b : Nat} : Ends (quot a b) := (ends_throw (by decide)).ite (ends_pure _)

theorem ends_now : Ends now := nofun

theorem ends_load {n o : Nat} {b : Buf} : Ends (load n b o) := (ends_pure _).ite (ends_throw (by decide))

theorem ends_slice {start len : Nat} {b : Buf} : Ends (slice b start len) :=
  (ends_pure _).ite (ends_throw (by decide))

theorem ends_store {fs : Fs} {n o : Nat} {b : Buf} {x : Int} : Ends (store fs n b o x) := by
  unfold store
  refine (ends_throw (by decide)).ite ((ends_pure _).ite ?_)
  cases fs.rt.wide n x with
  | none => exact ends_throw (by decide)
  | some y => exact ends_pure _

theorem ends_addField {fs : Fs} {n o : Nat} {b : Buf} {x : Int} : Ends (addField fs n b o x) :=
  ends_load.bind fun _ => ends_store

theorem ends_copyBuf {dst src : Buf} {i j len : Nat} : Ends (copyBuf dst i src j len) :=
  (ends_pure _).ite (ends_throw (by decide))

theorem ends_transfer : Ends transfer := by
  intro w
  unfold transfer
  split_ifs <;> nofun

theorem ends_read {dev : Device} {lba n off : Nat} {buf : Buf} : Ends (dev.read lba n buf off) :=
  (ends_throw (by decide)).ite (ends_transfer.bind fun _ => Ends.bind (m := get) nofun fun _ => ends_pure _)

theorem ends_write {dev : Device} {lba n off : Nat} {buf : Buf} : Ends (dev.write lba n buf off) :=
  (ends_throw (by decide)).ite (ends_transfer.bind fun _ _ => nofun)

theorem ends_readBlock {fs : Fs} {b : Nat} : Ends (readBlock fs b) := ends_read.ite (ends_pure _)

end Ends

/-! ### Block maps, counts and bitmaps

Their loops count up to a bound that is fixed before the first round. -/

section Bounded

variable {fs : Fs}

theorem ends_collectLoop {ptr : Nat → Io Nat} {sub : Nat → Nat → Io (List Nat)} {span : Nat}
    (hptr : ∀ i, Ends (ptr i)) (hsub : ∀ p need, Ends (sub p need)) (fuel i : Nat) (acc : List Nat)
    (left : Nat) : Ends (collectLoop ptr sub span fuel i acc left) := by
  induction fuel generalizing i acc left with
  | zero => exact ends_pure _
  | succ fuel ih =>
      exact (ends_pure _).ite ((hptr i).bind fun p => (hsub p _).bind fun s => ih _ _ _)

theorem ends_collect (depth blk need : Nat) : Ends (collect fs depth blk need) := by
  induction depth generalizing blk need with
  | zero => exact ends_pure _
  | succ depth ih =>
      exact (ends_readBlock.bind fun buf => ends_collectLoop (fun _ => ends_load) ih _ _ _ _).ite
        (ends_collectLoop (fun _ => ends_pure _) ih _ _ _ _)

theorem ends_fileBlocks (i : Inode) : Ends (fileBlocks fs i) := by
  unfold fileBlocks
  generalize ([] : List Nat) = acc, ceilDiv i.size fs.blockSize = left
  induction tops i.block generalizing acc left with
  | nil => exact ends_pure _
  | cons t ts ih => exact (ends_pure _).ite ((ends_collect _ _ _).bind fun s => ih _ _)

theorem ends_readInodeData (i : Inode) : Ends (readInodeData fs i) := by
  have hruns : ∀ blocks fuel i buf, Ends (readRuns fs blocks fuel i buf) := by
    intro blocks fuel
    induction fuel with
    | zero => exact fun _ _ => ends_pure _
    | succ fuel ih =>
        intro i buf
        exact (ends_nth.bind fun start => (ends_read.bind fun _ => ih _ _).ite (ih _ _)).ite
          (ends_pure _)
  exact (ends_fileBlocks i).bind fun blocks => (hruns _ _ _ _).bind fun buf =>
    (ends_pure _).ite ends_slice

theorem ends_indirectBlocks (depth blk : Nat) : Ends (indirectBlocks fs depth blk) := by
  induction depth generalizing blk with
  | zero => exact ends_pure _
  | succ depth ih =>
      have hloop : ∀ (buf : Buf) n o, Ends (indirectLoop buf (indirectBlocks fs depth) o n) := by
        intro buf n
        induction n with
        | zero => exact fun _ => ends_pure _
        | succ n ihn =>
            exact fun o => ends_load.bind fun p => (ih p).bind fun s => (ihn _).bind fun _ =>
              ends_pure _
      exact (ends_pure _).ite (ends_readBlock.bind fun buf => (ends_pure _).ite
        ((hloop _ _ _).bind fun _ => ends_pure _))

theorem ends_adjustCounts {g : Nat} {x y z : Int} : Ends (adjustCounts fs g x y z) :=
  (ends_readBlock.bind fun _ => (ends_addField.bind fun _ => ends_addField.bind fun _ =>
    ends_addField).bind fun _ => ends_write).bind fun _ =>
  ends_read.bind fun _ => (ends_addField.bind fun _ => ends_addField).bind fun _ =>
    ends_now.bind fun _ => ends_store.bind fun _ => ends_write

theorem ends_setBit {buf : Buf} {i : Nat} {on : Bool} : Ends (setBit fs buf i on) :=
  ends_load.bind fun _ => ends_store

theorem ends_freeBlocks (blocks : List Nat) : Ends (freeBlocks fs blocks) := by
  have hclear : ∀ g bs bm, Ends (clearBits fs g bs bm) := by
    intro g bs
    induction bs with
    | nil => exact fun _ => ends_pure _
    | cons b bs ih => exact fun bm => (ends_throw (by decide)).ite (ends_setBit.bind fun _ => ih _)
  have hgroups : ∀ blocks gs, Ends (freeGroups fs blocks gs) := by
    intro blocks gs
    induction gs with
    | nil => exact ends_pure _
    | cons g gs ih =>
        exact (ends_throw (by decide)).ite (ends_nth.bind fun gd => ends_readBlock.bind fun bm =>
          (hclear _ _ _).bind fun bm => ends_write.bind fun _ => ends_adjustCounts.bind fun _ => ih)
  exact (ends_throw (by decide)).ite (hgroups _ _)

theorem ends_allocBlocks (goal n : Nat) : Ends (allocBlocks fs goal n) := by
  have hscan : ∀ base limit k fuel i bm got, Ends (scanBits fs base limit n k fuel i bm got) := by
    intro base limit k fuel
    induction fuel with
    | zero => exact fun _ _ _ => ends_pure _
    | succ fuel ih =>
        exact fun i bm got => (ends_pure _).ite (ends_load.bind fun v => (ih _ _ _).ite
          ((ends_load.bind fun _ => ends_pure _).bind fun used => (ih _ _ _).ite
            (ends_setBit.bind fun _ => ih _ _ _)))
  have hloop : ∀ fuel k acc, Ends (allocLoop fs goal n fuel k acc) := by
    intro fuel
    induction fuel with
    | zero =>
        exact fun k acc => (ends_pure _).ite ((ends_freeBlocks _).bind fun _ => ends_fail _ _ _)
    | succ fuel ih =>
        exact fun k acc => (ends_pure _).ite (ends_nth.bind fun gd => ends_readBlock.bind fun bm =>
          (hscan _ _ _ _ _ _ _).bind fun r => (ends_write.bind fun _ => ends_adjustCounts.bind fun _ =>
            ih _ _).ite (ih _ _))
  exact hloop _ _ _

theorem ends_allocBlock (goal : Nat) : Ends (allocBlock fs goal) := by
  refine (ends_allocBlocks goal 1).bind fun l => ?_
  cases l with
  | nil => exact ends_throw (by decide)
  | cons b l => exact ends_pure _

theorem ends_storeWords (xs : List Nat) (b : Buf) (o : Nat) : Ends (storeWords fs xs b o) := by
  induction xs generalizing b o with
  | nil => exact ends_pure _
  | cons x xs ih => exact ends_store.bind fun b => ih _ _

theorem ends_buildMap (goal : Nat) (data : List Nat) (path : Str) :
    Ends (buildMap fs goal data path) := by
  have hpointers : ∀ cs bs, Ends (writePointers fs bs cs) := by
    intro cs
    induction cs with
    | nil => exact fun _ => ends_pure _
    | cons c cs ih =>
        exact fun bs => ends_nth.bind fun b => (ends_storeWords _ _ _).bind fun _ =>
          ends_write.bind fun _ => ih _
  refine ends_failWhen.bind fun _ => Ends.bind (Ends.ite ?_ (ends_pure _)) fun s =>
    Ends.bind (Ends.ite ?_ (ends_pure _)) fun t => ends_pure _
  · exact (ends_allocBlock _).bind fun b => (ends_storeWords _ _ _).bind fun _ =>
      ends_write.bind fun _ => ends_pure _
  · exact (ends_allocBlocks _ _).bind fun seconds => (ends_allocBlock _).bind fun top =>
      (hpointers _ _).bind fun _ => (ends_storeWords _ _ _).bind fun _ => ends_write.bind fun _ =>
        ends_pure _

theorem ends_inodeUpdate {ino : Nat} {f : Buf → Nat → Io Buf} (hf : ∀ b o, Ends (f b o)) :
    Ends (inodeUpdate fs ino f) :=
  ends_quot.bind fun _ => ends_nth.bind fun _ => ends_readBlock.bind fun _ =>
    (hf _ _).bind fun _ => ends_write

theorem ends_setTimes (b : Buf) (o : Nat) : Ends (setTimes fs b o) :=
  ends_now.bind fun _ => ends_store.bind fun _ => ends_now.bind fun _ => ends_store

theorem ends_putEntry {buf : Buf} {o ino n : Nat} {name : Str} {t : FileType} :
    Ends (putEntry fs buf o ino n name t) :=
  ends_store.bind fun _ => ends_store.bind fun _ =>
    Ends.bind ((ends_store.bind fun _ => ends_store).ite ends_store) fun _ => ends_copyBuf

theorem ends_growDir (dir : Inode) (name : Str) (ino : Nat) (t : FileType) (path : Str)
    (blocks : List Nat) : Ends (growDir fs dir name ino t path blocks) :=
  ends_quot.bind fun _ => (ends_allocBlock _).bind fun _ => ends_putEntry.bind fun _ =>
    ends_write.bind fun _ => (ends_indirectBlocks _ _).bind fun _ =>
    (ends_indirectBlocks _ _).bind fun _ => (ends_freeBlocks _).bind fun _ =>
    (ends_buildMap _ _ _).bind fun _ => ends_inodeUpdate fun _ _ =>
      (ends_storeWords _ _ _).bind fun _ => ends_store.bind fun _ => ends_store

theorem ends_nameLen {buf : Buf} {o : Nat} : Ends (nameLen fs buf o) := ends_load.ite ends_load

end Bounded

/-! ### Scans that check the record length -/

section Checked

variable {fs : Fs}

theorem ends_failWhen_bind {α : Type} {c : Prop} [Decidable c] {op : Op} {s : Subject} {r : Reason}
    {m : Io α} (h : ¬c → Ends m) : Ends (failWhen c op s r >>= fun _ => m) := by
  by_cases hc : c
  · intro w hw
    have herr : (failWhen c op s r >>= fun _ => m) w = .error (.fail op s r) w :=
      bind_error.mpr (.inl (by rw [failWhen, if_pos hc]; rfl))
    rw [herr] at hw
    cases hw
  · exact ends_failWhen.bind fun _ => h hc

/-- The scan of `dir-entries` moves on by at least eight bytes. -/
theorem ends_entriesLoop (dirIno : Nat) (buf : Buf) (size : Nat) {fuel o : Nat} (acc : List Entry)
    (hpos : 0 < fuel) (hfuel : size < o + fuel) :
    Ends (entriesLoop fs dirIno buf size fuel o acc) := by
  induction fuel generalizing o acc with
  | zero => cases hpos
  | succ fuel ih =>
      by_cases hstop : o + 8 ≥ size
      · unfold entriesLoop
        rw [if_pos hstop]
        exact ends_pure _
      · unfold entriesLoop
        rw [if_neg hstop]
        refine ends_load.bind fun ino => ends_load.bind fun len => ends_nameLen.bind fun nl =>
          ends_failWhen_bind fun hlen => ?_
        have hnext : ∀ acc, Ends (entriesLoop fs dirIno buf size fuel (o + len) acc) :=
          fun acc => ih acc (by omega) (by omega)
        exact (hnext _).ite (ends_slice.bind fun nm => (ends_load.bind fun ft => hnext _).ite (hnext _))

theorem ends_dirEntries (dir : Inode) : Ends (dirEntries fs dir) :=
  (ends_readInodeData dir).bind fun _ => ends_entriesLoop _ _ _ _ (by omega) (by omega)

/-- The scan of `add-entry!` moves on by at least eight bytes. -/
theorem ends_addInBlock {name path : Str} {ino need blk : Nat} {t : FileType} {buf : Buf}
    {fuel o : Nat} (hpos : 0 < fuel) (hfuel : fs.blockSize < o + fuel) :
    Ends (addInBlock fs name ino t path need blk buf fuel o) := by
  induction fuel generalizing o with
  | zero => cases hpos
  | succ fuel ih =>
      by_cases hstop : o < fs.blockSize
      · unfold addInBlock
        rw [if_pos hstop]
        have hused : ∀ e, Ends (usedBytes fs buf o e) := fun e =>
          (ends_pure _).ite (ends_nameLen.bind fun _ => ends_pure _)
        refine ends_load.bind fun e => ends_load.bind fun len => (hused e).bind fun used =>
          ends_failWhen_bind fun hlen => Ends.ite ?_ (ih (by omega) (by omega))
        exact (ends_putEntry.bind fun _ => ends_write.bind fun _ => ends_pure _).ite
          (ends_store.bind fun _ => ends_putEntry.bind fun _ => ends_write.bind fun _ => ends_pure _)
      · unfold addInBlock
        rw [if_neg hstop]
        exact ends_pure _

theorem ends_addEntry (dir : Inode) (name : Str) (ino : Nat) (t : FileType) (path : Str) :
    Ends (addEntry fs dir name ino t path) := by
  have hblocks : ∀ need blocks, Ends (addInBlocks fs name ino t path need blocks) := by
    intro need blocks
    induction blocks with
    | nil => exact ends_pure _
    | cons blk blks ih =>
        exact ends_readBlock.bind fun buf => (ends_addInBlock (by omega) (by omega)).bind fun _ =>
          (ends_pure _).ite ih
  exact ends_failWhen.bind fun _ => (ends_fileBlocks dir).bind fun blocks =>
    (hblocks _ _).bind fun _ => ((ends_pure _).ite (ends_growDir _ _ _ _ _ _)).bind fun _ =>
      ends_inodeUpdate ends_setTimes

/-- The scan of `set-dotdot!` goes on only behind a record length that is not 0. -/
theorem ends_setDotdotLoop {blk parentIno : Nat} {buf : Buf} {fuel o : Nat} (hpos : 0 < fuel)
    (hfuel : fs.blockSize < o + fuel) : Ends (setDotdotLoop fs blk parentIno buf fuel o) := by
  induction fuel generalizing o with
  | zero => cases hpos
  | succ fuel ih =>
      by_cases hstop : o < fs.blockSize
      · unfold setDotdotLoop
        rw [if_pos hstop]
        refine ends_load.bind fun len => ends_load.bind fun e => ?_
        have hnext : ∀ dotdot : Bool, Ends (if dotdot = true then do
            let buf ← setU32 fs buf o parentIno
            writeBlock fs blk buf
          else if len > 0 then setDotdotLoop fs blk parentIno buf fuel (o + len) else pure ()) := by
          intro dotdot
          refine (ends_store.bind fun _ => ends_write).ite ?_
          split_ifs with hlen
          · exact ih (by omega) (by omega)
          · exact ends_pure _
        exact ((ends_pure _).bind hnext).ite (ends_nameLen.bind fun nl =>
          (ends_slice.bind fun _ => (ends_pure _).bind hnext).ite ((ends_pure _).bind hnext))
      · unfold setDotdotLoop
        rw [if_neg hstop]
        exact ends_pure _

theorem ends_setDotdot (dir : Inode) (parentIno : Nat) : Ends (setDotdot fs dir parentIno) := by
  refine (ends_fileBlocks dir).bind fun blocks => ?_
  cases blocks with
  | nil => exact ends_throw (by decide)
  | cons blk blks =>
      exact ends_readBlock.bind fun buf => ends_setDotdotLoop (by omega) (by omega)

end Checked

/-! ### The scan of `remove-entry!` -/

section Remove

variable {fs : Fs} {m d : Bytes} {name path : Str}

/-- The record at `o` of a block is read without an error, and is not called `name`. -/
def PassedOver (fs : Fs) (m : Bytes) (name : Str) (o : Nat) : Prop :=
  o + 6 ≤ fs.blockSize ∧ (recIno m o ≠ 0 →
    o + 8 + fs.recNl m o ≤ fs.blockSize ∧ fs.recName m o ≠ some name)

/-- From the record at `o` the records lead to one of length 0 before the name. -/
inductive Stuck (fs : Fs) (m : Bytes) (name : Str) : Nat → Prop
  | here {o : Nat} (h : PassedOver fs m name o) (hlen : recLen m o = 0) : Stuck fs m name o
  | later {o : Nat} (h : PassedOver fs m name o) (hnext : Stuck fs m name (o + recLen m o)) :
      Stuck fs m name o

/-- From the record at `o` the records lead over the end of the block without the name. -/
inductive Missing (fs : Fs) (m : Bytes) (name : Str) : Nat → Prop
  | done {o : Nat} (h : fs.blockSize ≤ o) : Missing fs m name o
  | later {o : Nat} (h : PassedOver fs m name o) (hnext : Missing fs m name (o + recLen m o)) :
      Missing fs m name o

theorem load_eq {n o c : Nat} (h : o + n ≤ c) : load n ⟨c, m⟩ o = pure (loadLE m n o) := if_pos h

theorem load_eq_throw {n o c : Nat} (h : ¬o + n ≤ c) : load n ⟨c, m⟩ o = throw .bounds := if_neg h

theorem throw_bind {α β : Type} (e : Error) (f : α → Io β) : (throw e >>= f) = throw e := rfl

theorem nameLen_eq {o : Nat} (h : o + 8 ≤ fs.blockSize) :
    nameLen fs ⟨fs.blockSize, m⟩ o = pure (fs.recNl m o) := by
  unfold nameLen Fs.recNl
  split_ifs
  · exact load_eq (by omega)
  · exact load_eq (by omega)

/-- The name of a used record, if it lies in the block. -/
theorem recordName_eq {o : Nat} (hused : recIno m o ≠ 0) :
    recordName fs ⟨fs.blockSize, m⟩ o (recIno m o) =
      if o + 8 + fs.recNl m o ≤ fs.blockSize then pure (fs.recName m o) else throw .bounds := by
  unfold recordName
  rw [if_pos hused]
  split_ifs with h
  · rw [nameLen_eq (by omega), pure_bind, slice, if_pos h, pure_bind]
    rfl
  · have hslice : ∀ nl, nl = fs.recNl m o → (slice ⟨fs.blockSize, m⟩ (o + 8) nl >>= fun b =>
        (pure b.toString : Io (Option Str))) = throw .bounds := by
      rintro nl rfl
      rw [slice, if_neg h, throw_bind]
    unfold nameLen
    split_ifs with hft
    · by_cases hl : o + 6 + 1 ≤ fs.blockSize
      · rw [u8, load_eq hl, pure_bind, hslice]
        rw [Fs.recNl, if_pos hft]
      · rw [u8, load_eq_throw hl, throw_bind]
    · by_cases hl : o + 6 + 2 ≤ fs.blockSize
      · rw [u16, load_eq hl, pure_bind, hslice]
        rw [Fs.recNl, if_neg hft]
      · rw [u16, load_eq_throw hl, throw_bind]

/-- A round at a record that is passed over goes on to the next one. -/
theorem removeInBlock_next {blk fuel o : Nat} {prev : Option Nat} (h : PassedOver fs m name o) :
    removeInBlock fs name blk ⟨fs.blockSize, m⟩ (fuel + 1) o prev =
      removeInBlock fs name blk ⟨fs.blockSize, m⟩ fuel (o + recLen m o) (some o) := by
  obtain ⟨hin, hname⟩ := h
  rw [removeInBlock, if_pos (by omega), u32, load_eq (by omega), pure_bind, u16,
    load_eq (by omega), pure_bind]
  by_cases hused : recIno m o ≠ 0
  · obtain ⟨hle, hne⟩ := hname hused
    rw [show loadLE m 4 o = recIno m o from rfl, recordName_eq hused, if_pos hle, pure_bind,
      if_neg hne]
    rfl
  · rw [show loadLE m 4 o = recIno m o from rfl, recordName, if_neg hused, pure_bind,
      if_neg nofun]
    rfl

/-- A round at any other record of the block is the last one, and does not leave the name missing. -/
theorem removeInBlock_last {blk fuel o : Nat} {prev : Option Nat} (ho : o < fs.blockSize)
    (h : ¬PassedOver fs m name o) :
    Ends (removeInBlock fs name blk ⟨fs.blockSize, m⟩ (fuel + 1) o prev) ∧
      ∀ w w', removeInBlock fs name blk ⟨fs.blockSize, m⟩ (fuel + 1) o prev w ≠ .ok false w' := by
  have hthrow : ∀ x : Io Bool, x = throw .bounds → Ends x ∧ ∀ w w', x w ≠ .ok false w' := by
    rintro x rfl
    exact ⟨ends_throw (by decide), fun w w' => nofun⟩
  rw [removeInBlock, if_pos ho]
  by_cases h4 : o + 4 ≤ fs.blockSize
  · rw [u32, load_eq h4, pure_bind]
    by_cases h6 : o + 4 + 2 ≤ fs.blockSize
    · rw [u16, load_eq h6, pure_bind]
      have hused : recIno m o ≠ 0 := fun h0 => h ⟨h6, fun hne => absurd h0 hne⟩
      rw [show loadLE m 4 o = recIno m o from rfl, recordName_eq hused]
      split_ifs with hle
      · have hname : fs.recName m o = some name := by
          by_contra hne
          exact h ⟨h6, fun _ => ⟨hle, hne⟩⟩
        rw [pure_bind, if_pos hname]
        cases prev with
        | none =>
            refine ⟨ends_store.bind fun _ => ends_write.bind fun _ => ends_pure _, ?_⟩
            intro w w' hw
            obtain ⟨b, w1, -, hw⟩ := bind_ok.mp hw
            obtain ⟨_, w2, -, hw⟩ := bind_ok.mp hw
            cases (pure_ok.mp hw).1
        | some p =>
            refine ⟨ends_addField.bind fun _ => ends_write.bind fun _ => ends_pure _, ?_⟩
            intro w w' hw
            obtain ⟨b, w1, -, hw⟩ := bind_ok.mp hw
            obtain ⟨_, w2, -, hw⟩ := bind_ok.mp hw
            cases (pure_ok.mp hw).1
      · exact hthrow _ (throw_bind _ _)
    · rw [u16, load_eq_throw h6, throw_bind]
      exact hthrow _ rfl
  · rw [u32, load_eq_throw h4, throw_bind]
    exact hthrow _ rfl

/-- The scan runs out of any fuel where it is stuck. -/
theorem removeInBlock_stuck {blk fuel o : Nat} {prev : Option Nat} (h : Stuck fs m name o) (w : World) :
    removeInBlock fs name blk ⟨fs.blockSize, m⟩ fuel o prev w = .error .diverges w := by
  induction h generalizing fuel prev with
  | here h hlen =>
      induction fuel generalizing prev with
      | zero => rfl
      | succ fuel ih =>
          rw [removeInBlock_next h, hlen]
          exact ih
  | later h _ ih =>
      cases fuel with
      | zero => rfl
      | succ fuel =>
          rw [removeInBlock_next h]
          exact ih

/-- It ends everywhere else. -/
theorem ends_removeInBlock {blk fuel o : Nat} {prev : Option Nat} (h : ¬Stuck fs m name o)
    (hpos : 0 < fuel) (hfuel : fs.blockSize < o + fuel) :
    Ends (removeInBlock fs name blk ⟨fs.blockSize, m⟩ fuel o prev) := by
  induction fuel generalizing o prev with
  | zero => cases hpos
  | succ fuel ih =>
      by_cases ho : o < fs.blockSize
      · by_cases hpass : PassedOver fs m name o
        · have hlen : recLen m o ≠ 0 := fun h0 => h (.here hpass h0)
          rw [removeInBlock_next hpass]
          exact ih (fun hs => h (.later hpass hs)) (by omega) (by omega)
        · exact (removeInBlock_last ho hpass).1
      · rw [removeInBlock, if_neg ho]
        exact ends_pure _

theorem Missing.not_stuck {o : Nat} (h : Missing fs m name o) : ¬Stuck fs m name o := by
  induction h with
  | done h =>
      intro hs
      cases hs with
      | here hpass _ =>
          have := hpass.1
          omega
      | later hpass _ =>
          have := hpass.1
          omega
  | @later o h _ ih =>
      intro hs
      cases hs with
      | here _ hlen =>
          rw [hlen] at ih
          exact ih (.here h hlen)
      | later _ hnext => exact ih hnext

theorem removeInBlock_missing {blk fuel o : Nat} {prev : Option Nat} (h : Missing fs m name o)
    (w : World) (hpos : 0 < fuel) (hfuel : fs.blockSize < o + fuel) :
    removeInBlock fs name blk ⟨fs.blockSize, m⟩ fuel o prev w = .ok false w := by
  induction fuel generalizing o prev with
  | zero => cases hpos
  | succ fuel ih =>
      have hns := h.not_stuck
      cases h with
      | done h =>
          rw [removeInBlock, if_neg (by omega)]
          rfl
      | later hpass hnext =>
          have hlen : recLen m o ≠ 0 := fun h0 => hns (.here hpass h0)
          have hin := hpass.1
          rw [removeInBlock_next hpass]
          exact ih hnext (by omega) (by omega)

theorem missing_of_ok {blk fuel o : Nat} {prev : Option Nat} {w w' : World}
    (h : removeInBlock fs name blk ⟨fs.blockSize, m⟩ fuel o prev w = .ok false w') :
    Missing fs m name o ∧ w = w' := by
  induction fuel generalizing o prev with
  | zero => exact absurd h throw_ok
  | succ fuel ih =>
      by_cases ho : o < fs.blockSize
      · by_cases hpass : PassedOver fs m name o
        · rw [removeInBlock_next hpass] at h
          obtain ⟨hmiss, hw⟩ := ih h
          exact ⟨.later hpass hmiss, hw⟩
        · exact absurd h ((removeInBlock_last ho hpass).2 w w')
      · rw [removeInBlock, if_neg ho] at h
        exact ⟨.done (by omega), (pure_ok.mp h).2⟩

/-- The scan of the blocks of a directory comes to one it is stuck in. -/
inductive RemoveSticks (fs : Fs) (d : Bytes) (name : Str) : List Nat → Prop
  | here {b : Nat} {blks : List Nat} (hon : b ≠ 0 → fs.OnDevice b 1)
      (h : Stuck fs (fs.contentAt d b) name 0) : RemoveSticks fs d name (b :: blks)
  | later {b : Nat} {blks : List Nat} (hon : b ≠ 0 → fs.OnDevice b 1)
      (h : Missing fs (fs.contentAt d b) name 0) (hnext : RemoveSticks fs d name blks) :
      RemoveSticks fs d name (b :: blks)

theorem removeSticks_of_diverges (hs : fs.Sized) {blocks : List Nat} {w : World}
    (hw : w.disk = d) (h : thrown (removeInBlocks fs name blocks w) = some .diverges) :
    RemoveSticks fs d name blocks := by
  induction blocks generalizing w with
  | nil => cases h
  | cons b blks ih =>
      obtain ⟨buf, w1, hread, h⟩ := ends_readBlock.diverges_bind h
      obtain ⟨hon, rfl, hd⟩ := (givesIf_readBlock_content hs).of_ok hw hread
      by_cases hstuck : Stuck fs (fs.contentAt d b) name 0
      · exact .here hon hstuck
      · obtain ⟨found, w2, hscan, h⟩ :=
          (ends_removeInBlock hstuck (by omega) (by omega)).diverges_bind h
        cases found with
        | true => cases h
        | false =>
            obtain ⟨hmiss, rfl⟩ := missing_of_ok hscan
            exact .later hon hmiss (ih hd h)

theorem diverges_of_removeSticks (hs : fs.Sized) {blocks : List Nat}
    (h : RemoveSticks fs d name blocks) {w : World} (hw : w.disk = d) (hf : ∀ n, w.fails n = false) :
    thrown (removeInBlocks fs name blocks w) = some .diverges := by
  induction h generalizing w with
  | here hon hstuck =>
      obtain ⟨w1, hread, -⟩ := ((givesIf_readBlock_content hs).1 hon).run hw hf
      rw [removeInBlocks, bind_apply hread,
        bind_error.mpr (.inl (removeInBlock_stuck hstuck w1))]
      rfl
  | later hon hmiss _ ih =>
      obtain ⟨w1, hread, hd, hf'⟩ := ((givesIf_readBlock_content hs).1 hon).run hw hf
      rw [removeInBlocks, bind_apply hread,
        bind_apply (removeInBlock_missing hmiss w1 (by omega) (by omega))]
      exact ih hd fun n => by rw [hf', hf n]

/-- `remove-entry!` on this directory meets a record of length 0 before the name. -/
structure RemoveLoops (fs : Fs) (d : Bytes) (dir : Inode) (name : Str) : Prop where
  writable : dir.flags &&& flagIndex = 0
  mapped : ∀ k < min (ceilDiv dir.size fs.blockSize) (topsCapacity fs.ppb (tops dir.block)),
    ∀ b ∈ wayToTops (fs.blockAt d) fs.ppb (tops dir.block) k, fs.OnDevice b 1
  sticks : RemoveSticks fs d name (dir.blocksIn fs (fs.blockAt d))

theorem removeEntry_diverges_iff (hs : fs.Sized) {dir : Inode} :
    (∃ w, w.disk = d ∧ thrown (removeEntry fs dir name path w) = some .diverges) ↔
      RemoveLoops fs d dir name := by
  constructor
  · rintro ⟨w, hw, h⟩
    obtain ⟨_, w1, hcheck, h⟩ := ends_failWhen.diverges_bind h
    obtain ⟨hflag, rfl⟩ := failWhen_ok.mp hcheck
    obtain ⟨blocks, w2, hblocks, h⟩ := (ends_fileBlocks dir).diverges_bind h
    obtain ⟨hmap, rfl, hd⟩ := (givesIf_fileBlocks hs).of_ok hw hblocks
    refine ⟨not_not.mp hflag, hmap, removeSticks_of_diverges hs hd ?_⟩
    by_contra hne
    cases hr : removeInBlocks fs name (dir.blocksIn fs (fs.blockAt d)) w2 with
    | ok found w3 =>
        rw [bind_apply hr] at h
        exact ((ends_failWhen.bind fun _ => ends_inodeUpdate ends_setTimes) w3) h
    | error e w3 =>
        rw [bind_error.mpr (.inl hr)] at h
        exact hne (hr ▸ h)
  · intro h
    have hf : ∀ n, (World.mk d 0 (fun _ => 0) fun _ => false).fails n = false := fun _ => rfl
    obtain ⟨w1, hblocks, hd, hf1⟩ := ((givesIf_fileBlocks hs).1 h.mapped).run rfl hf
    have hsticks := diverges_of_removeSticks hs h.sticks hd fun n => by rw [hf1, hf n]
    refine ⟨⟨d, 0, fun _ => 0, fun _ => false⟩, rfl, ?_⟩
    have hcheck : checkDirWritable dir path ⟨d, 0, fun _ => 0, fun _ => false⟩ =
        .ok () ⟨d, 0, fun _ => 0, fun _ => false⟩ :=
      failWhen_ok.mpr ⟨not_not.mpr h.writable, rfl⟩
    rw [removeEntry, bind_apply hcheck, bind_apply hblocks]
    cases hr : removeInBlocks fs name (dir.blocksIn fs (fs.blockAt d)) w1 with
    | ok found w3 =>
        rw [hr] at hsticks
        cases hsticks
    | error e w3 =>
        rw [hr] at hsticks
        rw [bind_error.mpr (.inl hr)]
        exact hsticks

/-- The four directory operations end on a disk, wherever they are started on it, exactly when
`remove-entry!` meets no record of length 0 before the name. -/
theorem directoryOps_end_iff (hs : fs.Sized) (d : Bytes) (dir : Inode) (name path : Str)
    (ino parentIno : Nat) (t : FileType) :
    (∀ w, w.disk = d → thrown (dirEntries fs dir w) ≠ some .diverges ∧
      thrown (addEntry fs dir name ino t path w) ≠ some .diverges ∧
      thrown (removeEntry fs dir name path w) ≠ some .diverges ∧
      thrown (setDotdot fs dir parentIno w) ≠ some .diverges) ↔ ¬RemoveLoops fs d dir name := by
  have hiff : (∃ w, w.disk = d ∧ thrown (removeEntry fs dir name path w) = some .diverges) ↔ _ :=
    removeEntry_diverges_iff hs
  rw [← hiff]
  constructor
  · rintro h ⟨w, hw, hdiv⟩
    exact (h w hw).2.2.1 hdiv
  · intro h w hw
    exact ⟨ends_dirEntries dir w, ends_addEntry dir name ino t path w,
      fun hdiv => h ⟨w, hw, hdiv⟩, ends_setDotdot dir parentIno w⟩

end Remove

/-! ### An image on which `rm!` goes on for ever

The second of the root directory's three blocks is a hole. The record of `..` reaches over it to the
record of `a` in the third one, so `dir-entries` never sees the record of length 0 there. -/

def crossedDisk : Bytes := fun i =>
  match i / 1024 with
  | 5 => stores [(2, 128, 0x41ED), (4, 132, 3072), (2, 154, 2), (4, 156, 4), (4, 168, 7),
      (4, 176, 8)] (i % 1024)
  | 6 => stores [(2, 384, 0x81A4), (2, 410, 1)] (i % 1024)
  | 7 => stores [(4, 0, 2), (2, 4, 12), (1, 6, 1), (1, 7, 2), (1, 8, 46), (4, 12, 2), (2, 16, 2036),
      (1, 18, 2), (1, 19, 2), (1, 20, 46), (1, 21, 46)] (i % 1024)
  | 8 => stores [(4, 0, 12), (2, 4, 1024), (1, 6, 1), (1, 7, 1), (1, 8, 97)] (i % 1024)
  | _ => smallDisk 16 i

def crossedWorld : World := ⟨crossedDisk, 0, fun _ => 0, fun _ => false⟩

/-- The root directory of `crossedDisk`. -/
def crossedRoot : Inode := (smallFs 16).parse rootIno (window crossedDisk 5248 128)

theorem directoryOps_end_iff_crossed :
    (∀ w, w.disk = crossedDisk →
      thrown (dirEntries (smallFs 16) crossedRoot w) ≠ some .diverges ∧
      thrown (addEntry (smallFs 16) crossedRoot ['a'] 12 .file ['/', 'a'] w) ≠ some .diverges ∧
      thrown (removeEntry (smallFs 16) crossedRoot ['a'] ['/', 'a'] w) ≠ some .diverges ∧
      thrown (setDotdot (smallFs 16) crossedRoot 2 w) ≠ some .diverges) ↔
    ¬RemoveLoops (smallFs 16) crossedDisk crossedRoot ['a'] :=
  directoryOps_end_iff ⟨show 2 * 512 = 1024 by omega, show 1024 ≤ 1024 by omega⟩ crossedDisk
    crossedRoot ['a'] ['/', 'a'] 12 2 .file

theorem rm_crossed_diverges :
    thrown (removeEntry (smallFs 16) crossedRoot ['a'] ['/', 'a'] crossedWorld) = some .diverges ∧
      thrown (rm (smallFs 16) ['/', 'a'] crossedWorld) = some .diverges := by
  decide +kernel

end Beeros.Ext2
