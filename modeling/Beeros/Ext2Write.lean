import Beeros.Ext2

/-! The writing half of `lib/ext2.beer`. A write operation holds the lock for its whole body, so each
is one program here. A buffer that the source changes in place is passed on instead. -/

namespace Beeros.Ext2

open Memory

def iAtime : Nat := 8
def iCtime : Nat := 12
def iDtime : Nat := 20
def iExtraIsize : Nat := 128
/-- An htree directory (`dir_index`). -/
def flagIndex : Nat := 0x1000

def sbFreeBlocks : Nat := 12
def sbFreeInodes : Nat := 16
def sbWtime : Nat := 48
def sbRevLevel : Nat := 76
def sbFirstIno : Nat := 84
def sbWantExtraIsize : Nat := 0x15E

def gdFreeBlocks : Nat := 12
def gdFreeInodes : Nat := 14
def gdUsedDirs : Nat := 16

/-- `ro-sparse-super` and `ro-large-file`. -/
def roWritable : Nat := 0x1 ||| roLargeFile

/-- The stores of `beer.bytes`: `n` bytes of `v` at `o`. -/
def store (fs : Fs) (n : Nat) (b : Buf) (o : Nat) (v : Int) : Io Buf :=
  if b.capacity < o + n then throw .bounds
  else if 0 ≤ v ∧ v < 256 ^ n then pure { b with bytes := storeLE b.bytes n o v.toNat }
  else
    match fs.rt.wide n v with
    | none => throw .wide
    | some x => pure { b with bytes := storeLE b.bytes n o x }

def setU8 (fs : Fs) : Buf → Nat → Int → Io Buf := store fs 1
def setU16 (fs : Fs) : Buf → Nat → Int → Io Buf := store fs 2
def setU32 (fs : Fs) : Buf → Nat → Int → Io Buf := store fs 4

/-- `beer.bytes/fill!` with 0. -/
def fillZero (b : Buf) (start len : Nat) : Io Buf :=
  if start + len ≤ b.capacity then pure { b with bytes := fill b.bytes start len 0 }
  else throw .bounds

/-- `beer.bytes/copy!`. -/
def copyBuf (dst : Buf) (dstOff : Nat) (src : Buf) (srcOff len : Nat) : Io Buf :=
  if dstOff + len ≤ dst.capacity ∧ srcOff + len ≤ src.capacity then
    pure { dst with bytes := copy dst.bytes dstOff src.bytes srcOff len }
  else throw .bounds

def writable (fs : Fs) (op : Op) (path : Str) : Io Unit :=
  failWhen (bitsOutside fs.roCompat roWritable ≠ 0) op (.path path) .unsupportedRoFeatures

/-! ### Blocks, superblock, group descriptors -/

def writeBlocks (fs : Fs) (b n : Nat) (buf : Buf) (off : Nat) : Io Unit :=
  fs.dev.write (b * fs.spb) (n * fs.spb) buf off

def writeBlock (fs : Fs) (b : Nat) (buf : Buf) : Io Unit := writeBlocks fs b 1 buf 0

def sbUpdate (fs : Fs) (f : Buf → Io Buf) : Io Unit := do
  let lba := 1024 / fs.dev.sectorSize
  let n := max 1 (1024 / fs.dev.sectorSize)
  let buf ← readSuperblock fs.dev
  let buf ← f buf
  let buf ← setU32 fs buf sbWtime (← now)
  fs.dev.write lba n buf 0

def gdUpdate (fs : Fs) (g : Nat) (f : Buf → Nat → Io Buf) : Io Unit := do
  let byte := g * 32
  let blk := fs.firstDataBlock + 1 + byte / fs.blockSize
  let buf ← readBlock fs blk
  let buf ← f buf (byte % fs.blockSize)
  writeBlock fs blk buf

/-- Add `d` to the field of width `n` at `o`. -/
def addField (fs : Fs) (n : Nat) (b : Buf) (o : Nat) (d : Int) : Io Buf := do
  let v ← load n b o
  store fs n b o (v + d)

def adjustCounts (fs : Fs) (g : Nat) (dblocks dinodes ddirs : Int) : Io Unit := do
  gdUpdate fs g fun b o => do
    let b ← addField fs 2 b (o + gdFreeBlocks) dblocks
    let b ← addField fs 2 b (o + gdFreeInodes) dinodes
    addField fs 2 b (o + gdUsedDirs) ddirs
  sbUpdate fs fun b => do
    let b ← addField fs 4 b sbFreeBlocks dblocks
    addField fs 4 b sbFreeInodes dinodes

def testBit (buf : Buf) (i : Nat) : Io Bool := do
  let v ← u8 buf (i / 8)
  pure (v &&& 1 <<< (i % 8) ≠ 0)

def setBit (fs : Fs) (buf : Buf) (i : Nat) (on : Bool) : Io Buf := do
  let m := 1 <<< (i % 8)
  let v ← u8 buf (i / 8)
  setU8 fs buf (i / 8) (if on then (v ||| m : Nat) else (v &&& (0xFF ^^^ m) : Nat))

/-! ### Allocation -/

/-- The group of block `b`, `(quot (- b fdb) bpg)`. -/
def groupOfBlock (fs : Fs) (b : Nat) : Int :=
  ((b : Int) - fs.firstDataBlock).tdiv fs.blocksPerGroup

/-- Clear the bits of the blocks `bs` of group `g` in its bitmap. -/
def clearBits (fs : Fs) (g : Nat) : List Nat → Buf → Io Buf
  | [], bm => pure bm
  | b :: bs, bm => do
      let i := (b : Int) - fs.firstDataBlock - g * fs.blocksPerGroup
      if i < 0 then throw .arithmetic
      else
        let bm ← setBit fs bm i.toNat false
        clearBits fs g bs bm

/-- The body of `free-blocks!` for one group after the other. -/
def freeGroups (fs : Fs) (blocks : List Nat) : List Int → Io Unit
  | [] => pure ()
  | g :: gs => do
      if g < 0 then throw .bounds
      else
        let gd ← nth fs.groups g.toNat
        let bm ← readBlock fs gd.blockBitmap
        let bs := blocks.filter fun b => groupOfBlock fs b = g
        let bm ← clearBits fs g.toNat bs bm
        writeBlock fs gd.blockBitmap bm
        adjustCounts fs g.toNat bs.length 0 0
        freeGroups fs blocks gs

/-- Mark blocks free again; 0s, holes, are skipped. -/
def freeBlocks (fs : Fs) (blocks : List Nat) : Io Unit := do
  let blocks := blocks.filter (· ≠ 0)
  if fs.blocksPerGroup = 0 ∧ blocks ≠ [] then throw .arithmetic
  else freeGroups fs blocks (fs.rt.keyOrder (blocks.map (groupOfBlock fs)).dedup)

/-- The bitmap scan of `alloc-blocks!` from bit `i`: the bitmap with the bits taken, and the blocks.
Each step moves on, so a fuel of `limit` never runs out. -/
def scanBits (fs : Fs) (base limit n have' : Nat) :
    Nat → Nat → Buf → List Nat → Io (Buf × List Nat)
  | 0, _, bm, got => pure (bm, got)
  | fuel + 1, i, bm, got =>
      if i ≥ limit ∨ have' + got.length ≥ n then pure (bm, got)
      else do
        let v ← u8 bm (i / 8)
        if v = 0xFF then scanBits fs base limit n have' fuel (i + (8 - i % 8)) bm got
        else
          let used ← testBit bm i
          if used then scanBits fs base limit n have' fuel (i + 1) bm got
          else
            let bm ← setBit fs bm i true
            scanBits fs base limit n have' fuel (i + 1) bm (got ++ [base + i])

/-- The loop of `alloc-blocks!` over the groups from `goal + k`, `fuel` of them left. -/
def allocLoop (fs : Fs) (goal n : Nat) : Nat → Nat → List Nat → Io (List Nat)
  | 0, _, acc =>
      if acc.length ≥ n then pure acc
      else do
        freeBlocks fs acc
        fail .alloc .blocks .diskFull
  | fuel + 1, k, acc =>
      if acc.length ≥ n then pure acc
      else do
        let g := (goal + k) % fs.groups.length
        let gd ← nth fs.groups g
        let bm ← readBlock fs gd.blockBitmap
        let base := fs.firstDataBlock + g * fs.blocksPerGroup
        let limit := min fs.blocksPerGroup (fs.blocks - base)
        let (bm, got) ← scanBits fs base limit n acc.length limit 0 bm []
        if got ≠ [] then
          writeBlock fs gd.blockBitmap bm
          adjustCounts fs g (-got.length) 0 0
          allocLoop fs goal n fuel (k + 1) (acc ++ got)
        else allocLoop fs goal n fuel (k + 1) (acc ++ got)

/-- `n` free blocks, marked used, searching from group `goal`. -/
def allocBlocks (fs : Fs) (goal n : Nat) : Io (List Nat) :=
  allocLoop fs goal n fs.groups.length 0 []

/-- `(first (alloc-blocks! fs goal 1))`. -/
def allocBlock (fs : Fs) (goal : Nat) : Io Nat := do
  match ← allocBlocks fs goal 1 with
  | b :: _ => pure b
  | [] => throw .type

def firstIno (fs : Fs) : Io Nat := do
  let sb ← readSuperblock fs.dev
  if (← u32 sb sbRevLevel) ≥ 1 then u32 sb sbFirstIno else pure 11

/-- The bit scan of `alloc-inode!` in group `g` from bit `i`. -/
def scanInodes (fs : Fs) (bm : Buf) (g fi : Nat) : Nat → Nat → Io (Option Nat)
  | 0, _ => pure none
  | fuel + 1, i => do
      if i ≥ fs.inodesPerGroup then pure none
      else
        let used ← testBit bm i
        if used ∨ 1 + i + g * fs.inodesPerGroup < fi then scanInodes fs bm g fi fuel (i + 1)
        else pure (some i)

def allocInodeLoop (fs : Fs) (goal : Nat) (dir : Bool) (fi : Nat) : Nat → Nat → Io Nat
  | 0, _ => fail .alloc .inode .noFreeInodes
  | fuel + 1, k => do
      let g := (goal + k) % fs.groups.length
      let gd ← nth fs.groups g
      let bm ← readBlock fs gd.inodeBitmap
      match ← scanInodes fs bm g fi fs.inodesPerGroup 0 with
      | none => allocInodeLoop fs goal dir fi fuel (k + 1)
      | some i =>
          let bm ← setBit fs bm i true
          writeBlock fs gd.inodeBitmap bm
          adjustCounts fs g 0 (-1) (if dir then 1 else 0)
          pure (1 + i + g * fs.inodesPerGroup)

/-- A free inode number, marked used, searching from group `goal`. -/
def allocInode (fs : Fs) (goal : Nat) (dir : Bool) : Io Nat := do
  let fi ← firstIno fs
  allocInodeLoop fs goal dir fi fs.groups.length 0

def groupOfInode (fs : Fs) (ino : Nat) : Io Nat := quot (ino - 1) fs.inodesPerGroup

def freeInode (fs : Fs) (ino : Nat) (dir : Bool) : Io Unit := do
  let g ← quot (ino - 1) fs.inodesPerGroup
  let gd ← nth fs.groups g
  let bm ← readBlock fs gd.inodeBitmap
  let bm ← setBit fs bm ((ino - 1) % fs.inodesPerGroup) false
  writeBlock fs gd.inodeBitmap bm
  adjustCounts fs g 0 1 (if dir then -1 else 0)

/-! ### Inodes -/

def inodeUpdate (fs : Fs) (ino : Nat) (f : Buf → Nat → Io Buf) : Io Unit := do
  let i := ino - 1
  let g ← nth fs.groups (← quot i fs.inodesPerGroup)
  let byte := i % fs.inodesPerGroup * fs.inodeSize
  let blk := g.inodeTable + byte / fs.blockSize
  let buf ← readBlock fs blk
  let buf ← f buf (byte % fs.blockSize)
  writeBlock fs blk buf

/-- Store the words `xs` one after the other from `o`. -/
def storeWords (fs : Fs) : List Nat → Buf → Nat → Io Buf
  | [], b, _ => pure b
  | x :: xs, b, o => do
      let b ← setU32 fs b o x
      storeWords fs xs b (o + 4)

/-- `set-block-map!`; `blocks` has 15 pointers. -/
def setBlockMap (fs : Fs) (b : Buf) (o : Nat) (blocks : List Nat) : Io Buf :=
  storeWords fs blocks b (o + iBlock)

/-- The last two stores of most inode updates: `mtime` and `ctime`, each read off the clock. -/
def setTimes (fs : Fs) (b : Buf) (o : Nat) : Io Buf := do
  let b ← setU32 fs b (o + iMtime) (← now)
  setU32 fs b (o + iCtime) (← now)

/-- A fresh inode: mode, links, empty. -/
def initInode (fs : Fs) (ino mode links : Nat) : Io Unit := do
  let t ← now
  let sb ← readSuperblock fs.dev
  let want ← u16 sb sbWantExtraIsize
  inodeUpdate fs ino fun b o => do
    let b ← fillZero b o fs.inodeSize
    let b ← setU16 fs b (o + iMode) mode
    let b ← setU16 fs b (o + iLinks) links
    let b ← setU32 fs b (o + iAtime) t
    let b ← setU32 fs b (o + iCtime) t
    let b ← setU32 fs b (o + iMtime) t
    if fs.inodeSize > 128 then setU16 fs b (o + iExtraIsize) (if want > 0 then want else 32)
    else pure b

/-! ### Block maps -/

/-- `(mapcat (fn [k] (sub (u32 buf (* 4 k)))) …)` for `n` pointers from byte `o`. -/
def indirectLoop (buf : Buf) (sub : Nat → Io (List Nat)) : Nat → Nat → Io (List Nat)
  | _, 0 => pure []
  | o, n + 1 => do
      let p ← u32 buf o
      let s ← sub p
      let rest ← indirectLoop buf sub (o + 4) n
      pure (s ++ rest)

/-- The indirect blocks (not data) under `blk` at a depth (1: single). -/
def indirectBlocks (fs : Fs) : Nat → Nat → Io (List Nat)
  | 0, _ => pure []
  | depth + 1, blk =>
      if blk = 0 then pure []
      else do
        let buf ← readBlock fs blk
        if depth = 0 then pure [blk]
        else
          let subs ← indirectLoop buf (indirectBlocks fs depth) 0 (fs.blockSize / 4)
          pure (blk :: subs)

def fastSymlink (fs : Fs) (inode : Inode) : Prop := inode.type = .symlink ∧ fastTarget fs inode

instance (fs : Fs) (inode : Inode) : Decidable (fastSymlink fs inode) :=
  inferInstanceAs (Decidable (_ ∧ _))

/-- Every block an inode uses: data and indirect, none for a fast symlink. -/
def allBlocks (fs : Fs) (inode : Inode) : Io (List Nat) := do
  if fastSymlink fs inode then pure []
  else
    let data ← fileBlocks fs inode
    let s ← indirectBlocks fs 1 (inode.block.getD 12 0)
    let d ← indirectBlocks fs 2 (inode.block.getD 13 0)
    let t ← indirectBlocks fs 3 (inode.block.getD 14 0)
    pure (data ++ s ++ d ++ t)

def pointerBlock (fs : Fs) (ptrs : List Nat) : Io Buf :=
  storeWords fs ptrs (Buf.alloc fs.blockSize) 0

/-- The list cut into pieces of `k`, the last one shorter. -/
def chunks (k : Nat) : Nat → List Nat → List (List Nat)
  | 0, _ => []
  | fuel + 1, xs => if xs = [] then [] else xs.take k :: chunks k fuel (xs.drop k)

/-- Write each pointer list to the block of the same index. -/
def writePointers (fs : Fs) : List Nat → List (List Nat) → Io Unit
  | _, [] => pure ()
  | bs, c :: cs => do
      let b ← nth bs 0
      let buf ← pointerBlock fs c
      writeBlock fs b buf
      writePointers fs bs.tail cs

/-- The `i_block` array and the number of indirect blocks for these data blocks; allocates and writes
the indirect blocks, up to double indirect. -/
def buildMap (fs : Fs) (goal : Nat) (data : List Nat) (path : Str) : Io (List Nat × Nat) := do
  let ppb := fs.blockSize / 4
  let direct := data.take 12
  let single := (data.drop 12).take ppb
  let double := data.drop (12 + ppb)
  failWhen (double.length > ppb * ppb) .write (.path path) .fileTooLarge
  let s ←
    (if single ≠ [] then do
      let b ← allocBlock fs goal
      let buf ← pointerBlock fs single
      writeBlock fs b buf
      pure (some b)
    else pure none)
  let cs := chunks ppb double.length double
  let d ←
    (if double ≠ [] then do
      let seconds ← allocBlocks fs goal cs.length
      let top ← allocBlock fs goal
      writePointers fs seconds cs
      let buf ← pointerBlock fs seconds
      writeBlock fs top buf
      pure (some top)
    else pure none)
  pure (direct ++ List.replicate (12 - direct.length) 0 ++ [s.getD 0, d.getD 0, 0],
    (if s.isSome then 1 else 0) + if d.isSome then cs.length + 1 else 0)

/-- The length of the run of consecutive blocks from index `i`, at least `k`. -/
def writeRunLength (data : List Nat) (i start full maxRun : Nat) : Nat → Nat → Io Nat
  | 0, k => pure k
  | fuel + 1, k =>
      if i + k < full ∧ k < maxRun then do
        let b ← nth data (i + k)
        if b = start + k then writeRunLength data i start full maxRun fuel (k + 1) else pure k
      else pure k

/-- The transfer loop of `write-data!` over the full blocks from index `i`. -/
def writeRuns (fs : Fs) (data : List Nat) (buf : Buf) (full : Nat) : Nat → Nat → Io Unit
  | 0, _ => pure ()
  | fuel + 1, i =>
      if i < full then do
        let maxRun := max 1 (maxRunBytes / fs.blockSize)
        let start ← nth data i
        let run ← writeRunLength data i start full maxRun maxRun 1
        writeBlocks fs start run buf (i * fs.blockSize)
        writeRuns fs data buf full fuel (i + run)
      else pure ()

/-- Write the `size` bytes of `buf` into the data blocks; the last partial block goes through a
zero-padded copy. -/
def writeData (fs : Fs) (data : List Nat) (buf : Buf) (size : Nat) : Io Unit := do
  let bs := fs.blockSize
  let full := size / bs
  writeRuns fs data buf full full 0
  if data.length > full then do
    let tail ← copyBuf (Buf.alloc bs) 0 buf (full * bs) (size - full * bs)
    let b ← nth data full
    writeBlock fs b tail
  else pure ()

/-! ### Directories -/

def align4 (n : Nat) : Nat := 4 * ((n + 3) / 4)

def typeFt : FileType → Nat
  | .file => 1
  | .dir => 2
  | .symlink => 7
  | .other => 0

def putEntry (fs : Fs) (buf : Buf) (o ino recLen : Nat) (name : Str) (t : FileType) : Io Buf := do
  let nb := Buf.fromString name
  let buf ← setU32 fs buf o ino
  let buf ← setU16 fs buf (o + 4) recLen
  let buf ←
    (if fs.filetype then do
      let buf ← setU8 fs buf (o + 6) nb.capacity
      setU8 fs buf (o + 7) (typeFt t)
    else setU16 fs buf (o + 6) nb.capacity)
  copyBuf buf (o + 8) nb 0 nb.capacity

def checkDirWritable (dir : Inode) (path : Str) : Io Unit :=
  failWhen (dir.flags &&& flagIndex ≠ 0) .write (.path path) .indexedDirectory

/-- `(if (= e 0) 0 (align4 (+ 8 (name-len …))))`: the bytes the record at `o` needs. -/
def usedBytes (fs : Fs) (buf : Buf) (o e : Nat) : Io Nat := do
  if e = 0 then pure 0
  else
    let nl ← nameLen fs buf o
    pure (align4 (8 + nl))

/-- The record scan of `add-entry!` in the block `blk` from byte `o`: whether the entry went in. -/
def addInBlock (fs : Fs) (name : Str) (ino : Nat) (t : FileType) (path : Str) (need blk : Nat)
    (buf : Buf) : Nat → Nat → Io Bool
  | 0, _ => throw .diverges
  | fuel + 1, o =>
      if o < fs.blockSize then do
        let e ← u32 buf o
        let recLen ← u16 buf (o + 4)
        let used ← usedBytes fs buf o e
        failWhen (recLen < 8) .write (.path path) .corruptDirectory
        if used + need ≤ recLen then
          if e = 0 then
            let buf ← putEntry fs buf o ino recLen name t
            writeBlock fs blk buf
            pure true
          else
            let buf ← setU16 fs buf (o + 4) used
            let buf ← putEntry fs buf (o + used) ino (recLen - used) name t
            writeBlock fs blk buf
            pure true
        else addInBlock fs name ino t path need blk buf fuel (o + recLen)
      else pure false

/-- `(some (fn [blk] …) blocks)` of `add-entry!`. -/
def addInBlocks (fs : Fs) (name : Str) (ino : Nat) (t : FileType) (path : Str) (need : Nat) :
    List Nat → Io Bool
  | [] => pure false
  | blk :: blks => do
      let buf ← readBlock fs blk
      let done ← addInBlock fs name ino t path need blk buf (fs.blockSize + 1) 0
      if done then pure true else addInBlocks fs name ino t path need blks

/-- The part of `add-entry!` for a directory without room: one more block, and a new block map. -/
def growDir (fs : Fs) (dir : Inode) (name : Str) (ino : Nat) (t : FileType) (path : Str)
    (blocks : List Nat) : Io Unit := do
  let bs := fs.blockSize
  let goal ← groupOfInode fs dir.ino
  let blk ← allocBlock fs goal
  let data := blocks ++ [blk]
  let buf ← putEntry fs (Buf.alloc bs) 0 ino bs name t
  writeBlock fs blk buf
  let s ← indirectBlocks fs 1 (dir.block.getD 12 0)
  let d ← indirectBlocks fs 2 (dir.block.getD 13 0)
  freeBlocks fs (s ++ d)
  let (bmap, extra) ← buildMap fs goal data path
  inodeUpdate fs dir.ino fun b o => do
    let b ← setBlockMap fs b o bmap
    let b ← setU32 fs b (o + iSize) (bs * data.length)
    setU32 fs b (o + iBlocks) ((data.length + extra) * (bs / 512))

/-- Add `name -> ino` (of type `t`) to the directory. -/
def addEntry (fs : Fs) (dir : Inode) (name : Str) (ino : Nat) (t : FileType) (path : Str) :
    Io Unit := do
  checkDirWritable dir path
  let need := align4 (8 + (Buf.fromString name).capacity)
  let blocks ← fileBlocks fs dir
  let done ← addInBlocks fs name ino t path need blocks
  (if done then pure () else growDir fs dir name ino t path blocks)
  inodeUpdate fs dir.ino (setTimes fs)

/-- The name of the record at `o` (`nil` for an unused one). -/
def recordName (fs : Fs) (buf : Buf) (o e : Nat) : Io (Option Str) := do
  if e ≠ 0 then
    let nl ← nameLen fs buf o
    let b ← slice buf (o + 8) nl
    pure b.toString
  else pure none

/-- The record scan of `remove-entry!` in the block `blk` from byte `o`. A record length of 0 stays
at the same record for ever. -/
def removeInBlock (fs : Fs) (name : Str) (blk : Nat) (buf : Buf) :
    Nat → Nat → Option Nat → Io Bool
  | 0, _, _ => throw .diverges
  | fuel + 1, o, prev =>
      if o < fs.blockSize then do
        let e ← u32 buf o
        let recLen ← u16 buf (o + 4)
        let nm ← recordName fs buf o e
        if nm = some name then
          match prev with
          | some p =>
              let buf ← addField fs 2 buf (p + 4) recLen
              writeBlock fs blk buf
              pure true
          | none =>
              let buf ← setU32 fs buf o 0
              writeBlock fs blk buf
              pure true
        else removeInBlock fs name blk buf fuel (o + recLen) (some o)
      else pure false

def removeInBlocks (fs : Fs) (name : Str) : List Nat → Io Bool
  | [] => pure false
  | blk :: blks => do
      let buf ← readBlock fs blk
      let found ← removeInBlock fs name blk buf (fs.blockSize + 1) 0 none
      if found then pure true else removeInBlocks fs name blks

/-- Remove `name` from the directory. -/
def removeEntry (fs : Fs) (dir : Inode) (name : Str) (path : Str) : Io Unit := do
  checkDirWritable dir path
  let blocks ← fileBlocks fs dir
  let found ← removeInBlocks fs name blocks
  failWhen (found = false) .remove (.path path) .notFound
  inodeUpdate fs dir.ino (setTimes fs)

/-! ### Paths -/

/-- The parent directory and the last name of a path. -/
def parentAndName (fs : Fs) (path : Str) : Io (Inode × Str) := do
  match (splitPath path).getLast? with
  | none => fail .write (.path path) .isRoot
  | some nm =>
      let parent ← resolveInode fs ('/' :: joinPath (splitPath path).dropLast) true
      failWhen (parent.type ≠ .dir) .write (.path path) .notADirectory
      pure (parent, nm)

/-! ### Public writing -/

/-- The data of `write-file!`: a string or a ByteBuffer, whose length is a `uint32_t`. -/
structure Data where
  buf : Buf
  capacity_lt : buf.capacity < 2 ^ 32

/-- The first half of `write-file!`: the inode of the file, made if there is none. -/
def openFile (fs : Fs) (path : Str) (parent : Inode) (nm : Str) : Io Nat := do
  match ← lookup fs parent nm with
  | some ino => pure ino
  | none =>
      let i ← allocInode fs (← groupOfInode fs parent.ino) false
      initInode fs i 0x81A4 1
      addEntry fs parent nm i .file path
      pure i

/-- The second half of `write-file!`: the inode's blocks replaced by new ones with the data. -/
def replaceContents (fs : Fs) (path : Str) (inode : Inode) (buf : Buf) : Io Unit := do
  let size := buf.capacity
  freeBlocks fs (← allBlocks fs inode)
  let bs := fs.blockSize
  let goal ← groupOfInode fs inode.ino
  let data ← (if size > 0 then allocBlocks fs goal (ceilDiv size bs) else pure [])
  writeData fs data buf size
  let (bmap, extra) ← buildMap fs goal data path
  inodeUpdate fs inode.ino fun b o => do
    let b ← setBlockMap fs b o bmap
    let b ← setU32 fs b (o + iSize) (size % 2 ^ 32 : Nat)
    let b ← setU32 fs b (o + iSizeHi) (size / 2 ^ 32 : Nat)
    let b ← setU32 fs b (o + iBlocks) ((data.length + extra) * (bs / 512))
    setTimes fs b o

def writeFile (fs : Fs) (path : Str) (data : Data) : Io Unit := do
  writable fs .write path
  let (parent, nm) ← parentAndName fs path
  let ino ← openFile fs path parent nm
  let inode ← readInode fs ino
  failWhen (inode.type ≠ .file) .write (.path path) .notAFile
  replaceContents fs path inode data.buf
  fs.dev.flush

/-- Change an inode's link count by `d`, from what is on the disk. -/
def addLinks (fs : Fs) (ino : Nat) (d : Int) : Io Unit :=
  inodeUpdate fs ino fun b o => addField fs 2 b (o + iLinks) d

def mkdir (fs : Fs) (path : Str) : Io Unit := do
  writable fs .mkdir path
  let (parent, nm) ← parentAndName fs path
  failWhen ((← lookup fs parent nm).isSome) .mkdir (.path path) .alreadyExists
  let bs := fs.blockSize
  let ino ← allocInode fs (← groupOfInode fs parent.ino) true
  let blk ← allocBlock fs (← groupOfInode fs ino)
  let buf ← putEntry fs (Buf.alloc bs) 0 ino 12 ['.'] .dir
  let buf ← putEntry fs buf 12 parent.ino (bs - 12) ['.', '.'] .dir
  writeBlock fs blk buf
  initInode fs ino 0x41ED 2
  inodeUpdate fs ino fun b o => do
    let b ← setU32 fs b (o + iBlock) blk
    let b ← setU32 fs b (o + iSize) bs
    setU32 fs b (o + iBlocks) (bs / 512 : Nat)
  addEntry fs parent nm ino .dir path
  addLinks fs parent.ino 1
  fs.dev.flush

/-- Free an inode's blocks and the inode itself (links reached 0). -/
def releaseInode (fs : Fs) (inode : Inode) : Io Unit := do
  freeBlocks fs (← allBlocks fs inode)
  inodeUpdate fs inode.ino fun b o => do
    let b ← setU16 fs b (o + iLinks) 0
    setU32 fs b (o + iDtime) (← now)
  freeInode fs inode.ino (inode.type = .dir)

/-- Drop one link of an inode that has others. -/
def setLinks (fs : Fs) (ino : Nat) (links : Int) : Io Unit :=
  inodeUpdate fs ino fun b o => setU16 fs b (o + iLinks) links

def rm (fs : Fs) (path : Str) : Io Unit := do
  writable fs .rm path
  let (parent, nm) ← parentAndName fs path
  match ← lookup fs parent nm with
  | none => fail .rm (.path path) .notFound
  | some ino =>
      let inode ← readInode fs ino
      failWhen (inode.type = .dir) .rm (.path path) .isADirectory
      removeEntry fs parent nm path
      (if inode.links ≤ 1 then releaseInode fs inode
      else setLinks fs ino ((inode.links : Int) - 1))
      fs.dev.flush

/-- The entries but `.` and `..`. -/
def realEntries (es : List Entry) : List Entry :=
  es.filter fun e => e.name ≠ some ['.'] ∧ e.name ≠ some ['.', '.']

def rmdir (fs : Fs) (path : Str) : Io Unit := do
  writable fs .rmdir path
  let (parent, nm) ← parentAndName fs path
  match ← lookup fs parent nm with
  | none => fail .rmdir (.path path) .notFound
  | some ino =>
      let inode ← readInode fs ino
      failWhen (inode.type ≠ .dir) .rmdir (.path path) .notADirectory
      failWhen (realEntries (← dirEntries fs inode) ≠ []) .rmdir (.path path) .notEmpty
      removeEntry fs parent nm path
      releaseInode fs inode
      addLinks fs parent.ino (-1)
      fs.dev.flush

/-- The record scan of `set-dotdot!` from byte `o`; a record length of 0 ends it. -/
def setDotdotLoop (fs : Fs) (blk parentIno : Nat) (buf : Buf) : Nat → Nat → Io Unit
  | 0, _ => throw .diverges
  | fuel + 1, o =>
      if o < fs.blockSize then do
        let recLen ← u16 buf (o + 4)
        let e ← u32 buf o
        let isDotdot ← do
          if e = 0 then pure false
          else
            let nl ← nameLen fs buf o
            if nl = 2 then
              let b ← slice buf (o + 8) 2
              pure (b.toString = some ['.', '.'])
            else pure false
        if isDotdot then
          let buf ← setU32 fs buf o parentIno
          writeBlock fs blk buf
        else if recLen > 0 then setDotdotLoop fs blk parentIno buf fuel (o + recLen)
        else pure ()
      else pure ()

/-- Point the directory's `..` entry at `parentIno`. -/
def setDotdot (fs : Fs) (dir : Inode) (parentIno : Nat) : Io Unit := do
  match ← fileBlocks fs dir with
  | [] => throw .type
  | blk :: _ =>
      let buf ← readBlock fs blk
      setDotdotLoop fs blk parentIno buf (fs.blockSize + 1) 0

/-- `norm` of `mv!`: the components of a path joined again. -/
def normPath (path : Str) : Str := '/' :: joinPath (splitPath path)

/-- The part of `mv!` that takes an existing target away. -/
def replaceTarget (fs : Fs) (to' : Str) (p2 : Inode) (n2 : Str) (dir : Bool) (old : Nat) :
    Io Unit := do
  let o ← readInode fs old
  failWhen (dir ∧ o.type ≠ .dir) .mv (.path to') .notADirectory
  failWhen (¬dir ∧ o.type = .dir) .mv (.path to') .isADirectory
  (if dir then do
    let es ← dirEntries fs o
    failWhen (realEntries es ≠ []) .mv (.path to') .notEmpty
  else pure ())
  removeEntry fs p2 n2 to'
  if dir ∨ o.links ≤ 1 then
    releaseInode fs o
    if dir then addLinks fs p2.ino (-1) else pure ()
  else setLinks fs old ((o.links : Int) - 1)

/-- The part of `mv!` behind its checks: the new entry, the old one gone, `..` and link counts. -/
def relink (fs : Fs) (from' to' : Str) (p1 p2 inode : Inode) (n1 n2 : Str) : Io Unit := do
  let dir := inode.type = .dir
  addEntry fs (← readInode fs p2.ino) n2 inode.ino inode.type to'
  removeEntry fs (← readInode fs p1.ino) n1 from'
  (if dir ∧ p1.ino ≠ p2.ino then do
    setDotdot fs inode p2.ino
    addLinks fs p1.ino (-1)
    addLinks fs p2.ino 1
  else pure ())
  inodeUpdate fs inode.ino fun b o => do setU32 fs b (o + iCtime) (← now)

def mv (fs : Fs) (from' to' : Str) : Io Unit := do
  writable fs .mv from'
  let (p1, n1) ← parentAndName fs from'
  match ← lookup fs p1 n1 with
  | none => fail .mv (.path from') .notFound
  | some ino =>
      let inode ← readInode fs ino
      failWhen (inode.type = .dir ∧ (normPath to' = normPath from' ∨
          (normPath from' ++ ['/']).isPrefixOf (normPath to'))) .mv (.path to') .intoItself
      let (p2, n2) ← parentAndName fs to'
      let old ← lookup fs p2 n2
      (if old = some ino then pure ()
      else do
        (match old with
        | none => pure ()
        | some old => replaceTarget fs to' p2 n2 (inode.type = .dir) old)
        relink fs from' to' p1 p2 inode n1 n2)
      fs.dev.flush

def symlink (fs : Fs) (target path : Str) : Io Unit := do
  writable fs .symlink path
  let (parent, nm) ← parentAndName fs path
  failWhen ((← lookup fs parent nm).isSome) .symlink (.path path) .alreadyExists
  let tb := Buf.fromString target
  let n := tb.capacity
  let ino ← allocInode fs (← groupOfInode fs parent.ino) false
  initInode fs ino 0xA1FF 1
  (if n < 60 then
    inodeUpdate fs ino fun b o => do
      let b ← copyBuf b (o + iBlock) tb 0 n
      setU32 fs b (o + iSize) n
  else do
    let blk ← allocBlock fs (← groupOfInode fs ino)
    writeData fs [blk] tb n
    inodeUpdate fs ino fun b o => do
      let b ← setU32 fs b (o + iBlock) blk
      let b ← setU32 fs b (o + iSize) n
      setU32 fs b (o + iBlocks) (fs.blockSize / 512 : Nat))
  addEntry fs parent nm ino .symlink path
  fs.dev.flush

end Beeros.Ext2
