import Beeros.Exec
import Beeros.Memory
import Beeros.Utf8

/-! The reading half of `lib/ext2.beer`, over a block device whose bytes are the state. A transfer can
fail, and the state has the run's clock readings and transfer faults in it as two streams. Beerlang
integers are exact; a ByteBuffer is a capacity and a function from offsets to bytes; a string is its
characters. Memory does not run out. -/

namespace Beeros.Ext2

open Memory

abbrev Str := List Char

inductive Op
  | mount | readInode | readdir | lookup | readlink | ls | read | slurp
  | alloc | write | remove | mkdir | rm | rmdir | mv | symlink
  deriving DecidableEq

inductive Reason
  | notExt2 | unsupportedFeatures | blockSmallerThanSector | badInode | corruptDirectory
  | notADirectory | notFound | tooManyLinks | notASymlink | notAFile | notUtf8
  | unsupportedRoFeatures | diskFull | noFreeInodes | fileTooLarge | indexedDirectory | isRoot
  | alreadyExists | isADirectory | notEmpty | intoItself
  deriving DecidableEq

/-- The `path` argument of `fail!`: a path, an inode number, a device, or a keyword. -/
inductive Subject
  | path (p : Str)
  | ino (n : Nat)
  | device
  | blocks
  | inode
  deriving DecidableEq

/-- What a call can throw: `fail!`, or a hard error of the runtime or the device below it. A loop
that never ends is an outcome of its own, `diverges`. -/
inductive Error
  | fail (op : Op) (subject : Subject) (reason : Reason)
  | bounds
  | wide
  | arithmetic
  | type
  | device
  | diverges
  deriving DecidableEq

structure World where
  disk : Bytes
  /-- How many clock readings and transfers have been made. -/
  steps : Nat
  clock : Nat → Nat
  fails : Nat → Bool

abbrev Io := EStateM Error World

def fail {α : Type} (op : Op) (subject : Subject) (reason : Reason) : Io α :=
  throw (.fail op subject reason)

/-- `(when c (fail! op subject reason))`. -/
def failWhen (c : Prop) [Decidable c] (op : Op) (subject : Subject) (reason : Reason) : Io Unit :=
  if c then fail op subject reason else pure ()

def nth {α : Type} (l : List α) (i : Nat) : Io α :=
  match l[i]? with
  | some a => pure a
  | none => throw .bounds

def quot (a b : Nat) : Io Nat := if b = 0 then throw .arithmetic else pure (a / b)

/-- `beer.mem/unix-time`. -/
def now : Io Nat := fun w => .ok (w.clock w.steps) { w with steps := w.steps + 1 }

/-! ### ByteBuffers -/

structure Buf where
  capacity : Nat
  bytes : Bytes

/-- Behaviour of the beerlang runtime that this repository does not fix: what a store of a value too
wide for its field leaves there (`none`: it throws), and the order in which `keys` lists a map. -/
structure Runtime where
  wide : Nat → Int → Option Nat
  keyOrder : List Int → List Int
  keyOrder_perm : ∀ l, (keyOrder l).Perm l

def Buf.alloc (n : Nat) : Buf := ⟨n, fun _ => 0⟩

def Buf.toList (b : Buf) : List UInt8 := (List.range b.capacity).map b.bytes

/-- `beer.bytes/from-string`. -/
def Buf.fromString (s : Str) : Buf :=
  ⟨(Utf8.encode s).length, fun i => (Utf8.encode s).getD i 0⟩

/-- `->string` of `beer.bytes`: `none` for `nil`. -/
def Buf.toString (b : Buf) : Option Str := Utf8.decode b.toList

def load (n : Nat) (b : Buf) (o : Nat) : Io Nat :=
  if o + n ≤ b.capacity then pure (loadLE b.bytes n o) else throw .bounds

def u8 : Buf → Nat → Io Nat := load 1
def u16 : Buf → Nat → Io Nat := load 2
def u32 : Buf → Nat → Io Nat := load 4

/-- The `n` words from `o`. -/
def u32s (b : Buf) : Nat → Nat → Io (List Nat)
  | _, 0 => pure []
  | o, n + 1 => do
      let x ← u32 b o
      let xs ← u32s b (o + 4) n
      pure (x :: xs)

def slice (b : Buf) (start len : Nat) : Io Buf :=
  if start + len ≤ b.capacity then pure ⟨len, window b.bytes start len⟩ else throw .bounds

/-! ### The device -/

/-- A block-device map of `beer.blk`. -/
structure Device where
  sectorSize : Nat
  sectors : Nat
  readOnly : Bool
  canFlush : Bool

/-- One transfer, which may fail. -/
def transfer : Io Unit := fun w =>
  if w.fails w.steps then .error .device { w with steps := w.steps + 1 }
  else .ok () { w with steps := w.steps + 1 }

/-- `(:read! dev)`. -/
def Device.read (dev : Device) (lba n : Nat) (buf : Buf) (off : Nat) : Io Buf := do
  if n < 1 ∨ dev.sectors < lba + n ∨ buf.capacity < off + n * dev.sectorSize then throw .device
  else
    transfer
    let w ← get
    pure { buf with
      bytes := copy buf.bytes off w.disk (lba * dev.sectorSize) (n * dev.sectorSize) }

/-- `(:write! dev)`. -/
def Device.write (dev : Device) (lba n : Nat) (buf : Buf) (off : Nat) : Io Unit := do
  if n < 1 ∨ dev.sectors < lba + n ∨ dev.readOnly ∨ buf.capacity < off + n * dev.sectorSize then
    throw .device
  else
    transfer
    modify fun w => { w with
      disk := copy w.disk (lba * dev.sectorSize) buf.bytes off (n * dev.sectorSize) }

/-- `beer.blk/flush!`. -/
def Device.flush (dev : Device) : Io Unit := if dev.canFlush then transfer else pure ()

/-! ### Mounted file systems -/

inductive FileType
  | file | dir | symlink | other
  deriving DecidableEq

structure Group where
  blockBitmap : Nat
  inodeBitmap : Nat
  inodeTable : Nat
  deriving DecidableEq

/-- The map that `mount` returns, with the runtime below it. -/
structure Fs where
  rt : Runtime
  dev : Device
  blockSize : Nat
  spb : Nat
  blocks : Nat
  inodes : Nat
  firstDataBlock : Nat
  blocksPerGroup : Nat
  inodesPerGroup : Nat
  inodeSize : Nat
  filetype : Bool
  largeFile : Bool
  roCompat : Nat
  groups : List Group

def rootIno : Nat := 2
def maxSymlinkHops : Nat := 40
def maxRunBytes : Nat := 65536

def ceilDiv (a b : Nat) : Nat := (a + (b - 1)) / b

def readBlocksInto (fs : Fs) (b n : Nat) (buf : Buf) (off : Nat) : Io Buf :=
  fs.dev.read (b * fs.spb) (n * fs.spb) buf off

/-- Block 0 is a hole: zeros. -/
def readBlock (fs : Fs) (b : Nat) : Io Buf :=
  let buf := Buf.alloc fs.blockSize
  if b ≠ 0 then readBlocksInto fs b 1 buf 0 else pure buf

def readSuperblock (dev : Device) : Io Buf :=
  let n := max 1 (1024 / dev.sectorSize)
  dev.read (1024 / dev.sectorSize) n (Buf.alloc (n * dev.sectorSize)) 0

def modeType (mode : Nat) : FileType :=
  let t := mode &&& 0xF000
  if t = 0x4000 then .dir else if t = 0x8000 then .file else if t = 0xA000 then .symlink else .other

/-- The descriptors of `n` groups from byte `o`. -/
def groupsAt (buf : Buf) : Nat → Nat → Io (List Group)
  | _, 0 => pure []
  | o, n + 1 => do
      let bb ← u32 buf o
      let ib ← u32 buf (o + 4)
      let it ← u32 buf (o + 8)
      let gs ← groupsAt buf (o + 32) n
      pure (⟨bb, ib, it⟩ :: gs)

def readGroups (fs : Fs) (ngroups : Nat) : Io (List Group) := do
  let nb := ceilDiv (ngroups * 32) fs.blockSize
  let buf ← readBlocksInto fs (fs.firstDataBlock + 1) nb (Buf.alloc (nb * fs.blockSize)) 0
  groupsAt buf 0 ngroups

/-- The bits of `x` that are not in `mask` (`(bit-and x (bit-not mask))`), for 32-bit `x`. -/
def bitsOutside (x mask : Nat) : Nat := x &&& (0xFFFFFFFF ^^^ mask)

def incompatFiletype : Nat := 0x2
def roLargeFile : Nat := 0x2

def mount (rt : Runtime) (dev : Device) : Io Fs := do
  let sb ← readSuperblock dev
  failWhen ((← u16 sb 56) ≠ 0xEF53) .mount .device .notExt2
  let rev ← u32 sb 76
  let incompat ← if rev ≥ 1 then u32 sb 96 else pure 0
  let ro ← if rev ≥ 1 then u32 sb 100 else pure 0
  let logBs ← u32 sb 24
  let bs := 1024 <<< logBs
  let fdb ← u32 sb 20
  let bpg ← u32 sb 32
  failWhen (bitsOutside incompat incompatFiletype ≠ 0) .mount .device .unsupportedFeatures
  failWhen (bs < dev.sectorSize) .mount .device .blockSmallerThanSector
  let spb ← quot bs dev.sectorSize
  let blocks ← u32 sb 4
  let inodes ← u32 sb 0
  let ipg ← u32 sb 40
  let inodeSize ← if rev ≥ 1 then u16 sb 88 else pure 128
  let fs : Fs := {
    rt, dev, blocks, inodes, inodeSize, spb
    blockSize := bs
    firstDataBlock := fdb
    blocksPerGroup := bpg
    inodesPerGroup := ipg
    filetype := incompat &&& incompatFiletype ≠ 0
    largeFile := ro &&& roLargeFile ≠ 0
    roCompat := ro
    groups := [] }
  let ngroups ← quot (blocks - fdb + (bpg - 1)) bpg
  let groups ← readGroups fs ngroups
  pure { fs with groups }

/-! ### Inodes -/

def iMode : Nat := 0
def iUid : Nat := 2
def iSize : Nat := 4
def iMtime : Nat := 16
def iGid : Nat := 24
def iLinks : Nat := 26
/-- In 512-byte units. -/
def iBlocks : Nat := 28
def iFlags : Nat := 32
/-- 15 words: 12 direct, single, double, triple indirect. -/
def iBlock : Nat := 40
def iFileAcl : Nat := 104
def iSizeHi : Nat := 108

structure Inode where
  ino : Nat
  mode : Nat
  size : Nat
  uid : Nat
  gid : Nat
  links : Nat
  mtime : Nat
  sectors : Nat
  fileAcl : Nat
  flags : Nat
  block : List Nat
  iBlock : Buf

def Inode.type (i : Inode) : FileType := modeType i.mode

def readInode (fs : Fs) (ino : Nat) : Io Inode := do
  failWhen (ino < 1 ∨ ino > fs.inodes) .readInode (.ino ino) .badInode
  let i := ino - 1
  let g ← nth fs.groups (← quot i fs.inodesPerGroup)
  let byte := i % fs.inodesPerGroup * fs.inodeSize
  let buf ← readBlock fs (g.inodeTable + byte / fs.blockSize)
  let o := byte % fs.blockSize
  let mode ← u16 buf (o + iMode)
  let lo ← u32 buf (o + iSize)
  let hi ← (if modeType mode = .file ∧ fs.largeFile then u32 buf (o + iSizeHi) else pure 0)
  let uid ← u16 buf (o + iUid)
  let gid ← u16 buf (o + iGid)
  let links ← u16 buf (o + iLinks)
  let mtime ← u32 buf (o + iMtime)
  let sectors ← u32 buf (o + iBlocks)
  let fileAcl ← u32 buf (o + iFileAcl)
  let flags ← u32 buf (o + iFlags)
  let block ← u32s buf (o + Ext2.iBlock) 15
  let iBlock ← slice buf (o + Ext2.iBlock) 60
  pure { ino, mode, uid, gid, links, mtime, sectors, fileAcl, flags, block, iBlock
         size := (hi <<< 32) + lo }

/-! ### Block maps -/

/-- The loop of `collect`: the pointers `ptr i, …` below an indirect block, each resolved by `sub`. -/
def collectLoop (ptr : Nat → Io Nat) (sub : Nat → Nat → Io (List Nat)) (span : Nat) :
    Nat → Nat → List Nat → Nat → Io (List Nat)
  | 0, _, acc, _ => pure acc
  | fuel + 1, i, acc, left =>
      if left = 0 then pure acc
      else do
        let p ← ptr i
        let s ← sub p (min left span)
        collectLoop ptr sub span fuel (i + 1) (acc ++ s) (left - s.length)

/-- The block numbers of the first `need` data blocks below `blk`, an indirect block of the given
depth (0: `blk` is itself a data block). Holes come back as 0. -/
def collect (fs : Fs) : Nat → Nat → Nat → Io (List Nat)
  | 0, blk, _ => pure [blk]
  | depth + 1, blk, need => do
      let ppb := fs.blockSize / 4
      if blk ≠ 0 then
        let buf ← readBlock fs blk
        collectLoop (fun i => u32 buf (4 * i)) (collect fs depth) (ppb ^ depth) ppb 0 [] need
      else
        collectLoop (fun _ => pure 0) (collect fs depth) (ppb ^ depth) ppb 0 [] need

/-- The loop of `file-blocks` over the top pointers with their depths. -/
def collectTops (fs : Fs) : List (Nat × Nat) → List Nat → Nat → Io (List Nat)
  | [], acc, _ => pure acc
  | (blk, depth) :: tops, acc, left =>
      if left = 0 then pure acc
      else do
        let s ← collect fs depth blk left
        collectTops fs tops (acc ++ s) (left - s.length)

/-- The top pointers of an inode's block array with their depths. -/
def tops (block : List Nat) : List (Nat × Nat) :=
  (block.take 12).map (·, 0) ++ [(block.getD 12 0, 1), (block.getD 13 0, 2), (block.getD 14 0, 3)]

def fileBlocks (fs : Fs) (inode : Inode) : Io (List Nat) :=
  collectTops fs (tops inode.block) [] (ceilDiv inode.size fs.blockSize)

/-- The length of the run of consecutive blocks from index `i`, at least `n`. -/
def runLength (blocks : List Nat) (i start nb maxRun : Nat) : Nat → Nat → Nat
  | 0, n => n
  | fuel + 1, n =>
      if i + n < nb ∧ n < maxRun ∧ start ≠ 0 ∧ blocks.getD (i + n) 0 = start + n then
        runLength blocks i start nb maxRun fuel (n + 1)
      else n

/-- The transfer loop of `read-inode-data` from index `i`. -/
def readRuns (fs : Fs) (blocks : List Nat) : Nat → Nat → Buf → Io Buf
  | 0, _, buf => pure buf
  | fuel + 1, i, buf =>
      if i < blocks.length then do
        let maxRun := max 1 (maxRunBytes / fs.blockSize)
        let start ← nth blocks i
        let run := runLength blocks i start blocks.length maxRun maxRun 1
        if start ≠ 0 then
          let buf ← readBlocksInto fs start run buf (i * fs.blockSize)
          readRuns fs blocks fuel (i + run) buf
        else
          readRuns fs blocks fuel (i + run) buf
      else pure buf

/-- The inode's contents, exactly `size` bytes. -/
def readInodeData (fs : Fs) (inode : Inode) : Io Buf := do
  let blocks ← fileBlocks fs inode
  let nb := blocks.length
  let buf ← readRuns fs blocks nb 0 (Buf.alloc (max 1 (nb * fs.blockSize)))
  if buf.capacity = inode.size then pure buf else slice buf 0 inode.size

/-! ### Directories -/

structure Entry where
  name : Option Str
  ino : Nat
  type : Option FileType
  deriving DecidableEq

def ftType (ft : Nat) : FileType :=
  if ft = 1 then .file else if ft = 2 then .dir else if ft = 7 then .symlink else .other

def nameLen (fs : Fs) (buf : Buf) (o : Nat) : Io Nat :=
  if fs.filetype then u8 buf (o + 6) else u16 buf (o + 6)

/-- The loop of `dir-entries`. A round behind the last one that the fuel allows counts as going on
for ever. -/
def entriesLoop (fs : Fs) (dirIno : Nat) (buf : Buf) (size : Nat) :
    Nat → Nat → List Entry → Io (List Entry)
  | 0, _, _ => throw .diverges
  | fuel + 1, o, acc =>
      if o + 8 ≥ size then pure acc
      else do
        let ino ← u32 buf o
        let recLen ← u16 buf (o + 4)
        let nl ← nameLen fs buf o
        failWhen (recLen < 8) .readdir (.ino dirIno) .corruptDirectory
        if ino = 0 then entriesLoop fs dirIno buf size fuel (o + recLen) acc
        else
          let name ← slice buf (o + 8) nl
          if fs.filetype then
            let ft ← u8 buf (o + 7)
            entriesLoop fs dirIno buf size fuel (o + recLen)
              (acc ++ [⟨name.toString, ino, some (ftType ft)⟩])
          else
            entriesLoop fs dirIno buf size fuel (o + recLen) (acc ++ [⟨name.toString, ino, none⟩])

def dirEntries (fs : Fs) (inode : Inode) : Io (List Entry) := do
  let buf ← readInodeData fs inode
  entriesLoop fs inode.ino buf inode.size (inode.size + 1) 0 []

/-- The inode of the first entry called `name`. -/
def findName (name : Str) (es : List Entry) : Option Nat :=
  (es.find? fun e => e.name = some name).map (·.ino)

def lookup (fs : Fs) (dir : Inode) (name : Str) : Io (Option Nat) := do
  let es ← dirEntries fs dir
  pure (findName name es)

/-! ### Symlinks and paths -/

/-- A string from `->string` where the caller needs a string. -/
def needString (s : Option Str) : Io Str :=
  match s with
  | some s => pure s
  | none => throw .type

/-- Whether the target is inside `i_block`. -/
def fastTarget (fs : Fs) (inode : Inode) : Prop :=
  inode.sectors = if inode.fileAcl = 0 then 0 else fs.blockSize / 512

instance (fs : Fs) (inode : Inode) : Decidable (fastTarget fs inode) :=
  inferInstanceAs (Decidable (_ = _))

def linkTarget (fs : Fs) (inode : Inode) : Io (Option Str) := do
  if fastTarget fs inode then
    let b ← slice inode.iBlock 0 inode.size
    pure b.toString
  else
    let b ← readInodeData fs inode
    pure b.toString

def splitPath (path : Str) : List Str := (path.splitOn '/').filter (· ≠ [])

/-- `(beer.string/join "/" comps)`. -/
def joinPath (comps : List Str) : Str := List.intercalate ['/'] comps

/-- The loop of `resolve-inode` up to the next symlink, which `next` carries on from with the link's
directory, its target and the components left. -/
def resolveWith (fs : Fs) (path : Str) (follow : Bool)
    (next : Inode → Option Str → List Str → Io Inode) : Inode → List Str → Io Inode
  | cur, [] => pure cur
  | cur, nm :: more => do
      failWhen (cur.type ≠ .dir) .lookup (.path path) .notADirectory
      match ← lookup fs cur nm with
      | none => fail .lookup (.path path) .notFound
      | some ino =>
          let child ← readInode fs ino
          if child.type = .symlink ∧ (follow ∨ more ≠ []) then
            let target ← linkTarget fs child
            next cur target more
          else resolveWith fs path follow next child more

/-- `resolve-inode` with `hops` link expansions left. -/
def resolveHops (fs : Fs) (path : Str) (follow : Bool) (root : Inode) :
    Nat → Inode → List Str → Io Inode
  | 0 => resolveWith fs path follow fun _ _ _ => fail .lookup (.path path) .tooManyLinks
  | hops + 1 => resolveWith fs path follow fun cur target more => do
      let target ← needString target
      resolveHops fs path follow root hops (if target.head? = some '/' then root else cur)
        (splitPath target ++ more)

def resolveInode (fs : Fs) (path : Str) (follow : Bool) : Io Inode := do
  let root ← readInode fs rootIno
  resolveHops fs path follow root maxSymlinkHops root (splitPath path)

/-! ### Public reading -/

def stat (fs : Fs) (path : Str) : Io Inode := resolveInode fs path true

def lstat (fs : Fs) (path : Str) : Io Inode := resolveInode fs path false

def readlink (fs : Fs) (path : Str) : Io (Option Str) := do
  let inode ← resolveInode fs path false
  failWhen (inode.type ≠ .symlink) .readlink (.path path) .notASymlink
  linkTarget fs inode

def readBytes (fs : Fs) (path : Str) : Io Buf := do
  let inode ← resolveInode fs path true
  failWhen (inode.type ≠ .file) .read (.path path) .notAFile
  readInodeData fs inode

def slurp (fs : Fs) (path : Str) : Io Str := do
  match (← readBytes fs path).toString with
  | some s => pure s
  | none => fail .slurp (.path path) .notUtf8

end Beeros.Ext2
