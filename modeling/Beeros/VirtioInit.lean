import Beeros.Utf8
import Beeros.VirtQueue
import Beeros.VirtioBlk
import Beeros.VirtioInput

/-! How the drivers bring a virtio device up and use it: `negotiate!` and `driver-ok!` of `lib/virtio.beer`, `init` and
the requests of `lib/virtio_blk.beer`, `init` and `poll!` of `lib/virtio_input.beer`, and `init_device` of
`kernel/virtio_blk.c`. The device answers register reads as it likes. -/

namespace Beeros.VirtioInit

open VirtQueue

/-! ### Registers -/

def rDevFeatures : Nat := 0x010
def rDevFeaturesSel : Nat := 0x014
def rDrvFeatures : Nat := 0x020
def rDrvFeaturesSel : Nat := 0x024
def rConfigGen : Nat := 0x0fc
def rConfig : Nat := 0x100

def stAcknowledge : Nat := 1
def stDriver : Nat := 2
def stDriverOk : Nat := 4
def stFeaturesOk : Nat := 8

def fVersion1 : Nat := 1

variable (mach : Machine)

/-- One byte of config space. -/
def cfg8 (base off : Nat) : Prog Nat := do
  let v ← rd mach base (rConfig + off)
  pure (v % 2 ^ 8)

def cfg8Set (base off v : Nat) : Prog Unit := emit (.write (base + (rConfig + off)) (v % 2 ^ 8))

def cfg32 (base off : Nat) : Prog Nat := rd mach base (rConfig + off)

def deviceFeatures (base sel : Nat) : Prog Nat := do
  wr base rDevFeaturesSel sel
  rd mach base rDevFeatures

/-- Resets the device and accepts VERSION_1 and the bits of `want0` that it offers. -/
def negotiate (base want0 : Nat) : Prog Nat := do
  wr base rStatus 0
  wr base rStatus (stAcknowledge ||| stDriver)
  if (← deviceFeatures mach base 1) &&& fVersion1 = 0 then
    initFailed mach base "no-version-1"
  let got0 := (← deviceFeatures mach base 0) &&& want0
  wr base rDrvFeaturesSel 0
  wr base rDrvFeatures got0
  wr base rDrvFeaturesSel 1
  wr base rDrvFeatures fVersion1
  wr base rStatus (stAcknowledge ||| stDriver ||| stFeaturesOk)
  if (← rd mach base rStatus) &&& stFeaturesOk = 0 then
    initFailed mach base "features-rejected"
  pure got0

def driverOk (base : Nat) : Prog Unit := do
  wr base rStatus ((← rd mach base rStatus) ||| stDriverOk)

/-! ### Block devices -/

def fBlkRo : Nat := 1 <<< 5
def fBlkFlush : Nat := 1 <<< 9

/-- `beer.virtio-blk/qsize`, `QSIZE`. -/
def blkQsize : Nat := 8

/-- `x-size`. -/
def blkExtra : Nat := 32

/-- The loop of `capacity`, for some rounds; `none` when the config changed in each of them. -/
def capacity (base : Nat) : Nat → Prog (Option Nat)
  | 0 => pure none
  | fuel + 1 => do
      let gen ← rd mach base rConfigGen
      let lo ← cfg32 mach base 0
      let hi ← cfg32 mach base 4
      if gen = (← rd mach base rConfigGen) then pure (some (hi <<< 32 + lo))
      else capacity base fuel

/-- What a driver keeps of a block device. -/
structure BlkDevice where
  sectors : Nat
  readOnly : Bool
  canFlush : Bool
  deriving DecidableEq

/-- `init` of `beer.virtio-blk`; `none` while `capacity` still reads. -/
def blkInit (fuel base : Nat) : Prog (Option (BlkDevice × Queue)) := do
  let f0 ← negotiate mach base (fBlkRo ||| fBlkFlush)
  let q ← setupQueue mach base 0 blkQsize blkExtra
  driverOk mach base
  match ← capacity mach base fuel with
  | none => pure none
  | some sectors => pure (some (⟨sectors, f0 &&& fBlkRo ≠ 0, f0 &&& fBlkFlush ≠ 0⟩, q))

/-- `extra-off`: a byte of driver memory, in the ring buffer. -/
def extraOff (q : Queue) (o : Nat) : Nat := q.ro + q.extra + o

/-- `extra-addr`. -/
def extraAddr (q : Queue) (o : Nat) : Nat := qAddr q (q.extra + o)

def xHdr : Nat := 0
def xStatus : Nat := 16

/-- What the device says of a request that it has completed. -/
def requestStatus (q : Queue) : Prog (Option VirtioBlk.Error) := do
  let s ← load mach q.ring 1 (extraOff q xStatus)
  pure (if s = 0 then none else if s = 2 then some .unsupported else some .ioError)

/-- The loop of `submit!`; the deadline lets it go around some times. -/
def submitLoop (q : Queue) : Nat → Prog (Option VirtioBlk.Error)
  | 0 => pure (some .timeout)
  | rounds + 1 => do
      if (← takeUsed mach q).isSome then requestStatus mach q else submitLoop q rounds

/-- The deadline is looked at after the first `take-used!`. -/
def submit (q : Queue) (rounds : Nat) : Prog (Option VirtioBlk.Error) := do
  store mach q.ring 1 (extraOff q xStatus) 0xff
  publish mach q [0]
  submitLoop mach q (rounds + 1)

def setHeader (q : Queue) (type lba : Nat) : Prog Unit := do
  let h := extraOff q xHdr
  store mach q.ring 4 h type
  store mach q.ring 4 (h + 4) 0
  store mach q.ring 8 (h + 8) lba

/-- `rw!`. -/
def rw (d : BlkDevice) (q : Queue) (write : Bool) (lba n : Nat) (buf : ByteBuffer) (off rounds : Nat) :
    Prog (Option VirtioBlk.Error) := do
  if n < 1 ∨ d.sectors < lba + n then pure (some .outOfRange)
  else if write ∧ d.readOnly then pure (some .readOnly)
  else if buf.capacity < off + n * VirtioBlk.sector then pure (some .bufferTooSmall)
  else
    setHeader mach q (if write then VirtioBlk.reqOut else VirtioBlk.reqIn) lba
    setDesc mach q 0 (extraAddr q xHdr) 16 VirtioBlk.descNext 1
    setDesc mach q 1 (buf.addr + off) (n * VirtioBlk.sector)
      (if write then VirtioBlk.descNext else VirtioBlk.descNext ||| VirtioBlk.descWrite) 2
    setDesc mach q 2 (extraAddr q xStatus) 1 VirtioBlk.descWrite 0
    submit mach q rounds

def flushCache (d : BlkDevice) (q : Queue) (rounds : Nat) : Prog (Option VirtioBlk.Error) := do
  if d.canFlush then
    setHeader mach q VirtioBlk.reqFlush 0
    setDesc mach q 0 (extraAddr q xHdr) 16 VirtioBlk.descNext 1
    setDesc mach q 1 (extraAddr q xStatus) 1 VirtioBlk.descWrite 0
    submit mach q rounds
  else pure (some .unsupported)

inductive Request
  | rw (write : Bool) (lba n : Nat) (buf : ByteBuffer) (off : Nat)
  | flush

def Request.run (d : BlkDevice) (q : Queue) (rounds : Nat) : Request → Prog (Option VirtioBlk.Error)
  | .rw write lba n buf off => VirtioInit.rw mach d q write lba n buf off rounds
  | .flush => flushCache mach d q rounds

/-- A device is initialised and then given requests. -/
def blkSession (fuel base : Nat) (requests : List (Request × Nat)) : Prog Unit := do
  match ← blkInit mach fuel base with
  | none => pure ()
  | some (d, q) => requests.forM fun r => do
      let _ ← r.1.run mach d q r.2

/-- What `init_device` returns, with `d`, or that it still reads the capacity. -/
inductive Answer
  | ready (d : BlkDevice)
  | failed
  | reading
  deriving DecidableEq

/-- The addresses of `d->desc`, `d->avail` and `d->used`. -/
structure Rings where
  desc : Nat
  avail : Nat
  used : Nat

/-- `fail:` of `init_device`. -/
def initDeviceFail (base st : Nat) : Prog Answer := do
  wr base rStatus (st ||| stFailed)
  pure .failed

/-- `init_device` from the queue on; `st` is the status written last. -/
def initDeviceQueue (fuel base : Nat) (rings : Rings) (want0 st : Nat) : Prog Answer := do
  wr base rQueueSel 0
  if (← rd mach base rQueueReady) ≠ 0 then initDeviceFail base st
  else if (← rd mach base rQueueNumMax) < blkQsize then initDeviceFail base st
  else
    wr base rQueueNum blkQsize
    wrAddr base rQueueDesc rings.desc
    wrAddr base rQueueAvail rings.avail
    wrAddr base rQueueUsed rings.used
    wr base rQueueReady 1
    match ← capacity mach base fuel with
    | none => pure .reading
    | some sectors =>
        wr base rStatus (st ||| stDriverOk)
        pure (.ready ⟨sectors, want0 &&& fBlkRo ≠ 0, want0 &&& fBlkFlush ≠ 0⟩)

/-- `init_device`. -/
def initDevice (fuel base : Nat) (rings : Rings) : Prog Answer := do
  wr base rStatus 0
  let st := stAcknowledge ||| stDriver
  wr base rStatus st
  wr base rDevFeaturesSel 0
  let f0 ← rd mach base rDevFeatures
  wr base rDevFeaturesSel 1
  let f1 ← rd mach base rDevFeatures
  if f1 &&& fVersion1 = 0 then initDeviceFail base st
  else
    let want0 := f0 &&& (fBlkRo ||| fBlkFlush)
    wr base rDrvFeaturesSel 0
    wr base rDrvFeatures want0
    wr base rDrvFeaturesSel 1
    wr base rDrvFeatures fVersion1
    let st := st ||| stFeaturesOk
    wr base rStatus st
    if (← rd mach base rStatus) &&& stFeaturesOk = 0 then initDeviceFail base st
    else initDeviceQueue mach fuel base rings want0 st

/-! ### Input devices -/

def inputQsize : Nat := 64
def evSize : Nat := 8

def cfgSelect : Nat := 0
def cfgSubsel : Nat := 1
def cfgSize : Nat := 2
def cfgUnion : Nat := 8
def selIdName : Nat := 0x01
def selEvBits : Nat := 0x11
def selAbsInfo : Nat := 0x12

def evRel : Nat := 2
def evAbs : Nat := 3
def absX : Nat := 0
def absY : Nat := 1

/-- Selects an answer and returns its size. -/
def cfgQuery (base sel sub : Nat) : Prog Nat := do
  cfg8Set base cfgSelect sel
  cfg8Set base cfgSubsel sub
  cfg8 mach base cfgSize

def cfgBytes (base : Nat) : List Nat → Prog (List UInt8)
  | [] => pure []
  | i :: is => do
      let b ← cfg8 mach base (cfgUnion + i)
      let bs ← cfgBytes base is
      pure (UInt8.ofNat b :: bs)

/-- The bytes go through a ByteBuffer, which there may be no memory for. -/
def cfgString (base sel sub : Nat) : Prog (List Char) := do
  let n ← cfgQuery mach base sel sub
  if (mach.place (max n 1)).isNone then throw .outOfMemory
  let bs ← cfgBytes mach base (List.range n)
  pure (Utf8.decodeLossy bs)

def supports (base evType : Nat) : Prog Bool := do
  let n ← cfgQuery mach base selEvBits evType
  pure (n > 0)

def absMax (base axis : Nat) : Prog Nat := do
  if (← cfgQuery mach base selAbsInfo axis) > 0 then cfg32 mach base (cfgUnion + 4) else pure 32767

inductive Kind
  | tablet
  | mouse
  | keyboard
  deriving DecidableEq

structure InputDevice where
  base : Nat
  kind : Kind
  product : List Char
  absMax : Option (Nat × Nat)
  q : Queue

/-- The `cond` for `:kind`. -/
def inputKind (base : Nat) : Prog Kind := do
  if ← supports mach base evAbs then pure .tablet
  else if ← supports mach base evRel then pure .mouse
  else pure .keyboard

/-- The ranges of a tablet's axes. -/
def inputAbsMax (base : Nat) (kind : Kind) : Prog (Option (Nat × Nat)) := do
  if kind = .tablet then do
    let x ← absMax mach base absX
    let y ← absMax mach base absY
    pure (some (x, y))
  else pure none

/-- Every descriptor at its event buffer, and all of them offered. -/
def postAll (q : Queue) : Prog Unit := do
  (List.range inputQsize).forM fun i => setDesc mach q i (qAddr q (q.extra + i * evSize)) evSize 2 0
  publish mach q (List.range inputQsize)

/-- `init` of `beer.virtio-input`. -/
def inputInit (base : Nat) : Prog InputDevice := do
  let _ ← negotiate mach base 0
  let kind ← inputKind mach base
  let product ← cfgString mach base selIdName 0
  let abs ← inputAbsMax mach base kind
  let q ← setupQueue mach base 0 inputQsize (inputQsize * evSize)
  driverOk mach base
  postAll mach q
  pure ⟨base, kind, product, abs, q⟩

/-- The loop of `poll!` for some rounds, with the ids taken before; `none` while it still takes. -/
def pollFrom (q : Queue) : Nat → List Nat → Prog (Option (List VirtioInput.Event))
  | 0, _ => pure none
  | rounds + 1, done => do
      match ← takeUsed mach q with
      | some u => do
          let o := extraOff q (u.id * evSize)
          let type ← load mach q.ring 2 o
          let code ← load mach q.ring 2 (o + 2)
          let value ← load mach q.ring 4 (o + 4)
          let rest ← pollFrom q rounds (done ++ [u.id])
          pure (rest.map (⟨type, code, value⟩ :: ·))
      | none => do
          if done ≠ [] then publish mach q done
          pure (some [])

/-- A device is initialised and then polled, each time for some rounds. -/
def inputSession (base : Nat) (polls : List Nat) : Prog Unit := do
  let d ← inputInit mach base
  polls.forM fun rounds => do
    let _ ← pollFrom mach d.q rounds []

end Beeros.VirtioInit
