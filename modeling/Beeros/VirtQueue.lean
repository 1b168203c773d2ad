import Beeros.Exec
import Beeros.Memory
import Mathlib.Data.Nat.Bitwise
import Mathlib.Order.CompletePartialOrder
import Mathlib.Order.Interval.Set.Basic
import Mathlib.Order.Interval.Set.Disjoint

/-! The split virtqueues of `lib/virtio.beer`: where `setup-queue!` places the rings in their ByteBuffer, and which
bytes of it the driver touches afterwards. Beerlang integers are exact. The device answers register reads as it likes
and may write anything to the buffer between two accesses of the driver. -/

namespace Beeros.VirtQueue

open Memory Exec

/-! ### The machine -/

/-- What happens on the bus: accesses of the ring buffer, by offset and width, and of device registers, by address. -/
inductive Event
  | load (off width : Nat)
  | store (off width value : Nat)
  | fence
  | read (addr : Nat)
  | write (addr value : Nat)
  deriving DecidableEq

structure Machine where
  /-- The value of a register after the events so far. -/
  reg : List Event → Nat → UInt32
  /-- The ring buffer after what the device has written to it by then. -/
  dma : List Event → Bytes → Bytes
  /-- The address of a new ByteBuffer of `n` bytes, if there is memory for it. -/
  place : Nat → Option Nat

structure State where
  ring : Bytes
  usedSeen : Nat
  log : List Event

inductive Error
  | bounds
  | outOfMemory
  | initFailed (base : Nat) (reason : String)
  deriving DecidableEq

def Error.message : Error → Option String
  | initFailed _ reason => some ("virtio init failed: " ++ reason)
  | _ => none

abbrev Prog := EStateM Error State

def emit (e : Event) : Prog Unit := modify fun s => { s with log := s.log ++ [e] }

structure ByteBuffer where
  addr : Nat
  capacity : Nat

variable (mach : Machine)

/-- A new buffer is zeroed. -/
def bytesAlloc (n : Nat) : Prog ByteBuffer := fun s =>
  match mach.place n with
  | some addr => .ok ⟨addr, n⟩ { s with ring := fun _ => 0 }
  | none => .error .outOfMemory s

/-- `u16le`, `u32le`. -/
def load (b : ByteBuffer) (width off : Nat) : Prog Nat := fun s =>
  if off + width ≤ b.capacity then
    let ring := mach.dma s.log s.ring
    .ok (loadLE ring width off) { s with ring := ring, log := s.log ++ [.load off width] }
  else .error .bounds s

/-- `u16le!`, `u32le!`, `u64le!`. -/
def store (b : ByteBuffer) (width off v : Nat) : Prog Unit := fun s =>
  if off + width ≤ b.capacity then
    let ring := storeLE (mach.dma s.log s.ring) width off v
    .ok () { s with ring := ring, log := s.log ++ [.store off width v] }
  else .error .bounds s

def fence : Prog Unit := emit .fence

/-! ### Registers -/

def rQueueSel : Nat := 0x030
def rQueueNumMax : Nat := 0x034
def rQueueNum : Nat := 0x038
def rQueueReady : Nat := 0x044
def rQueueNotify : Nat := 0x050
def rIntStatus : Nat := 0x060
def rIntAck : Nat := 0x064
def rStatus : Nat := 0x070
def rQueueDesc : Nat := 0x080
def rQueueAvail : Nat := 0x090
def rQueueUsed : Nat := 0x0a0

def stFailed : Nat := 128

def rd (base off : Nat) : Prog Nat := do
  let s ← get
  emit (.read (base + off))
  pure (mach.reg s.log (base + off)).toNat

/-- `write32!` keeps the low 32 bits. -/
def wr (base off v : Nat) : Prog Unit := emit (.write (base + off) (v % 2 ^ 32))

def wrAddr (base off addr : Nat) : Prog Unit := do
  wr base off (addr &&& 0xFFFFFFFF)
  wr base (off + 4) (addr >>> 32)

def initFailed (base : Nat) (reason : String) : Prog Unit := do
  wr base rStatus ((← rd mach base rStatus) ||| stFailed)
  throw (.initFailed base reason)

/-! ### Memory -/

/-- A buffer and the offset in it from which `n` bytes are aligned (`align` a power of two). -/
def allocAligned (n align : Nat) : Prog (ByteBuffer × Nat) := do
  let buf ← bytesAlloc mach (n + align)
  let mask := align - 1
  let off := (align - (buf.addr &&& mask)) &&& mask
  pure (buf, off)

def alignUp (n a : Nat) : Nat := a * ((n + (a - 1)) / a)

/-- Offsets from the 16-byte-aligned start. -/
structure Layout where
  desc : Nat
  avail : Nat
  used : Nat
  extra : Nat

def layout (qsize : Nat) : Layout :=
  let avail := 16 * qsize
  let used := alignUp (avail + 6 + 2 * qsize) 4
  let extra := alignUp (used + 6 + 8 * qsize) 16
  ⟨0, avail, used, extra⟩

/-- A queue has at least one entry. Its `:used-seen` is in the state. -/
structure Queue extends Layout where
  base : Nat
  index : Nat
  size : Nat
  ring : ByteBuffer
  ro : Nat

def qU16 (q : Queue) (o : Nat) : Prog Nat := load mach q.ring 2 (q.ro + o)
def qU16Set (q : Queue) (o v : Nat) : Prog Unit := store mach q.ring 2 (q.ro + o) v
def qU32 (q : Queue) (o : Nat) : Prog Nat := load mach q.ring 4 (q.ro + o)
def qAddr (q : Queue) (o : Nat) : Nat := q.ring.addr + q.ro + o

/-- Queue `qidx` with `qsize` entries and `extra` bytes of driver memory after the rings. -/
def setupQueue (base qidx qsize extra : Nat) : Prog Queue := do
  wr base rQueueSel qidx
  if (← rd mach base rQueueNumMax) < qsize then
    initFailed mach base "queue-too-small"
  let l := layout qsize
  let (ring, ro) ← allocAligned mach (l.extra + extra) 16
  let q : Queue := { l with base := base, index := qidx, size := qsize, ring := ring, ro := ro }
  modify fun s => { s with usedSeen := 0 }
  wr base rQueueNum qsize
  wrAddr base rQueueDesc (qAddr q q.desc)
  wrAddr base rQueueAvail (qAddr q q.avail)
  wrAddr base rQueueUsed (qAddr q q.used)
  wr base rQueueReady 1
  pure q

/-! ### Descriptors and rings -/

def setDesc (q : Queue) (i addr len flags next : Nat) : Prog Unit := do
  let b := q.ring
  let o := q.ro + q.desc + i * 16
  store mach b 8 o addr
  store mach b 4 (o + 8) len
  store mach b 2 (o + 12) flags
  store mach b 2 (o + 14) next

/-- The loop of `publish!` from the ring index `idx` on. -/
def publishFrom (q : Queue) : List Nat → Nat → Prog Unit
  | [], idx => do
      fence
      qU16Set mach q (q.avail + 2) idx
      fence
      wr q.base rQueueNotify q.index
  | head :: hs, idx => do
      qU16Set mach q (q.avail + 4 + 2 * (idx &&& (q.size - 1))) head
      publishFrom q hs ((idx + 1) &&& 0xffff)

/-- Offers the descriptor chains that start at `heads`. -/
def publish (q : Queue) (heads : List Nat) : Prog Unit := do
  publishFrom mach q heads (← qU16 mach q (q.avail + 2))

structure Chain where
  id : Nat
  len : Nat

/-- The next completed chain. -/
def takeUsed (q : Queue) : Prog (Option Chain) := do
  let seen := (← get).usedSeen
  if (← qU16 mach q (q.used + 2)) ≠ seen then
    fence
    let o := q.used + 4 + 8 * (seen &&& (q.size - 1))
    modify fun s => { s with usedSeen := (seen + 1) &&& 0xffff }
    wr q.base rIntAck (← rd mach q.base rIntStatus)
    let id ← qU32 mach q o
    let len ← qU32 mach q (o + 4)
    pure (some ⟨id, len⟩)
  else pure none

/-! ### Regions -/

/-- A range of offsets in the ring buffer. -/
structure Region where
  start : Nat
  size : Nat

def Region.offsets (r : Region) : Set Nat := Set.Ico r.start (r.start + r.size)

/-- Entries `{addr u64, len u32, flags u16, next u16}`. -/
def Queue.descTable (q : Queue) : Region := ⟨q.ro + q.desc, 16 * q.size⟩

/-- `flags u16, idx u16, ring[qsize] u16, used_event u16`. -/
def Queue.availRing (q : Queue) : Region := ⟨q.ro + q.avail, 6 + 2 * q.size⟩

/-- `flags u16, idx u16, ring[qsize] {id u32, len u32}, avail_event u16`. -/
def Queue.usedRing (q : Queue) : Region := ⟨q.ro + q.used, 6 + 8 * q.size⟩

def Queue.extraMemory (q : Queue) (extra : Nat) : Region := ⟨q.ro + q.extra, extra⟩

/-- The four regions, each with what the address of its start is a multiple of. -/
def Queue.regions (q : Queue) (extra : Nat) : List (Region × Nat) :=
  [(q.descTable, 16), (q.availRing, 2), (q.usedRing, 4), (q.extraMemory extra, 16)]

/-- The queue has `qsize` entries and `extra` bytes of driver memory, each part in a place of its own. -/
structure Queue.LaidOut (q : Queue) (qsize extra : Nat) : Prop where
  size : q.size = qsize
  disjoint : (q.regions extra).Pairwise fun r r' => Disjoint r.1.offsets r'.1.offsets
  inside : ∀ r ∈ q.regions extra, r.1.start + r.1.size ≤ q.ring.capacity
  aligned : ∀ r ∈ q.regions extra, r.2 ∣ q.ring.addr + r.1.start

/-- An access of the ring buffer stays in the region. -/
def Event.Inside (r : Region) : Event → Prop
  | load off width | store off width _ => r.start ≤ off ∧ off + width ≤ r.start + r.size
  | fence | read _ | write _ _ => True

/-- The program always ends, and what it accesses of the ring buffer is in the region. -/
def Confined {α : Type} (r : Region) (m : Prog α) : Prop :=
  ∀ s, ∃ a s' events, m s = .ok a s' ∧ s'.log = s.log ++ events ∧ ∀ e ∈ events, e.Inside r

section Confined

variable {mach : Machine} {r : Region} {α β : Type}

theorem confined_pure (a : α) : Confined r (pure a) :=
  fun s => ⟨a, s, [], rfl, (List.append_nil _).symm, nofun⟩

theorem confined_get : Confined r (get : Prog State) :=
  fun s => ⟨s, s, [], rfl, (List.append_nil _).symm, nofun⟩

theorem Confined.bind {m : Prog α} {f : α → Prog β} (hm : Confined r m) (hf : ∀ a, Confined r (f a)) :
    Confined r (m >>= f) := by
  intro s
  obtain ⟨a, t, events, ha, hlog, hin⟩ := hm s
  obtain ⟨b, s', events', hb, hlog', hin'⟩ := hf a t
  refine ⟨b, s', events ++ events', (bind_apply ha).trans hb, ?_, ?_⟩
  · rw [hlog', hlog, List.append_assoc]
  · exact List.forall_mem_append.mpr ⟨hin, hin'⟩

theorem confined_setUsedSeen (v : Nat) : Confined r (modify fun s => { s with usedSeen := v }) :=
  fun s => ⟨(), { s with usedSeen := v }, [], rfl, (List.append_nil _).symm, nofun⟩

theorem confined_emit {e : Event} (he : e.Inside r) : Confined r (emit e) :=
  fun s => ⟨(), { s with log := s.log ++ [e] }, [e], rfl, rfl, List.forall_mem_singleton.mpr he⟩

theorem confined_fence : Confined r fence := confined_emit trivial

theorem confined_wr (base off v : Nat) : Confined r (wr base off v) := confined_emit trivial

theorem confined_rd (base off : Nat) : Confined r (rd mach base off) :=
  confined_get.bind fun _ => (confined_emit (e := .read (base + off)) trivial).bind fun _ => confined_pure _

variable {b : ByteBuffer} {width off : Nat}

theorem confined_load (hcap : r.start + r.size ≤ b.capacity) (hstart : r.start ≤ off)
    (hstop : off + width ≤ r.start + r.size) : Confined r (load mach b width off) := by
  intro s
  refine ⟨_, _, [.load off width], if_pos (hstop.trans hcap), rfl, ?_⟩
  exact List.forall_mem_singleton.mpr ⟨hstart, hstop⟩

theorem confined_store (v : Nat) (hcap : r.start + r.size ≤ b.capacity) (hstart : r.start ≤ off)
    (hstop : off + width ≤ r.start + r.size) : Confined r (store mach b width off v) := by
  intro s
  refine ⟨_, _, [.store off width v], if_pos (hstop.trans hcap), rfl, ?_⟩
  exact List.forall_mem_singleton.mpr ⟨hstart, hstop⟩

end Confined

/-! ### The layout -/

variable {mach : Machine}

theorem dvd_alignUp (n a : Nat) : a ∣ alignUp n a := dvd_mul_right a _

theorem le_alignUp (n : Nat) {a : Nat} (ha : 0 < a) : n ≤ alignUp n a := by
  have hdiv := Nat.div_add_mod (n + (a - 1)) a
  have hmod := Nat.mod_lt (n + (a - 1)) ha
  unfold alignUp
  omega

/-- An aligned allocation leaves its `n` bytes room from an aligned address on. -/
theorem allocAligned_ok {n k : Nat} {s s' : State} {buf : ByteBuffer} {off : Nat}
    (h : allocAligned mach n (2 ^ k) s = .ok (buf, off) s') :
    2 ^ k ∣ buf.addr + off ∧ off + n ≤ buf.capacity := by
  obtain ⟨_, t, halloc, h⟩ := bind_ok.mp h
  obtain ⟨hpair, -⟩ := pure_ok.mp h
  cases hpair
  have hcap : buf.capacity = n + 2 ^ k := by
    unfold bytesAlloc at halloc
    split at halloc <;> cases halloc
    rfl
  have hpos := Nat.two_pow_pos k
  have hmod := Nat.mod_lt buf.addr hpos
  rw [Nat.and_two_pow_sub_one_eq_mod, Nat.and_two_pow_sub_one_eq_mod]
  constructor
  · rw [Nat.dvd_iff_mod_eq_zero, Nat.add_mod, Nat.mod_mod, ← Nat.add_mod]
    have hdiv := Nat.div_add_mod buf.addr (2 ^ k)
    have hsum : buf.addr + (2 ^ k - buf.addr % 2 ^ k) = 2 ^ k * (buf.addr / 2 ^ k + 1) := by
      rw [mul_add, mul_one]
      omega
    rw [hsum, Nat.mul_mod_right]
  · have hoff := Nat.mod_lt (2 ^ k - buf.addr % 2 ^ k) hpos
    omega

theorem initFailed_not_ok {base : Nat} {reason : String} {s s' : State} {u : Unit} :
    initFailed mach base reason s ≠ .ok u s' := by
  intro h
  obtain ⟨_, _, -, h⟩ := bind_ok.mp h
  obtain ⟨_, _, -, h⟩ := bind_ok.mp h
  exact throw_ok h

/-- A queue is set up around an aligned allocation. -/
theorem setupQueue_ok {base qidx qsize extra : Nat} {s s' : State} {q : Queue}
    (h : setupQueue mach base qidx qsize extra s = .ok q s') :
    q.toLayout = layout qsize ∧ q.size = qsize ∧
      ∃ t t', allocAligned mach ((layout qsize).extra + extra) 16 t = .ok (q.ring, q.ro) t' := by
  unfold setupQueue at h
  obtain ⟨_, _, -, h⟩ := bind_ok.mp h
  obtain ⟨numMax, _, -, h⟩ := bind_ok.mp h
  split at h
  · obtain ⟨_, _, hfail, -⟩ := bind_ok.mp h
    exact absurd hfail initFailed_not_ok
  obtain ⟨⟨ring, ro⟩, t', halloc, h⟩ := bind_ok.mp h
  obtain ⟨_, _, -, h⟩ := bind_ok.mp h
  obtain ⟨_, _, -, h⟩ := bind_ok.mp h
  obtain ⟨_, _, -, h⟩ := bind_ok.mp h
  obtain ⟨_, _, -, h⟩ := bind_ok.mp h
  obtain ⟨_, _, -, h⟩ := bind_ok.mp h
  obtain ⟨_, _, -, h⟩ := bind_ok.mp h
  obtain ⟨rfl, -⟩ := pure_ok.mp h
  exact ⟨rfl, rfl, _, t', halloc⟩

theorem Region.disjoint_of_le {r r' : Region} (h : r.start + r.size ≤ r'.start) :
    Disjoint r.offsets r'.offsets := by
  refine Set.disjoint_left.mpr fun o ho ho' => ?_
  exact absurd (h.trans ho'.1) (not_le.mpr ho.2)

/-- Each part of the layout ends before the next one starts. -/
theorem layout_ordered (qsize : Nat) :
    (layout qsize).desc + 16 * qsize ≤ (layout qsize).avail ∧
      (layout qsize).avail + (6 + 2 * qsize) ≤ (layout qsize).used ∧
      (layout qsize).used + (6 + 8 * qsize) ≤ (layout qsize).extra := by
  have hused := le_alignUp (16 * qsize + 6 + 2 * qsize) (a := 4) (by decide)
  have hextra := le_alignUp (alignUp (16 * qsize + 6 + 2 * qsize) 4 + 6 + 8 * qsize) (a := 16) (by decide)
  refine ⟨?_, ?_, ?_⟩
  · exact (Nat.zero_add _).le
  · exact (Nat.add_assoc _ _ _).ge.trans hused
  · exact (Nat.add_assoc _ _ _).ge.trans hextra

theorem layout_aligned (qsize : Nat) :
    16 ∣ (layout qsize).desc ∧ 2 ∣ (layout qsize).avail ∧ 4 ∣ (layout qsize).used ∧
      16 ∣ (layout qsize).extra :=
  ⟨dvd_zero _, (by decide : 2 ∣ 16).trans (dvd_mul_right 16 qsize), dvd_alignUp _ _, dvd_alignUp _ _⟩

theorem setupQueue_laidOut {base qidx qsize extra : Nat} {s s' : State} {q : Queue}
    (h : setupQueue mach base qidx qsize extra s = .ok q s') : q.LaidOut qsize extra := by
  obtain ⟨hlayout, hsize, t, t', halloc⟩ := setupQueue_ok h
  obtain ⟨hstart, hroom⟩ := allocAligned_ok (k := 4) halloc
  obtain ⟨hdesc, havail, hused⟩ := layout_ordered qsize
  obtain ⟨hd, ha, hu, he⟩ := layout_aligned qsize
  have hordered : (q.regions extra).Pairwise fun r r' => r.1.start + r.1.size ≤ r'.1.start := by
    simp only [Queue.regions, Queue.descTable, Queue.availRing, Queue.usedRing, Queue.extraMemory, hlayout, hsize,
      List.pairwise_cons, List.forall_mem_cons, List.Pairwise.nil, List.not_mem_nil, false_imp_iff, implies_true,
      and_true]
    omega
  refine ⟨hsize, hordered.imp Region.disjoint_of_le, ?_, ?_⟩
  · simp only [Queue.regions, Queue.descTable, Queue.availRing, Queue.usedRing, Queue.extraMemory, hlayout, hsize,
      List.forall_mem_cons, List.not_mem_nil, false_imp_iff, implies_true, and_true]
    omega
  · simp only [Queue.regions, Queue.descTable, Queue.availRing, Queue.usedRing, Queue.extraMemory, hlayout,
      List.forall_mem_cons, List.not_mem_nil, false_imp_iff, implies_true, and_true, ← Nat.add_assoc]
    omega

/-! ### Accesses -/

section Accesses

variable {q : Queue}

theorem setDesc_confined (hcap : q.descTable.start + q.descTable.size ≤ q.ring.capacity) {i : Nat} (hi : i < q.size)
    (addr len flags next : Nat) : Confined q.descTable (setDesc mach q i addr len flags next) := by
  have hentry : q.ro + q.desc + i * 16 + 16 ≤ q.descTable.start + q.descTable.size := by
    show q.ro + q.desc + i * 16 + 16 ≤ q.ro + q.desc + 16 * q.size
    omega
  have hstart : q.descTable.start ≤ q.ro + q.desc + i * 16 := Nat.le_add_right _ _
  refine (confined_store addr hcap hstart (by omega)).bind fun _ => ?_
  refine (confined_store len hcap (by omega) (by omega)).bind fun _ => ?_
  refine (confined_store flags hcap (by omega) (by omega)).bind fun _ => ?_
  exact confined_store next hcap (by omega) (by omega)

/-- A ring index is masked to a place of the ring. -/
theorem masked_lt {k : Nat} (hk : q.size = 2 ^ k) (idx : Nat) : idx &&& (q.size - 1) < q.size := by
  rw [hk, Nat.and_two_pow_sub_one_eq_mod]
  exact Nat.mod_lt idx (Nat.two_pow_pos k)

section Avail

variable (hcap : q.availRing.start + q.availRing.size ≤ q.ring.capacity)

include hcap

theorem availEntry_confined {width o : Nat} (ho : q.avail ≤ o) (hstop : o + width ≤ q.avail + (6 + 2 * q.size))
    (v : Nat) : Confined q.availRing (store mach q.ring width (q.ro + o) v) := by
  refine confined_store v hcap (Nat.add_le_add_left ho q.ro) ?_
  show q.ro + o + width ≤ q.ro + q.avail + (6 + 2 * q.size)
  omega

theorem publishFrom_confined {k : Nat} (hk : q.size = 2 ^ k) (heads : List Nat) (idx : Nat) :
    Confined q.availRing (publishFrom mach q heads idx) := by
  induction heads generalizing idx with
  | nil =>
      refine confined_fence.bind fun _ => ?_
      refine (availEntry_confined hcap (by omega) (by omega) idx).bind fun _ => ?_
      exact confined_fence.bind fun _ => confined_wr _ _ _
  | cons head hs ih =>
      have hmask := masked_lt hk idx
      refine (availEntry_confined hcap (by omega) (by omega) head).bind fun _ => ?_
      exact ih _

theorem publish_confined {k : Nat} (hk : q.size = 2 ^ k) (heads : List Nat) :
    Confined q.availRing (publish mach q heads) := by
  refine (confined_load hcap ?_ ?_).bind fun idx => publishFrom_confined hcap hk heads idx
  · exact Nat.add_le_add_left (Nat.le_add_right _ _) q.ro
  · show q.ro + (q.avail + 2) + 2 ≤ q.ro + q.avail + (6 + 2 * q.size)
    omega

end Avail

theorem usedEntry_confined (hcap : q.usedRing.start + q.usedRing.size ≤ q.ring.capacity) {width o : Nat}
    (ho : q.used ≤ o) (hstop : o + width ≤ q.used + (6 + 8 * q.size)) :
    Confined q.usedRing (load mach q.ring width (q.ro + o)) := by
  refine confined_load hcap (Nat.add_le_add_left ho q.ro) ?_
  show q.ro + o + width ≤ q.ro + q.used + (6 + 8 * q.size)
  omega

theorem takeUsed_confined (hcap : q.usedRing.start + q.usedRing.size ≤ q.ring.capacity) {k : Nat}
    (hk : q.size = 2 ^ k) : Confined q.usedRing (takeUsed mach q) := by
  refine confined_get.bind fun s => ?_
  have hmask := masked_lt hk s.usedSeen
  refine (usedEntry_confined hcap (by omega) (by omega)).bind fun idx => ?_
  by_cases hnew : idx ≠ s.usedSeen
  · rw [if_pos hnew]
    refine confined_fence.bind fun _ => ?_
    refine (confined_setUsedSeen _).bind fun _ => ?_
    refine (confined_rd _ _).bind fun status => ?_
    refine (confined_wr _ _ _).bind fun _ => ?_
    refine (usedEntry_confined hcap (by omega) (by omega)).bind fun id => ?_
    refine (usedEntry_confined hcap (by omega) (by omega)).bind fun len => ?_
    exact confined_pure _
  · rw [if_neg hnew]
    exact confined_pure _

end Accesses

/-- A queue that is set up keeps its parts apart, and each access of a ring stays in that ring. -/
theorem virtqueue_laid_out {base qidx qsize extra : Nat} {s s' : State} {q : Queue}
    (h : setupQueue mach base qidx qsize extra s = .ok q s') :
    q.LaidOut qsize extra ∧ ∀ k, qsize = 2 ^ k →
      (∀ i < qsize, ∀ addr len flags next, Confined q.descTable (setDesc mach q i addr len flags next)) ∧
        (∀ heads, Confined q.availRing (publish mach q heads)) ∧ Confined q.usedRing (takeUsed mach q) := by
  have hlaid := setupQueue_laidOut h
  have hinside := hlaid.inside
  simp only [Queue.regions, List.forall_mem_cons] at hinside
  obtain ⟨hdesc, havail, hused, -⟩ := hinside
  refine ⟨hlaid, fun k hk => ?_⟩
  have hsize := hlaid.size.trans hk
  refine ⟨fun i hi => ?_, publish_confined havail hsize, takeUsed_confined hused hsize⟩
  exact setDesc_confined hdesc (hi.trans_eq hlaid.size.symm)

/-- A machine whose queues hold up to 1024 entries and whose next buffer is at an address that is 4 past a multiple
of 16. -/
def idleMachine : Machine where
  reg _ _ := 1024
  dma _ ring := ring
  place _ := some 0x80200034

theorem virtqueue_laid_out_eight :
    ∃ q s', setupQueue idleMachine 0x10001000 0 8 100 ⟨fun _ => 0, 0, []⟩ = .ok q s' ∧ q.ro = 12 ∧
      q.LaidOut 8 100 ∧ (∀ heads, Confined q.availRing (publish idleMachine q heads)) ∧
        Confined q.usedRing (takeUsed idleMachine q) := by
  obtain ⟨q, s', hsetup, hro⟩ : ∃ q s', setupQueue idleMachine 0x10001000 0 8 100 ⟨fun _ => 0, 0, []⟩ = .ok q s' ∧
      q.ro = 12 := ⟨_, _, rfl, rfl⟩
  obtain ⟨hlaid, haccess⟩ := virtqueue_laid_out hsetup
  obtain ⟨-, hpublish, htake⟩ := haccess 3 rfl
  exact ⟨q, s', hsetup, hro, hlaid, hpublish, htake⟩

end Beeros.VirtQueue
