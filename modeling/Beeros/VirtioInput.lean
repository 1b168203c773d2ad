import Beeros.Memory
import Beeros.Ring

/-! `lib/virtio_input.beer` on `lib/virtio.beer`: 64 event buffers on one split virtqueue. The driver
takes used buffers in `poll!`, hands their bytes to `on-event!` and posts them again in one batch at the
end. The device fills posted buffers in the order of the avail ring at any time, also between two
accesses of the driver. -/

namespace Beeros.VirtioInput

open Memory Ring

/-- `qsize`: the number of event buffers. -/
def qsize : Nat := 64
/-- `ev-size`: type u16, code u16, value u32. -/
def evSize : Nat := 8

/-- The arguments of `on-event!`. -/
structure Event where
  type : Nat
  code : Nat
  value : Nat
  deriving DecidableEq

def readEvent (m : Bytes) (o : Nat) : Event := ⟨loadLE m 2 o, loadLE m 2 (o + 2), loadLE m 4 (o + 4)⟩

/-- Where the driver is. `loop` is before a `take-used!`, `found` behind its comparison, `taken` behind
the read of the entry; `posting` is the loop of `publish!` with the heads still to store and its index. -/
inductive Phase
  | idle
  | loop (done : List Nat)
  | found (done : List Nat)
  | taken (done : List Nat) (id : Nat)
  | posting (heads : List Nat) (left : List Nat) (idx : BitVec 16)

structure System where
  /-- Buffer address of each descriptor. -/
  desc : Nat → Nat
  availIdx : BitVec 16
  availRing : Nat → Nat
  usedIdx : BitVec 16
  usedRing : Nat → Nat
  usedSeen : BitVec 16
  /-- How far the device is in the avail ring. -/
  lastAvail : BitVec 16
  mem : Bytes
  /-- Address of the driver memory behind the rings, `(extra-addr q 0)`. -/
  extra : Nat
  phase : Phase
  /-- What the device has delivered, and what `on-event!` has been called with. -/
  delivered : List Event
  handled : List Event

inductive Step : System → System → Prop
  | poll {s : System} : s.phase = .idle → Step s { s with phase := .loop [] }
  | look {s : System} {done : List Nat} : s.phase = .loop done → s.usedIdx ≠ s.usedSeen →
      Step s { s with phase := .found done }
  | take {s : System} {done : List Nat} : s.phase = .found done →
      Step s { s with
        usedSeen := s.usedSeen + 1
        phase := .taken done (s.usedRing (slot qsize s.usedSeen)) }
  | handle {s : System} {done : List Nat} {id : Nat} : s.phase = .taken done id →
      Step s { s with
        handled := s.handled ++ [readEvent s.mem (s.extra + id * evSize)]
        phase := .loop (done ++ [id]) }
  | stop {s : System} : s.phase = .loop [] → s.usedIdx = s.usedSeen → Step s { s with phase := .idle }
  | repost {s : System} {done : List Nat} : s.phase = .loop done → s.usedIdx = s.usedSeen →
      done ≠ [] → Step s { s with phase := .posting done done s.availIdx }
  | post {s : System} {heads left : List Nat} {h : Nat} {idx : BitVec 16} :
      s.phase = .posting heads (h :: left) idx →
      Step s { s with
        availRing := Function.update s.availRing (slot qsize idx) h
        phase := .posting heads left (idx + 1) }
  | publish {s : System} {heads : List Nat} {idx : BitVec 16} : s.phase = .posting heads [] idx →
      Step s { s with availIdx := idx, phase := .idle }
  | deliver {s : System} (ev : Bytes) : s.lastAvail ≠ s.availIdx →
      Step s { s with
        mem := copy s.mem (s.desc (s.availRing (slot qsize s.lastAvail))) ev 0 evSize
        usedRing := Function.update s.usedRing (slot qsize s.usedIdx)
          (s.availRing (slot qsize s.lastAvail))
        usedIdx := s.usedIdx + 1
        lastAvail := s.lastAvail + 1
        delivered := s.delivered ++ [readEvent ev 0] }

/-- `post-all!` behind its `set-desc!` calls, on fresh rings: 64 heads to publish. -/
structure Booted (s : System) : Prop where
  desc : ∀ i, i < qsize → s.desc i = s.extra + i * evSize
  availIdx : s.availIdx = 0
  usedIdx : s.usedIdx = 0
  usedSeen : s.usedSeen = 0
  lastAvail : s.lastAvail = 0
  phase : s.phase = .posting (List.range qsize) (List.range qsize) 0
  delivered : s.delivered = []
  handled : s.handled = []

inductive Reachable : System → Prop
  | boot {s : System} : Booted s → Reachable s
  | step {s s' : System} : Reachable s → Step s s' → Reachable s'

/-! ### Where the descriptors are -/

/-- Offered to the device and not filled yet. -/
def posted (s : System) : List Nat := between qsize s.availRing s.lastAvail s.availIdx

/-- Filled by the device and not seen by the driver yet. -/
def unseen (s : System) : List Nat := between qsize s.usedRing s.usedSeen s.usedIdx

/-- Held by the running `poll!`, or by `post-all!`. -/
def held : Phase → List Nat
  | .idle => []
  | .loop done | .found done => done
  | .taken done id => done ++ [id]
  | .posting heads _ _ => heads

/-- Taken off the used ring, and its event not handed to `on-event!` yet. -/
def inHand : Phase → List Nat
  | .taken _ id => [id]
  | _ => []

/-- The buffers whose event `on-event!` has not been called with yet, oldest first. -/
def waiting (s : System) : List Nat := inHand s.phase ++ unseen s

/-- Each descriptor is in one place; the events that `on-event!` has seen and those still in their
buffers are the delivered ones in order; a `poll!` that has taken 64 buffers finds no other. -/
structure Intact (s : System) : Prop where
  places : (posted s ++ unseen s ++ held s.phase).Perm (List.range qsize)
  events : s.delivered = s.handled ++ (waiting s).map fun id => readEvent s.mem (s.extra + id * evSize)
  takes : ∀ done, s.phase = .loop done → done.length ≤ qsize ∧
    (done.length = qsize → s.usedIdx = s.usedSeen)

/-! ### The counters -/

/-- What the phase says of the ring: `c` is the driver's position in the avail ring, `U` the unseen
buffers, and `R` the heads stored behind the published ones. -/
def PhaseOk (c : Nat) (U R : List Nat) : Phase → Prop
  | .posting heads left idx => heads = R ++ left ∧ idx = BitVec.ofNat 16 (c + R.length)
  | .found _ => R = [] ∧ U ≠ []
  | _ => R = []

/-- The rings as lists: `n` buffers have been taken, `U` are unseen, `P` posted. -/
structure Track (s : System) (n : Nat) (P U R : List Nat) : Prop where
  desc : ∀ i, i < qsize → s.desc i = s.extra + i * evSize
  usedSeen : s.usedSeen = BitVec.ofNat 16 n
  usedIdx : s.usedIdx = BitVec.ofNat 16 (n + U.length)
  lastAvail : s.lastAvail = BitVec.ofNat 16 (n + U.length)
  availIdx : s.availIdx = BitVec.ofNat 16 (n + U.length + P.length)
  usedRing : Holds qsize s.usedRing n U
  availRing : Holds qsize s.availRing (n + U.length) (P ++ R)
  phase : PhaseOk (n + U.length + P.length) U R s.phase
  places : (P ++ U ++ held s.phase).Perm (List.range qsize)
  events : s.delivered = s.handled ++
    (inHand s.phase ++ U).map fun id => readEvent s.mem (s.extra + id * evSize)

theorem qsize_dvd : qsize ∣ 2 ^ 16 := by decide

section Track

variable {s : System} {n : Nat} {P U R : List Nat}

theorem Track.length (h : Track s n P U R) : P.length + U.length + (held s.phase).length = qsize := by
  have := h.places.length_eq
  rw [List.length_append, List.length_append, List.length_range] at this
  exact this

theorem Track.posted (h : Track s n P U R) : VirtioInput.posted s = P := by
  have hlen := h.length
  unfold VirtioInput.posted
  rw [h.lastAvail, h.availIdx]
  exact h.availRing.left.between qsize_dvd (by unfold qsize at hlen; omega)

theorem Track.unseen (h : Track s n P U R) : VirtioInput.unseen s = U := by
  have hlen := h.length
  unfold VirtioInput.unseen
  rw [h.usedSeen, h.usedIdx]
  exact h.usedRing.between qsize_dvd (by unfold qsize at hlen; omega)

theorem Track.usedIdx_eq_iff (h : Track s n P U R) : s.usedIdx = s.usedSeen ↔ U = [] := by
  have hlen := h.length
  rw [h.usedIdx, h.usedSeen, ofNat_add_eq_iff (by unfold qsize at hlen; omega), List.length_eq_zero_iff]

theorem Track.intact (h : Track s n P U R) : Intact s where
  places := by
    rw [h.posted, h.unseen]
    exact h.places
  events := by
    unfold waiting
    rw [h.unseen]
    exact h.events
  takes := by
    intro done hp
    have hlen := h.length
    rw [hp] at hlen
    simp only [held] at hlen
    refine ⟨by omega, fun hd => ?_⟩
    rw [h.usedIdx_eq_iff]
    exact List.length_eq_zero_iff.mp (by omega)

/-- The descriptors that are somewhere else than `i`. -/
theorem Track.lt_of_mem (h : Track s n P U R) {i : Nat} (hi : i ∈ P ++ U ++ held s.phase) :
    i < qsize := List.mem_range.mp (h.places.mem_iff.mp hi)

theorem Track.nodup (h : Track s n P U R) : (P ++ U ++ held s.phase).Nodup :=
  h.places.nodup_iff.mpr List.nodup_range

theorem mem_held_of_mem_inHand {p : Phase} {i : Nat} (h : i ∈ inHand p) : i ∈ held p := by
  cases p with
  | taken done id =>
      rw [List.mem_singleton.mp h]
      exact List.mem_append_right _ (List.mem_singleton.mpr rfl)
  | idle => cases h
  | loop done => cases h
  | found done => cases h
  | posting heads left idx => cases h

end Track

theorem readEvent_copy_self {m ev : Bytes} {o : Nat} :
    readEvent (copy m o ev 0 evSize) o = readEvent ev 0 := by
  have hload : ∀ k j, j + k ≤ evSize → loadLE (copy m o ev 0 evSize) k (o + j) = loadLE ev k j := by
    intro k
    induction k with
    | zero => intro j _; rfl
    | succ k ih =>
        intro j hj
        rw [loadLE, loadLE, copy_apply (by omega), Nat.zero_add, Nat.add_assoc, ih (j + 1) (by omega)]
  unfold readEvent
  rw [hload 2 2 (by decide), hload 4 4 (by decide)]
  have := hload 2 0 (by decide)
  rw [Nat.add_zero] at this
  rw [this]

theorem readEvent_copy_of_ne {m ev : Bytes} {x i j : Nat} (hij : i ≠ j) :
    readEvent (copy m (x + i * evSize) ev 0 evSize) (x + j * evSize) =
      readEvent m (x + j * evSize) := by
  have hagree : AgreeOn m (copy m (x + i * evSize) ev 0 evSize) (x + j * evSize) 8 := by
    apply agreeOn_copy
    unfold evSize
    omega
  unfold readEvent
  rw [loadLE_congr (hagree.mono (by omega) (by omega)),
    loadLE_congr (hagree.mono (by omega) (by omega)), loadLE_congr (hagree.mono (by omega) (by omega))]

theorem Booted.track {s : System} (h : Booted s) : Track s 0 [] [] [] where
  desc := h.desc
  usedSeen := h.usedSeen
  usedIdx := h.usedIdx
  lastAvail := h.lastAvail
  availIdx := h.availIdx
  usedRing := holds_nil
  availRing := holds_nil
  phase := by
    rw [h.phase]
    exact ⟨rfl, rfl⟩
  places := by
    rw [h.phase]
    exact List.Perm.refl _
  events := by
    rw [h.delivered, h.handled, h.phase]
    rfl

/-- The device fills the oldest posted buffer. -/
theorem Track.deliver {s : System} {n b : Nat} {P U R : List Nat} (h : Track s n (b :: P) U R)
    (ev : Bytes) :
    Track { s with
      mem := copy s.mem (s.desc (s.availRing (slot qsize s.lastAvail))) ev 0 evSize
      usedRing := Function.update s.usedRing (slot qsize s.usedIdx)
        (s.availRing (slot qsize s.lastAvail))
      usedIdx := s.usedIdx + 1
      lastAvail := s.lastAvail + 1
      delivered := s.delivered ++ [readEvent ev 0] } n P (U ++ [b]) R := by
  have hlen := h.length
  rw [List.length_cons] at hlen
  have hhead : s.availRing (slot qsize s.lastAvail) = b := by
    rw [h.lastAvail, slot_ofNat qsize_dvd]
    exact h.availRing.head
  have hb : b < qsize := h.lt_of_mem (by simp)
  have hother : ∀ i ∈ inHand s.phase ++ U, i ≠ b := by
    rintro i hi rfl
    have hnd := h.nodup
    rw [List.cons_append, List.cons_append, List.nodup_cons] at hnd
    refine hnd.1 ?_
    rcases List.mem_append.mp hi with hi | hi
    · exact List.mem_append_right _ (mem_held_of_mem_inHand hi)
    · exact List.mem_append_left _ (List.mem_append_right _ hi)
  have hpos : n + (U ++ [b]).length = n + U.length + 1 := by
    rw [List.length_append, List.length_singleton, Nat.add_assoc]
  rw [hhead, h.desc b hb]
  refine ⟨h.desc, h.usedSeen, ?_, ?_, ?_, ?_, ?_, ?_, ?_, ?_⟩
  · rw [hpos, ← ofNat_succ]
    exact congrArg (· + 1) h.usedIdx
  · rw [hpos, ← ofNat_succ]
    exact congrArg (· + 1) h.lastAvail
  · rw [hpos, Nat.add_assoc, Nat.add_comm 1]
    exact h.availIdx
  · show Holds qsize (Function.update s.usedRing (slot qsize s.usedIdx) b) n (U ++ [b])
    rw [h.usedIdx, slot_ofNat qsize_dvd]
    exact h.usedRing.push (by omega) b
  · rw [hpos]
    exact h.availRing.tail
  · have hp := h.phase
    rw [hpos, Nat.add_assoc, Nat.add_comm 1]
    revert hp
    cases s.phase with
    | found done =>
        rintro ⟨hr, -⟩
        exact ⟨hr, by simp⟩
    | idle => exact fun hp => hp
    | loop done => exact fun hp => hp
    | taken done id => exact fun hp => hp
    | posting heads left idx => exact fun hp => hp
  · show (P ++ (U ++ [b]) ++ held s.phase).Perm (List.range qsize)
    refine List.Perm.trans ?_ h.places
    rw [← List.append_assoc, List.append_assoc (P ++ U)]
    exact List.perm_middle
  · show s.delivered ++ [readEvent ev 0] = s.handled ++ (inHand s.phase ++ (U ++ [b])).map fun id =>
      readEvent (copy s.mem (s.extra + b * evSize) ev 0 evSize) (s.extra + id * evSize)
    have hkeep : (inHand s.phase ++ U).map (fun id =>
        readEvent (copy s.mem (s.extra + b * evSize) ev 0 evSize) (s.extra + id * evSize)) =
        (inHand s.phase ++ U).map fun id => readEvent s.mem (s.extra + id * evSize) := by
      apply List.map_congr_left
      intro i hi
      rw [readEvent_copy_of_ne (hother i hi).symm]
    have hmap : (inHand s.phase ++ U ++ [b]).map (fun id =>
        readEvent (copy s.mem (s.extra + b * evSize) ev 0 evSize) (s.extra + id * evSize)) =
        _ ++ [readEvent (copy s.mem (s.extra + b * evSize) ev 0 evSize) (s.extra + b * evSize)] :=
      List.map_append
    rw [h.events, ← List.append_assoc (inHand s.phase), hmap, hkeep, readEvent_copy_self,
      List.append_assoc]

/-- `take-used!` gets the oldest unseen buffer. -/
theorem Track.take {s : System} {n b : Nat} {P U : List Nat} {done : List Nat}
    (h : Track s n P (b :: U) []) (hp : s.phase = .found done) :
    Track { s with
      usedSeen := s.usedSeen + 1
      phase := .taken done (s.usedRing (slot qsize s.usedSeen)) } (n + 1) P U [] := by
  have hhead : s.usedRing (slot qsize s.usedSeen) = b := by
    rw [h.usedSeen, slot_ofNat qsize_dvd]
    exact h.usedRing.head
  have hpos : n + (b :: U).length = n + 1 + U.length := by
    rw [List.length_cons]
    omega
  rw [hhead]
  refine ⟨h.desc, ?_, ?_, ?_, ?_, h.usedRing.tail, ?_, rfl, ?_, ?_⟩
  · rw [← ofNat_succ]
    exact congrArg (· + 1) h.usedSeen
  · rw [← hpos]
    exact h.usedIdx
  · rw [← hpos]
    exact h.lastAvail
  · rw [← hpos]
    exact h.availIdx
  · rw [← hpos]
    exact h.availRing
  · have hplaces := h.places
    rw [hp] at hplaces
    refine List.Perm.trans ?_ hplaces
    show (P ++ U ++ (done ++ [b])).Perm (P ++ (b :: U) ++ done)
    rw [← List.append_assoc, List.append_assoc P (b :: U), List.cons_append]
    exact (List.perm_append_singleton b _).trans (by
      rw [List.append_assoc]
      exact List.perm_middle.symm)
  · have hev := h.events
    rw [hp] at hev
    exact hev

/-- `publish!` stores one more head. -/
theorem Track.post {s : System} {n b : Nat} {P U R heads left : List Nat} {idx : BitVec 16}
    (h : Track s n P U R) (hp : s.phase = .posting heads (b :: left) idx) :
    Track { s with
      availRing := Function.update s.availRing (slot qsize idx) b
      phase := .posting heads left (idx + 1) } n P U (R ++ [b]) := by
  have hphase := h.phase
  have hlen := h.length
  have hplaces := h.places
  have hev := h.events
  rw [hp] at hphase hlen hplaces hev
  obtain ⟨hheads, hidx⟩ := hphase
  have hroom : (P ++ R).length < qsize := by
    simp only [held, hheads, List.length_append, List.length_cons] at hlen
    rw [List.length_append]
    omega
  refine ⟨h.desc, h.usedSeen, h.usedIdx, h.lastAvail, h.availIdx, h.usedRing, ?_, ⟨?_, ?_⟩, hplaces, hev⟩
  · show Holds qsize (Function.update s.availRing (slot qsize idx) b) _ (P ++ (R ++ [b]))
    have hpush := h.availRing.push hroom b
    rw [List.length_append, ← Nat.add_assoc] at hpush
    rw [hidx, slot_ofNat qsize_dvd, ← List.append_assoc]
    exact hpush
  · rw [hheads, List.append_assoc]
    rfl
  · rw [hidx, ofNat_succ, List.length_append, List.length_singleton, Nat.add_assoc]

/-- `publish!` moves the index. -/
theorem Track.publish {s : System} {n : Nat} {P U R heads : List Nat} {idx : BitVec 16}
    (h : Track s n P U R) (hp : s.phase = .posting heads [] idx) :
    Track { s with availIdx := idx, phase := .idle } n (P ++ R) U [] := by
  have hphase := h.phase
  have hplaces := h.places
  have hev := h.events
  rw [hp] at hphase hplaces hev
  obtain ⟨hheads, hidx⟩ := hphase
  rw [List.append_nil] at hheads
  refine ⟨h.desc, h.usedSeen, h.usedIdx, h.lastAvail, ?_, h.usedRing, ?_, rfl, ?_, hev⟩
  · rw [List.length_append, ← Nat.add_assoc]
    exact hidx
  · rw [List.append_nil]
    exact h.availRing
  · refine List.Perm.trans ?_ hplaces
    show (P ++ R ++ U ++ []).Perm (P ++ U ++ heads)
    rw [List.append_nil, hheads, List.append_assoc, List.append_assoc]
    exact List.perm_append_comm.append_left P

/-- **One step** of the driver or the device. -/
theorem Track.step {s s' : System} {n : Nat} {P U R : List Nat} (h : Track s n P U R)
    (hs : Step s s') : ∃ n' P' U' R', Track s' n' P' U' R' := by
  have hphase := h.phase
  have hplaces := h.places
  have hev := h.events
  cases hs with
  | poll hp =>
      rw [hp] at hphase hplaces hev
      exact ⟨n, P, U, R, h.desc, h.usedSeen, h.usedIdx, h.lastAvail, h.availIdx, h.usedRing,
        h.availRing, hphase, hplaces, hev⟩
  | look hp hne =>
      rw [hp] at hphase hplaces hev
      refine ⟨n, P, U, R, h.desc, h.usedSeen, h.usedIdx, h.lastAvail, h.availIdx, h.usedRing,
        h.availRing, ⟨hphase, ?_⟩, hplaces, hev⟩
      exact fun hU => hne (h.usedIdx_eq_iff.mpr hU)
  | take hp =>
      rw [hp] at hphase
      obtain ⟨rfl, hU⟩ := hphase
      obtain ⟨b, U', rfl⟩ := List.exists_cons_of_ne_nil hU
      exact ⟨n + 1, P, U', [], h.take hp⟩
  | handle hp =>
      rw [hp] at hphase hplaces hev
      refine ⟨n, P, U, R, h.desc, h.usedSeen, h.usedIdx, h.lastAvail, h.availIdx, h.usedRing,
        h.availRing, hphase, hplaces, ?_⟩
      show s.delivered = s.handled ++ [_] ++ ([] ++ U).map _
      rw [hev, List.append_assoc]
      rfl
  | stop hp _ =>
      rw [hp] at hphase hplaces hev
      exact ⟨n, P, U, R, h.desc, h.usedSeen, h.usedIdx, h.lastAvail, h.availIdx, h.usedRing,
        h.availRing, hphase, hplaces, hev⟩
  | repost hp _ _ =>
      rw [hp] at hphase hplaces hev
      obtain rfl : R = [] := hphase
      exact ⟨n, P, U, [], h.desc, h.usedSeen, h.usedIdx, h.lastAvail, h.availIdx, h.usedRing,
        h.availRing, ⟨rfl, h.availIdx⟩, hplaces, hev⟩
  | post hp => exact ⟨n, P, U, _, h.post hp⟩
  | publish hp => exact ⟨n, _, U, [], h.publish hp⟩
  | deliver ev hne =>
      have hP : P ≠ [] := by
        rintro rfl
        rw [h.lastAvail, h.availIdx] at hne
        exact hne rfl
      obtain ⟨b, P', rfl⟩ := List.exists_cons_of_ne_nil hP
      exact ⟨n, P', U ++ [b], R, h.deliver ev⟩

def bootSystem : System where
  desc := fun i => 0x80310600 + i * evSize
  availIdx := 0
  availRing := fun _ => 0
  usedIdx := 0
  usedRing := fun _ => 0
  usedSeen := 0
  lastAvail := 0
  mem := fun _ => 0
  extra := 0x80310600
  phase := .posting (List.range qsize) (List.range qsize) 0
  delivered := []
  handled := []

theorem bootSystem_booted : Booted bootSystem := ⟨fun _ _ => rfl, rfl, rfl, rfl, rfl, rfl, rfl, rfl⟩

end Beeros.VirtioInput
